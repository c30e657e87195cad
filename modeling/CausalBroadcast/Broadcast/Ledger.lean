import CausalBroadcast.Broadcast.Layers

/-!
# The ledger of uniform reliable broadcast

What `UniformReliableBroadcast` does, told without its messages: a `Ledger` lists by broadcast what
happened (`came`, `sent`, `relayed`, `done`) and what is still due (`arriving`, `sending`,
`relaying`, `trying`), and `UrbOk` says how the layer's state follows from it. Each lemma below is
one thing the layer or the link under it does.
-/

namespace CausalBroadcast

/-- What happened to broadcasts at a process, and what its main thread is still to do. -/
structure Ledger where
  /-- a copy came from a process -/
  came : List (Nat × BroadcastKey) := []
  /-- a copy was sent to a process -/
  sent : List (Nat × BroadcastKey) := []
  /-- the process itself broadcast it -/
  started : List BroadcastKey := []
  /-- `BestEffortBroadcast::send` was called -/
  relayed : List BroadcastKey := []
  /-- URB delivered it -/
  done : List BroadcastKey := []
  arriving : List (Nat × BroadcastKey) := []
  sending : List (Nat × BroadcastKey) := []
  relaying : List BroadcastKey := []
  trying : List BroadcastKey := []

/-- How the state of URB in process `p` follows from its ledger. -/
structure UrbOk (cfg : Config) (p : Nat) (urb : UniformReliableBroadcast) (l : Ledger) : Prop where
  delivered : ∀ key, urb.delivered.contains key ↔ key ∈ l.done
  once : l.done.Nodup
  /-- after a delivery the entry of `ack` is gone, or empty again -/
  settled : ∀ key ∈ l.done, urb.acks key = ∅
  /-- each bit of `ack` is a copy that came -/
  counted : ∀ key, ∀ r ∈ urb.acks key, (r, key) ∈ l.came
  quorum : ∀ key ∈ l.done, ∃ S : Finset Nat,
    cfg.numProcesses / 2 < S.card ∧ ∀ r ∈ S, (r, key) ∈ l.came
  pending : ∀ key, urb.pending.contains key ↔ key ∈ l.relayed ∨ key ∈ l.relaying
  started : ∀ key ∈ l.started, urb.pending.contains key
  /-- a relay reaches every neighbour and the process itself -/
  relayed : ∀ key ∈ l.relayed, ∀ q ∈ cfg.neighborhood p, (q, key) ∈ l.sent ∨ (q, key) ∈ l.sending
  sent : ∀ q key, (q, key) ∈ l.sent ∨ (q, key) ∈ l.sending → urb.pending.contains key
  /-- what came is relayed and counted -/
  came : ∀ r key, (r, key) ∈ l.came → (r, key) ∈ l.arriving ∨
    urb.pending.contains key ∧ (key ∈ l.done ∨ r ∈ urb.acks key)
  arriving : ∀ r key, (r, key) ∈ l.arriving → (r, key) ∈ l.came
  held : ∀ key, (urb.acks key).Nonempty ∨ key ∈ l.done → urb.pending.contains key
  /-- a broadcast is relayed once -/
  unique : (l.relaying ++ l.relayed).Nodup
  volume : l.sent.length + l.sending.length = ((cfg.connections p).length + 1) * l.relayed.length
  /-- a quorum does not wait -/
  trying : ∀ key, cfg.numProcesses / 2 < (urb.acks key).card → key ∈ l.trying

namespace UrbOk

variable {cfg : Config} {p q r : Nat} {urb : UniformReliableBroadcast} {l : Ledger}
  {key : BroadcastKey}

theorem init (cfg : Config) (p : Nat) : UrbOk cfg p {} {} where
  delivered key := by simp [SeenSets.contains]
  once := List.nodup_nil
  settled := nofun
  counted key r mem := by simp [UniformReliableBroadcast.acks] at mem
  quorum := nofun
  pending key := by simp [SeenSets.contains]
  started := nofun
  relayed := nofun
  sent q key mem := by simp at mem
  came := nofun
  arriving := nofun
  held key some := by simp [UniformReliableBroadcast.acks] at some
  unique := List.nodup_nil
  volume := rfl
  trying key many := by simp [UniformReliableBroadcast.acks] at many

/-- The link takes a message for `q`. -/
theorem send (ok : UrbOk cfg p urb { l with sending := (q, key) :: l.sending }) :
    UrbOk cfg p urb { l with sent := l.sent ++ [(q, key)] } where
  delivered := ok.delivered
  once := ok.once
  settled := ok.settled
  counted := ok.counted
  quorum := ok.quorum
  pending := ok.pending
  started := ok.started
  relayed k mem q' near := by
    have := ok.relayed k mem q' near
    simp only [List.mem_cons, List.mem_append, List.not_mem_nil, or_false] at this ⊢
    tauto
  sent q' k mem := by
    apply ok.sent q' k
    simp only [List.mem_cons, List.mem_append, List.not_mem_nil, or_false] at mem ⊢
    tauto
  came := ok.came
  arriving := ok.arriving
  held := ok.held
  unique := ok.unique
  volume := by
    have := ok.volume
    simp only [List.length_cons, List.length_append, List.length_nil] at this ⊢
    omega
  trying := ok.trying

/-- The link hands over a copy from `r`. -/
theorem take (ok : UrbOk cfg p urb l) (r : Nat) (key : BroadcastKey) :
    UrbOk cfg p urb
      { l with came := l.came ++ [(r, key)], arriving := (r, key) :: l.arriving } where
  delivered := ok.delivered
  once := ok.once
  settled := ok.settled
  counted k r' bit := List.mem_append_left _ (ok.counted k r' bit)
  quorum k mem := by
    obtain ⟨S, many, all⟩ := ok.quorum k mem
    exact ⟨S, many, fun r' mem => List.mem_append_left _ (all r' mem)⟩
  pending := ok.pending
  started := ok.started
  relayed := ok.relayed
  sent := ok.sent
  came r' k mem := by
    rcases List.mem_append.mp mem with old | new
    · exact (ok.came r' k old).imp_left (List.mem_cons_of_mem _)
    · exact .inl (List.mem_singleton.mp new ▸ List.mem_cons_self)
  arriving r' k mem := by
    rcases List.mem_cons.mp mem with new | old
    · exact List.mem_append_right _ (List.mem_singleton.mpr new)
    · exact List.mem_append_left _ (ok.arriving r' k old)
  held := ok.held
  unique := ok.unique
  volume := ok.volume
  trying := ok.trying

/-- A broadcast is marked pending and goes to `BestEffortBroadcast::send`. -/
theorem mark (ok : UrbOk cfg p urb l) (fresh : urb.pending.contains key = false) :
    UrbOk cfg p { urb with pending := urb.pending.insert key }
      { l with relaying := key :: l.relaying } where
  delivered := ok.delivered
  once := ok.once
  settled := ok.settled
  counted := ok.counted
  quorum := ok.quorum
  pending k := by
    rw [SeenSets.contains_insert, ok.pending, List.mem_cons]
    tauto
  started k mem := SeenSets.contains_insert.mpr (.inr (ok.started k mem))
  relayed := ok.relayed
  sent q' k mem := SeenSets.contains_insert.mpr (.inr (ok.sent q' k mem))
  came r' k mem := (ok.came r' k mem).imp_right fun ⟨held, rest⟩ =>
    ⟨SeenSets.contains_insert.mpr (.inr held), rest⟩
  arriving := ok.arriving
  held k some := SeenSets.contains_insert.mpr (.inr (ok.held k some))
  unique := by
    refine List.nodup_cons.mpr ⟨fun mem => ?_, ok.unique⟩
    have marked := (ok.pending key).mpr (List.mem_append.mp mem).symm
    simp [fresh] at marked
  volume := ok.volume
  trying := ok.trying

/-- The process broadcasts a message of its own. -/
theorem start (ok : UrbOk cfg p urb l) (fresh : urb.pending.contains key = false) :
    UrbOk cfg p { urb with pending := urb.pending.insert key }
      { l with relaying := key :: l.relaying, started := l.started ++ [key] } :=
  { ok.mark fresh with
    started := fun k mem => (List.mem_append.mp mem).elim ((ok.mark fresh).started k)
      fun new => SeenSets.contains_insert.mpr (.inl (List.mem_singleton.mp new)) }

/-- `BestEffortBroadcast::send` passes a broadcast to the link. -/
theorem relay (ok : UrbOk cfg p urb { l with relaying := key :: l.relaying }) :
    UrbOk cfg p urb { l with
      relayed := l.relayed ++ [key]
      sending := (cfg.connections p).map (·, key) ++ [(p, key)] ++ l.sending } where
  delivered := ok.delivered
  once := ok.once
  settled := ok.settled
  counted := ok.counted
  quorum := ok.quorum
  pending k := by
    have := ok.pending k
    simp only [List.mem_cons, List.mem_append, List.not_mem_nil, or_false] at this ⊢
    tauto
  started := ok.started
  relayed k mem q' near := by
    rcases List.mem_append.mp mem with old | new
    · exact (ok.relayed k old q' near).imp_right (List.mem_append_right _)
    · obtain rfl := List.mem_singleton.mp new
      right
      rcases Config.mem_neighborhood.mp near with rfl | near
      · simp
      · simp [near]
  sent q' k mem := by
    have marked : urb.pending.contains key := (ok.pending key).mpr (.inr List.mem_cons_self)
    simp only [List.mem_append, List.mem_map, List.mem_singleton, Prod.mk.injEq] at mem
    rcases mem with old | (⟨_, -, -, rfl⟩ | ⟨-, rfl⟩) | old
    · exact ok.sent q' k (.inl old)
    · exact marked
    · exact marked
    · exact ok.sent q' k (.inr old)
  came := ok.came
  arriving := ok.arriving
  held := ok.held
  unique := by
    rw [← List.append_assoc]
    exact (List.perm_append_singleton key (l.relaying ++ l.relayed)).nodup_iff.mpr ok.unique
  volume := by
    have := ok.volume
    simp only [List.length_append, List.length_map, List.length_singleton, Nat.mul_add] at this ⊢
    omega
  trying := ok.trying

/-- A copy of a delivered broadcast is ignored. -/
theorem ignore (ok : UrbOk cfg p urb { l with arriving := (r, key) :: l.arriving })
    (seen : urb.delivered.contains key) : UrbOk cfg p urb l where
  delivered := ok.delivered
  once := ok.once
  settled := ok.settled
  counted := ok.counted
  quorum := ok.quorum
  pending := ok.pending
  started := ok.started
  relayed := ok.relayed
  sent := ok.sent
  came r' k mem := by
    have done : key ∈ l.done := (ok.delivered key).mp seen
    rcases ok.came r' k mem with arriving | rest
    · rcases List.mem_cons.mp arriving with same | old
      · cases same
        exact .inr ⟨ok.held key (.inr done), .inl done⟩
      · exact .inl old
    · exact .inr rest
  arriving r' k mem := ok.arriving r' k (List.mem_cons_of_mem _ mem)
  held := ok.held
  unique := ok.unique
  volume := ok.volume
  trying := ok.trying

/-- A copy is counted, and its broadcast tried. -/
theorem count (ok : UrbOk cfg p urb { l with arriving := (r, key) :: l.arriving })
    (unseen : urb.delivered.contains key = false) (marked : urb.pending.contains key) :
    UrbOk cfg p { urb with ack := urb.ack.insert key (insert r (urb.acks key)) }
      { l with trying := key :: l.trying } := by
  have acks : ∀ k, UniformReliableBroadcast.acks
      { urb with ack := urb.ack.insert key (insert r (urb.acks key)) } k =
      if k = key then insert r (urb.acks key) else urb.acks k :=
    UniformReliableBroadcast.acks_of_insert rfl
  have open_ : key ∉ l.done := fun mem => by simp [(ok.delivered key).mpr mem] at unseen
  exact {
    delivered := ok.delivered
    once := ok.once
    settled := fun k mem => by
      have other : k ≠ key := fun same => open_ (same ▸ mem)
      rw [acks, if_neg other]
      exact ok.settled k mem
    counted := fun k r' bit => by
      rw [acks] at bit
      split at bit
      next same =>
        subst same
        rcases Finset.mem_insert.mp bit with rfl | old
        · exact ok.arriving r' k List.mem_cons_self
        · exact ok.counted k r' old
      next => exact ok.counted k r' bit
    quorum := ok.quorum
    pending := ok.pending
    started := ok.started
    relayed := ok.relayed
    sent := ok.sent
    came := fun r' k mem => by
      rw [acks]
      rcases ok.came r' k mem with arriving | ⟨held, rest⟩
      · rcases List.mem_cons.mp arriving with same | old
        · cases same
          right
          simpa using marked
        · exact .inl old
      · right
        refine ⟨held, rest.imp_right fun bit => ?_⟩
        split
        next same => exact Finset.mem_insert_of_mem (same ▸ bit)
        next => exact bit
    arriving := fun r' k mem => ok.arriving r' k (List.mem_cons_of_mem _ mem)
    held := fun k some => by
      rw [acks] at some
      split at some
      next same => exact same ▸ marked
      next => exact ok.held k some
    unique := ok.unique
    volume := ok.volume
    trying := fun k many => by
      rw [acks] at many
      split at many
      next same => exact same ▸ List.mem_cons_self
      next => exact List.mem_cons_of_mem _ (ok.trying k many) }

/-- A first copy is counted, and its broadcast relayed and tried. -/
theorem first (ok : UrbOk cfg p urb { l with arriving := (r, key) :: l.arriving })
    (unseen : urb.delivered.contains key = false) (fresh : urb.pending.contains key = false) :
    UrbOk cfg p { urb with
        ack := urb.ack.insert key (insert r (urb.acks key))
        pending := urb.pending.insert key }
      { l with relaying := key :: l.relaying, trying := key :: l.trying } :=
  -- the mark and the count are of different fields
  @count cfg p r { urb with pending := urb.pending.insert key }
    { l with relaying := key :: l.relaying } key (ok.mark fresh) unseen
    (SeenSets.contains_insert.mpr (.inl rfl))

/-- A broadcast with a quorum is delivered. -/
theorem deliver (ok : UrbOk cfg p urb { l with trying := key :: l.trying })
    (many : (urb.acks key).card > cfg.numProcesses / 2) :
    UrbOk cfg p { urb with
        ack := (urb.ack.touch key).erase key
        delivered := urb.delivered.insert key }
      { l with done := l.done ++ [key] } := by
  have acks : ∀ k, UniformReliableBroadcast.acks
      { urb with
        ack := (urb.ack.touch key).erase key
        delivered := urb.delivered.insert key } k = if k = key then ∅ else urb.acks k :=
    UniformReliableBroadcast.acks_of_erase rfl
  have open_ : key ∉ l.done := fun mem => by simp [ok.settled key mem] at many
  have marked : urb.pending.contains key := ok.held key (.inl (Finset.card_pos.mp (by omega)))
  exact {
    delivered := fun k => by
      rw [SeenSets.contains_insert, ok.delivered, List.mem_append, List.mem_singleton]
      tauto
    once := List.nodup_append.mpr ⟨ok.once, List.nodup_singleton _, fun k old k' new =>
      List.mem_singleton.mp new ▸ fun same => open_ (same ▸ old)⟩
    settled := fun k mem => by
      rw [acks]
      split
      next => rfl
      next other =>
        rcases List.mem_append.mp mem with old | new
        · exact ok.settled k old
        · exact absurd (List.mem_singleton.mp new) other
    counted := fun k r' bit => by
      rw [acks] at bit
      split at bit
      next => cases bit
      next => exact ok.counted k r' bit
    quorum := fun k mem => by
      rcases List.mem_append.mp mem with old | new
      · exact ok.quorum k old
      · obtain rfl := List.mem_singleton.mp new
        exact ⟨urb.acks k, many, ok.counted k⟩
    pending := ok.pending
    started := ok.started
    relayed := ok.relayed
    sent := ok.sent
    came := fun r' k mem => by
      rw [acks]
      refine (ok.came r' k mem).imp_right fun ⟨held, rest⟩ => ⟨held, ?_⟩
      by_cases same : k = key
      · exact .inl (List.mem_append_right _ (List.mem_singleton.mpr same))
      · rw [if_neg same]
        exact rest.imp_left (List.mem_append_left _)
    arriving := ok.arriving
    held := fun k some => by
      rw [acks] at some
      by_cases same : k = key
      · exact same ▸ marked
      · rw [if_neg same] at some
        refine ok.held k (some.imp_right fun mem => ?_)
        exact (List.mem_append.mp mem).resolve_right fun new => same (List.mem_singleton.mp new)
    unique := ok.unique
    volume := ok.volume
    trying := fun k many' => by
      rw [acks] at many'
      split at many'
      next => simp at many'
      next other => exact (List.mem_cons.mp (ok.trying k many')).resolve_left other }

/-- A broadcast without a quorum stays, and its entry of `ack` may be a new one. -/
theorem wait (ok : UrbOk cfg p urb { l with trying := key :: l.trying })
    (few : ¬ (urb.acks key).card > cfg.numProcesses / 2) :
    UrbOk cfg p { urb with ack := urb.ack.touch key } l := by
  have acks : ∀ k, UniformReliableBroadcast.acks { urb with ack := urb.ack.touch key } k =
      urb.acks k := UniformReliableBroadcast.acks_of_touch rfl
  exact {
    delivered := ok.delivered
    once := ok.once
    settled := fun k mem => (acks k).trans (ok.settled k mem)
    counted := fun k r' bit => ok.counted k r' (acks k ▸ bit)
    quorum := ok.quorum
    pending := ok.pending
    started := ok.started
    relayed := ok.relayed
    sent := ok.sent
    came := fun r' k mem => by
      rw [acks]
      exact ok.came r' k mem
    arriving := ok.arriving
    held := fun k some => ok.held k (acks k ▸ some)
    unique := ok.unique
    volume := ok.volume
    trying := fun k many => by
      rw [acks] at many
      exact (List.mem_cons.mp (ok.trying k many)).resolve_left fun same => few (same ▸ many) }

end UrbOk

end CausalBroadcast
