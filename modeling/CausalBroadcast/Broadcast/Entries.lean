import Mathlib.Data.Set.Card
import CausalBroadcast.Broadcast.Quorum

/-!
# What URB keeps of counted copies

`ack` has an entry for a broadcast from its first copy on, and `try_deliver` erases it when it
delivers. But `operator[]` makes an entry where there is none, and `try_deliver` may run after the
broadcast was delivered: the relay of a first copy comes back to the process itself before
`deliver` goes on, and where two copies are a quorum, that call delivers.
-/

namespace CausalBroadcast

open Async

/-- The request leads to one more copy of broadcast `key` counted or tried. -/
def Request.Concerns (p : Nat) (key : BroadcastKey) : Request Call → Prop
  | .send q msg => q = p ∧ msg.key = key
  | .call (.bebSend msg) | .call (.urbDeliver msg) | .call (.urbTryDeliver msg) => msg.key = key
  | .call (.lcbSend _) | .call (.urbSend ..) | .call (.lcbDeliver _) | .call (.lcbScan _)
  | .call (.logBroadcast _) => False

/-- Above a `try_deliver` of a first copy, only copies of process `p` itself are counted. -/
def Covers (p : Nat) (urb : UniformReliableBroadcast) (upper lower : Request Call) : Prop :=
  ∀ msg, lower = .call (.urbTryDeliver msg) →
    msg.originator ≠ p ∧ msg.sender ≠ p ∧ urb.acks msg.key ⊆ {msg.sender, p} ∧
    ∀ copy, upper = .call (.urbDeliver copy) ∨ upper = .call (.urbTryDeliver copy) → copy.sender = p

/-- One call above another, where a third is on top. -/
theorem pair_sublist_cons {α : Type} {a b c : α} {l : List α} :
    [a, b].Sublist (c :: l) ↔ [a, b].Sublist l ∨ a = c ∧ b ∈ l := by
  rw [List.sublist_cons_iff]
  constructor
  · rintro (below | ⟨_, split, there⟩)
    · exact .inl below
    · obtain ⟨rfl, rfl⟩ := List.cons.inj split
      exact .inr ⟨rfl, List.singleton_sublist.mp there⟩
  · rintro (below | ⟨rfl, mem⟩)
    · exact .inl below
    · exact .inr ⟨[b], rfl, List.singleton_sublist.mpr mem⟩

/-- What the entries of `ack` in process `p` follow from. -/
structure Entries (cfg : Config) (p : Nat) (urb : UniformReliableBroadcast)
    (requests : List (Request Call)) : Prop where
  pending : ∀ key ∈ urb.ack, urb.pending.contains key
  /-- an entry of a delivered broadcast was made again by a later `try_deliver` -/
  stale : ∀ key ∈ urb.ack, urb.delivered.contains key → cfg.numProcesses ≤ 3 ∧ key.1 ≠ p
  late : ∀ msg, .call (.urbTryDeliver msg) ∈ requests → urb.delivered.contains msg.key →
    cfg.numProcesses ≤ 3 ∧ msg.originator ≠ p
  tried : ∀ msg, .call (.urbTryDeliver msg) ∈ requests →
    urb.delivered.contains msg.key ∨ msg.sender ∈ urb.acks msg.key
  own : ∀ msg, .call (.urbDeliver msg) ∈ requests → msg.sender = p → urb.pending.contains msg.key
  covered : requests.Pairwise (Covers p urb)
  /-- among three processes a relay of another's message is delivered inside it -/
  inside : cfg.numProcesses ≤ 3 → ∀ key : BroadcastKey, key.1 ≠ p → urb.pending.contains key →
    urb.delivered.contains key = false →
    ∃ r msg, [r, .call (.urbTryDeliver msg)].Sublist requests ∧ r.Concerns p key ∧ msg.key = key
  left : cfg.numProcesses ≤ 3 → ∀ key : BroadcastKey, key.1 ≠ p → urb.delivered.contains key →
    key ∈ urb.ack ∨ ∃ msg, .call (.urbTryDeliver msg) ∈ requests ∧ msg.key = key

namespace Entries

variable {cfg : Config} {p : Nat} {urb : UniformReliableBroadcast} {msg : Message}
  {r : Request Call} {rest : List (Request Call)}

theorem init (cfg : Config) (p : Nat) : Entries cfg p {} [] where
  pending key mem := absurd mem (Finmap.notMem_empty)
  stale key mem := absurd mem (Finmap.notMem_empty)
  late _ mem := absurd mem List.not_mem_nil
  tried _ mem := absurd mem List.not_mem_nil
  own _ mem := absurd mem List.not_mem_nil
  covered := .nil
  inside _ key _ mem := by simp [SeenSets.contains] at mem
  left _ key _ mem := by simp [SeenSets.contains] at mem

/-- Calls that try nothing, of a process that is in no call. -/
theorem push (ok : Entries cfg p urb []) (new : List (Request Call))
    (tries : ∀ msg, .call (.urbTryDeliver msg) ∉ new)
    (own : ∀ msg, .call (.urbDeliver msg) ∈ new → msg.sender ≠ p) : Entries cfg p urb new where
  pending := ok.pending
  stale := ok.stale
  late msg mem := absurd mem (tries msg)
  tried msg mem := absurd mem (tries msg)
  own msg mem self := absurd self (own msg mem)
  covered := by
    refine List.pairwise_of_forall_mem_list fun _ _ lower mem msg is => ?_
    exact absurd (is ▸ mem) (tries msg)
  inside few key other mem unseen := by
    obtain ⟨r, msg, below, -⟩ := ok.inside few key other mem unseen
    simp at below
  left few key other mem := by
    refine (ok.left few key other mem).imp_right fun ⟨msg, mem, _⟩ => ?_
    exact absurd mem List.not_mem_nil

/-- A call that tries nothing gives way to others that try nothing. -/
theorem replace (ok : Entries cfg p urb (r :: rest)) (new : List (Request Call))
    (try_ : ∀ msg, r ≠ .call (.urbTryDeliver msg))
    (tries : ∀ msg, .call (.urbTryDeliver msg) ∉ new)
    (own : ∀ msg, .call (.urbDeliver msg) ∈ new → msg.sender = p ∧ urb.pending.contains msg.key)
    (concerns : ∀ key, r.Concerns p key → urb.delivered.contains key = false →
      ∃ r' ∈ new, r'.Concerns p key) : Entries cfg p urb (new ++ rest) where
  pending := ok.pending
  stale := ok.stale
  late msg mem := ok.late msg
    (List.mem_cons_of_mem _ ((List.mem_append.mp mem).resolve_left (tries msg)))
  tried msg mem := ok.tried msg
    (List.mem_cons_of_mem _ ((List.mem_append.mp mem).resolve_left (tries msg)))
  own msg mem self := (List.mem_append.mp mem).elim (fun new => (own msg new).2)
    fun old => ok.own msg (List.mem_cons_of_mem _ old) self
  covered := by
    have ⟨top, below⟩ := List.pairwise_cons.mp ok.covered
    refine List.pairwise_append.mpr ⟨?_, below, ?_⟩
    · refine List.pairwise_of_forall_mem_list fun _ _ lower mem msg is => ?_
      exact absurd (is ▸ mem) (tries msg)
    · intro upper mem lower lowerMem msg is
      obtain ⟨origin, sender, acks, -⟩ := top lower lowerMem msg is
      refine ⟨origin, sender, acks, fun copy is => ?_⟩
      rcases is with rfl | rfl
      · exact (own copy mem).1
      · exact absurd mem (tries copy)
  inside few key other marked unseen := by
    obtain ⟨r', msg, below, concern, same⟩ := ok.inside few key other marked unseen
    rcases pair_sublist_cons.mp below with below | ⟨rfl, there⟩
    · exact ⟨r', msg, below.trans (List.sublist_append_right new rest), concern, same⟩
    · obtain ⟨r'', mem, concern⟩ := concerns key concern unseen
      have top := List.singleton_sublist.mpr mem
      exact ⟨r'', msg, top.append (List.singleton_sublist.mpr there), concern, same⟩
  left few key other done := by
    refine (ok.left few key other done).imp_right fun ⟨msg, mem, same⟩ => ?_
    refine ⟨msg, List.mem_append_right _ ((List.mem_cons.mp mem).resolve_left ?_), same⟩
    exact (try_ msg).symm

/-- A broadcast of the process's own is marked. -/
theorem mark (ok : Entries cfg p urb rest) (k : Nat) :
    Entries cfg p { urb with pending := urb.pending.insert (p, k) } rest where
  pending key mem := SeenSets.contains_insert.mpr (.inr (ok.pending key mem))
  stale := ok.stale
  late := ok.late
  tried := ok.tried
  own msg mem self := SeenSets.contains_insert.mpr (.inr (ok.own msg mem self))
  covered := ok.covered
  inside few key other marked := by
    refine ok.inside few key other ((SeenSets.contains_insert.mp marked).resolve_left ?_)
    rintro rfl
    exact other rfl
  left := ok.left

variable {l : Ledger}

/-- The entry of `key` has one more copy, of a process that the calls below may count. -/
private theorem covers_insert {key : BroadcastKey} {sender : Nat} {upper lower : Request Call}
    (covers : Covers p urb upper lower)
    (self : ∀ msg, lower = .call (.urbTryDeliver msg) → msg.key = key → sender = p) :
    Covers p { urb with ack := urb.ack.insert key (insert sender (urb.acks key)) } upper lower := by
  intro msg is
  obtain ⟨origin, other, acks, copies⟩ := covers msg is
  refine ⟨origin, other, ?_, copies⟩
  rw [UniformReliableBroadcast.acks_of_insert rfl]
  split
  next same =>
    obtain rfl := self msg is same
    refine Finset.insert_subset (by simp) ?_
    exact same ▸ acks
  next => exact acks

/-! A copy has come, is counted, and its broadcast is to be tried. -/

section
variable {key : BroadcastKey} {S : Finset Nat} {outer : Message}

private theorem stale_of_count (ok : Entries cfg p urb (.call (.urbDeliver msg) :: rest))
    (unseen : urb.delivered.contains msg.key = false) (mem : key ∈ urb.ack.insert msg.key S)
    (done : urb.delivered.contains key) : cfg.numProcesses ≤ 3 ∧ key.1 ≠ p := by
  rcases Finmap.mem_insert.mp mem with rfl | old
  · exact absurd done (by simp [unseen])
  · exact ok.stale key old done

private theorem late_of_count (ok : Entries cfg p urb (.call (.urbDeliver msg) :: rest))
    (unseen : urb.delivered.contains msg.key = false)
    (mem : .call (.urbTryDeliver outer) ∈ .call (.urbTryDeliver msg) :: rest)
    (done : urb.delivered.contains outer.key) : cfg.numProcesses ≤ 3 ∧ outer.originator ≠ p := by
  rcases List.mem_cons.mp mem with same | old
  · cases same
    exact absurd done (by simp [unseen])
  · exact ok.late outer (List.mem_cons_of_mem _ old) done

private theorem tried_of_count (ok : Entries cfg p urb (.call (.urbDeliver msg) :: rest))
    (mem : .call (.urbTryDeliver outer) ∈ .call (.urbTryDeliver msg) :: rest) :
    urb.delivered.contains outer.key ∨ outer.sender ∈ BroadcastMessageHashMap.get
      (urb.ack.insert msg.key (insert msg.sender (urb.acks msg.key))) outer.key := by
  rw [BroadcastMessageHashMap.get_insert]
  rcases List.mem_cons.mp mem with same | old
  · cases same
    right
    simp
  · refine (ok.tried outer (List.mem_cons_of_mem _ old)).imp_right fun bit => ?_
    split
    next same => exact Finset.mem_insert_of_mem (same ▸ bit)
    next => exact bit

private theorem left_of_count (ok : Entries cfg p urb (.call (.urbDeliver msg) :: rest))
    (few : cfg.numProcesses ≤ 3) (other : key.1 ≠ p) (done : urb.delivered.contains key) :
    key ∈ urb.ack.insert msg.key S ∨ ∃ outer, .call (.urbTryDeliver outer) ∈ rest ∧
      outer.key = key := by
  rcases ok.left few key other done with entry | ⟨outer, mem, same⟩
  · exact .inl (Finmap.mem_insert.mpr (.inr entry))
  · refine .inr ⟨outer, (List.mem_cons.mp mem).resolve_left fun is => ?_, same⟩
    cases is

end

/-- A copy of a broadcast that is pending is counted. -/
theorem count (ok : Entries cfg p urb (.call (.urbDeliver msg) :: rest))
    (unseen : urb.delivered.contains msg.key = false) (marked : urb.pending.contains msg.key) :
    Entries cfg p
      { urb with ack := urb.ack.insert msg.key (insert msg.sender (urb.acks msg.key)) }
      (.call (.urbTryDeliver msg) :: rest) where
  pending key mem := by
    rcases Finmap.mem_insert.mp mem with rfl | old
    · exact marked
    · exact ok.pending key old
  stale _ mem done := ok.stale_of_count unseen mem done
  late _ mem done := ok.late_of_count unseen mem done
  tried _ mem := ok.tried_of_count mem
  own msg' mem self := by
    rcases List.mem_cons.mp mem with same | old
    · cases same
    · exact ok.own msg' (List.mem_cons_of_mem _ old) self
  covered := by
    have ⟨top, below⟩ := List.pairwise_cons.mp ok.covered
    have self : ∀ lower ∈ rest, ∀ outer, lower = .call (.urbTryDeliver outer) → msg.sender = p :=
      fun lower mem outer is => (top lower mem outer is).2.2.2 msg (.inl rfl)
    refine List.pairwise_cons.mpr ⟨fun lower mem => ?_, below.imp_of_mem ?_⟩
    · intro outer is
      obtain ⟨origin, other, acks, -⟩ :=
        covers_insert (top lower mem) (fun outer is _ => self lower mem outer is) outer is
      refine ⟨origin, other, acks, fun copy is' => ?_⟩
      obtain rfl : msg = copy := by simpa using is'
      exact self lower mem outer is
    · intro upper lower _ mem covers
      exact covers_insert covers fun outer is _ => self lower mem outer is
  inside few key other pending fresh := by
    obtain ⟨r, outer, below, concern, same⟩ := ok.inside few key other pending fresh
    rcases pair_sublist_cons.mp below with below | ⟨rfl, there⟩
    · exact ⟨r, outer, below.cons _, concern, same⟩
    · exact ⟨_, outer, pair_sublist_cons.mpr (.inr ⟨rfl, there⟩), concern, same⟩
  left few _ other done := by
    refine (ok.left_of_count few other done).imp_right fun ⟨outer, mem, same⟩ => ?_
    exact ⟨outer, List.mem_cons_of_mem _ mem, same⟩

/-- The relay itself tries nothing. -/
private theorem mem_below_relay {outer : Message} {requests : List (Request Call)}
    (mem : .call (.urbTryDeliver outer) ∈ .call (.bebSend msg) :: requests) :
    .call (.urbTryDeliver outer) ∈ requests :=
  (List.mem_cons.mp mem).resolve_left fun is => by cases is

/-- A first copy, of another process's broadcast, is counted, and the broadcast relayed. -/
theorem first (ok : Entries cfg p urb (.call (.urbDeliver msg) :: rest))
    (unseen : urb.delivered.contains msg.key = false) (origin : msg.originator ≠ p)
    (other : msg.sender ≠ p) (empty : urb.acks msg.key = ∅) :
    Entries cfg p
      { urb with
        ack := urb.ack.insert msg.key (insert msg.sender (urb.acks msg.key))
        pending := urb.pending.insert msg.key }
      (.call (.bebSend msg) :: .call (.urbTryDeliver msg) :: rest) where
  pending key mem := by
    rw [SeenSets.contains_insert]
    exact (Finmap.mem_insert.mp mem).imp_right (ok.pending key)
  stale _ mem done := ok.stale_of_count unseen mem done
  late _ mem done := ok.late_of_count unseen (mem_below_relay mem) done
  tried _ mem := ok.tried_of_count (mem_below_relay mem)
  own msg' mem self := by
    simp only [List.mem_cons] at mem
    rcases mem with same | same | old
    · cases same
    · cases same
    · exact SeenSets.contains_insert.mpr (.inr (ok.own msg' (List.mem_cons_of_mem _ old) self))
  covered := by
    have ⟨top, below⟩ := List.pairwise_cons.mp ok.covered
    -- a first copy is not counted above another `try_deliver`
    have alone : ∀ lower ∈ rest, ∀ outer, lower ≠ .call (.urbTryDeliver outer) :=
      fun lower mem outer is => other ((top lower mem outer is).2.2.2 msg (.inl rfl))
    refine List.pairwise_cons.mpr ⟨fun lower mem => ?_, List.pairwise_cons.mpr ⟨?_, ?_⟩⟩
    · rcases List.mem_cons.mp mem with rfl | mem
      · intro outer is
        cases is
        refine ⟨origin, other, ?_, fun copy is => ?_⟩
        · rw [UniformReliableBroadcast.acks_of_insert rfl, if_pos rfl, empty]
          simp
        · rcases is with is | is <;> cases is
      · exact fun outer is => absurd is (alone lower mem outer)
    · exact fun lower mem outer is => absurd is (alone lower mem outer)
    · exact below.imp_of_mem fun _ mem _ outer is => absurd is (alone _ mem outer)
  inside few key origin' pending fresh := by
    rcases SeenSets.contains_insert.mp pending with rfl | pending
    · exact ⟨_, msg, ((List.nil_sublist rest).cons_cons _).cons_cons _, rfl, rfl⟩
    · obtain ⟨r, outer, below, concern, same⟩ := ok.inside few key origin' pending fresh
      rcases pair_sublist_cons.mp below with below | ⟨rfl, there⟩
      · exact ⟨r, outer, (below.cons _).cons _, concern, same⟩
      · have there := List.mem_cons_of_mem (.call (.urbTryDeliver msg)) there
        exact ⟨_, outer, pair_sublist_cons.mpr (.inr ⟨rfl, there⟩), concern, same⟩
  left few _ origin' done := by
    refine (ok.left_of_count few origin' done).imp_right fun ⟨outer, mem, same⟩ => ?_
    exact ⟨outer, List.mem_cons_of_mem _ (List.mem_cons_of_mem _ mem), same⟩

/-- A broadcast with a quorum is delivered: among more than three processes, no call is left that
would try it again. -/
theorem quorum (ok : Entries cfg p urb (.call (.urbTryDeliver msg) :: rest))
    (urbOk : UrbOk cfg p urb l) (many : cfg.numProcesses / 2 < (urb.acks msg.key).card) :
    Entries cfg p
      { urb with
        ack := (urb.ack.touch msg.key).erase msg.key
        delivered := urb.delivered.insert msg.key }
      (.call (.lcbDeliver msg) :: rest) := by
  have some : (urb.acks msg.key).Nonempty := Finset.card_pos.mp (by omega)
  have unseen : urb.delivered.contains msg.key = false := by
    rw [← Bool.not_eq_true, urbOk.delivered]
    exact fun done => by simp [urbOk.settled _ done] at some
  have old : ∀ {key}, key ∈ (urb.ack.touch msg.key).erase msg.key → key ≠ msg.key ∧ key ∈ urb.ack := by
    intro key mem
    obtain ⟨other, mem⟩ := Finmap.mem_erase.mp mem
    exact ⟨other, (Finmap.mem_insert.mp mem).resolve_left other⟩
  have acks : ∀ key', UniformReliableBroadcast.acks
      { urb with
        ack := (urb.ack.touch msg.key).erase msg.key
        delivered := urb.delivered.insert msg.key } key' =
      if key' = msg.key then ∅ else urb.acks key' :=
    UniformReliableBroadcast.acks_of_erase rfl
  obtain ⟨top, below⟩ := List.pairwise_cons.mp ok.covered
  exact {
    pending := fun key mem => ok.pending key (old mem).2
    stale := fun key mem done =>
      ok.stale key (old mem).2 ((SeenSets.contains_insert.mp done).resolve_left (old mem).1)
    late := fun outer mem done => by
      have mem : .call (.urbTryDeliver outer) ∈ rest :=
        (List.mem_cons.mp mem).resolve_left fun is => by cases is
      rcases SeenSets.contains_insert.mp done with same | done
      · -- two copies were enough
        obtain ⟨origin, -, few, -⟩ := top _ mem outer rfl
        have two : (urb.acks msg.key).card ≤ 2 :=
          (Finset.card_le_card (same ▸ few)).trans Finset.card_le_two
        exact ⟨by omega, origin⟩
      · exact ok.late outer (List.mem_cons_of_mem _ mem) done
    tried := fun outer mem => by
      have mem : .call (.urbTryDeliver outer) ∈ rest :=
        (List.mem_cons.mp mem).resolve_left fun is => by cases is
      rw [acks, SeenSets.contains_insert]
      by_cases same : outer.key = msg.key
      · exact .inl (.inl same)
      · rw [if_neg same]
        exact (ok.tried outer (List.mem_cons_of_mem _ mem)).imp_left .inr
    own := fun copy mem self => by
      rcases List.mem_cons.mp mem with same | mem
      · cases same
      · exact ok.own copy (List.mem_cons_of_mem _ mem) self
    covered := by
      have covers : ∀ {upper lower}, Covers p urb upper lower → Covers p _ upper lower :=
        fun {upper lower} covers outer is => by
          obtain ⟨origin, other, few, copies⟩ := covers outer is
          refine ⟨origin, other, ?_, copies⟩
          rw [acks]
          split
          next => exact Finset.empty_subset _
          next => exact few
      refine List.pairwise_cons.mpr ⟨fun lower mem outer is => ?_, below.imp covers⟩
      obtain ⟨origin, other, few, -⟩ := covers (top lower mem) outer is
      exact ⟨origin, other, few, fun copy is => by rcases is with is | is <;> cases is⟩
    inside := fun few key other pending fresh => by
      have fresh : ¬ (key = msg.key ∨ urb.delivered.contains key) := by
        rw [← SeenSets.contains_insert, fresh]
        simp
      obtain ⟨r, outer, below, concern, same⟩ := ok.inside few key other pending
        (Bool.not_eq_true _ ▸ fun done => fresh (.inr done))
      rcases pair_sublist_cons.mp below with below | ⟨rfl, -⟩
      · exact ⟨r, outer, below.cons _, concern, same⟩
      · exact absurd (.inl concern.symm) fresh
    left := fun few key other done => by
      by_cases same : key = msg.key
      · subst same
        -- the call that relayed the broadcast has not tried it yet
        obtain ⟨r, outer, below, -, same⟩ :=
          ok.inside few msg.key other (urbOk.held _ (.inl some)) unseen
        right
        refine ⟨outer, List.mem_cons_of_mem _ ?_, same⟩
        rcases pair_sublist_cons.mp below with below | ⟨-, there⟩
        · exact below.subset (by simp)
        · exact there
      · have done := (SeenSets.contains_insert.mp done).resolve_left same
        rcases ok.left few key other done with entry | ⟨outer, mem, same'⟩
        · exact .inl (Finmap.mem_erase.mpr ⟨same, Finmap.mem_insert.mpr (.inr entry)⟩)
        · refine .inr ⟨outer, List.mem_cons_of_mem _ ((List.mem_cons.mp mem).resolve_left ?_), same'⟩
          intro is
          cases is
          exact same same'.symm }

/-- A broadcast without a quorum is left, with an entry of `ack`. -/
theorem wait (ok : Entries cfg p urb (.call (.urbTryDeliver msg) :: rest))
    (urbOk : UrbOk cfg p urb l) (few : (urb.acks msg.key).card ≤ cfg.numProcesses / 2) :
    Entries cfg p { urb with ack := urb.ack.touch msg.key } rest := by
  have acks : ∀ key, UniformReliableBroadcast.acks { urb with ack := urb.ack.touch msg.key } key =
      urb.acks key := UniformReliableBroadcast.acks_of_touch rfl
  have ⟨top, below⟩ := List.pairwise_cons.mp ok.covered
  have up : ∀ {r}, r ∈ rest → r ∈ .call (.urbTryDeliver msg) :: rest := List.mem_cons_of_mem _
  exact {
    pending := fun key mem => by
      rcases Finmap.mem_insert.mp mem with rfl | old
      · refine urbOk.held _ ((ok.tried msg List.mem_cons_self).symm.imp (fun bit => ⟨_, bit⟩) ?_)
        exact (urbOk.delivered _).mp
      · exact ok.pending key old
    stale := fun key mem done => by
      rcases Finmap.mem_insert.mp mem with rfl | old
      · exact ok.late msg List.mem_cons_self done
      · exact ok.stale key old done
    late := fun outer mem => ok.late outer (up mem)
    tried := fun outer mem => by
      rw [acks]
      exact ok.tried outer (up mem)
    own := fun copy mem => ok.own copy (up mem)
    covered := below.imp fun covers outer is => by
      rw [acks]
      exact covers outer is
    inside := fun three key other pending fresh => by
      obtain ⟨r, outer, below, concern, same⟩ := ok.inside three key other pending fresh
      rcases pair_sublist_cons.mp below with below | ⟨rfl, mem⟩
      · exact ⟨r, outer, below, concern, same⟩
      · -- the copy that came and the copy of the process itself are a quorum
        exfalso
        obtain rfl : msg.key = key := concern
        obtain ⟨-, foreign, -, self⟩ := top _ mem outer rfl
        have mine := (ok.tried msg List.mem_cons_self).resolve_left (by simp [fresh])
        have theirs := (ok.tried outer (up mem)).resolve_left (by simp [same, fresh])
        rw [self msg (.inr rfl)] at mine
        rw [same] at theirs
        have two := Finset.one_lt_card.mpr ⟨_, mine, _, theirs, Ne.symm foreign⟩
        omega
    left := fun three key other done => by
      by_cases same : key = msg.key
      · exact .inl (Finmap.mem_insert.mpr (.inl same))
      · rcases ok.left three key other done with entry | ⟨outer, mem, same'⟩
        · exact .inl (Finmap.mem_insert.mpr (.inr entry))
        · refine .inr ⟨outer, (List.mem_cons.mp mem).resolve_left ?_, same'⟩
          intro is
          cases is
          exact same same'.symm }

end Entries

/-! ## Over whole runs -/

variable {cfg : Config} {w : SystemWorld}

/-- No call of its own broadcast's name reaches a process before it made that broadcast. -/
theorem pending_of_own (reach : (system cfg).Reachable w) {p : Nat} {msg : Message}
    (mem : .call (.urbDeliver msg) ∈ requestsOf (w.nodes p).stack) (own : msg.originator = p) :
    (w.nodes p).client.urb.pending.contains msg.key := by
  obtain ⟨original, same, sent⟩ := genuine_of_request reach mem rfl
  rw [own] at sent
  rw [← Message.key_eq_of_payload same]
  exact (urb_ok reach p).started _ (mem_started (mem_eventsOf.mpr sent))

/-- Every process keeps its entries. -/
theorem entries (reach : (system cfg).Reachable w) (p : Nat) :
    Entries cfg p (w.nodes p).client.urb (requestsOf (w.nodes p).stack) := by
  refine view_locally (P := fun p v _ => Entries cfg p v.state.urb v.requests) ?_ ?_ reach p
  · intro i
    exact Entries.init cfg i
  · intro w i v es reach _ moves ok
    have urbOk : UrbOk cfg i (w.nodes i).view.state.urb
      (ledger (w.nodes i).view.requests (eventsOf i w.history)) := urb_ok reach i
    have started : ∀ msg, .call (.urbDeliver msg) ∈ (w.nodes i).view.requests →
      msg.originator = i → (w.nodes i).view.state.urb.pending.contains msg.key :=
        fun msg => pending_of_own reach
    generalize (w.nodes i).view = before at moves ok urbOk started
    cases moves with
    | silent => exact ok
    | stop => exact ok
    | poll turn =>
      obtain ⟨recvs, rfl⟩ := Node.loop_receive turn
      exact ok
    | call turn =>
      obtain ⟨-, rfl, rfl⟩ := Node.loop_call turn
      exact ok.push _ (by simp) (by simp)
    | @sendSelf a msg copy rest same signed =>
      have key := Message.key_eq_of_payload same
      refine ok.replace [.call (.urbDeliver copy)] (by simp) (by simp) ?_ ?_
      · intro msg' mem
        obtain rfl : msg' = copy := by simpa using mem
        refine ⟨signed, key ▸ urbOk.sent i msg.key (.inr ?_)⟩
        exact mem_sending.mpr ⟨msg, List.mem_cons_self, rfl⟩
      · intro k concern _
        exact ⟨_, List.mem_singleton_self _, key.trans concern.2⟩
    | @sendPeer a receiver msg copy rest other same signed =>
      refine ok.replace [] (by simp) (by simp) (by simp) fun key concern _ => ?_
      exact absurd concern.1 other
    | @take a msg other sent =>
      refine ok.push _ (by simp [Node.client, BestEffortBroadcast.deliver]) fun copy mem => ?_
      obtain rfl : copy = msg := by simpa [Node.client, BestEffortBroadcast.deliver] using mem
      exact other
    | @run s c rest =>
      have runs := Node.client_run_cases cfg i c s
      generalize (Node.client cfg).run i c s = out at runs ⊢
      cases runs with
      | lcbSend | hold | deliver | skip | finish | logBroadcast =>
        exact ok.replace _ (by simp) (by simp) (by simp) fun key concern => concern.elim
      | @urbSend k msg =>
        refine (ok.mark k).replace _ (by simp) (by simp) (by simp) fun key concern => ?_
        exact concern.elim
      | @bebSend msg =>
        refine ok.replace _ (by simp) (by simp) (by simp) fun key concern _ => ?_
        exact ⟨_, List.mem_append_right _ (List.mem_singleton_self _), rfl, concern⟩
      | @ignore msg seen =>
        refine ok.replace [] (by simp) (by simp) (by simp) fun key concern unseen => ?_
        rw [← (concern : msg.key = key), seen] at unseen
        cases unseen
      | @first msg unseen unmarked =>
        have unmarked' : ¬ s.urb.pending.contains msg.key := by simp [unmarked]
        refine ok.first unseen (fun own => unmarked' (started msg List.mem_cons_self own))
          (fun self => unmarked' (ok.own msg List.mem_cons_self self)) ?_
        by_contra some
        exact unmarked' (urbOk.held _ (.inl (Finset.nonempty_iff_ne_empty.mpr some)))
      | @count msg unseen marked => exact ok.count unseen marked
      | @quorum msg many => exact ok.quorum urbOk many
      | @wait msg few => exact ok.wait urbOk few

/-! ## What is released -/

/-- The request is no part of a call of `UniformReliableBroadcast`. -/
def Request.OutsideUrb : Request Call → Prop
  | .call (.lcbSend _) | .call (.logBroadcast _) => True
  | _ => False

/-- The bookkeeping of delivered broadcasts is released: `ack` has no entry for them, and no more
entries than there are broadcasts seen and not delivered. -/
def UniformReliableBroadcast.Released (urb : UniformReliableBroadcast) : Prop :=
  (∀ key, urb.delivered.contains key → key ∉ urb.ack) ∧
  urb.ack.keys.card ≤
    {key | urb.pending.contains key ∧ urb.delivered.contains key = false}.ncard

/-- **The bookkeeping of URB is released**, between the calls of `UniformReliableBroadcast`, exactly
in a system of four processes or more, or while the process has been handed nothing that another
process broadcast. -/
theorem urb_released_iff (reach : (system cfg).Reachable w) {p : Nat}
    (between : ∀ r ∈ requestsOf (w.nodes p).stack, r.OutsideUrb) :
    (w.nodes p).client.urb.Released ↔ 4 ≤ cfg.numProcesses ∨
      ∀ msg, .deliver msg ∈ eventsOf p w.history → msg.sender ≠ p → msg.originator = p := by
  have ok := entries reach p
  have urbOk := urb_ok reach p
  have untried : ∀ msg, .call (.urbTryDeliver msg) ∉ requestsOf (w.nodes p).stack :=
    fun msg mem => between _ mem
  constructor
  · intro ⟨gone, _⟩
    by_contra other
    push Not at other
    obtain ⟨few, msg, handed, foreign, origin⟩ := other
    have marked : (w.nodes p).client.urb.pending.contains msg.key := by
      rcases urbOk.came _ _ (mem_came.mpr ⟨msg, handed, rfl, rfl⟩) with arriving | ⟨marked, -⟩
      · obtain ⟨r, mem, due⟩ := List.mem_filterMap.mp arriving
        have outside := between r mem
        cases r with
        | send => cases due
        | call c => cases c <;> first | cases due | exact outside.elim
      · exact marked
    have done : (w.nodes p).client.urb.delivered.contains msg.key := by
      by_contra fresh
      obtain ⟨r, outer, below, -⟩ :=
        ok.inside (by omega) msg.key origin marked (Bool.not_eq_true _ ▸ fresh)
      exact untried outer (below.subset (by simp))
    rcases ok.left (by omega) msg.key origin done with entry | ⟨outer, mem, -⟩
    · exact gone _ done entry
    · exact untried outer mem
  · intro condition
    have gone : ∀ key, (w.nodes p).client.urb.delivered.contains key →
        key ∉ (w.nodes p).client.urb.ack := by
      intro key done entry
      obtain ⟨few, foreign⟩ := ok.stale key entry done
      rcases condition with many | nothing
      · omega
      · -- of a quorum, one copy came from another process
        obtain ⟨S, quorum, came⟩ := urbOk.quorum key ((urbOk.delivered key).mp done)
        have two := cfg.two_le
        obtain ⟨r, mem, other⟩ := Finset.exists_mem_ne (show 1 < S.card by omega) p
        obtain ⟨msg, handed, sender, rfl⟩ := mem_came.mp (came r mem)
        exact foreign (nothing msg handed (sender ▸ other))
    refine ⟨gone, ?_⟩
    rw [← Set.ncard_coe_finset]
    refine Set.ncard_le_ncard (fun key mem => ?_) ?_
    · have entry : key ∈ (w.nodes p).client.urb.ack := Finmap.mem_keys.mp mem
      exact ⟨ok.pending key entry, Bool.not_eq_true _ ▸ fun done => gone key done entry⟩
    · let requests := requestsOf (w.nodes p).stack
      let log := ledger requests (eventsOf p w.history)
      refine (log.relayed ++ log.relaying).toFinset.finite_toSet.subset fun key seen => ?_
      have listed := (urbOk.pending key).mp seen.1
      simpa [log, requests] using listed

/-- Of two processes, the second has been handed the first one's message, and keeps its entry. -/
theorem urb_released_of_follower : ∃ w, (system follower).Reachable w ∧
    requestsOf (w.nodes 1).stack = [] ∧ ¬ (w.nodes 1).client.urb.Released := by
  let ok : SystemWorld → Bool := fun w =>
    (w.nodes 1).stack = [] && .deliver (firstCopy 0) ∈ eventsOf 1 w.history
  have ran : ((system follower).execute (system follower).start followerSchedule).any ok := by
    decide +kernel
  obtain ⟨w, reach, checked⟩ := Machine.exists_reachable ran
  simp only [ok, Bool.and_eq_true, decide_eq_true_eq] at checked
  obtain ⟨idle, handed⟩ := checked
  have between : ∀ r ∈ requestsOf (w.nodes 1).stack, r.OutsideUrb := by
    rw [idle]
    exact List.forall_mem_nil _
  refine ⟨w, reach, by rw [idle]; rfl, fun released => ?_⟩
  rcases (urb_released_iff reach between).mp released with many | nothing
  · exact absurd many (by decide)
  · exact absurd (nothing (firstCopy 0) handed (by decide)) (by decide)

/-- The second process delivers the first one's message inside its relay, and `try_deliver` makes an
empty entry for it after that. -/
theorem urb_not_released : ∃ w, (system follower).Reachable w ∧ (w.nodes 1).stack = [] ∧
    (w.nodes 1).client.urb.delivered.contains (0, 0) ∧ (0, 0) ∈ (w.nodes 1).client.urb.ack := by
  let ok : SystemWorld → Bool := fun w =>
    (w.nodes 1).stack = [] && (w.nodes 1).client.urb.delivered.contains (0, 0) &&
      ((w.nodes 1).client.urb.ack.lookup (0, 0)).isSome
  have ran : ((system follower).execute (system follower).start followerSchedule).any ok := by
    decide +kernel
  obtain ⟨w, reach, checked⟩ := Machine.exists_reachable ran
  simp only [ok, Bool.and_eq_true, decide_eq_true_eq] at checked
  obtain ⟨⟨idle, delivered⟩, entry⟩ := checked
  exact ⟨w, reach, idle, delivered, Finmap.lookup_isSome.mp entry⟩

end CausalBroadcast
