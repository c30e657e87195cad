import CausalBroadcast.Broadcast.Completion

/-!
# Uniform causal delivery

What agreement of uniform reliable broadcast gives the layer above it. A process that crashes may have
delivered more than it relayed, and a message that one process could deliver may come to another
before the ones it waits for. Still, once the processes left by a minority of crashes have come to
rest, each of them has delivered whatever anybody delivered: a delivery had everything it waits for
before it, and so by induction everybody else can make it too.

What stays in their heaps for good are messages of crashed processes, of which an earlier one was
lost.
-/

namespace CausalBroadcast

open Async

variable {cfg : Config} {w : SystemWorld} {F : Finset Nat} {p q : Nat} {msg : Message}

/-- Whoever delivered copies of all that another delivered has counted as many of each process. -/
theorem delivered_le_of_copies {es es' : List (Event Notice)} (causal : Justified (Caused cfg p) es)
    (causal' : Justified (Caused cfg q) es')
    (copies : ∀ msg, .client (.lcbDeliver msg) ∈ es →
      ∃ copy, .client (.lcbDeliver copy) ∈ es' ∧ copy.key = msg.key) (o : Nat) :
    delivered o es ≤ delivered o es' := by
  by_contra more
  obtain ⟨msg, mem, key⟩ := exists_of_lt_delivered causal (Nat.lt_of_not_le more)
  obtain ⟨copy, mem', same⟩ := copies msg mem
  have counted := lt_delivered_of_mem causal' mem'
  obtain ⟨originator, number⟩ := Prod.mk.inj (same.trans key)
  rw [originator, number] at counted
  exact Nat.lt_irrefl _ counted

/-- A copy of a broadcast that came, and for which nothing is missing, is delivered. -/
theorem lcbDeliver_of_copy (reach : (system cfg).Reachable w) (idle : (w.nodes q).stack = [])
    {copy : Message} (came : (q, .client (.urbDeliver copy)) ∈ w.history)
    (same : copy.payload = msg.payload)
    (number : msg.bcastSeqNum ≤ delivered msg.originator (eventsOf q w.history))
    (clock : ∀ x ∈ msg.vectorClock.zip (cfg.depends msg.originator),
      x.1 ≤ delivered x.2 (eventsOf q w.history)) :
    (q, .client (.lcbDeliver copy)) ∈ w.history := by
  obtain ⟨originator, bcastSeqNum⟩ := Prod.mk.inj (Message.key_eq_of_payload same)
  refine lcbDeliver_of_ready reach idle came ?_ ?_
  · rw [originator, bcastSeqNum]
    exact number
  · rw [originator, Message.vectorClock_eq_of_payload same]
    exact clock

section
variable (reach : (system cfg).Reachable w) (minority : 2 * F.card < cfg.numProcesses)
  (quiet : Quiescent cfg w F) (covered : Covered cfg F) (inside : q < cfg.numProcesses) (left : q ∉ F)
include reach minority quiet covered inside left

/-- What anybody delivered, a process left delivered, by induction on the events of the former. -/
theorem lcbDeliver_of_lcbDeliver {es : List (Event Notice)} (upTo : es <+: eventsOf p w.history)
    (mem : .client (.lcbDeliver msg) ∈ es) :
    ∃ copy, copy.payload = msg.payload ∧ (q, .client (.lcbDeliver copy)) ∈ w.history := by
  induction es using List.reverseRecOn generalizing msg with
  | nil => cases mem
  | append_singleton es e ih =>
    have earlier : ∀ m, .client (.lcbDeliver m) ∈ es → ∃ copy : Message,
        copy.payload = m.payload ∧ (q, .client (.lcbDeliver copy)) ∈ w.history :=
      fun m => ih ((List.prefix_append es [e]).trans upTo)
    rcases List.mem_append.mp mem with old | new
    · exact earlier msg old
    obtain rfl := List.mem_singleton.mp new
    obtain ⟨after, split⟩ := upTo
    rw [List.append_assoc, List.singleton_append] at split
    have causal := (lcb_ok reach p).causal
    obtain ⟨number, clock⟩ := causal es _ after split.symm
    rw [← split] at causal
    have counts := delivered_le_of_copies causal.of_append (lcb_ok reach q).causal fun m mem => by
      obtain ⟨copy, same, done⟩ := earlier m mem
      exact ⟨copy, mem_eventsOf.mpr done, Message.key_eq_of_payload same⟩
    have came : (p, .client (.lcbDeliver msg)) ∈ w.history := by
      rw [← mem_eventsOf, ← split]
      simp
    obtain ⟨copy, same, urb⟩ := agreement_of_covered reach minority quiet (.inr covered) msg
      (.inl ⟨p, urbDeliver_of_lcbDeliver reach came⟩) q inside left
    refine ⟨copy, same, lcbDeliver_of_copy reach (quiet.idle q inside left) urb same ?_ ?_⟩
    · exact number.le.trans (counts _)
    · exact fun x mem => (clock x mem).trans (counts x.2)

theorem lcbDeliver_of_mem (done : (p, .client (.lcbDeliver msg)) ∈ w.history) :
    ∃ copy, copy.payload = msg.payload ∧ (q, .client (.lcbDeliver copy)) ∈ w.history :=
  lcbDeliver_of_lcbDeliver reach minority quiet covered inside left List.prefix_rfl
    (mem_eventsOf.mpr done)

/-- What a process left broadcast, every process left delivered, by induction on its number. -/
theorem lcbDeliver_of_own (alive : p ∉ F) (sent : (p, .client (.urbSend msg)) ∈ w.history) :
    ∃ copy, copy.payload = msg.payload ∧ (q, .client (.lcbDeliver copy)) ∈ w.history := by
  induction number : msg.bcastSeqNum using Nat.strong_induction_on generalizing msg with
  | _ k ih =>
    subst number
    have causal := (lcb_ok reach q).causal
    obtain ⟨before, after, split⟩ := List.append_of_mem sent
    obtain ⟨past, reach', ⟨later, rfl⟩, number, clock⟩ := moment_of_urbSend reach split
    have grown : ∀ {i e}, (i, e) ∈ past.history → (i, e) ∈ w.history := fun mem => by
      rw [split]
      exact List.mem_append_left _ (List.mem_append_left _ mem)
    have own : msg.bcastSeqNum ≤ delivered p (eventsOf q w.history) := by
      by_contra low
      obtain ⟨m, made, key⟩ :=
        exists_urbSend_of_lt_length reach' (number ▸ Nat.lt_of_not_le low)
      obtain ⟨copy, same, done⟩ := ih m.bcastSeqNum
        ((congrArg Prod.snd key).trans_lt (Nat.lt_of_not_le low)) (grown made) rfl
      have counted := lt_delivered_of_mem causal (mem_eventsOf.mpr done)
      obtain ⟨originator, bcastSeqNum⟩ := Prod.mk.inj ((Message.key_eq_of_payload same).trans key)
      rw [originator, bcastSeqNum] at counted
      exact Nat.lt_irrefl _ counted
    have counts := delivered_le_of_copies (lcb_ok reach' p).causal causal fun m mem => by
      obtain ⟨copy, same, done⟩ := lcbDeliver_of_mem reach minority quiet covered inside left
        (grown (mem_eventsOf.mp mem))
      exact ⟨copy, mem_eventsOf.mpr done, Message.key_eq_of_payload same⟩
    obtain ⟨copy, same, urb⟩ := agreement_of_covered reach minority quiet (.inr covered) msg
      (.inr ⟨p, alive, sent⟩) q inside left
    have originator := originator_of_urbSend reach sent
    refine ⟨copy, same, lcbDeliver_of_copy reach (quiet.idle q inside left) urb same ?_ ?_⟩
    · rw [originator]
      exact own
    · rw [originator, clock, ← List.map_prod_right_eq_zip]
      intro x mem
      obtain ⟨d, -, rfl⟩ := List.mem_map.mp mem
      exact counts d

/-- What waits in a heap of a process left is a message of a crashed process. -/
theorem pending_eq_nil_of_left {o : Nat} (alive : o ∉ F) :
    (w.nodes q).client.lcb.pending o = [] := by
  have ok := lcb_ok reach q
  rw [List.eq_nil_iff_forall_not_mem]
  intro msg pending
  obtain ⟨urb, rfl⟩ := ok.mem_urbDeliveries_of_pending pending
  have new := ok.clock_le_of_pending (urbDeliveries_nodup reach q) pending
  obtain ⟨original, same, sent⟩ :=
    genuine_of_event reach (mem_eventsOf.mp (mem_urbDeliveries.mp urb)) rfl
  obtain ⟨copy, copied, done⟩ :=
    lcbDeliver_of_own reach minority quiet covered inside left alive sent
  have counted := lt_delivered_of_mem ok.causal (mem_eventsOf.mpr done)
  obtain ⟨originator, number⟩ := Prod.mk.inj (Message.key_eq_of_payload (copied.trans same))
  rw [originator, number, ← ok.clock_eq] at counted
  omega

end

/-- **Uniform causal broadcast**: when the processes left by a minority of crashes have come to rest,
and each has a quorum of them in its neighbourhood, each has delivered whatever anybody delivered or
one of them broadcast. So all of them delivered the same broadcasts, and what any of them still holds
back is a crashed process's. -/
theorem lcb_agreement (reach : (system cfg).Reachable w) (minority : 2 * F.card < cfg.numProcesses)
    (quiet : Quiescent cfg w F) (covered : Covered cfg F) :
    (∀ q < cfg.numProcesses, q ∉ F →
      (∀ msg : Message, ((∃ p, (p, .client (.lcbDeliver msg)) ∈ w.history) ∨
          ∃ p, p ∉ F ∧ (p, .client (.urbSend msg)) ∈ w.history) →
        ∃ copy, copy.payload = msg.payload ∧ (q, .client (.lcbDeliver copy)) ∈ w.history) ∧
      ∀ o, (w.nodes q).client.lcb.pending o ≠ [] → o ∈ F) ∧
    ∀ q < cfg.numProcesses, q ∉ F → ∀ q' < cfg.numProcesses, q' ∉ F →
      ((lcbDeliveries (eventsOf q w.history)).map Message.key).Perm
        ((lcbDeliveries (eventsOf q' w.history)).map Message.key) := by
  refine ⟨fun q inside left => ⟨fun msg known => ?_, fun o held => ?_⟩, ?_⟩
  · rcases known with ⟨p, done⟩ | ⟨p, alive, sent⟩
    · exact lcbDeliver_of_mem reach minority quiet covered inside left done
    · exact lcbDeliver_of_own reach minority quiet covered inside left alive sent
  · by_contra alive
    exact held (pending_eq_nil_of_left reach minority quiet covered inside left alive)
  · intro q inside left q' inside' left'
    have once : ∀ i, ((lcbDeliveries (eventsOf i w.history)).map Message.key).Nodup := fun i =>
      nodup_keys fun o => by
        rw [(lcb_ok reach i).numbers]
        exact List.nodup_range
    have copied : ∀ {i j}, j < cfg.numProcesses → j ∉ F →
        ∀ key ∈ (lcbDeliveries (eventsOf i w.history)).map Message.key,
          key ∈ (lcbDeliveries (eventsOf j w.history)).map Message.key := by
      intro i j inside left key mem
      obtain ⟨msg, listed, rfl⟩ := List.mem_map.mp mem
      obtain ⟨copy, same, done⟩ := lcbDeliver_of_mem reach minority quiet covered inside left
        (mem_eventsOf.mp (mem_lcbDeliveries.mp listed))
      exact List.mem_map.mpr ⟨copy, mem_lcbDeliveries.mpr (mem_eventsOf.mpr done),
        Message.key_eq_of_payload same⟩
    exact (List.perm_ext_iff_of_nodup (once q) (once q')).mpr fun key =>
      ⟨copied inside' left' key, copied inside left key⟩

/-- The last of three processes delivers the first one's message and crashes before its own. -/
theorem lcb_agreement_of_triangle : ∃ w, (system triangle).Reachable w ∧
    (2, .client (.lcbDeliver (firstCopy 2))) ∈ w.history ∧ (w.nodes 2).stopped ∧
    (∃ copy, copy.payload = (firstCopy 2).payload ∧ (1, .client (.lcbDeliver copy)) ∈ w.history) ∧
    ((lcbDeliveries (eventsOf 0 w.history)).map Message.key).Perm
      ((lcbDeliveries (eventsOf 1 w.history)).map Message.key) := by
  let second (sender : Nat) : Message := { linkSeqNum := 1, originator := 1, sender }
  let ok : SystemWorld → Bool := fun w =>
    ((List.range 3).all fun p =>
      p = 2 || (!(w.nodes p).stopped && (w.nodes p).stack.isEmpty)) &&
      w.history.all (handedIn w.history {2}) && (w.nodes 2).stopped &&
      (2, .client (.lcbDeliver (firstCopy 2))) ∈ w.history
  have ran : ((system triangle).execute (system triangle).start
      (mains 0 12 ++ .arrive 2 (firstCopy 0) :: mains 2 13 ++ .act 2 .stop ::
        .arrive 1 (firstCopy 0) :: mains 1 31 ++ .arrive 0 (firstCopy 1) :: mains 0 11 ++
        .arrive 0 (second 1) :: mains 0 20 ++ .arrive 1 (second 0) :: mains 1 12)).any ok := by
    decide +kernel
  obtain ⟨w, reach, checked⟩ := Machine.exists_reachable ran
  simp only [ok, Bool.and_eq_true, List.all_eq_true, List.mem_range, decide_eq_true_eq] at checked
  obtain ⟨⟨⟨main, sends⟩, crashed⟩, delivered⟩ := checked
  have quiet : Quiescent triangle w {2} := by
    refine quiescent_of_check (fun p inside left => ?_) sends
    have := main p inside
    simp_all
  obtain ⟨each, same⟩ := lcb_agreement reach (by decide) quiet (by decide)
  exact ⟨w, reach, delivered, crashed,
    (each 1 (by decide) (by decide)).1 (firstCopy 2) (.inl ⟨2, delivered⟩),
    same 0 (by decide) (by decide) 1 (by decide) (by decide)⟩

end CausalBroadcast
