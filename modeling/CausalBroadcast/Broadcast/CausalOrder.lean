import Mathlib.Logic.Relation
import CausalBroadcast.Broadcast.Clock
import CausalBroadcast.Broadcast.Reliable

/-!
# Localized causal order

A vector clock counts deliveries, and the messages of one process are delivered in the order of
their numbers, so a count names the messages it counts. That is what turns the comparisons of
`can_deliver` into causal order, and what a broadcast waits for into messages that were broadcast
before it.
-/

namespace CausalBroadcast

open Async

variable {cfg : Config} {w : SystemWorld} {p q o : Nat} {es : List (Event Notice)}

/-! ## Counts name messages -/

/-- Where every delivery has its number behind it, deliveries from a process are numbered in
order. -/
theorem numbers_of_caused (causal : Justified (Caused cfg p) es) (o : Nat) :
    (fromProcess o (lcbDeliveries es)).map Message.bcastSeqNum = List.range (delivered o es) := by
  induction es using List.reverseRecOn with
  | nil => rfl
  | append_singleton es e ih =>
    obtain ⟨causal, last⟩ := justified_concat.mp causal
    have old := ih causal
    by_cases delivers : ∃ msg, e = .client (.lcbDeliver msg)
    · obtain ⟨msg, rfl⟩ := delivers
      have grown : lcbDeliveries (es ++ [.client (.lcbDeliver msg)]) =
          lcbDeliveries es ++ [msg] := by simp
      by_cases own : o = msg.originator
      · subst own
        rw [delivered, grown, fromProcess_append, fromProcess_singleton_own, List.map_append, old,
          List.length_append, List.length_singleton, List.range_succ]
        exact congrArg (fun k => List.range _ ++ [k]) last.1
      · rw [delivered, grown, fromProcess_append, fromProcess_singleton_other own, List.append_nil]
        exact old
    · have same : lcbDeliveries (es ++ [e]) = lcbDeliveries es := by
        rw [lcbDeliveries, pick_append, List.append_right_eq_self]
        cases e with
        | send | deliver => rfl
        | client e =>
          cases e with
          | lcbDeliver msg => exact absurd ⟨msg, rfl⟩ delivers
          | urbSend | bebSend | urbDeliver | logBroadcast => rfl
      rw [delivered, same]
      exact old

/-- A number below the count was delivered. -/
theorem exists_of_lt_delivered (causal : Justified (Caused cfg p) es) {j : Nat}
    (below : j < delivered o es) :
    ∃ msg, .client (.lcbDeliver msg) ∈ es ∧ msg.key = (o, j) := by
  have mem : j ∈ (fromProcess o (lcbDeliveries es)).map Message.bcastSeqNum := by
    rw [numbers_of_caused causal]
    exact List.mem_range.mpr below
  obtain ⟨msg, listed, rfl⟩ := List.mem_map.mp mem
  obtain ⟨listed', rfl⟩ := mem_fromProcess.mp listed
  exact ⟨msg, mem_lcbDeliveries.mp listed', rfl⟩

/-- A number that was delivered is below the count. -/
theorem lt_delivered_of_mem (causal : Justified (Caused cfg p) es) {msg : Message}
    (mem : .client (.lcbDeliver msg) ∈ es) : msg.bcastSeqNum < delivered msg.originator es := by
  rw [← List.mem_range, ← numbers_of_caused causal]
  exact List.mem_map_of_mem (mem_fromProcess.mpr ⟨mem_lcbDeliveries.mpr mem, rfl⟩)

/-- What LCB delivered URB had delivered. -/
theorem urbDeliver_of_lcbDeliver (reach : (system cfg).Reachable w) {msg : Message}
    (mem : (p, .client (.lcbDeliver msg)) ∈ w.history) :
    (p, .client (.urbDeliver msg)) ∈ w.history := by
  have listed : msg ∈ fromProcess msg.originator (lcbDeliveries (eventsOf p w.history)) :=
    mem_fromProcess.mpr ⟨mem_lcbDeliveries.mpr (mem_eventsOf.mpr mem), rfl⟩
  have waits := ((lcb_ok reach p).waiting msg.originator).mem_iff.mpr
    (List.mem_append_left _ (List.mem_append_left _ listed))
  exact mem_eventsOf.mp (mem_urbDeliveries.mp (mem_fromProcess.mp waits).1)

theorem genuine_of_lcbDeliver (reach : (system cfg).Reachable w) {msg : Message}
    (mem : (p, .client (.lcbDeliver msg)) ∈ w.history) : Genuine w.history msg :=
  genuine_of_event reach (urbDeliver_of_lcbDeliver reach mem) rfl

/-! ## Causal order -/

/-- `a` happens before `b`. -/
def Before {E : Type} (a b : E) (es : List E) : Prop :=
  ∃ first middle last, es = first ++ a :: middle ++ b :: last

theorem Before.mem {E : Type} {a b : E} {es : List E} (order : Before a b es) :
    a ∈ es ∧ b ∈ es := by
  obtain ⟨first, middle, last, rfl⟩ := order
  simp

/-- One broadcast precedes another in the history `h`: the same process made both in this order, or
the process that made the second depends on the one that made the first, and LCB had delivered the
first to it. -/
inductive Precedes (cfg : Config) (h : SystemHistory) : BroadcastKey → BroadcastKey → Prop
  | own {x : Nat} {msg msg' : Message} :
      Before (.client (.urbSend msg)) (.client (.urbSend msg')) (eventsOf x h) →
      Precedes cfg h msg.key msg'.key
  | dependency {x : Nat} {msg msg' : Message} : msg.originator ∈ cfg.depends x →
      Before (.client (.lcbDeliver msg)) (.client (.urbSend msg')) (eventsOf x h) →
      Precedes cfg h msg.key msg'.key

/-- A process's broadcasts are numbered in the order it makes them. -/
theorem bcastSeqNum_lt_of_before (reach : (system cfg).Reachable w) {x : Nat} {msg msg' : Message}
    (before : Before (.client (.urbSend msg)) (.client (.urbSend msg')) (eventsOf x w.history)) :
    msg.bcastSeqNum < msg'.bcastSeqNum := by
  obtain ⟨first, middle, last, split⟩ := before
  have ordered : ((urbSends (eventsOf x w.history)).map Message.bcastSeqNum).Pairwise (· < ·) :=
    (main_ok reach x).numbers ▸ List.pairwise_lt_range
  have sends : urbSends (eventsOf x w.history) =
      urbSends first ++ msg :: (urbSends middle ++ msg' :: urbSends last) := by
    rw [split]
    simp
  rw [sends, List.pairwise_map, List.pairwise_append, List.pairwise_cons] at ordered
  exact ordered.2.1.1 msg' (by simp)

/-- Whoever delivers what a vector clock waits for has delivered as much as its sender had. -/
theorem delivered_le_of_clock {depends : List Nat} {before past : List (Event Notice)}
    {clock : List Nat} (stamped : clock = depends.map (delivered · past))
    (waits : ∀ x ∈ clock.zip depends, x.1 ≤ delivered x.2 before) (dependency : o ∈ depends) :
    delivered o past ≤ delivered o before := by
  have entry : (delivered o past, o) ∈ clock.zip depends := by
    rw [stamped, ← List.map_prod_right_eq_zip]
    exact List.mem_map_of_mem dependency
  exact waits _ entry

/-- One step of the order: what precedes a message is delivered before it. -/
theorem delivered_of_precedes (reach : (system cfg).Reachable w) {q : Nat}
    {before after : List (Event Notice)} {msg : Message} {key : BroadcastKey}
    (split : eventsOf q w.history = before ++ .client (.lcbDeliver msg) :: after)
    (precedes : Precedes cfg w.history key msg.key) :
    ∃ msg', .client (.lcbDeliver msg') ∈ before ∧ msg'.key = key := by
  have causal := (lcb_ok reach q).causal
  obtain ⟨number, clock⟩ := causal before _ after split
  have past : Justified (Caused cfg q) before := by
    rw [split] at causal
    exact causal.of_append
  have mem : (q, .client (.lcbDeliver msg)) ∈ w.history := by
    rw [← mem_eventsOf, split]
    simp
  obtain ⟨original, same, sent⟩ := genuine_of_lcbDeliver reach mem
  generalize target : msg.key = key' at precedes
  cases precedes with
  | @own x first second order =>
    obtain ⟨madeFirst, madeSecond⟩ := order.mem
    have originator : first.originator = msg.originator := by
      calc first.originator = x := originator_of_urbSend reach (mem_eventsOf.mp madeFirst)
        _ = second.originator := (originator_of_urbSend reach (mem_eventsOf.mp madeSecond)).symm
        _ = msg.originator := (congrArg Prod.fst target).symm
    have earlier : first.bcastSeqNum < msg.bcastSeqNum := by
      have sooner := bcastSeqNum_lt_of_before reach order
      have sameNumber : msg.bcastSeqNum = second.bcastSeqNum := congrArg Prod.snd target
      omega
    obtain ⟨msg', mem', same'⟩ := exists_of_lt_delivered past (number ▸ earlier)
    exact ⟨msg', mem', same'.trans (congrArg (·, first.bcastSeqNum) originator.symm)⟩
  | @dependency x first second dependency order =>
    have made : (x, .client (.urbSend second)) ∈ w.history := mem_eventsOf.mp order.mem.2
    obtain rfl : msg.originator = x :=
      (congrArg Prod.fst target).trans (originator_of_urbSend reach made)
    have broadcast : second = original := by
      refine eq_of_urbSends reach made sent ?_
      rw [Message.bcastSeqNum_eq_of_payload same]
      exact (congrArg Prod.snd target).symm
    obtain ⟨start, middle, last, order⟩ := order
    have causal' := (lcb_ok reach msg.originator).causal
    have stamped : msg.vectorClock = (cfg.depends msg.originator).map
        (delivered · (start ++ .client (.lcbDeliver first) :: middle)) := by
      rw [← Message.vectorClock_eq_of_payload same, ← broadcast]
      exact causal' _ _ last order
    have past' : Justified (Caused cfg msg.originator)
        (start ++ .client (.lcbDeliver first) :: middle) := by
      rw [order] at causal'
      exact causal'.of_append
    have counted : first.bcastSeqNum <
        delivered first.originator (start ++ .client (.lcbDeliver first) :: middle) :=
      lt_delivered_of_mem past' (by simp)
    have enough := delivered_le_of_clock stamped clock dependency
    exact exists_of_lt_delivered past (Nat.lt_of_lt_of_le counted enough)

/-- **Localized causal order**: whoever delivers a message has delivered, before it, every message
that causally precedes it. -/
theorem causal_order (reach : (system cfg).Reachable w) {q : Nat}
    {before after : List (Event Notice)} {msg : Message} {key : BroadcastKey}
    (split : eventsOf q w.history = before ++ .client (.lcbDeliver msg) :: after)
    (precedes : Relation.TransGen (Precedes cfg w.history) key msg.key) :
    ∃ msg', .client (.lcbDeliver msg') ∈ before ∧ msg'.key = key := by
  generalize target : msg.key = key' at precedes
  induction precedes generalizing before after msg with
  | single step => exact delivered_of_precedes reach split (target ▸ step)
  | tail chain step ih =>
    obtain ⟨between, mem, same⟩ := delivered_of_precedes reach split (target ▸ step)
    -- the one in between was delivered even earlier, after what precedes it
    obtain ⟨start, last, rfl⟩ := List.append_of_mem mem
    rw [List.append_assoc, List.cons_append] at split
    obtain ⟨msg', mem', same'⟩ := ih split same
    exact ⟨msg', List.mem_append_left _ mem', same'⟩

/-- The second process broadcasts after it delivered the first one's message, and the first process
delivers both in this order. -/
theorem causal_order_of_follower : ∃ (w : SystemWorld) (before : List (Event Notice)),
    (system follower).Reachable w ∧
    eventsOf 0 w.history = before ++ [.client (.lcbDeliver (secondCopy 0))] ∧
    ∃ msg', .client (.lcbDeliver msg') ∈ before ∧ msg'.key = (firstCopy 1).key := by
  let broadcast : Message := { originator := 1, vectorClock := [1] }
  let ok : SystemWorld → Bool := fun w =>
    (eventsOf 0 w.history).drop 15 = [.client (.lcbDeliver (secondCopy 0))] &&
      ((eventsOf 1 w.history).drop 6).take 2 =
        [.client (.lcbDeliver (firstCopy 1)), .client (.urbSend broadcast)]
  have ran : ((system follower).execute (system follower).start followerSchedule).any ok := by
    decide +kernel
  obtain ⟨w, reach, checked⟩ := Machine.exists_reachable ran
  simp only [ok, Bool.and_eq_true, decide_eq_true_eq] at checked
  obtain ⟨last, two⟩ := checked
  have split := (List.take_append_drop 15 (eventsOf 0 w.history)).symm
  rw [last] at split
  have order : Before (.client (.lcbDeliver (firstCopy 1))) (.client (.urbSend broadcast))
      (eventsOf 1 w.history) := by
    generalize eventsOf 1 w.history = es at two
    refine ⟨es.take 6, [], (es.drop 6).drop 2, ?_⟩
    calc es = es.take 6 ++ ((es.drop 6).take 2 ++ (es.drop 6).drop 2) := by
          rw [List.take_append_drop, List.take_append_drop]
      _ = _ := by
          rw [two]
          simp
  have precedes : Precedes follower w.history (firstCopy 1).key broadcast.key :=
    .dependency (by decide : (firstCopy 1).originator ∈ follower.depends 1) order
  exact ⟨w, _, reach, split, causal_order reach split (.single precedes)⟩

end CausalBroadcast
