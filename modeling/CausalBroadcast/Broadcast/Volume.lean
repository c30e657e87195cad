import Mathlib.Data.Finset.Prod
import CausalBroadcast.Broadcast.Quorum
import CausalBroadcast.Link.Retention

/-!
# How many messages go over the link

A process relays each broadcast once, and there are at most `numMessages` broadcasts for each
process. So the link never comes near the 2^63 messages where its numbers stop being names, and
what holds below that bound holds of every run of the system.
-/

namespace CausalBroadcast

open Async

variable {cfg : Config} {w : SystemWorld}

private theorem length_sends_le (q : Nat) (es : List (Event Notice)) :
    (sends q es).length ≤ (es.filterMap Event.sent).length := by
  induction es with
  | nil => exact Nat.le_refl _
  | cons e es ih =>
    have split : sends q (e :: es) = sends q [e] ++ sends q es := sends_append q [e] es
    rw [split, List.length_append, List.filterMap_cons]
    cases e with
    | send receiver msg =>
      have one : (sends q [Event.send (ε := Notice) receiver msg]).length ≤ 1 :=
        List.length_filterMap_le ..
      simp only [Event.sent, List.length_cons]
      omega
    | deliver | client => simpa [sends] using ih

/-- A process relays at most one message for each broadcast there can be. -/
theorem length_relayed_le (reach : (system cfg).Reachable w) (p : Nat) :
    (ledger (requestsOf (w.nodes p).stack) (eventsOf p w.history)).relayed.length ≤
      cfg.numProcesses * cfg.numMessages := by
  have distinct := (List.nodup_append.mp (urb_ok reach p).unique).2.1
  have inside : (ledger (requestsOf (w.nodes p).stack) (eventsOf p w.history)).relayed.toFinset ⊆
      Finset.range cfg.numProcesses ×ˢ Finset.range cfg.numMessages := by
    intro key mem
    obtain ⟨msg, relayed, rfl⟩ := mem_relayed.mp (List.mem_toFinset.mp mem)
    have genuine := genuine_of_event reach (mem_eventsOf.mp relayed) rfl
    rw [Finset.mem_product, Finset.mem_range, Finset.mem_range]
    exact ⟨genuine.originator_lt reach, genuine.bcastSeqNum_lt reach⟩
  have few := Finset.card_le_card inside
  rwa [List.toFinset_card_of_nodup distinct, Finset.card_product, Finset.card_range,
    Finset.card_range] at few

/-- The system stays below the link's bound. -/
theorem fewSends (reach : (system cfg).Reachable w) : FewSends w.history := by
  intro p q
  have volume := (urb_ok reach p).volume
  have relays := length_relayed_le reach p
  have near : (cfg.connections p).length ≤ 510 := length_createNConnectedRing_le ..
  have total : cfg.numProcesses * cfg.numMessages ≤ 2 ^ 7 * 2 ^ 32 :=
    Nat.mul_le_mul cfg.le_max cfg.numMessages_lt.le
  generalize ledger_is : ledger (requestsOf (w.nodes p).stack) (eventsOf p w.history) = l at *
  calc (sends q (eventsOf p w.history)).length
      ≤ l.sent.length := ledger_is ▸ length_sends_le q _
    _ ≤ ((cfg.connections p).length + 1) * l.relayed.length := by omega
    _ ≤ 511 * (2 ^ 7 * 2 ^ 32) := Nat.mul_le_mul (by omega) (relays.trans total)
    _ < 2 ^ 63 := by decide

/-- **A message is never given up**: every message numbered so far is queued or scheduled at its
sender, or the observer of its receiver has it; and an entry leaves the schedule only once the
observer has its message. -/
theorem link_retains (reach : (system cfg).Reachable w) {p q : Nat} (other : q ≠ p) :
    (∀ k < ((w.nodes p).peers q).nextSeqNum, ∃ msg : Message,
      (sends q (eventsOf p w.history))[k]? = some msg ∧ msg.linkSeqNum = k ∧
      (msg ∈ ((w.nodes p).peers q).incoming ∨
        (∃ e ∈ ((w.nodes p).peers q).scheduled, e.msg = msg) ∨ HandedTo w.history q msg)) ∧
    ∀ act r, (system cfg).step p act (w.nodes p) = some r →
      ∀ e ∈ ((w.nodes p).peers q).scheduled,
        (∀ e' ∈ (r.state.peers q).scheduled, e'.msg ≠ e.msg) → HandedTo w.history q e.msg := by
  have few := fewSends reach
  constructor
  · intro k numbered_
    obtain ⟨next, numbers⟩ := numbered reach p q
    have limit := few p q
    rw [next, Nat.mod_eq_of_lt (by omega)] at numbered_
    have got := List.getElem?_eq_getElem numbered_
    have sent : SentTo w.history p q (sends q (eventsOf p w.history))[k] :=
      mem_eventsOf.mp (mem_sends.mp (List.getElem_mem numbered_))
    refine ⟨_, got, ?_, kept_of_sentTo reach few other sent⟩
    rw [numbers k _ got]
    exact Nat.mod_eq_of_lt (by omega)
  · intro act r stepped e mem gone
    exact handedTo_of_removed reach few stepped mem gone

/-- The first process's message is scheduled, and leaves the schedule after the second process,
which has it, acknowledged it. -/
theorem link_retains_of_follower : ∃ (w : SystemWorld) (act : Act)
    (r : ProcessReaction Node Call Notice) (e : Entry), (system follower).Reachable w ∧
    ((w.nodes 0).peers 1).nextSeqNum = 1 ∧ e ∈ ((w.nodes 0).peers 1).scheduled ∧
    (system follower).step 0 act (w.nodes 0) = some r ∧
    (∃ msg : Message, (sends 1 (eventsOf 0 w.history))[0]? = some msg ∧ msg.linkSeqNum = 0 ∧
      (msg ∈ ((w.nodes 0).peers 1).incoming ∨
        (∃ e ∈ ((w.nodes 0).peers 1).scheduled, e.msg = msg) ∨ HandedTo w.history 1 msg)) ∧
    HandedTo w.history 1 e.msg := by
  let e : Entry := { msg := firstCopy 0, backoff := .start 0 }
  let retry : Act := .work 1 (some e) (milliseconds 100) 0 0
  let ok : SystemWorld → Bool := fun w =>
    ((w.nodes 0).peers 1).nextSeqNum = 1 && e ∈ ((w.nodes 0).peers 1).scheduled &&
      ((system follower).step 0 retry (w.nodes 0)).any fun r =>
        (r.state.peers 1).scheduled.all fun e' => e'.msg ≠ e.msg
  have ran : ((system follower).execute (system follower).start
      (mains 0 10 ++ .act 0 (.work 1 none 0 0 0) :: .arrive 1 (firstCopy 0) :: mains 1 16 ++
        .arrive 0 (setAck (firstCopy 1)) :: mains 0 2 ++ [.act 0 (.work 1 (some e) 0 0 0)])).any
      ok := by decide +kernel
  obtain ⟨w, reach, checked⟩ := Machine.exists_reachable ran
  simp only [ok, Bool.and_eq_true, decide_eq_true_eq, Option.any_eq_true, List.all_eq_true]
    at checked
  obtain ⟨⟨next, mem⟩, r, stepped, gone⟩ := checked
  obtain ⟨kept, removed⟩ := link_retains reach (by decide : 1 ≠ 0)
  exact ⟨w, retry, r, e, reach, next, mem, stepped, kept 0 (by omega),
    removed retry r stepped e mem gone⟩

end CausalBroadcast
