import CausalBroadcast.Broadcast.Genuine
import CausalBroadcast.Broadcast.Ledger

/-!
# Quorums

Every process keeps the ledger of its uniform reliable broadcast: each step of the main thread is
one of the things a ledger tells, or none of them.
-/

namespace CausalBroadcast

open Async

/-! ## Reading the ledger off a process -/

/-- The copy the link hands over, and where it came from. -/
@[simp] def Event.came : Event Notice → Option (Nat × BroadcastKey)
  | .deliver msg => some (msg.sender, msg.key)
  | .send .. | .client _ => none

/-- The copy passed to the link, and where it goes. -/
@[simp] def Event.sent : Event Notice → Option (Nat × BroadcastKey)
  | .send receiver msg => some (receiver, msg.key)
  | .deliver _ | .client _ => none

/-- The broadcast the process makes. -/
@[simp] def Event.started : Event Notice → Option BroadcastKey
  | .client (.urbSend msg) => some msg.key
  | .send .. | .deliver _ | .client _ => none

/-- The broadcast passed to `BestEffortBroadcast::send`. -/
@[simp] def Event.relayed : Event Notice → Option BroadcastKey
  | .client (.bebSend msg) => some msg.key
  | .send .. | .deliver _ | .client _ => none

/-- The broadcast URB delivers. -/
@[simp] def Event.done : Event Notice → Option BroadcastKey
  | .client (.urbDeliver msg) => some msg.key
  | .send .. | .deliver _ | .client _ => none

/-- The copy to be handed to `UniformReliableBroadcast::deliver`. -/
@[simp] def Request.arriving : Request Call → Option (Nat × BroadcastKey)
  | .call (.urbDeliver msg) => some (msg.sender, msg.key)
  | .send .. | .call _ => none

/-- The copy to be passed to the link. -/
@[simp] def Request.sending : Request Call → Option (Nat × BroadcastKey)
  | .send receiver msg => some (receiver, msg.key)
  | .call _ => none

/-- The broadcast to be passed to `BestEffortBroadcast::send`. -/
@[simp] def Request.relaying : Request Call → Option BroadcastKey
  | .call (.bebSend msg) => some msg.key
  | .send .. | .call _ => none

/-- The broadcast to be tried. -/
@[simp] def Request.trying : Request Call → Option BroadcastKey
  | .call (.urbTryDeliver msg) => some msg.key
  | .send .. | .call _ => none

/-- The ledger of a process. -/
def ledger (requests : List (Request Call)) (es : List (Event Notice)) : Ledger where
  came := es.filterMap Event.came
  sent := es.filterMap Event.sent
  started := es.filterMap Event.started
  relayed := es.filterMap Event.relayed
  done := es.filterMap Event.done
  arriving := requests.filterMap Request.arriving
  sending := requests.filterMap Request.sending
  relaying := requests.filterMap Request.relaying
  trying := requests.filterMap Request.trying

section
variable {requests : List (Request Call)} {es : List (Event Notice)} {q r : Nat}
  {key : BroadcastKey}

theorem mem_came : (r, key) ∈ (ledger requests es).came ↔
    ∃ msg, .deliver msg ∈ es ∧ msg.sender = r ∧ msg.key = key := by
  have listed : (r, key) ∈ (ledger requests es).came ↔ _ :=
    mem_reading (g := Event.deliver) (k := fun msg => (msg.sender, msg.key))
      fun e => by cases e <;> simp
  rw [listed]
  simp

theorem mem_sent : (q, key) ∈ (ledger requests es).sent ↔
    ∃ msg, .send q msg ∈ es ∧ msg.key = key := by
  have listed : (q, key) ∈ (ledger requests es).sent ↔ _ :=
    mem_reading (g := fun x : Nat × Message => Event.send x.1 x.2) (k := fun x => (x.1, x.2.key))
      fun e => by cases e <;> simp
  rw [listed]
  simp

theorem mem_started {msg : Message} (mem : .client (.urbSend msg) ∈ es) :
    msg.key ∈ (ledger requests es).started :=
  List.mem_filterMap.mpr ⟨_, mem, rfl⟩

theorem mem_relayed : key ∈ (ledger requests es).relayed ↔
    ∃ msg, .client (.bebSend msg) ∈ es ∧ msg.key = key :=
  mem_reading fun e => by
    cases e with
    | send | deliver => simp
    | client e => cases e <;> simp

theorem done_eq : (ledger requests es).done = (urbDeliveries es).map Message.key := by
  induction es with
  | nil => rfl
  | cons e es ih =>
    simp only [ledger] at ih ⊢
    rw [List.filterMap_cons, ih]
    cases e with
    | client e => cases e <;> simp
    | send | deliver => rfl

theorem mem_done : key ∈ (ledger requests es).done ↔
    ∃ msg, .client (.urbDeliver msg) ∈ es ∧ msg.key = key := by
  simp [done_eq]

theorem mem_sending : (q, key) ∈ (ledger requests es).sending ↔
    ∃ msg, .send q msg ∈ requests ∧ msg.key = key := by
  have listed : (q, key) ∈ (ledger requests es).sending ↔ _ :=
    mem_reading (g := fun x : Nat × Message => Request.send x.1 x.2) (k := fun x => (x.1, x.2.key))
      fun r => by cases r <;> simp
  rw [listed]
  simp

theorem mem_relaying : key ∈ (ledger requests es).relaying ↔
    ∃ msg, .call (.bebSend msg) ∈ requests ∧ msg.key = key :=
  mem_reading fun r => by
    cases r with
    | send => simp
    | call c => cases c <;> simp

end

variable {cfg : Config} {w : SystemWorld}

/-- The number of the broadcast under way is a new one. -/
theorem lt_of_genuine_urbSend (reach : (system cfg).Reachable w) {p k : Nat} {msg copy : Message}
    {rest : List (Request Call)}
    (top : requestsOf (w.nodes p).stack = .call (.urbSend k msg) :: rest)
    (genuine : Genuine w.history copy) (own : copy.originator = p) : copy.bcastSeqNum < k := by
  have ok := main_ok reach p
  have phase : Phase cfg p (w.nodes p).client (.call (.urbSend k msg) :: rest)
      (urbSends (eventsOf p w.history)).length := top ▸ ok.phase
  obtain ⟨rfl, -, count, -, -⟩ := phase.of_urbSend
  have below := genuine.bcastSeqNum_lt_length reach
  rwa [own, count] at below

private theorem fresh_of_urbSend (reach : (system cfg).Reachable w) {p k : Nat} {msg : Message}
    {rest : List (Request Call)}
    (top : requestsOf (w.nodes p).stack = .call (.urbSend k msg) :: rest)
    (ok : UrbOk cfg p (w.nodes p).client.urb
      (ledger (requestsOf (w.nodes p).stack) (eventsOf p w.history))) :
    (w.nodes p).client.urb.pending.contains (p, k) = false := by
  rw [← Bool.not_eq_true, ok.pending]
  have old : ∀ copy : Message, Genuine w.history copy → copy.key ≠ (p, k) := by
    intro copy genuine same
    have own : copy.originator = p := congrArg Prod.fst same
    have number : copy.bcastSeqNum = k := congrArg Prod.snd same
    exact absurd (lt_of_genuine_urbSend reach top genuine own) (by omega)
  rintro (relayed | relaying)
  · obtain ⟨copy, mem, same⟩ := mem_relayed.mp relayed
    exact old copy (genuine_of_event reach (mem_eventsOf.mp mem) rfl) same
  · obtain ⟨copy, mem, same⟩ := mem_relaying.mp relaying
    exact old copy (genuine_of_request reach mem rfl) same

/-- Every process keeps its ledger. -/
theorem urb_ok (reach : (system cfg).Reachable w) (p : Nat) :
    UrbOk cfg p (w.nodes p).client.urb
      (ledger (requestsOf (w.nodes p).stack) (eventsOf p w.history)) := by
  refine view_locally (P := fun p v es => UrbOk cfg p v.state.urb (ledger v.requests es)) ?_ ?_
    reach p
  · intro i
    exact UrbOk.init cfg i
  · intro w i v es reach _ moves ok
    have fresh := fun k msg rest top => @fresh_of_urbSend cfg w reach i k msg rest top ok
    change ∀ k msg rest, (w.nodes i).view.requests = _ →
      (w.nodes i).view.state.urb.pending.contains (i, k) = false at fresh
    generalize (w.nodes i).view = before at moves ok fresh
    generalize eventsOf i w.history = past at ok ⊢
    cases moves with
    | silent => simpa using ok
    | stop => simpa [Node.client] using ok
    | poll turn =>
      obtain ⟨recvs, rfl⟩ := Node.loop_receive turn
      simpa using ok
    | call turn =>
      obtain ⟨-, rfl, rfl⟩ := Node.loop_call turn
      simpa [ledger, List.filterMap_cons] using ok
    | @sendSelf a msg copy rest same signed =>
      have sent : UrbOk cfg i a.urb { ledger rest past with
        sending := (i, msg.key) :: (ledger rest past).sending } := ok
      simpa [ledger, List.filterMap_cons, signed, Message.key_eq_of_payload same, Node.client,
        BestEffortBroadcast.deliver] using sent.send.take i msg.key
    | @sendPeer a receiver msg copy rest other same signed =>
      have sent : UrbOk cfg i a.urb { ledger rest past with
        sending := (receiver, msg.key) :: (ledger rest past).sending } := ok
      simpa [ledger, List.filterMap_cons, Message.key_eq_of_payload same] using sent.send
    | @take a msg other sent =>
      have taken := UrbOk.take ok msg.sender msg.key
      simpa [ledger, List.filterMap_cons, Node.client, BestEffortBroadcast.deliver] using taken
    | @run s c rest =>
      have runs := Node.client_run_cases cfg i c s
      generalize (Node.client cfg).run i c s = out at runs ⊢
      cases runs with
      | lcbSend | hold | deliver | skip | finish | logBroadcast =>
        simpa [ledger, List.filterMap_cons] using ok
      | @urbSend k msg =>
        have before : UrbOk cfg i s.urb (ledger rest past) := ok
        have started := before.start (fresh k msg rest rfl)
        simpa [ledger, List.filterMap_cons, Message.key] using started
      | @bebSend msg =>
        have due : UrbOk cfg i s.urb { ledger rest past with
          relaying := msg.key :: (ledger rest past).relaying } := ok
        simpa [ledger, List.filterMap_cons, List.filterMap_map, Function.comp_def] using due.relay
      | @ignore msg seen =>
        have due : UrbOk cfg i s.urb { ledger rest past with
          arriving := (msg.sender, msg.key) :: (ledger rest past).arriving } := ok
        simpa using due.ignore seen
      | @first msg unseen unmarked =>
        have due : UrbOk cfg i s.urb { ledger rest past with
          arriving := (msg.sender, msg.key) :: (ledger rest past).arriving } := ok
        simpa [ledger, List.filterMap_cons] using due.first unseen unmarked
      | @count msg unseen marked =>
        have due : UrbOk cfg i s.urb { ledger rest past with
          arriving := (msg.sender, msg.key) :: (ledger rest past).arriving } := ok
        simpa [ledger, List.filterMap_cons] using due.count unseen marked
      | @quorum msg many =>
        have due : UrbOk cfg i s.urb { ledger rest past with
          trying := msg.key :: (ledger rest past).trying } := ok
        simpa [ledger, List.filterMap_cons] using due.deliver many
      | @wait msg few =>
        have due : UrbOk cfg i s.urb { ledger rest past with
          trying := msg.key :: (ledger rest past).trying } := ok
        simpa [ledger] using due.wait (Nat.not_lt.mpr few)

/-- No broadcast is delivered twice. -/
theorem urbDeliveries_nodup (reach : (system cfg).Reachable w) (p : Nat) :
    ((urbDeliveries (eventsOf p w.history)).map Message.key).Nodup :=
  done_eq ▸ (urb_ok reach p).once

end CausalBroadcast
