import CausalBroadcast.Broadcast.Confluence
import CausalBroadcast.Broadcast.Quorum
import CausalBroadcast.Link.Nesting

/-!
# A broadcast is relayed once

`UniformReliableBroadcast::deliver` relays what it sees for the first time, the relay comes back from
the process itself, and that is `deliver` again. It ends there because the broadcast is in `pending`
before it is relayed: nothing a call of `deliver` does to a broadcast in `pending` relays anything.
-/

namespace CausalBroadcast

open Async

/-- Calls of `UniformReliableBroadcast::deliver` are counted. -/
def Call.isDeliver : Call → Bool
  | .urbDeliver _ => true
  | .lcbSend _ | .urbSend .. | .bebSend _ | .urbTryDeliver _ | .lcbDeliver _ | .lcbScan _
  | .logBroadcast _ => false

namespace Node

variable {cfg : Config} {p : Nat} {msg : Message}

/-- The calls `requests` end, and leave the broadcasts in URB's `pending` as they are in `urb`. -/
abbrev Keeps (cfg : Config) (p depth : Nat) (requests : List (Request Call))
    (urb : UniformReliableBroadcast) (s : Node) : Prop :=
  Ends (client cfg) p Call.isDeliver depth (requests.map Request.frame) s
    fun s' => s'.urb.pending = urb.pending

namespace Keeps

variable {depth : Nat} {urb : UniformReliableBroadcast} {s : Node} {c : Call}

/-- A call ends where what it does ends. -/
theorem call (plain : c.isDeliver = false)
    (body : (run cfg p c s).state.Keeps cfg p depth (run cfg p c s).calls urb) :
    s.Keeps cfg p depth [.call c] urb :=
  Ends.call (by simp [plain]) body

/-- A call of `deliver` ends one level up. -/
theorem deliver (body : (run cfg p (.urbDeliver msg) s).state.Keeps cfg p depth
      (run cfg p (.urbDeliver msg) s).calls urb) :
    s.Keeps cfg p (depth + 1) [.call (.urbDeliver msg)] urb :=
  Ends.call (Nat.add_comm 1 depth).le body

/-- Nothing is called. -/
theorem done (same : s.urb.pending = urb.pending) : s.Keeps cfg p depth [] urb := .nil same

/-- The loop of `LocalizedCausalBroadcast::deliver` takes a message from a heap each time it starts
again. -/
theorem lcbScan {it : Nat} {o : LocalizedCausalBroadcast.Observed} (start : s.lcb = o.lcb)
    (same : s.urb.pending = urb.pending) : s.Keeps cfg p 0 [.call (.lcbScan it)] urb := by
  fun_induction LocalizedCausalBroadcast.drain cfg it o generalizing s with
  | case1 it o inside msg top ready ih =>
    apply call rfl
    simp only [run, LocalizedCausalBroadcast.scan, start, inside, top, ready, if_true]
    exact ih rfl same
  | case2 it o inside msg top waits ih =>
    apply call rfl
    simp only [run, LocalizedCausalBroadcast.scan, start, inside, top, waits, if_true]
    exact ih rfl same
  | case3 it o inside top ih =>
    apply call rfl
    simp only [run, LocalizedCausalBroadcast.scan, start, inside, top, if_true]
    exact ih rfl same
  | case4 it o outside =>
    apply call rfl
    simp only [run, LocalizedCausalBroadcast.scan, outside, if_false]
    exact done same

/-- What URB delivers does not come back to it. -/
theorem lcbDeliver (same : s.urb.pending = urb.pending) :
    s.Keeps cfg p 0 [.call (.lcbDeliver msg)] urb :=
  call rfl (lcbScan (o := { lcb := (s.lcb.deliver msg).state }) rfl same)

theorem urbTryDeliver (same : s.urb.pending = urb.pending) :
    s.Keeps cfg p 0 [.call (.urbTryDeliver msg)] urb := by
  apply call rfl
  have runs := run_cases cfg p (.urbTryDeliver msg) s
  generalize run cfg p (.urbTryDeliver msg) s = out at runs ⊢
  cases runs with
  | quorum many => exact lcbDeliver same
  | wait few => exact done same

/-- More calls may be under way. -/
theorem mono {requests : List (Request Call)} (keeps : s.Keeps cfg p depth requests urb) :
    s.Keeps cfg p (depth + 1) requests urb :=
  Ends.mono keeps depth.le_succ fun _ same => same

/-- One call, then others. -/
theorem cons {request : Request Call} {requests : List (Request Call)}
    (first : s.Keeps cfg p depth [request] urb)
    (next : ∀ s' : Node, s'.urb.pending = urb.pending → s'.Keeps cfg p depth requests urb) :
    s.Keeps cfg p depth (request :: requests) urb :=
  Ends.append first next

/-- A copy of a broadcast that is marked is counted and no more. -/
theorem urbDeliver_of_pending (marked : urb.pending.contains msg.key)
    (same : s.urb.pending = urb.pending) : s.Keeps cfg p 1 [.call (.urbDeliver msg)] urb := by
  apply deliver
  have runs := run_cases cfg p (.urbDeliver msg) s
  generalize run cfg p (.urbDeliver msg) s = out at runs ⊢
  cases runs with
  | ignore seen => exact done same
  | first unseen unmarked => simp [same, marked] at unmarked
  | count unseen _ => exact urbTryDeliver same

/-- What is passed to the link comes back as copies of a broadcast that is marked. -/
theorem sends (marked : urb.pending.contains msg.key) (same : s.urb.pending = urb.pending)
    (receivers : List Nat) : s.Keeps cfg p 1 (receivers.map (.send · msg)) urb := by
  induction receivers generalizing s with
  | nil => exact done same
  | cons receiver receivers ih =>
    refine cons ?_ fun s' same => ih same
    refine Ends.send (fun _ copy payload => ?_) fun _ => same
    exact urbDeliver_of_pending (Message.key_eq_of_payload payload ▸ marked) same

theorem bebSend (marked : urb.pending.contains msg.key) (same : s.urb.pending = urb.pending) :
    s.Keeps cfg p 1 [.call (.bebSend msg)] urb := by
  apply call rfl
  simpa [run, BestEffortBroadcast.send] using sends marked same (cfg.connections p ++ [p])

/-- The broadcast is marked before it is sent, so `deliver` finds it there. -/
theorem urbSend (cfg : Config) (p seqNum : Nat) (msg : Message) (s : Node) :
    s.Keeps cfg p 1 [.call (.urbSend seqNum msg)] (s.urb.send p seqNum msg).state :=
  call rfl (bebSend (SeenSets.contains_insert.mpr (.inl rfl)) rfl)

/-- A `deliver` that relays marks the broadcast first: the copy it sends to itself is delivered
inside it, and nothing inside that. -/
theorem urbDeliver (cfg : Config) (p : Nat) (msg : Message) (s : Node) :
    s.Keeps cfg p 2 [.call (.urbDeliver msg)] (run cfg p (.urbDeliver msg) s).state.urb := by
  apply deliver
  have runs := run_cases cfg p (.urbDeliver msg) s
  generalize run cfg p (.urbDeliver msg) s = out at runs ⊢
  cases runs with
  | ignore seen => exact done rfl
  | first unseen unmarked =>
    refine cons (bebSend (SeenSets.contains_insert.mpr (.inl rfl)) rfl) ?_
    exact fun s' same => (urbTryDeliver same).mono
  | count unseen marked => exact (urbTryDeliver rfl).mono

end Keeps

end Node

/-! ## Once only -/

variable {cfg : Config} {w : SystemWorld} {p : Nat}

/-- The broadcasts passed to `BestEffortBroadcast::send`, in order. -/
abbrev relays (es : List (Event Notice)) : List BroadcastKey := es.filterMap Event.relayed

/-- Only the first call a call makes is a relay. -/
theorem Node.Runs.relay_first {id : Nat} {c : Call} {s : Node} {out : Outcome Node Call Notice}
    (runs : s.Runs cfg id c out) (msg : Message) : .call (.bebSend msg) ∉ out.calls.tail := by
  intro mem
  cases runs with
  | bebSend => simpa using List.mem_of_mem_tail mem
  | lcbSend | urbSend | ignore | first | count | quorum | wait | hold | deliver | skip | finish
  | logBroadcast => simp at mem

/-- A relay that is due is due at once. -/
theorem relay_on_top (reach : (system cfg).Reachable w) (p : Nat) (msg : Message) :
    .call (.bebSend msg) ∉ (requestsOf (w.nodes p).stack).tail := by
  refine view_locally (P := fun _ v _ => .call (.bebSend msg) ∉ v.requests.tail) ?_ ?_ reach p
  · exact fun _ => List.not_mem_nil
  · intro w i v es _ _ moves ok
    generalize (w.nodes i).view = before at moves ok
    cases moves with
    | silent | stop | sendSelf => exact ok
    | poll | take => exact List.not_mem_nil
    | sendPeer => exact fun mem => ok (List.mem_of_mem_tail mem)
    | call turn =>
      obtain ⟨-, -, rfl⟩ := Node.loop_call turn
      simp
    | @run s c rest =>
      have runs := Node.client_run_cases cfg i c s
      intro mem
      rw [List.tail_append] at mem
      split at mem
      · exact ok (List.mem_of_mem_tail mem)
      · rcases List.mem_append.mp mem with new | old
        · exact runs.relay_first msg new
        · exact ok old

/-- What URB delivers was relayed before. -/
theorem relayed_of_done (reach : (system cfg).Reachable w) (p : Nat) :
    ∀ msg ∈ urbDeliveries (eventsOf p w.history), msg.key ∈ relays (eventsOf p w.history) := by
  refine view_locally (P := fun _ _ es => ∀ msg ∈ urbDeliveries es, msg.key ∈ relays es) ?_ ?_
    reach p
  · exact fun _ => List.forall_mem_nil _
  · intro w i v es reach _ moves ih
    have ok : UrbOk cfg i (w.nodes i).view.state.urb
      (ledger (w.nodes i).view.requests (eventsOf i w.history)) := urb_ok reach i
    have first := relay_on_top reach i
    change ∀ msg, _ ∉ (w.nodes i).view.requests.tail at first
    generalize (w.nodes i).view = before at moves ok first
    intro msg mem
    rw [relays, List.filterMap_append, List.mem_append]
    rw [urbDeliveries, pick_append, List.mem_append] at mem
    left
    rcases mem with old | new
    · exact ih msg old
    · cases moves with
      | silent | stop | poll | call | sendSelf | sendPeer | take => simp at new
      | @run s c rest =>
        have runs := Node.client_run_cases cfg i c s
        generalize (Node.client cfg).run i c s = out at runs new
        cases runs with
        | @quorum tried many =>
          obtain rfl : msg = tried := by simpa using new
          -- copies were counted, so the broadcast is marked; its relay is not below this call
          have counted : (s.urb.acks msg.key).Nonempty := Finset.card_pos.mp (by omega)
          have marked := ok.held msg.key (.inl counted)
          refine ((ok.pending msg.key).mp marked).resolve_right fun due => ?_
          obtain ⟨copy, below, -⟩ := mem_relaying.mp due
          exact first copy (by simpa using below)
        | lcbSend | urbSend | bebSend | ignore | first | count | wait | hold | deliver | skip
        | finish | logBroadcast => simp at new

/-- **A broadcast is relayed once.** In every reachable state the calls of URB return, `deliver` with
no more than one call of `deliver` inside another, `send` with none; and a process relays each
broadcast at most once, and those it delivered exactly once. -/
theorem relayed_once (reach : (system cfg).Reachable w) (p : Nat) :
    (∀ msg, Returns (Node.client cfg) p Call.isDeliver 2 (.urbDeliver msg) (w.nodes p).client) ∧
    (∀ seqNum msg,
      Returns (Node.client cfg) p Call.isDeliver 1 (.urbSend seqNum msg) (w.nodes p).client) ∧
    (relays (eventsOf p w.history)).Nodup ∧
    ∀ msg ∈ urbDeliveries (eventsOf p w.history),
      (relays (eventsOf p w.history)).count msg.key = 1 := by
  have once : (relays (eventsOf p w.history)).Nodup := (urb_ok reach p).unique.of_append_right
  refine ⟨fun msg => ?_, fun seqNum msg => ?_, once, fun msg delivered => ?_⟩
  · exact (Node.Keeps.urbDeliver cfg p msg _).returns
  · exact (Node.Keeps.urbSend cfg p seqNum msg _).returns
  · exact List.count_eq_one_of_mem once (relayed_of_done reach p msg delivered)

/-- The first process relayed what it delivered of the second one's once, and would return from
another copy. -/
theorem relayed_once_of_follower : ∃ w : SystemWorld, (system follower).Reachable w ∧
    secondCopy 0 ∈ urbDeliveries (eventsOf 0 w.history) ∧
    (relays (eventsOf 0 w.history)).count (1, 0) = 1 ∧
    Returns (Node.client follower) 0 Call.isDeliver 2 (.urbDeliver (secondCopy 1))
      (w.nodes 0).client := by
  let ok : SystemWorld → Bool := fun w => secondCopy 0 ∈ urbDeliveries (eventsOf 0 w.history)
  have ran : ((system follower).execute (system follower).start followerSchedule).any ok := by
    decide +kernel
  obtain ⟨w, reach, checked⟩ := Machine.exists_reachable ran
  have delivered : secondCopy 0 ∈ urbDeliveries (eventsOf 0 w.history) := of_decide_eq_true checked
  obtain ⟨returns, -, -, once⟩ := relayed_once reach 0
  exact ⟨w, reach, delivered, once _ delivered, returns _⟩

end CausalBroadcast
