import CausalBroadcast.Async.System
import CausalBroadcast.Link.Worker

/-!
# A process built on a perfect link

`PerfectLink` calls whatever `Observer` it was given, and that observer may send again before the
call returns. So the code above the link is a parameter, `Client`, and the main thread is a call
stack: a step runs the topmost call up to the calls it makes, and pushes those. Every function here
is `void` and reads none of its arguments after the calls it makes, so a call is its arguments.

The other threads take steps between any two of those: each peer's worker, and the receiver thread,
whose arrival step appends to `message_queue`. A step of the main thread makes at most one shared
access (a push to or a pop from a queue, or a datagram put on the network).
-/

namespace CausalBroadcast

/-- A call the code above the link makes: `PerfectLink::send`, or one of its own functions. -/
inductive Request (κ : Type) where
  | send (receiver : Nat) (msg : Message)
  | call (c : κ)

/-- What running a call of the code above the link does: its new state, the calls it goes on to
make, in order, and the events it is observed by. -/
structure Outcome (σ κ ε : Type) where
  state : σ
  calls : List (Request κ) := []
  events : List ε := []

/-- One turn of the main loop: hand over the message just popped, or make calls. -/
inductive Turn (σ κ : Type) where
  | receive (state : σ)
  | call (state : σ) (calls : List κ)

/-- The code above the link, with state `σ`, calls `κ` and observable events `ε`. -/
structure Client (σ κ ε : Type) where
  init : Nat → σ
  /-- `Observer::deliver`. -/
  deliver : Message → κ
  /-- The body of a call, in process `id`. -/
  run : (id : Nat) → κ → σ → Outcome σ κ ε
  /-- One turn of the main loop, told whether `message_queue` holds a message; `none` where the
  loop blocks. -/
  loop : σ → Bool → Option (Turn σ κ)
  /-- What the signal handler `stop` does before it exits. -/
  stop : σ → σ

/-- A call on the main thread's stack. -/
inductive Frame (κ : Type) where
  /-- `PerfectLink::send` -/
  | send (receiver : Nat) (msg : Message)
  /-- `FairLossLink::send` -/
  | transmit (receiver : Nat) (msg : Message)
  /-- `FairLossLink::receive`, which is `PerfectLink::deliver` -/
  | receive (msg : Message)
  | client (c : κ)
  deriving DecidableEq

/-- The frame a request becomes. -/
def Request.frame {κ : Type} : Request κ → Frame κ
  | .send receiver msg => .send receiver msg
  | .call c => .client c

/-- What is observed of a process: messages it sends on the link, messages the link hands to the
observer, and the events of the code above. -/
inductive Event (ε : Type) where
  | send (receiver : Nat) (msg : Message)
  | deliver (msg : Message)
  | client (e : ε)
  deriving DecidableEq

/-- A process: the link's peers, the code above it, the queue the receiver thread fills, the main
thread's call stack, and whether a signal has stopped the main thread. -/
structure Process (σ κ : Type) where
  peers : Nat → Peer := fun _ => {}
  client : σ
  messageQueue : List Message := []
  stack : List (Frame κ) := []
  stopped : Bool := false

/-- What the environment decides about the next step of a process: the main thread goes on, the
worker for `peer` runs its loop body, or a signal arrives. -/
inductive Act where
  | main
  | work (peer : Nat) (top : Option Entry) (now woken later : Nat)
  | stop
  deriving DecidableEq

variable {σ κ ε : Type}

/-- A reaction of a process. -/
abbrev ProcessReaction (σ κ ε : Type) := Async.Reaction Nat (Process σ κ) (Event ε) Message

namespace Process

/-- One peer changes. -/
def setPeer (s : Process σ κ) (q : Nat) (peer : Peer) : Process σ κ :=
  { s with peers := Function.update s.peers q peer }

/-- Calls go on top of the stack. -/
def push (s : Process σ κ) (frames : List (Frame κ)) : Process σ κ :=
  { s with stack := frames ++ s.stack }

/-! Reading a process after one of its parts changed. -/

@[simp] theorem setPeer_self (s : Process σ κ) (q : Nat) (peer : Peer) :
    (s.setPeer q peer).peers q = peer := Function.update_self ..

@[simp] theorem setPeer_other (s : Process σ κ) {q q' : Nat} (other : q' ≠ q) (peer : Peer) :
    (s.setPeer q peer).peers q' = s.peers q' := Function.update_of_ne other ..

@[simp] theorem setPeer_stack (s : Process σ κ) (q : Nat) (peer : Peer) :
    (s.setPeer q peer).stack = s.stack := rfl

@[simp] theorem push_stack (s : Process σ κ) (frames : List (Frame κ)) :
    (s.push frames).stack = frames ++ s.stack := rfl

/-- A peer after one was changed is that one, or is as it was. -/
theorem setPeer_elim {s : Process σ κ} {P : Peer → Prop} {q q' : Nat} {peer : Peer}
    (changed : q' = q → P peer) (other : q' ≠ q → P (s.peers q')) :
    P ((s.setPeer q peer).peers q') := by
  by_cases same : q' = q
  · subst same
    simpa using changed rfl
  · simpa [same] using other same

end Process

/-- A message as `PerfectLink::send` of process `id` numbers and signs it for a peer. -/
def Peer.stamp (peer : Peer) (id : Nat) (msg : Message) : Message :=
  { msg with linkSeqNum := peer.nextSeqNum, sender := id }

/-- `peer.next_seq_num++`. -/
def Peer.advance (peer : Peer) : Peer :=
  { peer with nextSeqNum := succ64 peer.nextSeqNum }

/-- `peer.incoming.push(msg)`. -/
def Peer.enqueue (peer : Peer) (msg : Message) : Peer :=
  { peer with incoming := peer.incoming ++ [msg] }

/-- `peer.delivered.insert(num)`. -/
def Peer.markDelivered (peer : Peer) (num : Nat) : Peer :=
  { peer with delivered := peer.delivered.insert num }

/-- `PerfectLink::send` of process `id`. -/
def PerfectLink.send (client : Client σ κ ε) (id receiver : Nat) (msg : Message)
    (s : Process σ κ) : ProcessReaction σ κ ε :=
  let msg := (s.peers receiver).stamp id msg
  let peer := (s.peers receiver).advance
  if msg.sender = receiver then
    { state := (s.setPeer receiver peer).push [.client (client.deliver msg)]
      events := [.send receiver msg, .deliver msg] }
  else
    { state := (s.setPeer receiver (peer.enqueue msg)).push [.transmit receiver msg]
      events := [.send receiver msg] }

/-- `PerfectLink::deliver`. -/
def PerfectLink.deliver (client : Client σ κ ε) (msg : Message) (s : Process σ κ) :
    ProcessReaction σ κ ε :=
  let peer := s.peers msg.sender
  if ¬ isSyn msg then
    { state := s.setPeer msg.sender (peer.enqueue msg) }
  else
    let num := seqNum msg
    let ack := Frame.transmit msg.sender (setAck msg)
    if ¬ peer.delivered.contains num then
      { state := (s.setPeer msg.sender (peer.markDelivered num)).push
          [.client (client.deliver msg), ack]
        events := [.deliver msg] }
    else { state := s.push [ack] }

/-- The topmost call runs. -/
def Frame.run (client : Client σ κ ε) (id : Nat) (s : Process σ κ) :
    Frame κ → ProcessReaction σ κ ε
  | .send receiver msg => PerfectLink.send client id receiver msg s
  | .transmit receiver msg => { state := s, sent := [FairLossLink.send id receiver msg] }
  | .receive msg => PerfectLink.deliver client msg s
  | .client c =>
    let out := client.run id c s.client
    { state := { s with client := out.state }.push (out.calls.map Request.frame)
      events := out.events.map Event.client }

/-- The main thread's next step: the topmost call, or the next turn of the main loop. -/
def Process.main (client : Client σ κ ε) (id : Nat) (s : Process σ κ) :
    Option (ProcessReaction σ κ ε) :=
  match s.stack with
  | frame :: stack => some (frame.run client id { s with stack })
  | [] =>
    match client.loop s.client (!s.messageQueue.isEmpty), s.messageQueue with
    | some (.receive state), msg :: rest =>
      some { state := { s with client := state, messageQueue := rest, stack := [.receive msg] } }
    | some (.call state calls), _ =>
      some { state := { s with client := state, stack := calls.map Frame.client } }
    | _, _ => none

/-- One step of process `id`. A signal stops the main thread for good; the workers go on until the
process is gone, which the model leaves open. -/
def Process.step (client : Client σ κ ε) (id : Nat) (act : Act) (s : Process σ κ) :
    Option (ProcessReaction σ κ ε) :=
  match act with
  | .main => if s.stopped then none else s.main client id
  | .work q top now woken later =>
    ((s.peers q).work id q top now woken later).map fun (peer, sent) =>
      { state := s.setPeer q peer, sent }
  | .stop =>
    if s.stopped then none
    else some { state := { s with client := client.stop s.client, stopped := true } }

/-- `n` processes over a perfect link, each running `client` above it. -/
def linkMachine (n : Nat) (client : Client σ κ ε) :
    Async.Machine Nat (Process σ κ) Act (Event ε) Message where
  init id := { client := client.init id }
  step id act s := if id < n then s.step client id act else none
  arrive msg s := { s with messageQueue := s.messageQueue ++ [msg] }

/-! ## Everything a step can do -/

/-- Everything a step of process `id` can do. -/
inductive Process.Steps (client : Client σ κ ε) (id : Nat) (s : Process σ κ) :
    ProcessReaction σ κ ε → Prop
  /-- The main loop hands over the first queued message. -/
  | poll {state : σ} {msg : Message} {rest : List Message} :
      s.stopped = false → s.stack = [] → s.messageQueue = msg :: rest →
      client.loop s.client true = some (.receive state) →
      s.Steps client id
        { state := { s with client := state, messageQueue := rest, stack := [.receive msg] } }
  /-- The main loop makes calls of its own. -/
  | call {state : σ} {calls : List κ} {nonempty : Bool} :
      s.stopped = false → s.stack = [] → client.loop s.client nonempty = some (.call state calls) →
      s.Steps client id { state := { s with client := state, stack := calls.map Frame.client } }
  /-- A message to itself goes straight to the observer. -/
  | sendSelf {msg : Message} {stack : List (Frame κ)} :
      s.stopped = false → s.stack = .send id msg :: stack →
      s.Steps client id
        { state := ({ s with stack }.setPeer id (s.peers id).advance).push
            [.client (client.deliver ((s.peers id).stamp id msg))]
          events := [.send id ((s.peers id).stamp id msg),
            .deliver ((s.peers id).stamp id msg)] }
  /-- A message to a peer is queued for the worker, then transmitted. -/
  | sendPeer {receiver : Nat} {msg : Message} {stack : List (Frame κ)} :
      s.stopped = false → receiver ≠ id → s.stack = .send receiver msg :: stack →
      s.Steps client id
        { state := ({ s with stack }.setPeer receiver
            ((s.peers receiver).advance.enqueue ((s.peers receiver).stamp id msg))).push
              [.transmit receiver ((s.peers receiver).stamp id msg)]
          events := [.send receiver ((s.peers receiver).stamp id msg)] }
  | transmit {receiver : Nat} {msg : Message} {stack : List (Frame κ)} :
      s.stopped = false → s.stack = .transmit receiver msg :: stack →
      s.Steps client id
        { state := { s with stack }, sent := [FairLossLink.send id receiver msg] }
  /-- An ack goes to the worker. -/
  | takeAck {msg : Message} {stack : List (Frame κ)} :
      s.stopped = false → s.stack = .receive msg :: stack → isSyn msg = false →
      s.Steps client id
        { state := { s with stack }.setPeer msg.sender ((s.peers msg.sender).enqueue msg) }
  /-- A syn seen for the first time goes to the observer, then is acknowledged. -/
  | takeNew {msg : Message} {stack : List (Frame κ)} :
      s.stopped = false → s.stack = .receive msg :: stack → isSyn msg →
      (s.peers msg.sender).delivered.contains (seqNum msg) = false →
      s.Steps client id
        { state := ({ s with stack }.setPeer msg.sender
            ((s.peers msg.sender).markDelivered (seqNum msg))).push
              [.client (client.deliver msg), .transmit msg.sender (setAck msg)]
          events := [.deliver msg] }
  /-- A syn seen before is only acknowledged. -/
  | takeOld {msg : Message} {stack : List (Frame κ)} :
      s.stopped = false → s.stack = .receive msg :: stack → isSyn msg →
      (s.peers msg.sender).delivered.contains (seqNum msg) →
      s.Steps client id { state := { s with stack }.push [.transmit msg.sender (setAck msg)] }
  | client {c : κ} {stack : List (Frame κ)} :
      s.stopped = false → s.stack = .client c :: stack →
      s.Steps client id
        { state := { s with stack, client := (client.run id c s.client).state }.push
            ((client.run id c s.client).calls.map Request.frame)
          events := (client.run id c s.client).events.map Event.client }
  | work {q : Nat} {peer : Peer} {sent : List Datagram} :
      (s.peers q).Works id q peer sent →
      s.Steps client id { state := s.setPeer q peer, sent }
  | stop : s.stopped = false →
      s.Steps client id { state := { s with client := client.stop s.client, stopped := true } }

theorem Process.step_cases {client : Client σ κ ε} {id : Nat} {act : Act} {s : Process σ κ}
    {r : ProcessReaction σ κ ε} (stepped : s.step client id act = some r) :
    s.Steps client id r := by
  cases act with
  | work q top now woken later =>
    obtain ⟨⟨peer, sent⟩, worked, rfl⟩ := Option.map_eq_some_iff.mp stepped
    exact .work (Peer.work_cases worked)
  | stop =>
    simp only [Process.step] at stepped
    split at stepped
    · cases stepped
    next running => cases stepped; exact .stop (Bool.eq_false_iff.mpr running)
  | main =>
    simp only [Process.step] at stepped
    split at stepped
    · cases stepped
    next running =>
      have running : s.stopped = false := Bool.eq_false_iff.mpr running
      unfold Process.main at stepped
      split at stepped
      next frame stack top =>
        cases stepped
        cases frame with
        | transmit receiver msg => exact .transmit running top
        | client c => exact .client running top
        | send receiver msg =>
          simp only [Frame.run, PerfectLink.send]
          split
          next self =>
            obtain rfl : id = receiver := self
            exact .sendSelf running top
          next other => exact .sendPeer running (fun h => other h.symm) top
        | receive msg =>
          simp only [Frame.run, PerfectLink.deliver]
          split
          next ack => exact .takeAck running top (Bool.not_eq_true _ ▸ ack)
          next syn =>
            rw [Decidable.not_not] at syn
            split
            next fresh => exact .takeNew running top syn (Bool.not_eq_true _ ▸ fresh)
            next seen => exact .takeOld running top syn (Decidable.not_not.mp seen)
      next top =>
        split at stepped
        next state msg rest polled queue =>
          cases stepped
          rw [queue] at polled
          exact .poll running top queue polled
        next state calls polled => cases stepped; exact .call running top polled
        next => cases stepped

theorem linkMachine_step_cases {n : Nat} {client : Client σ κ ε} {id : Nat} {act : Act}
    {s : Process σ κ} {r : ProcessReaction σ κ ε}
    (stepped : (linkMachine n client).step id act s = some r) :
    id < n ∧ s.Steps client id r := by
  simp only [linkMachine, Option.ite_none_right_eq_some] at stepped
  exact ⟨stepped.1, Process.step_cases stepped.2⟩

@[simp] theorem Frame.run_stopped (client : Client σ κ ε) (id : Nat) (s : Process σ κ)
    (frame : Frame κ) : (frame.run client id s).state.stopped = s.stopped := by
  cases frame with
  | transmit | client => rfl
  | send receiver msg =>
    simp only [Frame.run, PerfectLink.send]
    split <;> rfl
  | receive msg =>
    simp only [Frame.run, PerfectLink.deliver]
    split
    · rfl
    · split <;> rfl

/-- A process is stopped by a signal, and from then on its main thread does nothing. -/
theorem linkMachine_step_stopped {n : Nat} {client : Client σ κ ε} {id : Nat} {act : Act}
    {s : Process σ κ} {r : ProcessReaction σ κ ε}
    (stepped : (linkMachine n client).step id act s = some r) (stopped : r.state.stopped) :
    r.events = [] ∧ ((s.stopped ∧ r.state.client = s.client) ∨
      (act = .stop ∧ r.state.client = client.stop s.client)) := by
  simp only [linkMachine, Option.ite_none_right_eq_some] at stepped
  obtain ⟨-, stepped⟩ := stepped
  cases act with
  | work q top now woken later =>
    obtain ⟨worked, -, rfl⟩ := Option.map_eq_some_iff.mp stepped
    exact ⟨rfl, .inl ⟨stopped, rfl⟩⟩
  | stop =>
    simp only [Process.step] at stepped
    split at stepped <;> cases stepped
    exact ⟨rfl, .inr ⟨rfl, rfl⟩⟩
  | main =>
    simp only [Process.step] at stepped
    split at stepped
    · cases stepped
    next running =>
      exfalso
      apply running
      unfold Process.main at stepped
      split at stepped
      · cases stepped
        simpa using stopped
      · split at stepped <;> cases stepped <;> exact stopped

/-! ## What a step does to each part -/

/-- Everything a step of process `id` does to its peer `q`: the events it makes and the peer after
it, where `stack` is the stack before. -/
inductive Peer.Steps (id q : Nat) (stack : List (Frame κ)) (peer : Peer) :
    List (Event ε) → Peer → Prop
  /-- Nothing passes between the two. -/
  | quiet {es : List (Event ε)} : (∀ msg, .send q msg ∉ es) →
      (∀ msg, .deliver msg ∈ es → msg.sender ≠ q) → peer.Steps id q stack es peer
  | self {msg : Message} : q = id → peer.Steps id q stack
      [.send q (peer.stamp id msg), .deliver (peer.stamp id msg)] peer.advance
  | send {msg : Message} : q ≠ id → peer.Steps id q stack [.send q (peer.stamp id msg)]
      (peer.advance.enqueue (peer.stamp id msg))
  | ack {msg : Message} : .receive msg ∈ stack → msg.sender = q → isSyn msg = false →
      peer.Steps id q stack [] (peer.enqueue msg)
  | take {msg : Message} : .receive msg ∈ stack → msg.sender = q → isSyn msg →
      peer.delivered.contains (seqNum msg) = false →
      peer.Steps id q stack [.deliver msg] (peer.markDelivered (seqNum msg))
  | work {peer' : Peer} {sent : List Datagram} : peer.Works id q peer' sent →
      peer.Steps id q stack [] peer'

theorem Process.Steps.peer {client : Client σ κ ε} {id : Nat} {s : Process σ κ}
    {r : ProcessReaction σ κ ε} (steps : s.Steps client id r) (q : Nat) :
    (s.peers q).Steps id q s.stack r.events (r.state.peers q) := by
  cases steps with
  | poll | call | transmit | takeOld | client | stop => exact .quiet (by simp) (by simp)
  | @sendSelf msg stack running top =>
    apply setPeer_elim
    · intro same
      subst same
      exact .self rfl
    · intro other
      exact .quiet (by simp [other]) (by simp [Peer.stamp, Ne.symm other])
  | @sendPeer receiver msg stack running away top =>
    apply setPeer_elim
    · intro same
      subst same
      exact .send away
    · intro other
      exact .quiet (by simp [other]) (by simp)
  | @takeAck msg stack running top ack =>
    apply setPeer_elim
    · intro same
      subst same
      exact .ack (top ▸ List.mem_cons_self) rfl ack
    · intro other
      exact .quiet (by simp) (by simp)
  | @takeNew msg stack running top syn fresh =>
    apply setPeer_elim
    · intro same
      subst same
      exact .take (top ▸ List.mem_cons_self) rfl syn fresh
    · intro other
      exact .quiet (by simp) (by simp [Ne.symm other])
  | work works =>
    apply setPeer_elim
    · intro same
      subst same
      exact .work works
    · intro other
      exact .quiet (by simp) (by simp)

/-- Where a call on the stack comes from, after a step of process `id` from `s` that makes the
events `es`. -/
inductive Process.Pushed (s : Process σ κ) (id : Nat) (es : List (Event ε)) : Frame κ → Prop
  | old {f : Frame κ} : f ∈ s.stack → s.Pushed id es f
  | arrival {msg : Message} : msg ∈ s.messageQueue → s.Pushed id es (.receive msg)
  | request (call : Request κ) : s.Pushed id es call.frame
  | copy {receiver : Nat} {msg : Message} : receiver ≠ id → .send receiver msg ∈ es →
      s.Pushed id es (.transmit receiver msg)
  /-- A syn is acknowledged once it was handed over. -/
  | ack {msg : Message} : .receive msg ∈ s.stack →
      .deliver msg ∈ es ∨ (s.peers msg.sender).delivered.contains (seqNum msg) →
      s.Pushed id es (.transmit msg.sender (setAck msg))

theorem Process.Steps.pushed {client : Client σ κ ε} {id : Nat} {s : Process σ κ}
    {r : ProcessReaction σ κ ε} (steps : s.Steps client id r) {f : Frame κ}
    (mem : f ∈ r.state.stack) : s.Pushed id r.events f := by
  have below : ∀ {top : Frame κ} {stack : List (Frame κ)}, s.stack = top :: stack → f ∈ stack →
      s.Pushed id r.events f :=
    fun split mem => .old (split ▸ List.mem_cons_of_mem _ mem)
  cases steps with
  | work | stop => exact .old mem
  | poll running idle queue polled =>
    obtain rfl := List.mem_singleton.mp mem
    exact .arrival (queue ▸ List.mem_cons_self)
  | call running idle polled =>
    obtain ⟨c, -, rfl⟩ := List.mem_map.mp mem
    exact .request (.call c)
  | sendSelf running top =>
    rcases List.mem_cons.mp mem with rfl | old
    · exact .request (.call _)
    · exact below top old
  | sendPeer running other top =>
    rcases List.mem_cons.mp mem with rfl | old
    · exact .copy other List.mem_cons_self
    · exact below top old
  | transmit running top => exact below top mem
  | takeAck running top ack => exact below top mem
  | takeNew running top syn fresh =>
    simp only [push_stack, List.cons_append, List.nil_append, List.mem_cons] at mem
    rcases mem with rfl | rfl | old
    · exact .request (.call _)
    · exact .ack (top ▸ List.mem_cons_self) (.inl List.mem_cons_self)
    · exact below top old
  | takeOld running top syn seen =>
    rcases List.mem_cons.mp mem with rfl | old
    · exact .ack (top ▸ List.mem_cons_self) (.inr seen)
    · exact below top old
  | client running top =>
    rcases List.mem_append.mp mem with new | old
    · obtain ⟨call, -, rfl⟩ := List.mem_map.mp new
      exact .request call
    · exact below top old

/-- Only an arrival adds to the queue. -/
theorem Process.Steps.messageQueue {client : Client σ κ ε} {id : Nat} {s : Process σ κ}
    {r : ProcessReaction σ κ ε} (steps : s.Steps client id r) {msg : Message}
    (mem : msg ∈ r.state.messageQueue) : msg ∈ s.messageQueue := by
  cases steps with
  | poll running idle queue polled => exact queue ▸ List.mem_cons_of_mem _ mem
  | call | sendSelf | sendPeer | transmit | takeAck | takeNew | takeOld | client | work | stop =>
    exact mem

/-- A datagram comes from the main thread or from a worker. -/
theorem Process.Steps.sent {client : Client σ κ ε} {id : Nat} {s : Process σ κ}
    {r : ProcessReaction σ κ ε} (steps : s.Steps client id r) {d : Datagram} (mem : d ∈ r.sent) :
    (∃ receiver msg, .transmit receiver msg ∈ s.stack ∧ d = FairLossLink.send id receiver msg) ∨
      ∃ q peer sent, (s.peers q).Works id q peer sent ∧ d ∈ sent := by
  cases steps with
  | transmit running top =>
    left
    exact ⟨_, _, top ▸ List.mem_cons_self, List.mem_singleton.mp mem⟩
  | work works =>
    right
    exact ⟨_, _, _, works, mem⟩
  | poll | call | sendSelf | sendPeer | takeAck | takeNew | takeOld | client | stop => cases mem

end CausalBroadcast
