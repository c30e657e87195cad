import CausalBroadcast.Broadcast.Layers
import CausalBroadcast.Link.Calls

/-!
# A process of the system

`Node` is what `main` builds over the link: the broadcast layers, the logger, and the variables of
the main loop. `system` runs one on each process.
-/

namespace CausalBroadcast

/-- The state above the link. -/
structure Node where
  urb : UniformReliableBroadcast := {}
  lcb : LocalizedCausalBroadcast := {}
  log : Logger := {}
  nextMsg : Nat := 0
  subsequentRecvs : Nat

/-- What a layer does, in the state it is a part of. -/
def Outcome.lift {σ τ κ ε : Type} (place : σ → τ) (out : Outcome σ κ ε) : Outcome τ κ ε :=
  { out with state := place out.state }

namespace Node

/-- The body of a call. -/
def run (cfg : Config) (id : Nat) (call : Call) (s : Node) : Outcome Node Call Notice :=
  match call with
  | .lcbSend seqNum => (s.lcb.send cfg id seqNum).lift fun lcb => { s with lcb }
  | .urbSend seqNum msg => (s.urb.send id seqNum msg).lift fun urb => { s with urb }
  | .bebSend msg => BestEffortBroadcast.send cfg id msg s
  | .urbDeliver msg => (s.urb.deliver msg).lift fun urb => { s with urb }
  | .urbTryDeliver msg => (s.urb.tryDeliver cfg msg).lift fun urb => { s with urb }
  | .lcbDeliver msg => (s.lcb.deliver msg).lift fun lcb => { s with lcb }
  | .lcbScan it => (s.lcb.scan cfg it s.log).lift fun (lcb, log) => { s with lcb, log }
  | .logBroadcast seqNum =>
    { state := { s with log := s.log.logBroadcast seqNum, nextMsg := succ32 s.nextMsg }
      events := [.logBroadcast seqNum] }

/-- One turn of the main loop: while there are messages to broadcast, at most `num_messages` are
received between two of them; after that it only receives. -/
def loop (cfg : Config) (s : Node) (nonempty : Bool) : Option (Turn Node Call) :=
  if s.nextMsg < cfg.numMessages then
    if s.subsequentRecvs > 0 ∧ nonempty then
      some (.receive { s with subsequentRecvs := s.subsequentRecvs - 1 })
    else
      some (.call { s with subsequentRecvs := cfg.numMessages }
        [.lcbSend s.nextMsg, .logBroadcast s.nextMsg])
  else if nonempty then some (.receive s)
  else none

/-- The code above the link. `stop` flushes the log. -/
def client (cfg : Config) : Client Node Call Notice where
  init _ := { subsequentRecvs := cfg.numMessages }
  deliver := BestEffortBroadcast.deliver
  run := run cfg
  loop := loop cfg
  stop s := { s with log := s.log.flush }

/-! ### Everything a call can do -/

/-- Everything a call can do in process `id`. -/
inductive Runs (cfg : Config) (id : Nat) (s : Node) : Call → Outcome Node Call Notice → Prop
  /-- The message gets its vector clock. -/
  | lcbSend {seqNum : Nat} : s.Runs cfg id (.lcbSend seqNum)
      { state := s
        calls := [.call (.urbSend seqNum
          { vectorClock := (cfg.depends id).map s.lcb.currentClock })] }
  /-- The message gets its name, and is marked before it is sent. -/
  | urbSend {seqNum : Nat} {msg : Message} : s.Runs cfg id (.urbSend seqNum msg)
      { state := { s with urb := { s.urb with pending := s.urb.pending.insert (id, seqNum) } }
        calls := [.call (.bebSend { msg with originator := id, bcastSeqNum := seqNum })]
        events := [.urbSend { msg with originator := id, bcastSeqNum := seqNum }] }
  | bebSend {msg : Message} : s.Runs cfg id (.bebSend msg)
      { state := s
        calls := (cfg.connections id).map (.send · msg) ++ [.send id msg]
        events := [.bebSend msg] }
  /-- A message that was delivered is ignored. -/
  | ignore {msg : Message} : s.urb.delivered.contains msg.key → s.Runs cfg id (.urbDeliver msg)
      { state := s }
  /-- A message seen for the first time is counted and relayed. -/
  | first {msg : Message} : s.urb.delivered.contains msg.key = false →
      s.urb.pending.contains msg.key = false → s.Runs cfg id (.urbDeliver msg)
      { state := { s with urb := { s.urb with
          ack := s.urb.ack.insert msg.key (insert msg.sender (s.urb.acks msg.key))
          pending := s.urb.pending.insert msg.key } }
        calls := [.call (.bebSend msg), .call (.urbTryDeliver msg)] }
  /-- Another copy is counted. -/
  | count {msg : Message} : s.urb.delivered.contains msg.key = false →
      s.urb.pending.contains msg.key → s.Runs cfg id (.urbDeliver msg)
      { state := { s with urb := { s.urb with
          ack := s.urb.ack.insert msg.key (insert msg.sender (s.urb.acks msg.key)) } }
        calls := [.call (.urbTryDeliver msg)] }
  /-- There are enough copies. -/
  | quorum {msg : Message} : cfg.numProcesses / 2 < (s.urb.acks msg.key).card →
      s.Runs cfg id (.urbTryDeliver msg)
      { state := { s with urb := { s.urb with
          ack := (s.urb.ack.touch msg.key).erase msg.key
          delivered := s.urb.delivered.insert msg.key } }
        calls := [.call (.lcbDeliver msg)]
        events := [.urbDeliver msg] }
  | wait {msg : Message} : (s.urb.acks msg.key).card ≤ cfg.numProcesses / 2 →
      s.Runs cfg id (.urbTryDeliver msg)
      { state := { s with urb := { s.urb with ack := s.urb.ack.touch msg.key } } }
  /-- A message is put in its heap, and the loop starts. -/
  | hold {msg : Message} : s.Runs cfg id (.lcbDeliver msg)
      { state := { s with lcb := { s.lcb with
          pending := Function.update s.lcb.pending msg.originator
            ((s.lcb.pending msg.originator).push msg) } }
        calls := [.call (.lcbScan 0)] }
  /-- The top of a heap is delivered, and the loop starts again. -/
  | deliver {it : Nat} {msg : Message} : (s.lcb.pending it).top = some msg →
      s.lcb.canDeliver cfg msg → s.Runs cfg id (.lcbScan it)
      { state := { s with
          lcb := {
            pending := Function.update s.lcb.pending it (s.lcb.pending it).pop
            currentClock := Function.update s.lcb.currentClock msg.originator
              (succ32 (s.lcb.currentClock msg.originator)) }
          log := s.log.deliver msg }
        calls := [.call (.lcbScan 0)]
        events := [.lcbDeliver msg] }
  /-- The loop goes on to the next heap. -/
  | skip {it : Nat} :
      (∀ msg, (s.lcb.pending it).top = some msg → s.lcb.canDeliver cfg msg = false) →
      s.Runs cfg id (.lcbScan it) { state := s, calls := [.call (.lcbScan (it + 1))] }
  | finish {it : Nat} : cfg.numProcesses ≤ it → s.Runs cfg id (.lcbScan it) { state := s }
  | logBroadcast {seqNum : Nat} : s.Runs cfg id (.logBroadcast seqNum)
      { state := { s with log := s.log.logBroadcast seqNum, nextMsg := succ32 s.nextMsg }
        events := [.logBroadcast seqNum] }

theorem run_cases (cfg : Config) (id : Nat) (c : Call) (s : Node) :
    s.Runs cfg id c (run cfg id c s) := by
  cases c with
  | lcbSend seqNum => exact .lcbSend
  | urbSend seqNum msg => exact .urbSend
  | bebSend msg => exact .bebSend
  | lcbDeliver msg => exact .hold
  | logBroadcast seqNum => exact .logBroadcast
  | urbDeliver msg =>
    simp only [run, UniformReliableBroadcast.deliver]
    split
    next seen => exact .ignore seen
    next unseen =>
      rw [Bool.not_eq_true] at unseen
      split
      next fresh => exact .first unseen (by simpa using fresh)
      next held => exact .count unseen (by simpa using held)
  | urbTryDeliver msg =>
    have touched : UniformReliableBroadcast.acks
        { s.urb with ack := s.urb.ack.touch msg.key } msg.key = s.urb.acks msg.key :=
      UniformReliableBroadcast.acks_of_touch rfl msg.key
    simp only [run, UniformReliableBroadcast.tryDeliver, touched]
    split
    next many => exact .quorum many
    next few => exact .wait (Nat.le_of_not_lt few)
  | lcbScan it =>
    simp only [run, LocalizedCausalBroadcast.scan]
    split
    next inside =>
      split
      next msg top =>
        split
        next ready => exact .deliver top ready
        next waits =>
          refine .skip fun msg' top' => ?_
          rw [top, Option.some.injEq] at top'
          exact top' ▸ Bool.not_eq_true _ ▸ waits
      next empty => exact .skip fun msg top => by simp [empty] at top
    next outside => exact .finish (Nat.le_of_not_lt outside)

theorem client_run_cases (cfg : Config) (id : Nat) (c : Call) (s : Node) :
    s.Runs cfg id c ((client cfg).run id c s) := run_cases cfg id c s

end Node

/-- The system: every process of the configuration, over the network. -/
def system (cfg : Config) : Async.Machine Nat (Process Node Call) Act (Event Notice) Message :=
  linkMachine cfg.numProcesses (Node.client cfg)

/-- The worlds of the system. -/
abbrev SystemWorld := Async.World Nat (Process Node Call) (Event Notice) Message

/-- What has been observed of the system. -/
abbrev SystemHistory := List (Nat × Event Notice)

/-- `n` processes that broadcast `m` messages each and depend on none. -/
def Config.independent (n m : Nat) (two_le : 2 ≤ n) (le_max : n ≤ maxProcesses) (few : m < 2 ^ 32) :
    Config where
  numProcesses := n
  numMessages := m
  depends _ := []
  two_le := two_le
  le_max := le_max
  numMessages_lt := few
  depends_lt := nofun
  depends_length _ := Nat.zero_le _

/-- Three processes, with one message each. -/
def triangle : Config := .independent 3 1 (by decide) (by decide) (by decide)

/-- The main thread of process `p` takes `k` steps. -/
def mains (p k : Nat) : List (Async.Choice Nat Act Message) := List.replicate k (.act p .main)

/-- A copy of the first broadcast of the first process, as `sender` numbered it for a neighbour. -/
def firstCopy (sender : Nat) : Message := { sender }

/-- Two processes with one message each, the second of which depends on the first. -/
def follower : Config where
  numProcesses := 2
  numMessages := 1
  depends p := if p = 1 then [0] else []
  two_le := by decide
  le_max := by decide
  numMessages_lt := by decide
  depends_lt := by grind
  depends_length p := by split <;> decide

/-- A copy of the second process's broadcast, made after it delivered the first one's. -/
def secondCopy (sender : Nat) : Message :=
  { linkSeqNum := 1, originator := 1, sender, vectorClock := [1] }

/-- A run of the two to its end, in which the second waits for the first. -/
def followerSchedule : List (Async.Choice Nat Act Message) :=
  mains 0 10 ++ .arrive 1 (firstCopy 0) :: mains 1 26 ++ .arrive 0 (firstCopy 1) :: mains 0 9 ++
    .arrive 0 (secondCopy 1) :: mains 0 18 ++ .arrive 1 (secondCopy 0) :: mains 1 11

/-! ## What is observed of a process -/

/-- What `f` picks out of the notices of a process. -/
def pick {α : Type} (f : Notice → Option α) (es : List (Event Notice)) : List α :=
  es.filterMap fun
    | .client e => f e
    | .send .. | .deliver _ => none

section
variable {α : Type} (f : Notice → Option α)

@[simp] theorem pick_nil : pick f [] = [] := rfl

@[simp] theorem pick_append (es es' : List (Event Notice)) :
    pick f (es ++ es') = pick f es ++ pick f es' := List.filterMap_append

@[simp] theorem pick_send (q : Nat) (msg : Message) (es : List (Event Notice)) :
    pick f (.send q msg :: es) = pick f es := rfl

@[simp] theorem pick_deliver (msg : Message) (es : List (Event Notice)) :
    pick f (.deliver msg :: es) = pick f es := rfl

@[simp] theorem pick_client (e : Notice) (es : List (Event Notice)) :
    pick f (.client e :: es) = (f e).toList ++ pick f es := by
  simp only [pick, List.filterMap_cons]
  cases f e <;> rfl

@[simp] theorem pick_notices (notices : List Notice) :
    pick f (notices.map Event.client) = notices.filterMap f := by
  simp [pick, List.filterMap_map]

theorem mem_pick {x : α} {es : List (Event Notice)} :
    x ∈ pick f es ↔ ∃ e, .client e ∈ es ∧ f e = some x := by
  unfold pick
  rw [List.mem_filterMap]
  constructor
  · intro found
    obtain ⟨e, mem, read⟩ := found
    cases e with
    | client e => exact ⟨e, mem, read⟩
    | send | deliver => cases read
  · intro listed
    obtain ⟨e, mem, read⟩ := listed
    exact ⟨.client e, mem, read⟩

variable {f}

/-- Where `f` reads the notices `g x` as `x` and no others, it picks out these. -/
theorem mem_pick_of {g : α → Notice} {x : α} {es : List (Event Notice)}
    (reads : ∀ e, f e = some x ↔ e = g x) : x ∈ pick f es ↔ .client (g x) ∈ es := by
  rw [mem_pick]
  simp [reads]

end

/-- The message a notice says is broadcast, if it does. -/
@[simp] def Notice.urbSent : Notice → Option Message
  | .urbSend msg => some msg
  | .bebSend _ | .urbDeliver _ | .lcbDeliver _ | .logBroadcast _ => none

/-- The message a notice says URB delivers. -/
@[simp] def Notice.urbDelivered : Notice → Option Message
  | .urbDeliver msg => some msg
  | .urbSend _ | .bebSend _ | .lcbDeliver _ | .logBroadcast _ => none

/-- The message a notice says LCB delivers. -/
@[simp] def Notice.lcbDelivered : Notice → Option Message
  | .lcbDeliver msg => some msg
  | .urbSend _ | .bebSend _ | .urbDeliver _ | .logBroadcast _ => none

/-- The number of the broadcast a notice says is logged. -/
@[simp] def Notice.logged : Notice → Option Nat
  | .logBroadcast seqNum => some seqNum
  | .urbSend _ | .bebSend _ | .urbDeliver _ | .lcbDeliver _ => none

/-- The messages a process broadcasts, in order. -/
abbrev urbSends (es : List (Event Notice)) : List Message := pick Notice.urbSent es

/-- The messages URB delivers, in order. -/
abbrev urbDeliveries (es : List (Event Notice)) : List Message := pick Notice.urbDelivered es

/-- The messages LCB delivers, in order. -/
abbrev lcbDeliveries (es : List (Event Notice)) : List Message := pick Notice.lcbDelivered es

/-- The broadcasts the main loop logs, in order. -/
abbrev loggedBroadcasts (es : List (Event Notice)) : List Nat := pick Notice.logged es

section
variable {msg : Message} {seqNum : Nat} {es es' : List (Event Notice)}

@[simp] theorem mem_urbSends : msg ∈ urbSends es ↔ .client (.urbSend msg) ∈ es :=
  mem_pick_of fun e => by cases e <;> simp

@[simp] theorem mem_urbDeliveries : msg ∈ urbDeliveries es ↔ .client (.urbDeliver msg) ∈ es :=
  mem_pick_of fun e => by cases e <;> simp

@[simp] theorem mem_lcbDeliveries : msg ∈ lcbDeliveries es ↔ .client (.lcbDeliver msg) ∈ es :=
  mem_pick_of fun e => by cases e <;> simp

@[simp] theorem mem_loggedBroadcasts :
    seqNum ∈ loggedBroadcasts es ↔ .client (.logBroadcast seqNum) ∈ es :=
  mem_pick_of fun e => by cases e <;> simp

end

end CausalBroadcast
