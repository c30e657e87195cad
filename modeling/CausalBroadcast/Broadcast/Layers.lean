import CausalBroadcast.Broadcast.Config
import CausalBroadcast.Link.Process
import CausalBroadcast.Logger
import CausalBroadcast.RollingSet

/-!
# The broadcast layers

Best effort, uniform reliable and localized causal broadcast, each as the calls it answers: what a
call does to the layer's own state, and the calls it goes on to make.

A call is a `Call`, because the layers call each other both ways: `send` goes down to the link,
`deliver` comes up from it, and a message a process sends to itself comes up before `send` returns.
-/

namespace CausalBroadcast

/-- A call the main thread makes above the link. -/
inductive Call where
  /-- `LocalizedCausalBroadcast::send` -/
  | lcbSend (seqNum : Nat)
  /-- `UniformReliableBroadcast::send` -/
  | urbSend (seqNum : Nat) (msg : Message)
  /-- `BestEffortBroadcast::send` -/
  | bebSend (msg : Message)
  /-- `UniformReliableBroadcast::deliver` -/
  | urbDeliver (msg : Message)
  /-- `UniformReliableBroadcast::try_deliver` -/
  | urbTryDeliver (msg : Message)
  /-- `LocalizedCausalBroadcast::deliver` -/
  | lcbDeliver (msg : Message)
  /-- The loop of `LocalizedCausalBroadcast::deliver`, from the heap of process `it` on. -/
  | lcbScan (it : Nat)
  /-- `log.log_broadcast(next_msg); next_msg++` -/
  | logBroadcast (seqNum : Nat)
  deriving DecidableEq

/-- What the layers are observed by: the messages each sends and delivers, as it does so. -/
inductive Notice where
  | urbSend (msg : Message)
  | bebSend (msg : Message)
  | urbDeliver (msg : Message)
  | lcbDeliver (msg : Message)
  | logBroadcast (seqNum : Nat)
  deriving DecidableEq

/-! ## Best effort broadcast -/

namespace BestEffortBroadcast

/-- `BestEffortBroadcast::send`: to every neighbour, then to itself. -/
def send {σ : Type} (cfg : Config) (id : Nat) (msg : Message) (s : σ) : Outcome σ Call Notice where
  state := s
  calls := (cfg.connections id).map (.send · msg) ++ [.send id msg]
  events := [.bebSend msg]

/-- `BestEffortBroadcast::deliver`: the observer's `deliver`. -/
def deliver (msg : Message) : Call := .urbDeliver msg

end BestEffortBroadcast

/-! ## Uniform reliable broadcast -/

/-- `std::vector<RollingBitset>`: for each originator, the sequence numbers seen. -/
abbrev SeenSets := Nat → RollingBitset

namespace SeenSets

/-- `insert`. -/
def insert (set : SeenSets) (key : BroadcastKey) : SeenSets :=
  Function.update set key.1 ((set key.1).insert key.2)

/-- `contains`. -/
def contains (set : SeenSets) (key : BroadcastKey) : Bool := (set key.1).contains key.2

@[simp] theorem contains_insert {set : SeenSets} {key key' : BroadcastKey} :
    (set.insert key).contains key' ↔ key' = key ∨ set.contains key' := by
  obtain ⟨o, k⟩ := key
  obtain ⟨o', k'⟩ := key'
  by_cases same : o' = o
  · subst same
    simp [contains, insert]
  · simp [contains, insert, same]

end SeenSets

/-- `UniformReliableBroadcast`: for each broadcast the processes a copy came from, and the
broadcasts relayed and delivered. -/
structure UniformReliableBroadcast where
  ack : BroadcastMessageHashMap (Finset Nat) := ∅
  pending : SeenSets := fun _ => {}
  delivered : SeenSets := fun _ => {}

namespace UniformReliableBroadcast

/-- `ack[msg].count()`. -/
def acks (urb : UniformReliableBroadcast) (key : BroadcastKey) : Finset Nat := urb.ack.get key

section
variable {urb urb' : UniformReliableBroadcast} {key : BroadcastKey}

/-- The copies counted after an entry was written. -/
theorem acks_of_insert {S : Finset Nat} (written : urb'.ack = urb.ack.insert key S)
    (key' : BroadcastKey) : urb'.acks key' = if key' = key then S else urb.acks key' := by
  unfold acks
  rw [written, BroadcastMessageHashMap.get_insert]

/-- No copies are counted after an entry was erased. -/
theorem acks_of_erase (erased : urb'.ack = (urb.ack.touch key).erase key) (key' : BroadcastKey) :
    urb'.acks key' = if key' = key then ∅ else urb.acks key' := by
  unfold acks
  rw [erased, BroadcastMessageHashMap.get_erase, BroadcastMessageHashMap.get_touch]

/-- Reading an entry makes one, and counts nothing. -/
theorem acks_of_touch (touched : urb'.ack = urb.ack.touch key) (key' : BroadcastKey) :
    urb'.acks key' = urb.acks key' := by
  unfold acks
  rw [touched, BroadcastMessageHashMap.get_touch]

end

/-- `UniformReliableBroadcast::send`. -/
def send (id seqNum : Nat) (msg : Message) (urb : UniformReliableBroadcast) :
    Outcome UniformReliableBroadcast Call Notice :=
  let msg := { msg with originator := id, bcastSeqNum := seqNum }
  { state := { urb with pending := urb.pending.insert msg.key }
    calls := [.call (.bebSend msg)]
    events := [.urbSend msg] }

/-- `UniformReliableBroadcast::try_deliver`. -/
def tryDeliver (cfg : Config) (msg : Message) (urb : UniformReliableBroadcast) :
    Outcome UniformReliableBroadcast Call Notice :=
  let urb := { urb with ack := urb.ack.touch msg.key }
  if (urb.acks msg.key).card > cfg.numProcesses / 2 then
    { state := { urb with
        delivered := urb.delivered.insert msg.key
        ack := urb.ack.erase msg.key }
      calls := [.call (.lcbDeliver msg)]
      events := [.urbDeliver msg] }
  else { state := urb }

/-- `UniformReliableBroadcast::deliver`. -/
def deliver (msg : Message) (urb : UniformReliableBroadcast) :
    Outcome UniformReliableBroadcast Call Notice :=
  if urb.delivered.contains msg.key then { state := urb }
  else
    let urb := { urb with ack := urb.ack.insert msg.key (insert msg.sender (urb.acks msg.key)) }
    if ¬ urb.pending.contains msg.key then
      { state := { urb with pending := urb.pending.insert msg.key }
        calls := [.call (.bebSend msg), .call (.urbTryDeliver msg)] }
    else { state := urb, calls := [.call (.urbTryDeliver msg)] }

end UniformReliableBroadcast

/-! ## Localized causal broadcast -/

/-- `LocalizedCausalBroadcast`: for each originator the messages waiting, and how many were
delivered. -/
structure LocalizedCausalBroadcast where
  pending : Nat → BroadcastMessageHeap := fun _ => []
  currentClock : Nat → Nat := fun _ => 0

namespace LocalizedCausalBroadcast

/-- `LocalizedCausalBroadcast::send`. -/
def send (cfg : Config) (id seqNum : Nat) (lcb : LocalizedCausalBroadcast) :
    Outcome LocalizedCausalBroadcast Call Notice :=
  let msg : Message := { vectorClock := (cfg.depends id).map lcb.currentClock }
  { state := lcb, calls := [.call (.urbSend seqNum msg)] }

/-- `LocalizedCausalBroadcast::can_deliver`. -/
def canDeliver (cfg : Config) (msg : Message) (lcb : LocalizedCausalBroadcast) : Bool :=
  if msg.bcastSeqNum > lcb.currentClock msg.originator then false
  else (msg.vectorClock.zip (cfg.depends msg.originator)).all fun (num, processId) =>
    num ≤ lcb.currentClock processId

/-- `LocalizedCausalBroadcast::deliver`, up to its loop. -/
def deliver (msg : Message) (lcb : LocalizedCausalBroadcast) :
    Outcome LocalizedCausalBroadcast Call Notice where
  state := { lcb with
    pending := Function.update lcb.pending msg.originator ((lcb.pending msg.originator).push msg) }
  calls := [.call (.lcbScan 0)]

/-- One round of the loop of `LocalizedCausalBroadcast::deliver`, at the heap of process `it`: the
observer is the logger. -/
def scan (cfg : Config) (it : Nat) (lcb : LocalizedCausalBroadcast) (log : Logger) :
    Outcome (LocalizedCausalBroadcast × Logger) Call Notice :=
  if it < cfg.numProcesses then
    match (lcb.pending it).top with
    | some msg =>
      if lcb.canDeliver cfg msg then
        let clock := lcb.currentClock
        { state :=
            ({ pending := Function.update lcb.pending it (lcb.pending it).pop
               currentClock :=
                Function.update clock msg.originator (succ32 (clock msg.originator)) },
              log.deliver msg)
          calls := [.call (.lcbScan 0)]
          events := [.lcbDeliver msg] }
      else { state := (lcb, log), calls := [.call (.lcbScan (it + 1))] }
    | none => { state := (lcb, log), calls := [.call (.lcbScan (it + 1))] }
  else { state := (lcb, log) }

end LocalizedCausalBroadcast

end CausalBroadcast
