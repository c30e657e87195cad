import Mathlib.Data.Finmap
import Mathlib.Data.List.MinMax

/-!
# Messages

One struct travels through every layer: each reads and writes its own fields of it. The machine
integers of the source are natural numbers here, and the places that count up say where they wrap.
-/

namespace CausalBroadcast

/-- `MAX_PROCESSES`. -/
def maxProcesses : Nat := 128

/-- `x++` on a `LinkSeqNum`, a `uint64_t`. -/
def succ64 (x : Nat) : Nat := (x + 1) % 2 ^ 64

/-- `x + 1` and `x++` on a `BroadcastSeqNum`, a `uint32_t`. -/
def succ32 (x : Nat) : Nat := (x + 1) % 2 ^ 32

/-- `VectorClock`: the first `size()` entries of its `StaticVec`. -/
abbrev VectorClock := List Nat

/-- `Message`. -/
structure Message where
  /-- a `LinkSeqNum` -/
  linkSeqNum : Nat := 0
  /-- a `BroadcastSeqNum` -/
  bcastSeqNum : Nat := 0
  /-- a `ProcessId`, like `sender`: the position of a host in the hosts file -/
  originator : Nat := 0
  sender : Nat := 0
  vectorClock : VectorClock := []
  deriving DecidableEq, Repr

/-- What `BroadcastMessageHash` and `BroadcastMessageCompare` see of a message. -/
abbrev BroadcastKey := Nat × Nat

/-- The broadcast a message is a copy of. -/
def Message.key (msg : Message) : BroadcastKey := (msg.originator, msg.bcastSeqNum)

/-- What the broadcast layers put in a message, and the link below them must not touch. -/
def Message.payload (msg : Message) : BroadcastKey × VectorClock := (msg.key, msg.vectorClock)

theorem Message.key_eq_of_payload {msg msg' : Message} (same : msg.payload = msg'.payload) :
    msg.key = msg'.key := congrArg Prod.fst same

theorem Message.originator_eq_of_payload {msg msg' : Message} (same : msg.payload = msg'.payload) :
    msg.originator = msg'.originator := congrArg Prod.fst (key_eq_of_payload same)

theorem Message.bcastSeqNum_eq_of_payload {msg msg' : Message}
    (same : msg.payload = msg'.payload) : msg.bcastSeqNum = msg'.bcastSeqNum :=
  congrArg Prod.snd (key_eq_of_payload same)

theorem Message.vectorClock_eq_of_payload {msg msg' : Message}
    (same : msg.payload = msg'.payload) : msg.vectorClock = msg'.vectorClock :=
  congrArg Prod.snd same

/-! ## `BroadcastMessageHashMap` -/

/-- `BroadcastMessageHashMap<T>`. -/
abbrev BroadcastMessageHashMap (T : Type) := Finmap fun _ : BroadcastKey => T

namespace BroadcastMessageHashMap

variable {T : Type}

/-- The value under a key, a value-initialised one where there is none. -/
def get [EmptyCollection T] (map : BroadcastMessageHashMap T) (key : BroadcastKey) : T :=
  (map.lookup key).getD ∅

/-- `operator[]`, which inserts a value-initialised entry where there is none. -/
def touch [EmptyCollection T] (map : BroadcastMessageHashMap T) (key : BroadcastKey) :
    BroadcastMessageHashMap T :=
  map.insert key (map.get key)

variable [EmptyCollection T]

@[simp] theorem get_empty (key : BroadcastKey) : get (∅ : BroadcastMessageHashMap T) key = ∅ := by
  simp [get]

@[simp] theorem get_insert_self (map : BroadcastMessageHashMap T) (key : BroadcastKey) (v : T) :
    get (map.insert key v) key = v := by
  simp [get]

theorem get_insert (map : BroadcastMessageHashMap T) (key key' : BroadcastKey) (v : T) :
    get (map.insert key v) key' = if key' = key then v else map.get key' := by
  split
  next eq => subst eq; simp
  next ne => simp [get, Finmap.lookup_insert_of_ne _ ne]

@[simp] theorem get_touch (map : BroadcastMessageHashMap T) (key key' : BroadcastKey) :
    (map.touch key).get key' = map.get key' := by
  rw [touch, get_insert]
  split
  next eq => rw [eq]
  next => rfl

theorem get_erase (map : BroadcastMessageHashMap T) (key key' : BroadcastKey) :
    get (map.erase key) key' = if key' = key then ∅ else map.get key' := by
  split
  next eq => subst eq; simp [get]
  next ne => simp [get, Finmap.lookup_erase_ne ne]

end BroadcastMessageHashMap

/-! ## `BroadcastMessageHeap` -/

/-- `BroadcastMessageHeap`: a priority queue with the lowest sequence number on top. -/
abbrev BroadcastMessageHeap := List Message

namespace BroadcastMessageHeap

/-- `top`, `none` on an empty heap. -/
def top (heap : BroadcastMessageHeap) : Option Message := List.argmin Message.bcastSeqNum heap

/-- `push`. -/
def push (heap : BroadcastMessageHeap) (msg : Message) : BroadcastMessageHeap := msg :: heap

/-- `pop`. -/
def pop (heap : BroadcastMessageHeap) : BroadcastMessageHeap :=
  match heap.top with
  | some msg => List.erase heap msg
  | none => heap

theorem mem_of_top {heap : BroadcastMessageHeap} {msg : Message} (h : heap.top = some msg) :
    msg ∈ heap := List.argmin_mem h

theorem le_of_top {heap : BroadcastMessageHeap} {msg other : Message} (h : heap.top = some msg)
    (mem : other ∈ heap) : msg.bcastSeqNum ≤ other.bcastSeqNum := List.le_of_mem_argmin mem h

theorem top_eq_none {heap : BroadcastMessageHeap} : heap.top = none ↔ heap = [] :=
  List.argmin_eq_none

theorem pop_of_top {heap : BroadcastMessageHeap} {msg : Message} (h : heap.top = some msg) :
    heap.pop = List.erase heap msg := by
  simp [pop, h]

end BroadcastMessageHeap

end CausalBroadcast
