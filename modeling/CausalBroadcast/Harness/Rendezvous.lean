import Mathlib.Data.List.Nodup
import Mathlib.Data.List.Perm.Subperm
import CausalBroadcast.Async.Transitions
import CausalBroadcast.Wire.ByteStream
import CausalBroadcast.Wire.LittleEndian

/-!
# The barrier and the finish signal

The processes meet at a barrier before they broadcast, and report when they have broadcast everything.
Each connects to both servers and writes its id; the barrier closes all connections when it has read
an id from as many as it waits for, and the finish signal waits for each connection to be closed by
its process.

The steps of the processes, of both servers and of the network follow each other in any order, what is
written arrives in pieces, and a process may die at any moment.
-/

namespace CausalBroadcast.Rendezvous

open Async

/-! ## Ids on the wire -/

/-- `htonT` of a `uint64_t`, as it lies in memory. -/
def htonT (value : Nat) : List UInt8 := (LittleEndian.encode 8 value).reverse

/-- `struct.unpack('!Q', bytes)[0]`, `none` where it raises. -/
def unpack (bytes : List UInt8) : Option Nat :=
  if bytes.length = 8 then some (LittleEndian.decode bytes.reverse) else none

@[simp] theorem length_htonT (value : Nat) : (htonT value).length = 8 := by simp [htonT]

theorem unpack_htonT {value : Nat} (small : value < 2 ^ 64) : unpack (htonT value) = some value := by
  have inside : value % 256 ^ 8 = value := Nat.mod_eq_of_lt (by omega)
  unfold unpack htonT
  rw [if_pos (by simp), List.reverse_reverse, LittleEndian.decode_encode, inside]

/-! ## Processes -/

/-- Where the main thread of a process is. -/
inductive Place where
  /-- In the constructor of `Coordinator`, before it connects to the finish signal. -/
  | signalConnect
  | signalWrite
  /-- Before `udp::Socket socket(local_port(parser))`. -/
  | bind
  /-- In `waitOnBarrier`, before it connects to the barrier. -/
  | barrierConnect
  | barrierWrite
  | barrierRecv
  /-- Before `finishedBroadcasting`. -/
  | broadcasting
  | finished
  deriving DecidableEq

/-- How far a process has come. -/
def Place.stage : Place → Nat
  | .signalConnect => 0
  | .signalWrite => 1
  | .bind => 2
  | .barrierConnect => 3
  | .barrierWrite => 4
  | .barrierRecv => 5
  | .broadcasting => 6
  | .finished => 7

theorem Place.eq_finished {place : Place} (last : 7 ≤ place.stage) : place = .finished := by
  cases place <;> first | rfl | (simp [Place.stage] at last)

/-- A process: its connections to both servers, and whether the barrier has closed its own. -/
structure Party where
  place : Place := .signalConnect
  alive : Bool := true
  barrier : ByteStream
  released : Bool := false
  signal : ByteStream

/-! ## Servers -/

/-- Where `Barrier.wait` is. -/
inductive BarrierPlace where
  | accept
  | read (conn : Nat) (idInBytes : List UInt8)
  | close (rest : List (Nat × Nat))
  | done
  /-- An exception has ended the thread. -/
  | raised
  deriving DecidableEq

/-- `Barrier`. -/
structure Barrier where
  connections : List (Nat × Nat) := []
  startTimes : Nat → Option Nat := fun _ => none
  place : BarrierPlace := .accept

/-- What the finish signal selects: its listening socket, or a connection. -/
inductive Fd where
  | listener
  | conn (c : Nat)
  deriving DecidableEq

/-- The exceptions of `FinishedSignal.wait`. -/
inductive SignalError where
  | struct (data : List UInt8)
  | key (conn : Nat)
  | index (conn : Nat)
  | blocking
  deriving DecidableEq

/-- Where `FinishedSignal.wait` is. -/
inductive SignalPlace where
  | select
  | handle (events : List Fd)
  | done
  | raised (error : SignalError)
  deriving DecidableEq

/-- `FinishedSignal`. -/
structure FinishedSignal where
  waitFor : Int
  connections : List (Nat × List Nat) := []
  registered : List Nat := []
  endTimes : Nat → Option Nat := fun _ => none
  place : SignalPlace := .select

/-- The processes and the servers, each with the connections it has not accepted yet. -/
structure State where
  parties : Nat → Party
  barrierBacklog : List Nat := []
  barrier : Barrier := {}
  signalBacklog : List Nat := []
  signal : FinishedSignal

/-- Process `i` changes. -/
def State.set (s : State) (i : Nat) (party : Party) : State :=
  { s with parties := Function.update s.parties i party }

@[simp] theorem State.set_self (s : State) (i : Nat) (party : Party) :
    (s.set i party).parties i = party := Function.update_self ..

@[simp] theorem State.set_other (s : State) {i j : Nat} (other : j ≠ i) (party : Party) :
    (s.set i party).parties j = s.parties j := Function.update_of_ne other ..

/-! ## Steps -/

/-- What the environment chooses. -/
inductive Action where
  /-- The main thread of process `i` goes on; a `write` takes `k` bytes. -/
  | run (i k : Nat)
  | die (i : Nat)
  | barrierArrive (i k : Nat)
  | barrierEnd (i : Nat)
  | signalArrive (i k : Nat)
  | signalEnd (i : Nat)
  /-- `Barrier.wait` goes on. -/
  | barrier (time : Nat)
  /-- `FinishedSignal.wait` goes on; `select` finds `events`. -/
  | signal (events : List Fd) (time : Nat)
  deriving DecidableEq

/-- The main thread of process `i`, as far as it uses its `Coordinator`. -/
def runParty (i k : Nat) (s : State) : Option State :=
  let party := s.parties i
  match party.place with
  | .signalConnect =>
    some { s.set i { party with place := .signalWrite } with signalBacklog := s.signalBacklog ++ [i] }
  | .signalWrite =>
    if party.signal.unsent = [] then some (s.set i { party with place := .bind })
    else (party.signal.write k).map fun stream => s.set i { party with signal := stream }
  | .bind => some (s.set i { party with place := .barrierConnect })
  | .barrierConnect =>
    some { s.set i { party with place := .barrierWrite } with
      barrierBacklog := s.barrierBacklog ++ [i] }
  | .barrierWrite =>
    if party.barrier.unsent = [] then some (s.set i { party with place := .barrierRecv })
    else (party.barrier.write k).map fun stream => s.set i { party with barrier := stream }
  | .barrierRecv =>
    if party.released then
      some (s.set i { party with place := .broadcasting, barrier := party.barrier.close })
    else none
  | .broadcasting =>
    some (s.set i { party with place := .finished, signal := party.signal.close })
  | .finished => none

/-- The barrier closes its end of a connection. -/
def State.release (s : State) (i : Nat) : State :=
  s.set i { s.parties i with released := true }

/-- `Barrier.wait`. Where it raises, the connections it had accepted are closed with its frame. -/
def barrierStep (waitFor time : Nat) (s : State) : Option State :=
  match s.barrier.place with
  | .accept =>
    match s.barrierBacklog with
    | [] => none
    | c :: rest =>
      some { s with barrierBacklog := rest, barrier := { s.barrier with place := .read c [] } }
  | .read c idInBytes =>
    match (s.parties c).barrier.recv (8 - idInBytes.length) with
    | none => none
    | some ([], _) =>
      some { (s.barrier.connections.map Prod.snd ++ [c]).foldl State.release s with
        barrier := { s.barrier with place := .raised } }
    | some (data, stream) =>
      let s := s.set c { s.parties c with barrier := stream }
      let idInBytes := idInBytes ++ data
      if idInBytes.length < 8 then
        some { s with barrier := { s.barrier with place := .read c idInBytes } }
      else
        match unpack idInBytes with
        | none => none
        | some pid =>
          let connections := s.barrier.connections ++ [(pid, c)]
          some { s with barrier := { s.barrier with
            connections
            place := if connections.length = waitFor then .close connections else .accept } }
  | .close [] => some { s with barrier := { s.barrier with place := .done } }
  | .close ((pid, c) :: rest) =>
    some { s.release c with barrier := { s.barrier with
      startTimes := Function.update s.barrier.startTimes pid (some time)
      place := .close rest } }
  | .done | .raised => none

/-- The dictionary `connections` with an entry for `conn`. -/
def setEntry (conn : Nat) (value : List Nat) (connections : List (Nat × List Nat)) :
    List (Nat × List Nat) :=
  if conn ∈ connections.map Prod.fst then
    connections.map fun entry => if entry.1 = conn then (conn, value) else entry
  else connections ++ [(conn, value)]

/-- One entry of `connections`, at the end of `wait`. -/
def endTime (endTimes : Nat → Option Nat) (entry : Nat × List Nat) :
    Except Nat (Nat → Option Nat) :=
  match entry.2[0]?, entry.2[1]? with
  | some pid, some ts => .ok (Function.update endTimes pid (some ts))
  | _, _ => .error entry.1

/-- The loop of `FinishedSignal.wait` over its connections. -/
def collect (connections : List (Nat × List Nat)) : Except Nat (Nat → Option Nat) :=
  connections.foldlM endTime fun _ => none

/-- `select` finds the socket readable. -/
def State.readable (s : State) : Fd → Bool
  | .listener => s.signalBacklog ≠ []
  | .conn c =>
    c ∈ s.signal.registered && ((s.parties c).signal.buffer ≠ [] || (s.parties c).signal.ended)

/-- `FinishedSignal.wait`, with `accept` and `read`. -/
def signalStep (events : List Fd) (time : Nat) (s : State) : Option State :=
  match s.signal.place with
  | .select =>
    if 0 < s.signal.waitFor then
      if events ≠ [] ∧ events.Nodup ∧ ∀ e ∈ events, s.readable e then
        some { s with signal := { s.signal with place := .handle events } }
      else none
    else
      match collect s.signal.connections with
      | .ok endTimes => some { s with signal := { s.signal with endTimes, place := .done } }
      | .error c => some { s with signal := { s.signal with place := .raised (.index c) } }
  | .handle [] => some { s with signal := { s.signal with place := .select } }
  | .handle (.listener :: events) =>
    match s.signalBacklog with
    | [] => some { s with signal := { s.signal with place := .raised .blocking } }
    | c :: rest =>
      some { s with signalBacklog := rest, signal := { s.signal with
        registered := s.signal.registered ++ [c], place := .handle events } }
  | .handle (.conn c :: events) =>
    match (s.parties c).signal.recv 8 with
    | none => some { s with signal := { s.signal with place := .raised .blocking } }
    | some ([], _) =>
      match s.signal.connections.lookup c with
      | none => some { s with signal := { s.signal with place := .raised (.key c) } }
      | some value =>
        some { s with signal := { s.signal with
          connections := setEntry c (value ++ [time]) s.signal.connections
          registered := s.signal.registered.erase c
          waitFor := s.signal.waitFor - 1
          place := .handle events } }
    | some (data, stream) =>
      match unpack data with
      | none => some { s with signal := { s.signal with place := .raised (.struct data) } }
      | some pid =>
        some { s.set c { s.parties c with signal := stream } with signal := { s.signal with
          connections := setEntry c [pid] s.signal.connections, place := .handle events } }
  | .done | .raised _ => none

/-- One step of the processes `0 .. processes - 1`, the servers and the network. -/
def next (processes : Nat) : Action → State → Option State
  | .run i k, s => if i < processes ∧ (s.parties i).alive then runParty i k s else none
  | .die i, s =>
    if i < processes ∧ (s.parties i).alive then
      some (s.set i { s.parties i with
        alive := false
        barrier := (s.parties i).barrier.close
        signal := (s.parties i).signal.close })
    else none
  | .barrierArrive i k, s =>
    ((s.parties i).barrier.arrive k).map fun stream => s.set i { s.parties i with barrier := stream }
  | .barrierEnd i, s =>
    (s.parties i).barrier.finish.map fun stream => s.set i { s.parties i with barrier := stream }
  | .signalArrive i k, s =>
    ((s.parties i).signal.arrive k).map fun stream => s.set i { s.parties i with signal := stream }
  | .signalEnd i, s =>
    (s.parties i).signal.finish.map fun stream => s.set i { s.parties i with signal := stream }
  | .barrier time, s => barrierStep processes time s
  | .signal events time, s => signalStep events time s

/-- Process `i` has the id `i + 1`, and both servers wait for all. -/
def system (processes : Nat) : Transitions State Action where
  start := {
    parties := fun i => {
      barrier := { unsent := htonT (i + 1) }
      signal := { unsent := htonT (i + 1) } }
    signal := { waitFor := processes } }
  next := next processes

/-! ## What a process does to its connections -/

/-- A process by itself. -/
structure Party.Ok (party : Party) : Prop where
  barrier : party.barrier.Sound
  signal : party.signal.Sound
  barrierSent : 5 ≤ party.place.stage → party.barrier.unsent = []
  signalSent : 2 ≤ party.place.stage → party.signal.unsent = []
  barrierClosed : party.barrier.closed → party.alive = false ∨ 6 ≤ party.place.stage
  signalClosed : party.signal.closed → party.alive = false ∨ 7 ≤ party.place.stage
  passed : 6 ≤ party.place.stage → party.released

/-- A process after a step of its own or of the network. -/
structure Party.Later (party party' : Party) : Prop where
  stage : party.place.stage ≤ party'.place.stage
  released : party'.released = party.released
  barrier : party.barrier.Later party'.barrier
  signal : party.signal.Later party'.signal
  dead : party.alive = false → party'.alive = false ∧ party'.place = party.place ∧
    party'.barrier.unsent = party.barrier.unsent ∧ party'.signal.unsent = party.signal.unsent

/-- What the steps of the processes and of the network do. -/
inductive Moved (processes : Nat) (s : State) : State → Prop
  | move {i : Nat} {party : Party} : (s.parties i).Later party →
      ((s.parties i).Ok → party.Ok) → Moved processes s (s.set i party)
  | connectSignal {i : Nat} : i < processes → (s.parties i).place = .signalConnect →
      Moved processes s { s.set i { s.parties i with place := .signalWrite } with
        signalBacklog := s.signalBacklog ++ [i] }
  | connectBarrier {i : Nat} : i < processes → (s.parties i).place = .barrierConnect →
      Moved processes s { s.set i { s.parties i with place := .barrierWrite } with
        barrierBacklog := s.barrierBacklog ++ [i] }

variable {n i k : Nat} {s s' : State}

/-- The main thread goes on. -/
theorem Party.Ok.advance {party : Party} (ok : party.Ok) {place : Place}
    (later : party.place.stage ≤ place.stage)
    (barrierSent : 5 ≤ place.stage → party.barrier.unsent = [])
    (signalSent : 2 ≤ place.stage → party.signal.unsent = [])
    (passed : 6 ≤ place.stage → party.released) : { party with place }.Ok where
  barrier := ok.barrier
  signal := ok.signal
  barrierSent := barrierSent
  signalSent := signalSent
  barrierClosed closed := (ok.barrierClosed closed).imp_right later.trans'
  signalClosed closed := (ok.signalClosed closed).imp_right later.trans'
  passed := passed

theorem moved_of_runParty (inside : i < n) (alive : (s.parties i).alive)
    (ran : runParty i k s = some s') : Moved n s s' := by
  have lives : (s.parties i).alive ≠ false := by simp [alive]
  unfold runParty at ran
  dsimp only at ran
  split at ran
  case h_1 place => cases ran; exact .connectSignal inside place
  case h_2 place =>
    split at ran
    case isTrue sent =>
      cases ran
      refine .move ⟨by simp [place, Place.stage], rfl, .refl _, .refl _, fun dead => absurd dead lives⟩
        fun ok => ok.advance (by simp [place, Place.stage]) ?_ (fun _ => sent) ?_
      · simp [Place.stage]
      · simp [Place.stage]
    case isFalse =>
      obtain ⟨stream, written, rfl⟩ := Option.map_eq_some_iff.mp ran
      exact .move ⟨le_rfl, rfl, .refl _, ByteStream.later_write written, fun dead => absurd dead lives⟩
        fun ok => { ok with
          signal := ok.signal.write written
          signalSent := by simp [place, Place.stage]
          signalClosed := by simp [ByteStream.closed_of_write written] }
  case h_3 place =>
    cases ran
    refine .move ⟨by simp [place, Place.stage], rfl, .refl _, .refl _, fun dead => absurd dead lives⟩
      fun ok => ok.advance (by simp [place, Place.stage]) ?_ (fun _ => ?_) ?_
    · simp [Place.stage]
    · exact ok.signalSent (by simp [place, Place.stage])
    · simp [Place.stage]
  case h_4 place => cases ran; exact .connectBarrier inside place
  case h_5 place =>
    split at ran
    case isTrue sent =>
      cases ran
      refine .move ⟨by simp [place, Place.stage], rfl, .refl _, .refl _, fun dead => absurd dead lives⟩
        fun ok => ok.advance (by simp [place, Place.stage]) (fun _ => sent) (fun _ => ?_) ?_
      · exact ok.signalSent (by simp [place, Place.stage])
      · simp [Place.stage]
    case isFalse =>
      obtain ⟨stream, written, rfl⟩ := Option.map_eq_some_iff.mp ran
      exact .move ⟨le_rfl, rfl, ByteStream.later_write written, .refl _, fun dead => absurd dead lives⟩
        fun ok => { ok with
          barrier := ok.barrier.write written
          barrierSent := by simp [place, Place.stage]
          barrierClosed := by simp [ByteStream.closed_of_write written] }
  case h_6 place =>
    split at ran <;> cases ran
    case isTrue released =>
      refine .move ⟨by simp [place, Place.stage], rfl, ByteStream.later_close _, .refl _,
        fun dead => absurd dead lives⟩ fun ok => ?_
      have passed : ({ s.parties i with place := .broadcasting } : Party).Ok := by
        refine ok.advance (by simp [place, Place.stage]) (fun _ => ?_) (fun _ => ?_) fun _ => released
        · exact ok.barrierSent (by simp [place, Place.stage])
        · exact ok.signalSent (by simp [place, Place.stage])
      exact { passed with
        barrier := ok.barrier.close
        barrierClosed := fun _ => .inr le_rfl }
  case h_7 place =>
    cases ran
    refine .move ⟨by simp [place, Place.stage], rfl, .refl _, ByteStream.later_close _,
      fun dead => absurd dead lives⟩ fun ok => ?_
    have finished : ({ s.parties i with place := .finished } : Party).Ok := by
      refine ok.advance (by simp [place, Place.stage]) (fun _ => ?_) (fun _ => ?_) fun _ => ?_
      · exact ok.barrierSent (by simp [place, Place.stage])
      · exact ok.signalSent (by simp [place, Place.stage])
      · exact ok.passed (by simp [place, Place.stage])
    exact { finished with
      signal := ok.signal.close
      signalClosed := fun _ => .inr le_rfl }
  case h_8 place => cases ran

theorem moved_of_die (alive : (s.parties i).alive) : Moved n s (s.set i { s.parties i with
    alive := false
    barrier := (s.parties i).barrier.close
    signal := (s.parties i).signal.close }) := by
  refine .move ⟨le_rfl, rfl, ByteStream.later_close _, ByteStream.later_close _, fun dead => ?_⟩
    fun ok => { ok with
      barrier := ok.barrier.close
      signal := ok.signal.close
      barrierClosed := fun _ => .inl rfl
      signalClosed := fun _ => .inl rfl }
  exact absurd dead (by simp [alive])

/-- A step of the network on the way to the barrier. -/
theorem moved_of_barrier {stream : ByteStream} (later : (s.parties i).barrier.Later stream)
    (writer : stream.unsent = (s.parties i).barrier.unsent ∧
      stream.closed = (s.parties i).barrier.closed)
    (sound : (s.parties i).barrier.Sound → stream.Sound) :
    Moved n s (s.set i { s.parties i with barrier := stream }) :=
  .move ⟨le_rfl, rfl, later, .refl _, fun dead => ⟨dead, rfl, writer.1, rfl⟩⟩ fun ok => { ok with
    barrier := sound ok.barrier
    barrierSent := fun sent => writer.1.trans (ok.barrierSent sent)
    barrierClosed := fun ended => ok.barrierClosed (writer.2 ▸ ended) }

/-- A step of the network on the way to the finish signal. -/
theorem moved_of_signal {stream : ByteStream} (later : (s.parties i).signal.Later stream)
    (writer : stream.unsent = (s.parties i).signal.unsent ∧
      stream.closed = (s.parties i).signal.closed)
    (sound : (s.parties i).signal.Sound → stream.Sound) :
    Moved n s (s.set i { s.parties i with signal := stream }) :=
  .move ⟨le_rfl, rfl, .refl _, later, fun dead => ⟨dead, rfl, rfl, writer.1⟩⟩ fun ok => { ok with
    signal := sound ok.signal
    signalSent := fun sent => writer.1.trans (ok.signalSent sent)
    signalClosed := fun ended => ok.signalClosed (writer.2 ▸ ended) }

/-- A step is one of a server or one of the others. -/
theorem moved_of_next {a : Action} (stepped : next n a s = some s') :
    Moved n s s' ∨ (∃ time, barrierStep n time s = some s') ∨
      ∃ events time, signalStep events time s = some s' := by
  cases a with
  | run i k =>
    simp only [next] at stepped
    split at stepped
    case isTrue able => exact .inl (moved_of_runParty able.1 able.2 stepped)
    case isFalse => cases stepped
  | die i =>
    simp only [next] at stepped
    split at stepped
    case isTrue able =>
      cases stepped
      exact .inl (moved_of_die able.2)
    case isFalse => cases stepped
  | barrierArrive i k =>
    obtain ⟨stream, arrived, rfl⟩ := Option.map_eq_some_iff.mp stepped
    exact .inl (moved_of_barrier (ByteStream.later_arrive arrived) (ByteStream.writer_arrive arrived)
      fun sound => sound.arrive arrived)
  | barrierEnd i =>
    obtain ⟨stream, finished, rfl⟩ := Option.map_eq_some_iff.mp stepped
    exact .inl (moved_of_barrier (ByteStream.later_finish finished) (ByteStream.writer_finish finished)
      fun _ => ByteStream.sound_finish finished)
  | signalArrive i k =>
    obtain ⟨stream, arrived, rfl⟩ := Option.map_eq_some_iff.mp stepped
    exact .inl (moved_of_signal (ByteStream.later_arrive arrived) (ByteStream.writer_arrive arrived)
      fun sound => sound.arrive arrived)
  | signalEnd i =>
    obtain ⟨stream, finished, rfl⟩ := Option.map_eq_some_iff.mp stepped
    exact .inl (moved_of_signal (ByteStream.later_finish finished) (ByteStream.writer_finish finished)
      fun _ => ByteStream.sound_finish finished)
  | barrier time => exact .inr (.inl ⟨time, stepped⟩)
  | signal events time => exact .inr (.inr ⟨events, time, stepped⟩)

/-! ## The barrier -/

/-- A process died before it had written its id to the barrier. -/
def Party.Early (party : Party) : Prop := party.alive = false ∧ party.barrier.unsent ≠ []

/-- The connections the barrier has accepted. -/
def Barrier.accepted (b : Barrier) : List Nat :=
  b.connections.map Prod.snd ++ match b.place with
    | .read c _ => [c]
    | _ => []

/-- How far the barrier has come. -/
def Barrier.Phase (n : Nat) (parties : Nat → Party) (b : Barrier) : Prop :=
  match b.place with
  | .accept | .read _ _ => b.connections.length < n ∧ (∀ pid, b.startTimes pid = none) ∧
      ∀ i, (parties i).released = false
  | .close rest => b.connections.length = n ∧ ∃ started, b.connections = started ++ rest ∧
      ∀ pid, (b.startTimes pid).isSome ↔ pid ∈ started.map Prod.fst
  | .done => b.connections.length = n ∧
      ∀ pid, (b.startTimes pid).isSome ↔ pid ∈ b.connections.map Prod.fst
  | .raised => False

/-- What the barrier has counted, while no exception was raised. -/
structure Barrier.Meets (n : Nat) (parties : Nat → Party) (backlog : List Nat) (b : Barrier) :
    Prop where
  nodup : (b.accepted ++ backlog).Nodup
  connected : ∀ c ∈ b.accepted ++ backlog, c < n ∧ 4 ≤ (parties c).place.stage
  unread : ∀ i, i ∉ b.accepted → (parties i).barrier.pending = htonT (i + 1)
  reading : ∀ c idInBytes, b.place = .read c idInBytes →
    idInBytes.length < 8 ∧ idInBytes ++ (parties c).barrier.pending = htonT (c + 1)
  counted : ∀ e ∈ b.connections, e.1 = e.2 + 1 ∧ (parties e.2).barrier.pending = []
  phase : b.Phase n parties

/-- What the barrier has done, or why it raised. -/
def Barrier.Inv (n : Nat) (parties : Nat → Party) (backlog : List Nat) (b : Barrier) : Prop :=
  b.Meets n parties backlog ∨ b.place = .raised ∧ ∃ j < n, (parties j).Early

/-- The barrier sees no difference but later stages. -/
structure Unchanged (parties parties' : Nat → Party) : Prop where
  stage : ∀ i, (parties i).place.stage ≤ (parties' i).place.stage
  pending : ∀ i, (parties' i).barrier.pending = (parties i).barrier.pending
  released : ∀ i, (parties' i).released = (parties i).released
  early : ∀ i, (parties i).Early → (parties' i).Early

variable {parties parties' : Nat → Party} {backlog : List Nat} {b : Barrier}

theorem Party.Later.early {party party' : Party} (later : party.Later party') (early : party.Early) :
    party'.Early := by
  obtain ⟨dead, -, unsent, -⟩ := later.dead early.1
  exact ⟨dead, unsent ▸ early.2⟩

theorem unchanged_set {party : Party} (stage : (parties i).place.stage ≤ party.place.stage)
    (pending : party.barrier.pending = (parties i).barrier.pending)
    (released : party.released = (parties i).released) (early : (parties i).Early → party.Early) :
    Unchanged parties (Function.update parties i party) where
  stage j := by
    by_cases same : j = i
    · subst same
      rwa [Function.update_self]
    · rw [Function.update_of_ne same]
  pending j := by
    by_cases same : j = i
    · subst same
      rwa [Function.update_self]
    · rw [Function.update_of_ne same]
  released j := by
    by_cases same : j = i
    · subst same
      rwa [Function.update_self]
    · rw [Function.update_of_ne same]
  early j := by
    by_cases same : j = i
    · subst same
      rwa [Function.update_self]
    · rw [Function.update_of_ne same]
      exact id

theorem Barrier.Inv.unchanged (inv : b.Inv n parties backlog) (same : Unchanged parties parties') :
    b.Inv n parties' backlog := by
  refine inv.imp (fun meets => ?_) fun raised => ?_
  · refine ⟨meets.nodup, fun c mem => ?_, fun i away => ?_, fun c idInBytes place => ?_,
      fun e mem => ?_, ?_⟩
    · obtain ⟨inside, stage⟩ := meets.connected c mem
      exact ⟨inside, stage.trans (same.stage c)⟩
    · rw [same.pending, meets.unread i away]
    · rw [same.pending]
      exact meets.reading c idInBytes place
    · rw [same.pending]
      exact meets.counted e mem
    · have phase := meets.phase
      unfold Phase at phase ⊢
      cases place : b.place with
      | accept | read =>
        simp only [place] at phase ⊢
        exact ⟨phase.1, phase.2.1, fun i => (same.released i).trans (phase.2.2 i)⟩
      | close | done => simpa only [place] using phase
      | raised => simp only [place] at phase
  · obtain ⟨place, j, inside, early⟩ := raised
    exact ⟨place, j, inside, same.early j early⟩

theorem Barrier.Inv.connect (inv : b.Inv n parties backlog) (inside : i < n)
    (stage : (parties i).place.stage = 3) {party : Party} (later : party.place.stage = 4)
    (pending : party.barrier = (parties i).barrier) (released : party.released = (parties i).released)
    (alive : party.alive = (parties i).alive) :
    b.Inv n (Function.update parties i party) (backlog ++ [i]) := by
  have same : Unchanged parties (Function.update parties i party) := by
    refine unchanged_set (by omega) (congrArg _ pending) released fun early => ?_
    exact ⟨alive.trans early.1, pending ▸ early.2⟩
  refine (inv.unchanged same).imp (fun meets => ?_) id
  have fresh : i ∉ b.accepted ++ backlog := by
    intro mem
    rcases inv with before | ⟨raised, -⟩
    · have := (before.connected i mem).2
      omega
    · have phase := meets.phase
      rw [Barrier.Phase, raised] at phase
      exact phase
  refine { meets with nodup := ?_, connected := fun c mem => ?_ }
  · rw [← List.append_assoc]
    refine List.nodup_append.mpr ⟨meets.nodup, List.nodup_singleton i, fun c mem d last => ?_⟩
    obtain rfl := List.mem_singleton.mp last
    exact fun same => fresh (same ▸ mem)
  · rw [← List.append_assoc] at mem
    rcases List.mem_append.mp mem with old | new
    · exact meets.connected c old
    · obtain rfl := List.mem_singleton.mp new
      rw [Function.update_self]
      exact ⟨inside, later.ge⟩

theorem Barrier.Inv.moved (inv : s.barrier.Inv n s.parties s.barrierBacklog)
    (moved : Moved n s s') : s'.barrier.Inv n s'.parties s'.barrierBacklog := by
  cases moved with
  | move later =>
    exact inv.unchanged (unchanged_set later.stage later.barrier.pending later.released later.early)
  | connectSignal inside place =>
    refine inv.unchanged (unchanged_set ?_ rfl rfl id)
    simp [place, Place.stage]
  | connectBarrier inside place =>
    exact inv.connect inside (by rw [place]; rfl) rfl rfl rfl rfl

theorem Barrier.Meets.accept {c : Nat} {rest : List Nat}
    (meets : b.Meets n parties (c :: rest)) (place : b.place = .accept) :
    { b with place := .read c [] }.Meets n parties rest := by
  have accepted : b.accepted = b.connections.map Prod.snd := by simp [Barrier.accepted, place]
  have accepted' : ({ b with place := .read c [] } : Barrier).accepted =
      b.connections.map Prod.snd ++ [c] := rfl
  have order : b.connections.map Prod.snd ++ [c] ++ rest = b.accepted ++ c :: rest := by
    rw [accepted, List.append_assoc]
    rfl
  have fresh : c ∉ b.accepted := fun mem =>
    (List.nodup_append.mp meets.nodup).2.2 c mem c List.mem_cons_self rfl
  refine ⟨?_, ?_, fun i away => meets.unread i fun mem => away ?_, fun d bytes read => ?_,
    meets.counted, ?_⟩
  · rw [accepted', order]
    exact meets.nodup
  · rw [accepted', order]
    exact meets.connected
  · rw [accepted', ← accepted]
    exact List.mem_append_left _ mem
  · cases read
    exact ⟨by simp, meets.unread c fresh⟩
  · simpa only [Phase, place] using meets.phase

/-- Bytes of the id of the connection that is read. -/
theorem Barrier.Meets.hear {c : Nat} {idInBytes data : List UInt8} {stream : ByteStream}
    (fits : n < 2 ^ 64) (meets : b.Meets n parties backlog) (place : b.place = .read c idInBytes)
    (received : (parties c).barrier.recv (8 - idInBytes.length) = some (data, stream)) :
    if (idInBytes ++ data).length < 8 then
      { b with place := .read c (idInBytes ++ data) }.Meets n
        (Function.update parties c { parties c with barrier := stream }) backlog
    else unpack (idInBytes ++ data) = some (c + 1) ∧
      { b with
        connections := b.connections ++ [(c + 1, c)]
        place := if (b.connections ++ [(c + 1, c)]).length = n
          then .close (b.connections ++ [(c + 1, c)]) else .accept }.Meets n
        (Function.update parties c { parties c with barrier := stream }) backlog := by
  obtain ⟨short, whole⟩ := meets.reading c idInBytes place
  rw [← ByteStream.pending_recv received, ← List.append_assoc] at whole
  have bound := ByteStream.recv_length received
  generalize party : ({ parties c with barrier := stream } : Party) = party'
  have other : ∀ i, i ≠ c → Function.update parties c party' i = parties i := fun i other =>
    Function.update_of_ne other ..
  have stage : ∀ i, (Function.update parties c party' i).place = (parties i).place := by
    intro i
    by_cases same : i = c
    · subst same
      rw [Function.update_self, ← party]
    · rw [other i same]
  have released : ∀ i, (Function.update parties c party' i).released = (parties i).released := by
    intro i
    by_cases same : i = c
    · subst same
      rw [Function.update_self, ← party]
    · rw [other i same]
  have accepted : b.accepted = b.connections.map Prod.snd ++ [c] := by
    simp [Barrier.accepted, place]
  have apart : ∀ e ∈ b.connections, e.2 ≠ c := by
    intro e mem same
    have nodup := (List.nodup_append.mp meets.nodup).1
    rw [accepted] at nodup
    exact (List.nodup_append.mp nodup).2.2 e.2 (List.mem_map_of_mem mem) c List.mem_cons_self same
  have phase := meets.phase
  simp only [Phase, place] at phase
  have counted : ∀ e ∈ b.connections, e.1 = e.2 + 1 ∧
      (Function.update parties c party' e.2).barrier.pending = [] := by
    intro e mem
    rw [other _ (apart e mem)]
    exact meets.counted e mem
  have connected : ∀ i ∈ b.accepted ++ backlog,
      i < n ∧ 4 ≤ (Function.update parties c party' i).place.stage := by
    intro i mem
    rw [stage]
    exact meets.connected i mem
  have unread : ∀ i, i ∉ b.accepted →
      (Function.update parties c party' i).barrier.pending = htonT (i + 1) := by
    intro i away
    rw [other i fun same => away (accepted ▸ same ▸ List.mem_append_right _ List.mem_cons_self)]
    exact meets.unread i away
  split
  case isTrue part =>
    have accepted' : ({ b with place := .read c (idInBytes ++ data) } : Barrier).accepted =
        b.accepted := accepted.symm
    refine ⟨accepted' ▸ meets.nodup, accepted' ▸ connected, accepted' ▸ unread,
      fun d bytes read => ?_, counted, phase.1, phase.2.1, fun i => ?_⟩
    · cases read
      rw [Function.update_self, ← party]
      exact ⟨part, whole⟩
    · rw [released]
      exact phase.2.2 i
  case isFalse full =>
    have size := congrArg List.length whole
    rw [List.length_append, length_htonT] at size
    have empty : stream.pending = [] := List.eq_nil_of_length_eq_zero (by omega)
    rw [empty, List.append_nil] at whole
    have mem : c ∈ b.accepted := accepted ▸ List.mem_append_right _ List.mem_cons_self
    have inside := (meets.connected c (List.mem_append_left _ mem)).1
    refine ⟨whole ▸ unpack_htonT (by omega), ?_⟩
    have counted' : ∀ e ∈ b.connections ++ [(c + 1, c)], e.1 = e.2 + 1 ∧
        (Function.update parties c party' e.2).barrier.pending = [] := by
      intro e mem
      rcases List.mem_append.mp mem with old | new
      · exact counted e old
      · obtain rfl := List.mem_singleton.mp new
        rw [Function.update_self, ← party]
        exact ⟨rfl, empty⟩
    have accepted' : ∀ place : BarrierPlace, (∀ d bytes, place ≠ .read d bytes) →
        ({ b with connections := b.connections ++ [(c + 1, c)], place } : Barrier).accepted =
          b.accepted := by
      intro place no
      rw [accepted, Barrier.accepted, List.map_append]
      cases place with
      | read d bytes => exact absurd rfl (no d bytes)
      | accept | close | done | raised => simp
    have length : (b.connections ++ [(c + 1, c)]).length = b.connections.length + 1 := by simp
    split
    case isTrue all =>
      have accepted' := accepted' (.close (b.connections ++ [(c + 1, c)])) (by simp)
      refine ⟨accepted' ▸ meets.nodup, accepted' ▸ connected, accepted' ▸ unread, ?_, counted', all,
        [], rfl, fun pid => ?_⟩
      · intro d bytes read
        cases read
      · simp [phase.2.1 pid]
    case isFalse more =>
      have accepted' := accepted' .accept (by simp)
      refine ⟨accepted' ▸ meets.nodup, accepted' ▸ connected, accepted' ▸ unread, ?_, counted', ?_,
        phase.2.1, fun i => ?_⟩
      · intro d bytes read
        cases read
      · have := phase.1
        dsimp only at more ⊢
        omega
      · rw [released]
        exact phase.2.2 i

/-- A connection that ends before the barrier has read an id. -/
theorem Barrier.Meets.early {c : Nat} {idInBytes : List UInt8} {stream : ByteStream}
    (meets : b.Meets n parties backlog) (ok : (parties c).Ok)
    (place : b.place = .read c idInBytes)
    (received : (parties c).barrier.recv (8 - idInBytes.length) = some ([], stream)) :
    c < n ∧ (parties c).Early := by
  obtain ⟨short, whole⟩ := meets.reading c idInBytes place
  obtain ⟨ended, empty, -⟩ := ByteStream.ended_of_recv_nil (by omega) received
  have accepted : c ∈ b.accepted := by simp [Barrier.accepted, place]
  have unsent : (parties c).barrier.unsent ≠ [] := by
    intro none_
    have size := congrArg List.length whole
    rw [ByteStream.pending, empty, ok.barrier.flight ended, none_, length_htonT] at size
    simp at size
    omega
  refine ⟨(meets.connected c (List.mem_append_left _ accepted)).1, ?_, unsent⟩
  rcases ok.barrierClosed (ok.barrier.closed ended) with dead | passed
  · exact dead
  · exact absurd (ok.barrierSent (by omega)) unsent

/-- One more connection is closed. -/
theorem Barrier.Meets.close {pid c time : Nat} {rest : List (Nat × Nat)}
    (meets : b.Meets n parties backlog) (place : b.place = .close ((pid, c) :: rest)) :
    { b with
      startTimes := Function.update b.startTimes pid (some time)
      place := .close rest }.Meets n
      (Function.update parties c { parties c with released := true }) backlog := by
  have same : ∀ i, (Function.update parties c { parties c with released := true } i).place =
        (parties i).place ∧
      (Function.update parties c { parties c with released := true } i).barrier =
        (parties i).barrier := by
    intro i
    by_cases here : i = c
    · subst here
      rw [Function.update_self]
      exact ⟨rfl, rfl⟩
    · rw [Function.update_of_ne here]
      exact ⟨rfl, rfl⟩
  have accepted : ({ b with
      startTimes := Function.update b.startTimes pid (some time)
      place := .close rest } : Barrier).accepted = b.accepted := by
    simp [Barrier.accepted, place]
  have phase := meets.phase
  simp only [Phase, place] at phase
  obtain ⟨all, started, parts, keys⟩ := phase
  refine ⟨accepted ▸ meets.nodup, fun i mem => ?_, fun i away => ?_, fun d bytes read => ?_,
    fun e mem => ?_, all, started ++ [(pid, c)], ?_, fun pid' => ?_⟩
  · rw [(same i).1]
    exact meets.connected i (accepted ▸ mem)
  · rw [(same i).2]
    exact meets.unread i (accepted ▸ away)
  · cases read
  · rw [(same e.2).2]
    exact meets.counted e mem
  · rw [List.append_assoc]
    exact parts
  · by_cases here : pid' = pid
    · subst here
      simp
    · show (Function.update b.startTimes pid (some time) pid').isSome ↔ _
      rw [Function.update_of_ne here, keys]
      simp [here]

theorem Barrier.Meets.finish (meets : b.Meets n parties backlog) (place : b.place = .close []) :
    { b with place := .done }.Meets n parties backlog := by
  have accepted : ({ b with place := .done } : Barrier).accepted = b.accepted := by
    simp [Barrier.accepted, place]
  have phase := meets.phase
  simp only [Phase, place] at phase
  obtain ⟨all, started, parts, keys⟩ := phase
  rw [List.append_nil] at parts
  refine ⟨accepted ▸ meets.nodup, accepted ▸ meets.connected, accepted ▸ meets.unread, ?_,
    meets.counted, all, parts ▸ keys⟩
  intro d bytes read
  cases read

/-- The connections the barrier drops when it raises. -/
theorem early_foldl_release {cs : List Nat} {j : Nat} (early : (s.parties j).Early) :
    ((cs.foldl State.release s).parties j).Early := by
  induction cs generalizing s with
  | nil => exact early
  | cons c cs ih =>
    refine ih ?_
    by_cases same : j = c
    · subst same
      rw [State.release, State.set_self]
      exact early
    · rwa [State.release, State.set_other s same]

/-- A step of the barrier. -/
theorem Barrier.Inv.step {time : Nat} (fits : n < 2 ^ 64) (ok : ∀ i, (s.parties i).Ok)
    (inv : s.barrier.Inv n s.parties s.barrierBacklog) (step : barrierStep n time s = some s') :
    s'.barrier.Inv n s'.parties s'.barrierBacklog := by
  rcases inv with meets | ⟨raised, -⟩
  case inr =>
    simp only [barrierStep, raised] at step
    cases step
  unfold barrierStep at step
  split at step
  case h_1 place =>
    split at step
    case h_1 => cases step
    case h_2 c rest waiting =>
      cases step
      rw [waiting] at meets
      exact .inl (meets.accept place)
  case h_2 c idInBytes place =>
    split at step
    case h_1 => cases step
    case h_2 received =>
      cases step
      obtain ⟨inside, early⟩ := meets.early (ok c) place received
      exact .inr ⟨rfl, c, inside, early_foldl_release early⟩
    case h_3 data stream _ received =>
      have heard := meets.hear fits place received
      dsimp only at step
      split at step
      case isTrue part =>
        cases step
        rw [if_pos part] at heard
        exact .inl heard
      case isFalse full =>
        rw [if_neg full] at heard
        rw [heard.1] at step
        cases step
        exact .inl heard.2
  case h_3 place =>
    cases step
    exact .inl (meets.finish place)
  case h_4 pid c rest place =>
    cases step
    exact .inl (meets.close place)
  case h_5 place => cases step
  case h_6 place => cases step

/-! ## Runs -/

theorem ok_set {party : Party} (ok : ∀ i, (s.parties i).Ok) (new : (s.parties i).Ok → party.Ok)
    (j : Nat) : ((s.set i party).parties j).Ok := by
  by_cases same : j = i
  · subst same
    rw [State.set_self]
    exact new (ok j)
  · rw [State.set_other s same]
    exact ok j

theorem ok_foldl_release {cs : List Nat} (ok : ∀ i, (s.parties i).Ok) :
    ∀ i, ((cs.foldl State.release s).parties i).Ok := by
  induction cs generalizing s with
  | nil => exact ok
  | cons c cs ih => exact ih (ok_set ok fun old => { old with passed := fun _ => rfl })

theorem Moved.ok (moved : Moved n s s') (ok : ∀ i, (s.parties i).Ok) (i : Nat) :
    (s'.parties i).Ok := by
  cases moved with
  | move later new => exact ok_set ok new i
  | connectSignal inside place =>
    refine ok_set ok (fun old => old.advance ?_ ?_ ?_ ?_) i <;> simp [place, Place.stage]
  | @connectBarrier c inside place =>
    refine ok_set ok (fun old => old.advance ?_ ?_ (fun _ => old.signalSent ?_) ?_) i <;>
      simp [place, Place.stage]

theorem ok_of_barrierStep {time : Nat} (ok : ∀ i, (s.parties i).Ok)
    (step : barrierStep n time s = some s') : ∀ i, (s'.parties i).Ok := by
  unfold barrierStep at step
  split at step
  case h_1 =>
    split at step <;> cases step
    exact ok
  case h_2 c idInBytes place =>
    split at step
    case h_1 => cases step
    case h_2 =>
      cases step
      exact ok_foldl_release ok
    case h_3 data stream _ received =>
      have heard : ∀ i, ((s.set c { s.parties c with barrier := stream }).parties i).Ok :=
        ok_set ok fun old => { old with
          barrier := old.barrier.recv received
          barrierSent := fun sent => (ByteStream.writer_recv received).1.trans (old.barrierSent sent)
          barrierClosed := fun closed =>
            old.barrierClosed ((ByteStream.writer_recv received).2.1 ▸ closed) }
      dsimp only at step
      split at step
      · cases step
        exact heard
      · split at step <;> cases step
        exact heard
  case h_3 =>
    cases step
    exact ok
  case h_4 =>
    cases step
    exact ok_set ok fun old => { old with passed := fun _ => rfl }
  case h_5 => cases step
  case h_6 => cases step

/-- The finish signal changes nothing that the barrier sees. -/
theorem signalStep_frame {events : List Fd} {time : Nat} (ok : ∀ i, (s.parties i).Ok)
    (step : signalStep events time s = some s') :
    (∀ i, (s'.parties i).Ok) ∧ Unchanged s.parties s'.parties ∧
      s'.barrierBacklog = s.barrierBacklog ∧ s'.barrier = s.barrier := by
  have idle : Unchanged s.parties s.parties :=
    ⟨fun _ => le_rfl, fun _ => rfl, fun _ => rfl, fun _ => id⟩
  unfold signalStep at step
  split at step
  case h_1 =>
    split at step
    · split at step <;> cases step
      exact ⟨ok, idle, rfl, rfl⟩
    · split at step <;> cases step
      · exact ⟨ok, idle, rfl, rfl⟩
      · exact ⟨ok, idle, rfl, rfl⟩
  case h_2 =>
    cases step
    exact ⟨ok, idle, rfl, rfl⟩
  case h_3 =>
    split at step <;> cases step
    · exact ⟨ok, idle, rfl, rfl⟩
    · exact ⟨ok, idle, rfl, rfl⟩
  case h_4 c events place =>
    split at step
    case h_1 =>
      cases step
      exact ⟨ok, idle, rfl, rfl⟩
    case h_2 =>
      split at step <;> cases step
      · exact ⟨ok, idle, rfl, rfl⟩
      · exact ⟨ok, idle, rfl, rfl⟩
    case h_3 data stream _ received =>
      split at step <;> cases step
      · exact ⟨ok, idle, rfl, rfl⟩
      · refine ⟨ok_set ok fun old => { old with
          signal := old.signal.recv received
          signalSent := fun sent => (ByteStream.writer_recv received).1.trans (old.signalSent sent)
          signalClosed := fun closed =>
            old.signalClosed ((ByteStream.writer_recv received).2.1 ▸ closed) },
          unchanged_set le_rfl rfl rfl id, rfl, rfl⟩
  case h_5 => cases step
  case h_6 => cases step

theorem ok_start (i : Nat) : ((system n).start.parties i).Ok :=
  ⟨⟨by simp [system], by simp [system]⟩, ⟨by simp [system], by simp [system]⟩,
    by simp [system, Place.stage], by simp [system, Place.stage], by simp [system], by simp [system],
    by simp [system, Place.stage]⟩

/-- The barrier in every run. -/
theorem barrier_inv (some_ : 0 < n) (fits : n < 2 ^ 64) (reach : (system n).Reachable s) :
    (∀ i, (s.parties i).Ok) ∧ s.barrier.Inv n s.parties s.barrierBacklog := by
  have meets : (system n).start.barrier.Meets n (system n).start.parties
      (system n).start.barrierBacklog :=
    ⟨by simp [system, Barrier.accepted], by simp [system, Barrier.accepted], fun i _ => rfl,
      fun c idInBytes place => (by cases place), fun e mem => (by cases mem), some_, fun _ => rfl,
      fun _ => rfl⟩
  refine reach.invariant (P := fun s => (∀ i, (s.parties i).Ok) ∧
    s.barrier.Inv n s.parties s.barrierBacklog) ⟨ok_start, .inl meets⟩ fun s a s' _ inv next => ?_
  obtain ⟨ok, inv⟩ := inv
  rcases moved_of_next next with moved | ⟨time, step⟩ | ⟨events, time, step⟩
  · exact ⟨moved.ok ok, inv.moved moved⟩
  · exact ⟨ok_of_barrierStep ok step, inv.step fits ok step⟩
  · obtain ⟨ok', same, backlog, barrier⟩ := signalStep_frame ok step
    exact ⟨ok', backlog ▸ barrier ▸ inv.unchanged same⟩

/-- Every process has its socket and has written its id to both servers. -/
def State.Met (s : State) (n : Nat) : Prop :=
  ∀ i < n, Place.bind.stage < (s.parties i).place.stage ∧ (s.parties i).signal.unsent = [] ∧
    (s.parties i).barrier.unsent = []

theorem Barrier.Meets.perm (meets : b.Meets n parties backlog) (full : b.connections.length = n) :
    (b.connections.map Prod.snd).Perm (List.range n) := by
  have nodup := (List.nodup_append.mp (List.nodup_append.mp meets.nodup).1).1
  have inside : b.connections.map Prod.snd ⊆ List.range n := fun c mem =>
    List.mem_range.mpr (meets.connected c (List.mem_append_left _ (List.mem_append_left _ mem))).1
  refine (nodup.subperm inside).perm_of_length_le ?_
  rw [List.length_range, List.length_map, full]

theorem Barrier.Meets.met (meets : s.barrier.Meets n s.parties s.barrierBacklog)
    (ok : ∀ i, (s.parties i).Ok) (full : s.barrier.connections.length = n) : s.Met n := by
  intro i inside
  have mem := (meets.perm full).mem_iff.mpr (List.mem_range.mpr inside)
  have stage := (meets.connected i (List.mem_append_left _ (List.mem_append_left _ mem))).2
  obtain ⟨e, entry, rfl⟩ := List.mem_map.mp mem
  have read := (meets.counted e entry).2
  exact ⟨Nat.lt_of_lt_of_le (by decide) stage, (ok e.2).signalSent (by omega),
    (List.append_eq_nil_iff.mp read).2⟩

/-- The ids of the processes. -/
theorem mem_map_succ_range {pid : Nat} : pid ∈ (List.range n).map (· + 1) ↔ 1 ≤ pid ∧ pid ≤ n := by
  rw [List.mem_map]
  constructor
  · rintro ⟨i, mem, rfl⟩
    have := List.mem_range.mp mem
    omega
  · intro inside
    exact ⟨pid - 1, List.mem_range.mpr (by omega), by omega⟩

/-- The barrier has counted the ids `1 .. n`. -/
theorem Barrier.Meets.mem_pids_iff (meets : b.Meets n parties backlog)
    (full : b.connections.length = n) (pid : Nat) :
    pid ∈ b.connections.map Prod.fst ↔ 1 ≤ pid ∧ pid ≤ n := by
  have pids : b.connections.map Prod.fst = (b.connections.map Prod.snd).map (· + 1) := by
    rw [List.map_map]
    exact List.map_congr_left fun e mem => (meets.counted e mem).1
  rw [pids, ((meets.perm full).map _).mem_iff]
  exact mem_map_succ_range

/-- **Nobody passes the barrier before all have come.** However the ids are torn apart on their way
and whoever dies, a process that has passed the barrier finds the sockets of all others bound, or one
of them died before it had written its id, which is also the only reason for the barrier to raise.
When it is done, it has a start time for each id and for no other. -/
theorem barrier_waits (some_ : 0 < n) (fits : n < 2 ^ 64) (reach : (system n).Reachable s) :
    (∀ i, Place.barrierRecv.stage < (s.parties i).place.stage →
      s.Met n ∨ ∃ j < n, (s.parties j).Early) ∧
    (s.barrier.place = .done →
      s.Met n ∧ ∀ pid, (s.barrier.startTimes pid).isSome ↔ 1 ≤ pid ∧ pid ≤ n) ∧
    (s.barrier.place = .raised → ∃ j < n, (s.parties j).Early) := by
  obtain ⟨ok, inv⟩ := barrier_inv some_ fits reach
  rcases inv with meets | ⟨raised, early⟩
  case inr =>
    refine ⟨fun _ _ => .inr early, fun done => ?_, fun _ => early⟩
    rw [raised] at done
    cases done
  have phase := meets.phase
  refine ⟨fun i passed => .inl ?_, fun done => ?_, fun raised => ?_⟩
  · have released := (ok i).passed passed
    cases place : s.barrier.place with
    | accept | read =>
      simp only [Barrier.Phase, place] at phase
      rw [phase.2.2 i] at released
      cases released
    | close | done =>
      simp only [Barrier.Phase, place] at phase
      exact meets.met ok phase.1
    | raised => simp only [Barrier.Phase, place] at phase
  · simp only [Barrier.Phase, done] at phase
    exact ⟨meets.met ok phase.1, fun pid => (phase.2 pid).trans (meets.mem_pids_iff phase.1 pid)⟩
  · simp only [Barrier.Phase, raised] at phase

/-- Two processes. -/
def pairSchedule : List Action :=
  (List.range 2).flatMap (fun i =>
    [.run i 0, .run i 8, .run i 0, .run i 0, .run i 0, .run i 3, .run i 5, .run i 0,
      .barrierArrive i 2, .barrierArrive i 6]) ++
  [.barrier 0, .barrier 0, .barrier 0, .barrier 0, .barrier 7, .barrier 8, .barrier 0,
    .run 0 0, .run 1 0]

theorem barrier_waits_of_pair : ∃ s, (system 2).Reachable s ∧ s.Met 2 ∧
    ∀ pid, (s.barrier.startTimes pid).isSome ↔ 1 ≤ pid ∧ pid ≤ 2 := by
  have ran : ((system 2).execute (system 2).start pairSchedule).any
      fun s => s.barrier.place = .done := by decide +kernel
  obtain ⟨s, reach, done⟩ := Transitions.exists_reachable ran
  exact ⟨s, reach, (barrier_waits (by decide) (by decide) reach).2.1 (of_decide_eq_true done)⟩

end CausalBroadcast.Rendezvous
