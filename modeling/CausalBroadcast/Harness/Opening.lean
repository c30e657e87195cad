import Mathlib.Algebra.Order.BigOperators.Group.Finset
import CausalBroadcast.Harness.Rendezvous

/-!
# The barrier opens

While nobody dies, the processes, the network and the barrier cannot go on for ever, and where none of
them can go on, all have passed. A process waits for the barrier, and the barrier waits for a
connection or for the rest of an id, so whoever is behind can go on.
-/

namespace CausalBroadcast.Rendezvous

open Async

variable {n i : Nat} {s s' : State} {party : Party} {b : Barrier}

/-- A step of a process, of the barrier, or of what is on its way to the barrier. -/
def Action.onward (n : Nat) : Action → Bool
  | .run .. | .barrier _ => true
  | .barrierArrive i _ => i < n
  | .die _ | .barrierEnd _ | .signalArrive .. | .signalEnd _ | .signal .. => false

/-! ## No schedule goes on for ever -/

/-- A bound on what can still happen to a process and its connections. -/
def Party.togo (party : Party) : Nat :=
  (7 - party.place.stage) + party.signal.unsent.length +
    (3 * party.barrier.unsent.length + 2 * party.barrier.flight.length + party.barrier.buffer.length)

/-- A bound on the steps of the barrier, but for those that only read. -/
def Barrier.togo (n : Nat) (b : Barrier) : Nat :=
  match b.place with
  | .accept => n + 2 + 2 * (n - b.connections.length)
  | .read .. => n + 1 + 2 * (n - b.connections.length)
  | .close rest => rest.length + 1
  | .done | .raised => 0

def State.togo (n : Nat) (s : State) : Nat :=
  ∑ i ∈ Finset.range n, (s.parties i).togo + s.barrier.togo n

/-- The sum over all processes where one of them has changed. -/
theorem sum_update_add (weight : Party → Nat) {parties : Nat → Party} (inside : i < n) :
    ∑ j ∈ Finset.range n, weight (Function.update parties i party j) + weight (parties i) =
      ∑ j ∈ Finset.range n, weight (parties j) + weight party := by
  have mem : i ∈ Finset.range n := Finset.mem_range.mpr inside
  have others : ∑ j ∈ (Finset.range n).erase i, weight (Function.update parties i party j) =
      ∑ j ∈ (Finset.range n).erase i, weight (parties j) := by
    refine Finset.sum_congr rfl fun j away => ?_
    rw [Function.update_of_ne (Finset.ne_of_mem_erase away)]
  rw [← Finset.sum_erase_add _ _ mem, ← Finset.sum_erase_add _ (fun j => weight (parties j)) mem,
    others, Function.update_self]
  omega

theorem sum_update_lt {parties : Nat → Party} (inside : i < n)
    (less : party.togo < (parties i).togo) :
    ∑ j ∈ Finset.range n, (Function.update parties i party j).togo <
      ∑ j ∈ Finset.range n, (parties j).togo := by
  have sum := @sum_update_add n i party Party.togo parties inside
  omega

theorem sum_update_eq {parties : Nat → Party} (same : party.togo = (parties i).togo) :
    ∑ j ∈ Finset.range n, (Function.update parties i party j).togo =
      ∑ j ∈ Finset.range n, (parties j).togo := by
  refine Finset.sum_congr rfl fun j _ => ?_
  by_cases here : j = i
  · subst here
    rw [Function.update_self, same]
  · rw [Function.update_of_ne here]

theorem togo_set (same : party.togo = (s.parties i).togo) : (s.set i party).togo n = s.togo n :=
  congrArg (· + s.barrier.togo n) (sum_update_eq same)

/-- A step of a process brings it on. -/
theorem togo_runParty {k : Nat} (inside : i < n) (ran : runParty i k s = some s') :
    s'.togo n < s.togo n := by
  have moves : ∀ {party : Party}, party.togo < (s.parties i).togo → s'.barrier = s.barrier →
      s'.parties = Function.update s.parties i party → s'.togo n < s.togo n := by
    intro party less barrier parties
    rw [State.togo, State.togo, barrier, parties]
    exact Nat.add_lt_add_right (sum_update_lt inside less) _
  unfold runParty at ran
  dsimp only at ran
  split at ran
  case h_1 place | h_3 place | h_4 place =>
    cases ran
    exact moves (by simp [Party.togo, place, Place.stage]) rfl rfl
  case h_2 place =>
    split at ran
    case isTrue =>
      cases ran
      exact moves (by simp [Party.togo, place, Place.stage]) rfl rfl
    case isFalse =>
      obtain ⟨stream, written, rfl⟩ := Option.map_eq_some_iff.mp ran
      unfold ByteStream.write at written
      split at written <;> cases written
      case isTrue able =>
        refine moves ?_ rfl rfl
        simp only [Party.togo, List.length_drop]
        omega
  case h_5 place =>
    split at ran
    case isTrue =>
      cases ran
      exact moves (by simp [Party.togo, place, Place.stage]) rfl rfl
    case isFalse =>
      obtain ⟨stream, written, rfl⟩ := Option.map_eq_some_iff.mp ran
      unfold ByteStream.write at written
      split at written <;> cases written
      case isTrue able =>
        refine moves ?_ rfl rfl
        simp only [Party.togo, List.length_drop, List.length_append, List.length_take]
        omega
  case h_6 place =>
    split at ran <;> cases ran
    exact moves (by simp [Party.togo, place, Place.stage, ByteStream.close]) rfl rfl
  case h_7 place =>
    cases ran
    exact moves (by simp [Party.togo, place, Place.stage, ByteStream.close]) rfl rfl
  case h_8 => cases ran

theorem togo_release (s : State) (c : Nat) :
    ∑ j ∈ Finset.range n, ((s.release c).parties j).togo =
      ∑ j ∈ Finset.range n, (s.parties j).togo :=
  sum_update_eq rfl

theorem togo_foldl_release (cs : List Nat) (s : State) :
    ∑ j ∈ Finset.range n, ((cs.foldl State.release s).parties j).togo =
      ∑ j ∈ Finset.range n, (s.parties j).togo := by
  induction cs generalizing s with
  | nil => rfl
  | cons c cs ih => rw [List.foldl_cons, ih, togo_release]

theorem togo_recv {k : Nat} {data : List UInt8} {stream : ByteStream} (some_ : data ≠ [])
    (received : party.barrier.recv k = some (data, stream)) :
    { party with barrier := stream }.togo < party.togo := by
  unfold ByteStream.recv at received
  split at received
  · split at received <;> cases received
    exact absurd rfl some_
  · case isFalse full =>
      cases received
      have taken := List.length_pos_iff.mpr some_
      have there := List.length_pos_iff.mpr full
      rw [List.length_take] at taken
      simp only [Party.togo, List.length_drop]
      omega

/-- The barrier has one connection less to wait for. -/
theorem Barrier.togo_count {c : Nat} {idInBytes : List UInt8} (place : b.place = .read c idInBytes)
    (room : b.connections.length < n) (entry : Nat × Nat) :
    ({ b with
      connections := b.connections ++ [entry]
      place := if (b.connections ++ [entry]).length = n
        then .close (b.connections ++ [entry]) else .accept } : Barrier).togo n < b.togo n := by
  have count : (b.connections ++ [entry]).length = b.connections.length + 1 := by simp
  have before : b.togo n = n + 1 + 2 * (n - b.connections.length) := by
    simp only [togo, place]
  rw [before]
  by_cases all : (b.connections ++ [entry]).length = n
  · rw [if_pos all]
    show (b.connections ++ [entry]).length + 1 < _
    omega
  · rw [if_neg all]
    show n + 2 + 2 * (n - (b.connections ++ [entry]).length) < _
    omega

/-- A step of the barrier brings it on. -/
theorem togo_barrierStep {time : Nat} (inv : s.barrier.Inv n s.parties s.barrierBacklog)
    (step : barrierStep n time s = some s') : s'.togo n < s.togo n := by
  rcases inv with meets | ⟨raised, -⟩
  case inr =>
    simp only [barrierStep, raised] at step
    cases step
  have phase := meets.phase
  unfold barrierStep at step
  split at step
  case h_1 place =>
    split at step <;> cases step
    simp [State.togo, Barrier.togo, place]
  case h_2 c idInBytes place =>
    have inside : c < n :=
      (meets.connected c (List.mem_append_left _ (by simp [Barrier.accepted, place]))).1
    simp only [Barrier.Phase, place] at phase
    split at step
    case h_1 => cases step
    case h_2 =>
      cases step
      rw [State.togo, State.togo]
      simp only [togo_foldl_release]
      simp [Barrier.togo, place]
    case h_3 data stream more received =>
      have read : ∑ j ∈ Finset.range n, (Function.update s.parties c
          { s.parties c with barrier := stream } j).togo <
            ∑ j ∈ Finset.range n, (s.parties j).togo := by
        refine sum_update_lt inside (togo_recv (fun none_ => ?_) received)
        exact more none_
      dsimp only at step
      split at step
      case isTrue =>
        cases step
        simp only [State.togo, Barrier.togo, place]
        exact Nat.add_lt_add_right read _
      case isFalse =>
        split at step <;> cases step
        case h_2 pid _ =>
          exact Nat.add_lt_add read (Barrier.togo_count place phase.1 (pid, c))
  case h_3 place =>
    cases step
    simp [State.togo, Barrier.togo, place]
  case h_4 pid c rest place =>
    cases step
    simp only [State.togo, Barrier.togo, place, togo_release]
    simp
  case h_5 place => cases step
  case h_6 place => cases step

theorem togo_next {a : Action} (some_ : 0 < n) (fits : n < 2 ^ 64)
    (reach : (system n).Reachable s) (onward : a.onward n) (next : (system n).next a s = some s') :
    s'.togo n < s.togo n := by
  cases a with
  | run i k =>
    simp only [system, Rendezvous.next] at next
    split at next
    case isTrue able => exact togo_runParty able.1 next
    case isFalse => cases next
  | barrier time => exact togo_barrierStep (barrier_inv some_ fits reach).2 next
  | barrierArrive i k =>
    obtain ⟨stream, arrived, rfl⟩ := Option.map_eq_some_iff.mp next
    unfold ByteStream.arrive at arrived
    split at arrived
    case isFalse => cases arrived
    case isTrue able =>
      cases arrived
      refine Nat.add_lt_add_right (sum_update_lt (of_decide_eq_true onward) ?_) _
      simp only [Party.togo, List.length_drop, List.length_append, List.length_take]
      omega
  | die | barrierEnd | signalArrive | signalEnd | signal => cases onward

/-- The finish signal only reads. -/
theorem party_signalStep {events : List Fd} {time : Nat} (step : signalStep events time s = some s')
    (i : Nat) : ∃ stream : ByteStream, stream.unsent = (s.parties i).signal.unsent ∧
      stream.closed = (s.parties i).signal.closed ∧
      s'.parties i = { s.parties i with signal := stream } := by
  unfold signalStep at step
  split at step
  case h_1 =>
    split at step
    · split at step <;> cases step
      exact ⟨_, rfl, rfl, rfl⟩
    · split at step <;> cases step <;> exact ⟨_, rfl, rfl, rfl⟩
  case h_2 =>
    cases step
    exact ⟨_, rfl, rfl, rfl⟩
  case h_3 =>
    split at step <;> cases step <;> exact ⟨_, rfl, rfl, rfl⟩
  case h_4 c events place =>
    split at step
    case h_1 =>
      cases step
      exact ⟨_, rfl, rfl, rfl⟩
    case h_2 => split at step <;> cases step <;> exact ⟨_, rfl, rfl, rfl⟩
    case h_3 received =>
      split at step <;> cases step
      · exact ⟨_, rfl, rfl, rfl⟩
      · by_cases same : i = c
        · subst same
          obtain ⟨unsent, closed, -⟩ := ByteStream.writer_recv received
          exact ⟨_, unsent, closed, State.set_self ..⟩
        · exact ⟨_, rfl, rfl, State.set_other s same _⟩
  case h_5 => cases step
  case h_6 => cases step

theorem togo_signalStep {events : List Fd} {time : Nat} (ok : ∀ i, (s.parties i).Ok)
    (step : signalStep events time s = some s') : s'.togo n = s.togo n := by
  obtain ⟨-, -, -, barrier⟩ := signalStep_frame ok step
  have others : ∀ j ∈ Finset.range n, (s'.parties j).togo = (s.parties j).togo := by
    intro j _
    obtain ⟨stream, unsent, -, party⟩ := party_signalStep step j
    simp only [Party.togo, party, unsent]
  rw [State.togo, State.togo, barrier, Finset.sum_congr rfl others]

/-- No other step puts it back. -/
theorem togo_next_le {a : Action} (some_ : 0 < n) (fits : n < 2 ^ 64)
    (reach : (system n).Reachable s) (next : (system n).next a s = some s') :
    s'.togo n ≤ s.togo n := by
  by_cases onward : a.onward n
  · exact (togo_next some_ fits reach onward next).le
  cases a with
  | run | barrier => exact absurd rfl onward
  | die i =>
    simp only [system, Rendezvous.next] at next
    split at next <;> cases next
    exact Nat.le_of_eq (togo_set rfl)
  | barrierArrive i k =>
    obtain ⟨stream, -, rfl⟩ := Option.map_eq_some_iff.mp next
    have outside : ∀ j < n, j ≠ i := by
      rintro j inside rfl
      exact onward (decide_eq_true inside)
    have others : ∀ j ∈ Finset.range n,
        ((s.set i { s.parties i with barrier := stream }).parties j).togo =
          (s.parties j).togo := by
      intro j mem
      rw [State.set_other s (outside j (Finset.mem_range.mp mem))]
    exact Nat.add_le_add_right (Finset.sum_congr rfl others).le _
  | barrierEnd i =>
    obtain ⟨stream, finished, rfl⟩ := Option.map_eq_some_iff.mp next
    unfold ByteStream.finish at finished
    split at finished <;> cases finished
    exact Nat.le_of_eq (togo_set rfl)
  | signalArrive i k =>
    obtain ⟨stream, arrived, rfl⟩ := Option.map_eq_some_iff.mp next
    refine Nat.le_of_eq (togo_set ?_)
    simp only [Party.togo, (ByteStream.writer_arrive arrived).1]
  | signalEnd i =>
    obtain ⟨stream, finished, rfl⟩ := Option.map_eq_some_iff.mp next
    refine Nat.le_of_eq (togo_set ?_)
    simp only [Party.togo, (ByteStream.writer_finish finished).1]
  | signal events time =>
    exact (togo_signalStep (barrier_inv some_ fits reach).1 next).le

/-! ## Nobody is lost sight of -/

/-- The connections the barrier has still to close are those it has not closed. -/
def Barrier.Closes (parties : Nat → Party) (b : Barrier) : Prop :=
  match b.place with
  | .close rest => ∀ e ∈ b.connections, (parties e.2).released ∨ e ∈ rest
  | .done => ∀ e ∈ b.connections, (parties e.2).released
  | .accept | .read .. | .raised => True

/-- The barrier knows of all that have connected, or has them in its backlog. -/
structure Barrier.Tracks (n : Nat) (parties : Nat → Party) (backlog : List Nat) (b : Barrier) :
    Prop where
  connected : b.place ≠ .raised → ∀ i < n, 4 ≤ (parties i).place.stage → i ∈ b.accepted ++ backlog
  closes : b.Closes parties

variable {parties parties' : Nat → Party} {backlog : List Nat}

theorem Barrier.Closes.mono (closes : b.Closes parties)
    (released : ∀ i, (parties i).released → (parties' i).released) : b.Closes parties' := by
  unfold Closes at closes ⊢
  split at closes
  · exact fun e mem => (closes e mem).imp_left (released e.2)
  · exact fun e mem => released e.2 (closes e mem)
  all_goals trivial

theorem Barrier.Tracks.unchanged (tracks : b.Tracks n parties backlog)
    (crossed : ∀ i, 4 ≤ (parties' i).place.stage → 4 ≤ (parties i).place.stage)
    (released : ∀ i, (parties i).released → (parties' i).released) : b.Tracks n parties' backlog :=
  ⟨fun meets i inside far => tracks.connected meets i inside (crossed i far),
    tracks.closes.mono released⟩

/-- A process that does not come to the barrier. -/
theorem Barrier.Tracks.set (tracks : b.Tracks n parties backlog)
    (crossed : 4 ≤ party.place.stage → 4 ≤ (parties i).place.stage)
    (released : (parties i).released → party.released) :
    b.Tracks n (Function.update parties i party) backlog := by
  refine tracks.unchanged (fun j far => ?_) fun j free => ?_
  · by_cases same : j = i
    · subst same
      rw [Function.update_self] at far
      exact crossed far
    · rwa [Function.update_of_ne same] at far
  · by_cases same : j = i
    · subst same
      rw [Function.update_self]
      exact released free
    · rwa [Function.update_of_ne same]

/-- A process that does. -/
theorem Barrier.Tracks.connect (tracks : b.Tracks n parties backlog)
    (released : party.released = (parties i).released) :
    b.Tracks n (Function.update parties i party) (backlog ++ [i]) := by
  refine ⟨fun meets j inside far => ?_, tracks.closes.mono fun j free => ?_⟩
  · rw [← List.append_assoc]
    by_cases same : j = i
    · subst same
      exact List.mem_append_right _ (List.mem_singleton_self j)
    · rw [Function.update_of_ne same] at far
      exact List.mem_append_left _ (tracks.connected meets j inside far)
  · by_cases same : j = i
    · subst same
      rwa [Function.update_self, released]
    · rwa [Function.update_of_ne same]

theorem tracks_runParty {k : Nat} (tracks : s.barrier.Tracks n s.parties s.barrierBacklog)
    (ran : runParty i k s = some s') : s'.barrier.Tracks n s'.parties s'.barrierBacklog := by
  unfold runParty at ran
  dsimp only at ran
  split at ran
  case h_1 place | h_3 place | h_7 place =>
    cases ran
    exact tracks.set (by simp [place, Place.stage]) id
  case h_2 place | h_5 place =>
    split at ran
    case isTrue =>
      cases ran
      exact tracks.set (by simp [place, Place.stage]) id
    case isFalse =>
      obtain ⟨stream, written, rfl⟩ := Option.map_eq_some_iff.mp ran
      exact tracks.set id id
  case h_4 place =>
    cases ran
    exact tracks.connect rfl
  case h_6 place =>
    split at ran <;> cases ran
    exact tracks.set (by simp [place, Place.stage]) id
  case h_8 => cases ran

/-- One more connection is counted. -/
theorem Barrier.tracks_count {entry : Nat × Nat}
    (known : ∀ i < n, 4 ≤ (parties i).place.stage →
      i ∈ b.connections.map Prod.snd ++ [entry.2] ++ backlog) :
    ({ b with
      connections := b.connections ++ [entry]
      place := if (b.connections ++ [entry]).length = n
        then .close (b.connections ++ [entry])
        else .accept } : Barrier).Tracks n parties backlog := by
  by_cases all : (b.connections ++ [entry]).length = n
  · rw [if_pos all]
    refine ⟨fun _ i inside far => ?_, fun e mem => .inr mem⟩
    simpa [accepted] using known i inside far
  · rw [if_neg all]
    refine ⟨fun _ i inside far => ?_, trivial⟩
    simpa [accepted] using known i inside far

theorem tracks_barrierStep {time : Nat} (tracks : s.barrier.Tracks n s.parties s.barrierBacklog)
    (step : barrierStep n time s = some s') :
    s'.barrier.Tracks n s'.parties s'.barrierBacklog := by
  unfold barrierStep at step
  split at step
  case h_1 place =>
    split at step <;> cases step
    case h_2 c rest waiting =>
      refine ⟨fun _ i inside far => ?_, trivial⟩
      have known := tracks.connected (by simp [place]) i inside far
      simp only [Barrier.accepted, place, waiting] at known ⊢
      simpa using known
  case h_2 c idInBytes place =>
    split at step
    case h_1 => cases step
    case h_2 =>
      cases step
      exact ⟨fun meets => absurd rfl meets, trivial⟩
    case h_3 data stream more received =>
      have heard : s.barrier.Tracks n (Function.update s.parties c
          { s.parties c with barrier := stream }) s.barrierBacklog := tracks.set id id
      have known := heard.connected (by simp [place])
      simp only [Barrier.accepted, place] at known
      dsimp only at step
      split at step
      case isTrue =>
        cases step
        exact ⟨fun _ => known, trivial⟩
      case isFalse =>
        split at step <;> cases step
        exact Barrier.tracks_count known
  case h_3 place =>
    cases step
    have closes := tracks.closes
    have known := tracks.connected (by simp [place])
    simp only [Barrier.Closes, Barrier.accepted, place] at closes known
    exact ⟨fun _ => known, fun e mem => (closes e mem).resolve_right List.not_mem_nil⟩
  case h_4 pid c rest place =>
    cases step
    refine ⟨fun _ i inside far => ?_, fun e mem => ?_⟩
    · have freed : s.barrier.Tracks n (Function.update s.parties c
          { s.parties c with released := true }) s.barrierBacklog := tracks.set id fun _ => rfl
      have known := freed.connected (by simp [place]) i inside far
      simp only [Barrier.accepted, place] at known ⊢
      exact known
    · have closes := tracks.closes
      simp only [Barrier.Closes, place] at closes
      by_cases same : e.2 = c
      · refine .inl ?_
        rw [State.release, same, State.set_self]
      · rw [State.release, State.set_other s same]
        refine (closes e mem).imp_right fun waits => (List.mem_cons.mp waits).resolve_left ?_
        rintro rfl
        exact same rfl
  case h_5 place => cases step
  case h_6 place => cases step

theorem tracks_of_reachable (some_ : 0 < n) (fits : n < 2 ^ 64) (reach : (system n).Reachable s) :
    s.barrier.Tracks n s.parties s.barrierBacklog := by
  refine reach.invariant (P := fun s => s.barrier.Tracks n s.parties s.barrierBacklog) ?_
    fun s a s' before tracks next => ?_
  · refine ⟨fun _ i _ far => ?_, trivial⟩
    simp [system, Place.stage] at far
  cases a with
  | run i k =>
    simp only [system, Rendezvous.next] at next
    split at next
    case isTrue => exact tracks_runParty tracks next
    case isFalse => cases next
  | die i =>
    simp only [system, Rendezvous.next] at next
    split at next <;> cases next
    exact tracks.set id id
  | barrierArrive i k | barrierEnd i | signalArrive i k | signalEnd i =>
    obtain ⟨stream, -, rfl⟩ := Option.map_eq_some_iff.mp next
    exact tracks.set id id
  | barrier time => exact tracks_barrierStep tracks next
  | signal events time =>
    obtain ⟨-, same, backlog, barrier⟩ :=
      signalStep_frame (barrier_inv some_ fits before).1 next
    rw [backlog, barrier]
    refine tracks.unchanged (fun i far => ?_) fun i free => ?_
    · obtain ⟨stream, -, -, party⟩ := party_signalStep next i
      rwa [party] at far
    · rw [same.released i, free]

/-! ## Whoever is behind can go on -/

section
variable (alive : ∀ i < n, (s.parties i).alive)
  (stuck : ∀ a : Action, a.onward n → (system n).next a s = none)
include alive stuck

/-- A process that cannot go on has passed the barrier or waits for it. -/
theorem waits_of_stuck (ok : (s.parties i).Ok) (inside : i < n) :
    (s.parties i).place = .barrierRecv ∧ (s.parties i).released = false ∨
      (s.parties i).place = .finished := by
  have blocked : ∀ k, runParty i k s = none := fun k => by
    have none_ := stuck (.run i k) rfl
    simpa only [system, next, inside, alive i inside, and_self, if_true] using none_
  have writes : ∀ stream : ByteStream, stream.unsent ≠ [] → stream.closed = false →
      stream.write stream.unsent.length ≠ none := by
    intro stream some_ open_
    simp [ByteStream.write, open_, List.length_pos_iff.mpr some_]
  cases place : (s.parties i).place with
  | signalConnect | bind | barrierConnect | broadcasting =>
    have none_ := blocked 0
    simp [runParty, place] at none_
  | signalWrite =>
    have none_ := blocked (s.parties i).signal.unsent.length
    simp only [runParty, place] at none_
    split at none_
    · cases none_
    · case isFalse some_ =>
        rw [Option.map_eq_none_iff] at none_
        refine absurd none_ (writes _ some_ (Bool.eq_false_iff.mpr fun closed => ?_))
        rcases ok.signalClosed closed with dead | far
        · rw [alive i inside] at dead
          cases dead
        · simp [place, Place.stage] at far
  | barrierWrite =>
    have none_ := blocked (s.parties i).barrier.unsent.length
    simp only [runParty, place] at none_
    split at none_
    · cases none_
    · case isFalse some_ =>
        rw [Option.map_eq_none_iff] at none_
        refine absurd none_ (writes _ some_ (Bool.eq_false_iff.mpr fun closed => ?_))
        rcases ok.barrierClosed closed with dead | far
        · rw [alive i inside] at dead
          cases dead
        · simp [place, Place.stage] at far
  | barrierRecv =>
    have none_ := blocked 0
    simp only [runParty, place] at none_
    split at none_
    · cases none_
    · case isFalse waits => exact .inl ⟨rfl, Bool.eq_false_iff.mpr waits⟩
  | finished => exact .inr rfl

/-- A process that cannot go on has come to the barrier, and all of its id has arrived there. -/
theorem arrived_of_stuck (ok : (s.parties i).Ok) (inside : i < n) :
    5 ≤ (s.parties i).place.stage ∧ (s.parties i).barrier.pending = (s.parties i).barrier.buffer := by
  have far : 5 ≤ (s.parties i).place.stage := by
    rcases waits_of_stuck alive stuck ok inside with ⟨place, -⟩ | place <;> simp [place, Place.stage]
  have landed : (s.parties i).barrier.flight = [] := by
    have none_ := stuck (.barrierArrive i (s.parties i).barrier.flight.length)
      (decide_eq_true inside)
    exact ByteStream.flight_of_arrive_none (Option.map_eq_none_iff.mp none_)
  exact ⟨far, by simp [ByteStream.pending, landed, ok.barrierSent far]⟩

/-- Where nothing can go on, the barrier has closed all connections, and all have passed. -/
theorem passed_of_stuck (some_ : 0 < n) (fits : n < 2 ^ 64) (reach : (system n).Reachable s) :
    s.barrier.place = .done ∧ ∀ i < n, (s.parties i).place = .finished := by
  obtain ⟨ok, inv⟩ := barrier_inv some_ fits reach
  have tracks := tracks_of_reachable some_ fits reach
  have meets : s.barrier.Meets n s.parties s.barrierBacklog := by
    refine inv.resolve_right fun raised => ?_
    obtain ⟨-, j, inside, dead, -⟩ := raised
    rw [alive j inside] at dead
    cases dead
  have blocked : ∀ time, barrierStep n time s = none := fun time => stuck (.barrier time) rfl
  have known : s.barrier.place ≠ .raised → ∀ i < n, i ∈ s.barrier.accepted ++ s.barrierBacklog :=
    fun fine i inside => tracks.connected fine i inside
      (Nat.le_of_succ_le (arrived_of_stuck alive stuck (ok i) inside).1)
  have phase := meets.phase
  cases place : s.barrier.place with
  | accept =>
    -- With an empty backlog, all are counted, and the barrier would close them.
    have empty : s.barrierBacklog = [] := by
      have none_ := blocked 0
      simp only [barrierStep, place] at none_
      split at none_
      case h_1 empty => exact empty
      case h_2 => cases none_
    simp only [Barrier.Phase, place] at phase
    have all : List.range n ⊆ s.barrier.connections.map Prod.snd := by
      intro i mem
      have there := known (by simp [place]) i (List.mem_range.mp mem)
      simpa [Barrier.accepted, place, empty] using there
    have count := (List.nodup_range.subperm all).length_le
    rw [List.length_range, List.length_map] at count
    exact absurd phase.1 (Nat.not_lt.mpr count)
  | read c idInBytes =>
    -- The rest of the id has arrived.
    obtain ⟨short, whole⟩ := meets.reading c idInBytes place
    have inside : c < n :=
      (meets.connected c (List.mem_append_left _ (by simp [Barrier.accepted, place]))).1
    have here := (arrived_of_stuck alive stuck (ok c) inside).2
    have full : (s.parties c).barrier.buffer ≠ [] := by
      intro empty
      have size := congrArg List.length whole
      rw [here, empty, List.append_nil, length_htonT] at size
      omega
    obtain ⟨data, stream, received⟩ : ∃ data stream,
        (s.parties c).barrier.recv (8 - idInBytes.length) = some (data, stream) := by
      rw [ByteStream.recv, if_neg full]
      exact ⟨_, _, rfl⟩
    have none_ := blocked 0
    have hears := meets.hear fits place received
    simp only [barrierStep, place, received] at none_
    cases data with
    | nil => cases none_
    | cons byte data =>
      dsimp only at none_
      split at none_
      case isTrue => cases none_
      case isFalse long =>
        rw [if_neg long] at hears
        rw [hears.1] at none_
        cases none_
  | close rest =>
    have none_ := blocked 0
    cases rest <;> simp [barrierStep, place] at none_
  | done =>
    have closes := tracks.closes
    simp only [Barrier.Closes, Barrier.Phase, place] at closes phase
    refine ⟨rfl, fun i inside => ?_⟩
    obtain ⟨e, mem, rfl⟩ := List.mem_map.mp ((meets.perm phase.1).mem_iff.mpr
      (List.mem_range.mpr inside))
    rcases waits_of_stuck alive stuck (ok e.2) inside with ⟨-, waits⟩ | finished
    · rw [closes e mem] at waits
      cases waits
    · exact finished
  | raised => simp only [Barrier.Phase, place] at phase

end

/-- **The barrier opens.** In any run from a reachable state, the processes, the barrier and what is
on its way to the barrier take no more steps than the state allows. Where none of them can go on and
nobody has died, the barrier is done and every process has passed it. -/
theorem barrier_opens (some_ : 0 < n) (fits : n < 2 ^ 64) (reach : (system n).Reachable s) :
    (∀ schedule s', (system n).execute s schedule = some s' →
      schedule.countP (Action.onward n) ≤ s.togo n) ∧
    ((∀ i < n, (s.parties i).alive) → (∀ a : Action, a.onward n → (system n).next a s = none) →
      s.barrier.place = .done ∧ ∀ i < n, (s.parties i).place = .finished) := by
  refine ⟨fun schedule s' ran => ?_, fun alive stuck => passed_of_stuck alive stuck some_ fits reach⟩
  have bound := reach.countP_le (State.togo n)
    (fun s a s' before onward next => togo_next some_ fits before onward next)
    (fun s a s' before next => togo_next_le some_ fits before next) ran
  exact Nat.le_of_add_right_le bound

theorem barrier_opens_of_pair : ∃ s, (system 2).Reachable s ∧ s.barrier.place = .done ∧
    ∀ i < 2, (s.parties i).place = .finished := by
  have ran : ((system 2).execute (system 2).start (pairSchedule ++ [.run 0 0, .run 1 0])).any
      fun s => s.togo 2 = 0 ∧ ∀ i ∈ List.range 2, (s.parties i).alive := by decide +kernel
  obtain ⟨s, reach, last⟩ := Transitions.exists_reachable ran
  obtain ⟨spent, alive⟩ := of_decide_eq_true last
  obtain ⟨counts, opens⟩ := barrier_opens (by decide) (by decide) reach
  rw [spent] at counts
  exact ⟨s, reach, opens (fun i inside => alive i (List.mem_range.mpr inside))
    fun a onward => Transitions.next_eq_none_of_countP counts onward⟩

end CausalBroadcast.Rendezvous
