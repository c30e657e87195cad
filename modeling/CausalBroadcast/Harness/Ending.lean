import CausalBroadcast.Harness.FinishSignal
import CausalBroadcast.Harness.Opening

/-!
# The harness comes to its end

The processes, both servers and the network cannot go on for ever. Where they have come to rest, and
every process has connected to the finish signal and has finished or died, the finish signal is done,
or it has raised.
-/

namespace CausalBroadcast.Rendezvous

open Async

variable {n i c k time : Nat} {s s' : State} {party : Party} {f : FinishedSignal} {events : List Fd}

/-- A step of a process, of a server, or of what is on its way to one. -/
def Action.bringing (n : Nat) : Action → Bool
  | .run .. | .barrier _ | .signal .. => true
  | .barrierArrive i _ | .signalArrive i _ => i < n
  | .die _ | .barrierEnd _ | .signalEnd _ => false

/-! ## No schedule goes on for ever -/

/-- A bound on the steps that what was written to the finish signal still takes. -/
def Party.unread (party : Party) : Nat :=
  2 * party.signal.flight.length + party.signal.buffer.length

def SignalPlace.togo : SignalPlace → Nat
  | .handle [] => 3
  | .select => 2
  | .handle (_ :: _) => 1
  | .done | .raised _ => 0

/-- A bound on the steps of the finish signal, but for what is not written yet. -/
def State.unreported (n : Nat) (s : State) : Nat :=
  3 * (∑ i ∈ Finset.range n, (s.parties i).unread + 2 * s.signalBacklog.length +
    s.signal.registered.length) + s.signal.place.togo

/-- A bound on all that can still happen. -/
def State.ahead (n : Nat) (s : State) : Nat := 7 * s.togo n + s.unreported n

theorem sum_unread (same : ∀ j, (s'.parties j).unread = (s.parties j).unread) :
    ∑ j ∈ Finset.range n, (s'.parties j).unread = ∑ j ∈ Finset.range n, (s.parties j).unread :=
  Finset.sum_congr rfl fun j _ => same j

theorem unread_set (same : party.unread = (s.parties i).unread) (j : Nat) :
    ((s.set i party).parties j).unread = (s.parties j).unread := by
  by_cases here : j = i
  · subst here
    rw [State.set_self, same]
  · rw [State.set_other s here]

theorem unreported_eq (same : ∀ j, (s'.parties j).unread = (s.parties j).unread)
    (backlog : s'.signalBacklog = s.signalBacklog) (signal : s'.signal = s.signal) :
    s'.unreported n = s.unreported n := by
  rw [State.unreported, State.unreported, sum_unread same, backlog, signal]

theorem unreported_set (same : party.unread = (s.parties i).unread) :
    (s.set i party).unreported n = s.unreported n := unreported_eq (unread_set same) rfl rfl

theorem unreported_outside (outside : ¬ i < n) : (s.set i party).unreported n = s.unreported n := by
  have others : ∀ j ∈ Finset.range n, ((s.set i party).parties j).unread = (s.parties j).unread := by
    intro j mem
    have away : j ≠ i := fun same => outside (same ▸ Finset.mem_range.mp mem)
    rw [State.set_other s away]
  rw [State.unreported, State.unreported, Finset.sum_congr rfl others]
  rfl

theorem unreported_arrive {stream : ByteStream} (inside : i < n)
    (arrived : (s.parties i).signal.arrive k = some stream) :
    (s.set i { s.parties i with signal := stream }).unreported n < s.unreported n := by
  generalize changed : ({ s.parties i with signal := stream } : Party) = party
  have unread := @sum_update_add n i party Party.unread s.parties inside
  have moved : party.unread + k = (s.parties i).unread ∧ 0 < k := by
    unfold ByteStream.arrive at arrived
    split at arrived <;> cases arrived
    case isTrue able =>
      subst changed
      simp only [Party.unread, List.length_drop, List.length_append, List.length_take]
      omega
  simp only [State.unreported, State.set]
  omega

theorem unreported_write {stream : ByteStream} (inside : i < n)
    (written : (s.parties i).signal.write k = some stream) :
    6 * (s.set i { s.parties i with signal := stream }).togo n +
      (s.set i { s.parties i with signal := stream }).unreported n ≤
        6 * s.togo n + s.unreported n := by
  generalize changed : ({ s.parties i with signal := stream } : Party) = party
  have onward := @sum_update_add n i party Party.togo s.parties inside
  have unread := @sum_update_add n i party Party.unread s.parties inside
  have moved : party.togo + k = (s.parties i).togo ∧
      party.unread = (s.parties i).unread + 2 * k := by
    unfold ByteStream.write at written
    split at written <;> cases written
    case isTrue able =>
      subst changed
      simp only [Party.togo, Party.unread, List.length_drop, List.length_append, List.length_take]
      omega
  simp only [State.togo, State.unreported, State.set]
  omega

/-- What a process does makes work for the finish signal only where it brings the process on. -/
theorem unreported_runParty (inside : i < n) (ran : runParty i k s = some s') :
    6 * s'.togo n + s'.unreported n ≤ 6 * s.togo n + s.unreported n := by
  have brings := togo_runParty inside ran
  have keeps : (∀ j, (s'.parties j).unread = (s.parties j).unread) →
      s'.signalBacklog = s.signalBacklog → s'.signal = s.signal →
      6 * s'.togo n + s'.unreported n ≤ 6 * s.togo n + s.unreported n := by
    intro same backlog signal
    rw [unreported_eq same backlog signal]
    omega
  unfold runParty at ran
  dsimp only at ran
  split at ran
  case h_1 place =>
    cases ran
    have same : ∑ j ∈ Finset.range n,
        ((s.set i { s.parties i with place := .signalWrite }).parties j).unread =
          ∑ j ∈ Finset.range n, (s.parties j).unread := sum_unread (unread_set rfl)
    have count : (s.signalBacklog ++ [i]).length = s.signalBacklog.length + 1 := by simp
    simp only [State.unreported, State.set] at brings same ⊢
    rw [same, count]
    omega
  case h_2 place =>
    split at ran
    case isTrue =>
      cases ran
      exact keeps (unread_set rfl) rfl rfl
    case isFalse =>
      obtain ⟨stream, written, rfl⟩ := Option.map_eq_some_iff.mp ran
      exact unreported_write inside written
  case h_3 place | h_4 place | h_7 place =>
    cases ran
    exact keeps (unread_set rfl) rfl rfl
  case h_5 place =>
    split at ran
    case isTrue =>
      cases ran
      exact keeps (unread_set rfl) rfl rfl
    case isFalse =>
      obtain ⟨stream, -, rfl⟩ := Option.map_eq_some_iff.mp ran
      exact keeps (unread_set rfl) rfl rfl
  case h_6 place =>
    split at ran <;> cases ran
    exact keeps (unread_set rfl) rfl rfl
  case h_8 => cases ran

theorem party_foldl_release (cs : List Nat) (s : State) (j : Nat) : ∃ released,
    (cs.foldl State.release s).parties j = { s.parties j with released } := by
  induction cs generalizing s with
  | nil => exact ⟨_, rfl⟩
  | cons c cs ih =>
    obtain ⟨released, rest⟩ := ih (s.release c)
    refine ⟨released, rest.trans ?_⟩
    by_cases same : j = c
    · subst same
      rw [State.release, State.set_self]
    · rw [State.release, State.set_other s same]

/-- The barrier reads its own streams, and closes them. -/
theorem party_barrierStep (step : barrierStep n time s = some s') (j : Nat) :
    ∃ stream released, s'.parties j = { s.parties j with barrier := stream, released } := by
  have heard : ∀ c stream, ∃ stream' released,
      (s.set c { s.parties c with barrier := stream }).parties j =
        { s.parties j with barrier := stream', released } := by
    intro c stream
    by_cases same : j = c
    · subst same
      exact ⟨stream, _, State.set_self ..⟩
    · exact ⟨_, _, State.set_other s same _⟩
  unfold barrierStep at step
  split at step
  case h_1 =>
    split at step <;> cases step
    exact ⟨_, _, rfl⟩
  case h_2 c idInBytes place =>
    split at step
    case h_1 => cases step
    case h_2 =>
      cases step
      obtain ⟨released, same⟩ := party_foldl_release
        (s.barrier.connections.map Prod.snd ++ [c]) s j
      exact ⟨_, released, same⟩
    case h_3 data stream _ received =>
      dsimp only at step
      split at step
      · cases step
        exact heard c stream
      · split at step <;> cases step
        exact heard c stream
  case h_3 =>
    cases step
    exact ⟨_, _, rfl⟩
  case h_4 pid c rest place =>
    cases step
    obtain ⟨released, same⟩ := party_foldl_release [c] s j
    exact ⟨_, released, same⟩
  case h_5 => cases step
  case h_6 => cases step

theorem unreported_barrierStep (step : barrierStep n time s = some s') :
    s'.unreported n = s.unreported n := by
  obtain ⟨-, backlog, signal⟩ := barrierStep_frame step
  refine unreported_eq (fun j => ?_) backlog signal
  obtain ⟨stream, released, party⟩ := party_barrierStep step j
  rw [party]
  rfl

theorem SignalPlace.togo_handle_le (events : List Fd) : (SignalPlace.handle events).togo ≤ 3 := by
  cases events <;> simp [togo]

theorem unread_recv {data : List UInt8} {stream : ByteStream} (some_ : data ≠ [])
    (received : party.signal.recv k = some (data, stream)) :
    { party with signal := stream }.unread < party.unread := by
  unfold ByteStream.recv at received
  split at received
  · split at received <;> cases received
    exact absurd rfl some_
  · case isFalse full =>
      cases received
      have taken := List.length_pos_iff.mpr some_
      have there := List.length_pos_iff.mpr full
      rw [List.length_take] at taken
      simp only [Party.unread, List.length_drop]
      omega

/-- The finish signal brings itself on. -/
theorem unreported_signalStep (counts : s.signal.Counts n s.parties s.signalBacklog)
    (step : signalStep events time s = some s') : s'.unreported n < s.unreported n := by
  unfold signalStep at step
  split at step
  case h_1 place =>
    split at step
    case isTrue =>
      split at step
      case isTrue found =>
        cases step
        obtain ⟨event, rest, rfl⟩ := List.exists_cons_of_ne_nil found.1
        simp [State.unreported, SignalPlace.togo, place]
      case isFalse => cases step
    case isFalse spent =>
      split at step <;> cases step
      · simp [State.unreported, SignalPlace.togo, place]
      · simp [State.unreported, SignalPlace.togo, place]
  case h_2 place =>
    cases step
    simp [State.unreported, SignalPlace.togo, place]
  case h_3 events place =>
    split at step
    case h_1 empty =>
      cases step
      simp [State.unreported, SignalPlace.togo, place]
    case h_2 c rest waiting =>
      cases step
      have bound := SignalPlace.togo_handle_le events
      simp only [State.unreported, place, waiting, List.length_append, List.length_cons,
        List.length_nil, SignalPlace.togo] at bound ⊢
      omega
  case h_4 c events place =>
    have bound := SignalPlace.togo_handle_le events
    have registered := ((counts.events _ place).2.2 c List.mem_cons_self).1
    split at step
    case h_1 =>
      cases step
      simp [State.unreported, SignalPlace.togo, place]
    case h_2 =>
      split at step <;> cases step
      case h_1 => simp [State.unreported, SignalPlace.togo, place]
      case h_2 =>
        have one := List.length_pos_of_mem registered
        simp only [State.unreported, place, List.length_erase_of_mem registered,
          SignalPlace.togo] at bound ⊢
        omega
    case h_3 data stream some_ received =>
      split at step <;> cases step
      case h_1 => simp [State.unreported, SignalPlace.togo, place]
      case h_2 =>
        have inside := (counts.connected c (List.mem_append_left _ registered)).1
        have less := unread_recv some_ received
        generalize ({ s.parties c with signal := stream } : Party) = party at less ⊢
        have sum := @sum_update_add n c party Party.unread s.parties inside
        simp only [State.unreported, State.set, place, SignalPlace.togo] at bound ⊢
        omega
  case h_5 place => cases step
  case h_6 error place => cases step

theorem ahead_next {a : Action} (some_ : 0 < n) (fits : n < 2 ^ 64)
    (reach : (system n).Reachable s) (brings : a.bringing n)
    (next : (system n).next a s = some s') : s'.ahead n < s.ahead n := by
  cases a with
  | run i k =>
    have onward := togo_next some_ fits reach rfl next
    simp only [system, Rendezvous.next] at next
    split at next
    case isTrue able =>
      have unreported := unreported_runParty able.1 next
      rw [State.ahead, State.ahead]
      omega
    case isFalse => cases next
  | barrier time =>
    have onward := togo_next some_ fits reach rfl next
    rw [State.ahead, State.ahead, unreported_barrierStep next]
    omega
  | barrierArrive i k =>
    have onward := togo_next (a := .barrierArrive i k) some_ fits reach brings next
    obtain ⟨stream, arrived, rfl⟩ := Option.map_eq_some_iff.mp next
    have same : (s.set i { s.parties i with barrier := stream }).unreported n = s.unreported n :=
      unreported_set rfl
    rw [State.ahead, State.ahead, same]
    omega
  | signalArrive i k =>
    have onward := togo_next_le some_ fits reach next
    obtain ⟨stream, arrived, rfl⟩ := Option.map_eq_some_iff.mp next
    have brought := unreported_arrive (of_decide_eq_true brings) arrived
    rw [State.ahead, State.ahead]
    omega
  | signal events time =>
    obtain ⟨ok, inv⟩ := signal_inv fits reach
    rcases inv with counts | ⟨error, raised, -⟩
    · have brought := unreported_signalStep counts next
      rw [State.ahead, State.ahead, togo_signalStep ok next]
      omega
    · simp only [system, Rendezvous.next, signalStep, raised] at next
      cases next
  | die | barrierEnd | signalEnd => cases brings

theorem ahead_next_le {a : Action} (some_ : 0 < n) (fits : n < 2 ^ 64)
    (reach : (system n).Reachable s) (next : (system n).next a s = some s') :
    s'.ahead n ≤ s.ahead n := by
  by_cases brings : a.bringing n
  · exact (ahead_next some_ fits reach brings next).le
  have onward := togo_next_le some_ fits reach next
  have unreported : s'.unreported n ≤ s.unreported n := by
    cases a with
    | run | barrier | signal => exact absurd rfl brings
    | die i =>
      simp only [system, Rendezvous.next] at next
      split at next <;> cases next
      exact Nat.le_of_eq (unreported_set rfl)
    | barrierArrive i k | barrierEnd i =>
      obtain ⟨stream, -, rfl⟩ := Option.map_eq_some_iff.mp next
      exact Nat.le_of_eq (unreported_set rfl)
    | signalArrive i k =>
      obtain ⟨stream, arrived, rfl⟩ := Option.map_eq_some_iff.mp next
      exact Nat.le_of_eq (unreported_outside fun inside => brings (decide_eq_true inside))
    | signalEnd i =>
      obtain ⟨stream, finished, rfl⟩ := Option.map_eq_some_iff.mp next
      unfold ByteStream.finish at finished
      split at finished <;> cases finished
      exact Nat.le_of_eq (unreported_set rfl)
  rw [State.ahead, State.ahead]
  omega

/-! ## Nobody is lost sight of -/

/-- A process that has finished or died has closed its connection. -/
def Party.Hung (party : Party) : Prop :=
  party.alive = false ∨ party.place = .finished → party.signal.closed

/-- The finish signal has the connection in its backlog or selects it, or has seen its end. -/
def FinishedSignal.Knows (f : FinishedSignal) (backlog : List Nat) (i : Nat) : Prop :=
  i ∈ f.registered ++ backlog ∨ ∃ e ∈ closedEntries f.connections, e.1 = i

/-- The finish signal knows of all that have connected. -/
structure State.Reports (n : Nat) (s : State) : Prop where
  hung : ∀ i, (s.parties i).Hung
  knows : ∀ i < n, 1 ≤ (s.parties i).place.stage → s.signal.Knows s.signalBacklog i

/-- A process that does not connect. -/
theorem State.Reports.set (reports : s.Reports n) (hung : (s.parties i).Hung → party.Hung)
    (crossed : 1 ≤ party.place.stage → 1 ≤ (s.parties i).place.stage) :
    (s.set i party).Reports n := by
  refine ⟨fun j => ?_, fun j inside far => reports.knows j inside ?_⟩
  · by_cases same : j = i
    · subst same
      rw [State.set_self]
      exact hung (reports.hung j)
    · rw [State.set_other s same]
      exact reports.hung j
  · by_cases same : j = i
    · subst same
      rw [State.set_self] at far
      exact crossed far
    · rwa [State.set_other s same] at far

/-- A process that does. -/
theorem State.Reports.connect (reports : s.Reports n) (hung : party.Hung) :
    { s.set i party with signalBacklog := s.signalBacklog ++ [i] }.Reports n := by
  refine ⟨fun j => ?_, fun j inside far => ?_⟩
  · by_cases same : j = i
    · subst same
      rwa [State.set_self]
    · rw [State.set_other s same]
      exact reports.hung j
  · by_cases same : j = i
    · subst same
      exact .inl (List.mem_append_right _ (List.mem_append_right _ List.mem_cons_self))
    · rw [State.set_other s same] at far
      refine (reports.knows j inside far).imp_left fun listed => ?_
      rw [← List.append_assoc]
      exact List.mem_append_left _ listed

theorem reports_runParty (alive : (s.parties i).alive) (reports : s.Reports n)
    (ran : runParty i k s = some s') : s'.Reports n := by
  have runs : ∀ {party : Party}, party.alive → party.place ≠ .finished → party.Hung :=
    fun lives goes gone => by simp_all
  unfold runParty at ran
  dsimp only at ran
  split at ran
  case h_1 place =>
    cases ran
    exact reports.connect (runs alive (by simp))
  case h_2 place =>
    split at ran
    case isTrue =>
      cases ran
      exact reports.set (fun _ => runs alive (by simp)) (by simp [place, Place.stage])
    case isFalse =>
      obtain ⟨stream, -, rfl⟩ := Option.map_eq_some_iff.mp ran
      exact reports.set (fun _ => runs alive (by simp [place])) id
  case h_3 place =>
    cases ran
    exact reports.set (fun _ => runs alive (by simp)) (by simp [place, Place.stage])
  case h_4 place =>
    cases ran
    have connected : (s.set i { s.parties i with place := .barrierWrite }).Reports n :=
      reports.set (fun _ => runs alive (by simp)) (by simp [place, Place.stage])
    exact ⟨connected.hung, connected.knows⟩
  case h_5 place =>
    split at ran
    case isTrue =>
      cases ran
      exact reports.set (fun _ => runs alive (by simp)) (by simp [place, Place.stage])
    case isFalse =>
      obtain ⟨stream, -, rfl⟩ := Option.map_eq_some_iff.mp ran
      exact reports.set (fun _ => runs alive (by simp [place])) id
  case h_6 place =>
    split at ran <;> cases ran
    exact reports.set (fun _ => runs alive (by simp)) (by simp [place, Place.stage])
  case h_7 place =>
    cases ran
    exact reports.set (fun _ _ => rfl) (by simp [place, Place.stage])
  case h_8 => cases ran

theorem mem_setEntry_of_ne {connections : List (Nat × List Nat)} {value : List Nat}
    {e : Nat × List Nat} (mem : e ∈ connections) (other : e.1 ≠ c) :
    e ∈ setEntry c value connections := by
  rw [setEntry]
  split
  · exact List.mem_map.mpr ⟨e, mem, if_neg other⟩
  · exact List.mem_append_left _ mem

theorem self_mem_setEntry {connections : List (Nat × List Nat)} {value : List Nat}
    (mem : c ∈ connections.map Prod.fst) : (c, value) ∈ setEntry c value connections := by
  rw [setEntry, if_pos mem]
  obtain ⟨e, listed, same⟩ := List.mem_map.mp mem
  exact List.mem_map.mpr ⟨e, listed, if_pos same⟩

/-- An entry that is closed stays, whatever comes in of another connection. -/
theorem FinishedSignal.Counts.mem_closedEntries {parties : Nat → Party} {backlog value : List Nat}
    (counts : f.Counts n parties backlog) (registered : c ∈ f.registered) {e : Nat × List Nat}
    (mem : e ∈ closedEntries f.connections) :
    e ∈ closedEntries (setEntry c value f.connections) := by
  obtain ⟨listed, closed⟩ := List.mem_filter.mp mem
  refine List.mem_filter.mpr ⟨mem_setEntry_of_ne listed fun same => ?_, closed⟩
  rcases counts.entries e listed with first | ended
  · rw [first.1] at closed
    cases closed
  · exact ended.2.1 (List.mem_append_left _ (same ▸ registered))

theorem reports_signalStep (counts : s.signal.Counts n s.parties s.signalBacklog)
    (reports : s.Reports n) (step : signalStep events time s = some s') : s'.Reports n := by
  have hung : ∀ i, (s'.parties i).Hung := by
    intro i
    obtain ⟨stream, -, closed, party⟩ := party_signalStep step i
    rw [party]
    exact fun gone => closed.trans (reports.hung i gone)
  refine ⟨hung, fun i inside far => ?_⟩
  obtain ⟨stream, -, -, party⟩ := party_signalStep step i
  rw [party] at far
  have known := reports.knows i inside far
  unfold signalStep at step
  split at step
  case h_1 place =>
    split at step
    · split at step <;> cases step
      exact known
    · split at step <;> cases step <;> exact known
  case h_2 =>
    cases step
    exact known
  case h_3 =>
    split at step <;> cases step
    case h_1 => exact known
    case h_2 c rest waiting =>
      refine known.imp_left fun listed => ?_
      simpa [waiting] using listed
  case h_4 c events place =>
    have registered := ((counts.events _ place).2.2 c List.mem_cons_self).1
    split at step
    case h_1 =>
      cases step
      exact known
    case h_2 stream received =>
      split at step <;> cases step
      case h_1 => exact known
      case h_2 value found =>
        have entry := mem_of_lookup found
        by_cases same : i = c
        · have one : value = [c + 1] := by
            rcases counts.entries _ entry with first | ended
            · exact first.1
            · exact absurd (List.mem_append_left _ registered) ended.2.1
          have closed : (c, value ++ [time]) ∈
              closedEntries (setEntry c (value ++ [time]) s.signal.connections) := by
            refine List.mem_filter.mpr ⟨self_mem_setEntry (List.mem_map_of_mem entry), ?_⟩
            simp [one]
          exact .inr ⟨_, closed, same.symm⟩
        · refine known.imp (fun listed => ?_) fun ⟨e, mem, here⟩ =>
            ⟨e, counts.mem_closedEntries registered mem, here⟩
          rcases List.mem_append.mp listed with old | waits
          · exact List.mem_append_left _ ((List.mem_erase_of_ne same).mpr old)
          · exact List.mem_append_right _ waits
    case h_3 =>
      split at step <;> cases step
      case h_1 => exact known
      case h_2 =>
        refine known.imp_right fun ended => ?_
        obtain ⟨e, mem, same⟩ := ended
        exact ⟨e, counts.mem_closedEntries registered mem, same⟩
  case h_5 => cases step
  case h_6 => cases step

theorem reports_of_reachable (fits : n < 2 ^ 64) (reach : (system n).Reachable s) :
    s.Reports n := by
  refine reach.invariant (P := fun s => s.Reports n) ?_ fun s a s' before reports next => ?_
  · refine ⟨fun i gone => ?_, fun _ _ far => ?_⟩
    · simp [system] at gone
    · simp [system, Place.stage] at far
  cases a with
  | run i k =>
    simp only [system, Rendezvous.next] at next
    split at next
    case isTrue able => exact reports_runParty able.2 reports next
    case isFalse => cases next
  | die i =>
    simp only [system, Rendezvous.next] at next
    split at next <;> cases next
    exact reports.set (fun _ _ => rfl) id
  | barrierArrive i k | barrierEnd i =>
    obtain ⟨stream, -, rfl⟩ := Option.map_eq_some_iff.mp next
    exact reports.set id id
  | signalArrive i k =>
    obtain ⟨stream, arrived, rfl⟩ := Option.map_eq_some_iff.mp next
    exact reports.set (fun hung gone => (ByteStream.writer_arrive arrived).2.trans (hung gone)) id
  | signalEnd i =>
    obtain ⟨stream, finished, rfl⟩ := Option.map_eq_some_iff.mp next
    exact reports.set (fun hung gone => (ByteStream.writer_finish finished).2.trans (hung gone)) id
  | barrier time =>
    obtain ⟨-, backlog, signal⟩ := barrierStep_frame next
    have same : ∀ i, (s'.parties i).place = (s.parties i).place ∧
        ((s.parties i).Hung → (s'.parties i).Hung) := by
      intro i
      obtain ⟨stream, released, party⟩ := party_barrierStep next i
      rw [party]
      exact ⟨rfl, id⟩
    refine ⟨fun i => (same i).2 (reports.hung i), fun i inside far => ?_⟩
    rw [backlog, signal]
    exact reports.knows i inside ((same i).1 ▸ far)
  | signal events time =>
    rcases (signal_inv fits before).2 with counts | ⟨error, raised, -⟩
    · exact reports_signalStep counts reports next
    · simp only [system, Rendezvous.next, signalStep, raised] at next
      cases next

/-! ## Whoever is behind can go on -/

section
variable (stuck : ∀ a : Action, a.bringing n → (system n).next a s = none)
include stuck

/-- The end of a connection that has been closed can be read. -/
theorem ready_of_stuck (inside : i < n) (closed : (s.parties i).signal.closed)
    (told : (system n).next (.signalEnd i) s ≠ none → (s.parties i).signal.ended) :
    (s.parties i).signal.Ready := by
  have landed : (s.parties i).signal.flight = [] := by
    have none_ := stuck (.signalArrive i (s.parties i).signal.flight.length) (decide_eq_true inside)
    exact ByteStream.flight_of_arrive_none (Option.map_eq_none_iff.mp none_)
  refine .inr (told ?_)
  simp [system, next, ByteStream.finish, landed, closed]

/-- Where a connection is still to be read, the finish signal goes on. -/
theorem spent_of_stuck (counts : s.signal.Counts n s.parties s.signalBacklog)
    (reports : s.Reports n) (place : s.signal.place = .select)
    (gone : ∀ i < n, 1 ≤ (s.parties i).place.stage ∧
      ((s.parties i).alive = false ∨ (s.parties i).place = .finished))
    (told : ∀ i < n, (system n).next (.signalEnd i) s ≠ none → (s.parties i).signal.ended) :
    s.signal.waitFor ≤ 0 := by
  by_contra waits
  have selects : ∀ event, s.readable event ≠ true := by
    intro event readable
    have none_ := stuck (.signal [event] 0) rfl
    simp only [system, next, signalStep, place] at none_
    rw [if_pos (by omega), if_pos (by simp [readable])] at none_
    cases none_
  obtain ⟨i, inside, missing⟩ : ∃ i < n, ¬ ∃ e ∈ closedEntries s.signal.connections, e.1 = i := by
    by_contra! all
    have listed : List.range n ⊆ (closedEntries s.signal.connections).map Prod.fst := by
      intro i mem
      obtain ⟨e, closed, same⟩ := all i (List.mem_range.mp mem)
      exact List.mem_map.mpr ⟨e, closed, same⟩
    have few := (List.nodup_range.subperm listed).length_le
    have count := counts.count
    rw [List.length_range, List.length_map] at few
    omega
  obtain ⟨connected, ended⟩ := gone i inside
  rcases List.mem_append.mp ((reports.knows i inside connected).resolve_right missing) with
    registered | waiting
  · have ready := ready_of_stuck stuck inside (reports.hung i ended) (told i inside)
    refine selects (.conn i) ?_
    simp only [State.readable, registered, decide_true, Bool.true_and, Bool.or_eq_true,
      decide_eq_true_eq]
    exact ready
  · exact selects .listener (decide_eq_true (List.ne_nil_of_mem waiting))

theorem ended_of_stuck (fits : n < 2 ^ 64) (reach : (system n).Reachable s)
    (gone : ∀ i < n, 1 ≤ (s.parties i).place.stage ∧
      ((s.parties i).alive = false ∨ (s.parties i).place = .finished))
    (told : ∀ i < n, (system n).next (.signalEnd i) s ≠ none → (s.parties i).signal.ended) :
    s.signal.place = .done ∨
      ∃ error, s.signal.place = .raised error ∧ error.Cause n s.parties := by
  rcases (signal_inv fits reach).2 with counts | raised
  case inr => exact .inr raised
  have blocked : signalStep [] 0 s = none := stuck (.signal [] 0) rfl
  cases place : s.signal.place with
  | done => exact .inl rfl
  | raised error => exact absurd place (counts.quiet error)
  | select =>
    have spent := spent_of_stuck stuck counts (reports_of_reachable fits reach) place gone told
    simp only [signalStep, place, if_neg (Int.not_lt.mpr spent)] at blocked
    split at blocked <;> cases blocked
  | handle events =>
    cases events with
    | nil =>
      simp only [signalStep, place] at blocked
      cases blocked
    | cons event events =>
      cases event with
      | listener =>
        simp only [signalStep, place] at blocked
        split at blocked <;> cases blocked
      | conn c =>
        simp only [signalStep, place] at blocked
        split at blocked
        · cases blocked
        · split at blocked <;> cases blocked
        · split at blocked <;> cases blocked

end

/-- **The harness comes to its end.** In any run from a reachable state, the processes, both servers
and what is on its way to them take no more steps than the state allows. Where none of them can go on,
no end of a connection is on its way, and every process has connected to the finish signal and has
finished or died, `FinishedSignal.wait` is done, or it has raised, because an id came in in pieces or
a process died before it had written its id. -/
theorem harness_ends (some_ : 0 < n) (fits : n < 2 ^ 64) (reach : (system n).Reachable s) :
    (∀ schedule s', (system n).execute s schedule = some s' →
      schedule.countP (Action.bringing n) ≤ s.ahead n) ∧
    ((∀ i < n, 1 ≤ (s.parties i).place.stage ∧
        ((s.parties i).alive = false ∨ (s.parties i).place = .finished)) →
      (∀ a : Action, a.bringing n → (system n).next a s = none) →
      (∀ i < n, (system n).next (.signalEnd i) s ≠ none → (s.parties i).signal.ended) →
      s.signal.place = .done ∨
        ∃ error, s.signal.place = .raised error ∧ error.Cause n s.parties) := by
  refine ⟨fun schedule s' ran => ?_, fun gone stuck told => ended_of_stuck stuck fits reach gone told⟩
  have bound := reach.countP_le (State.ahead n)
    (fun s a s' before brings next => ahead_next some_ fits before brings next)
    (fun s a s' before next => ahead_next_le some_ fits before next) ran
  exact Nat.le_of_add_right_le bound

/-- Two processes that both finish. -/
theorem harness_ends_of_pair : ∃ s, (system 2).Reachable s ∧ (s.signal.place = .done ∨
    ∃ error, s.signal.place = .raised error ∧ error.Cause 2 s.parties) := by
  have ran : ((system 2).execute (system 2).start (pairSchedule ++ [.run 0 0, .run 1 0] ++
      deathSchedule.drop (pairSchedule.length + 2))).any fun s => s.ahead 2 = 0 ∧
        ∀ i ∈ List.range 2, (s.parties i).place = .finished ∧ (s.parties i).signal.ended := by
    decide +kernel
  obtain ⟨s, reach, last⟩ := Transitions.exists_reachable ran
  obtain ⟨spent, finished⟩ := of_decide_eq_true last
  obtain ⟨counts, ends⟩ := harness_ends (by decide) (by decide) reach
  refine ⟨s, reach, ends (fun i inside => ?_) (fun a brings => ?_) fun i inside _ => ?_⟩
  · have gone := (finished i (List.mem_range.mpr inside)).1
    exact ⟨by simp [gone, Place.stage], .inr gone⟩
  · rw [spent] at counts
    exact Transitions.next_eq_none_of_countP counts brings
  · exact (finished i (List.mem_range.mpr inside)).2

end CausalBroadcast.Rendezvous
