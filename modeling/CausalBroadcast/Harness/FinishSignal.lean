import CausalBroadcast.Harness.Rendezvous

/-!
# The finish signal waits for all

`FinishedSignal.wait` reads an id once from each connection and then waits for its end. It comes back
when as many connections have ended as it waits for, and it raises where an id arrives in pieces, or a
process dies before it has written its id.
-/

namespace CausalBroadcast.Rendezvous

open Async

variable {n i k c time : Nat} {s s' : State} {parties parties' : Nat → Party} {backlog : List Nat}
  {f : FinishedSignal}

/-! ## The dictionary -/

/-- The entries of closed connections. -/
def closedEntries (connections : List (Nat × List Nat)) : List (Nat × List Nat) :=
  connections.filter fun entry => entry.2.length = 2

theorem setEntry_of_notMem {connections : List (Nat × List Nat)} {value : List Nat}
    (fresh : c ∉ connections.map Prod.fst) :
    setEntry c value connections = connections ++ [(c, value)] := if_neg fresh

theorem map_fst_setEntry {connections : List (Nat × List Nat)} {value : List Nat}
    (mem : c ∈ connections.map Prod.fst) :
    (setEntry c value connections).map Prod.fst = connections.map Prod.fst := by
  rw [setEntry, if_pos mem, List.map_map]
  refine List.map_congr_left fun entry _ => ?_
  simp only [Function.comp_apply]
  split
  case isTrue same => exact same.symm
  case isFalse => rfl

theorem mem_setEntry {connections : List (Nat × List Nat)} {value : List Nat}
    (mem : c ∈ connections.map Prod.fst) {entry : Nat × List Nat}
    (listed : entry ∈ setEntry c value connections) :
    entry = (c, value) ∨ entry ∈ connections ∧ entry.1 ≠ c := by
  rw [setEntry, if_pos mem] at listed
  obtain ⟨old, before, rfl⟩ := List.mem_map.mp listed
  split
  case isTrue => exact .inl rfl
  case isFalse other => exact .inr ⟨before, other⟩

/-- A connection that is closed is one more. -/
theorem length_closedEntries_setEntry {connections : List (Nat × List Nat)} {pid ts : Nat}
    (nodup : (connections.map Prod.fst).Nodup) (mem : (c, [pid]) ∈ connections) :
    (closedEntries (setEntry c [pid, ts] connections)).length =
      (closedEntries connections).length + 1 := by
  rw [setEntry, if_pos (List.mem_map_of_mem mem)]
  induction connections with
  | nil => cases mem
  | cons head connections ih =>
    obtain ⟨fresh, nodup⟩ := List.nodup_cons.mp nodup
    rcases List.mem_cons.mp mem with rfl | mem
    · have rest : connections.map (fun entry => if entry.1 = c then (c, [pid, ts]) else entry) =
          connections := by
        refine (List.map_congr_left fun entry listed => if_neg fun same => fresh ?_).trans
          (List.map_id _)
        exact List.mem_map.mpr ⟨entry, listed, same⟩
      simp [closedEntries, rest]
    · have other : head.1 ≠ c := fun same => fresh (same ▸ List.mem_map_of_mem mem)
      have step := ih nodup mem
      rw [List.map_cons, if_neg other]
      unfold closedEntries at step ⊢
      rw [List.filter_cons, List.filter_cons]
      split
      · rw [List.length_cons, List.length_cons, step]
      · exact step

theorem lookup_eq_none_iff {connections : List (Nat × List Nat)} :
    connections.lookup c = none ↔ c ∉ connections.map Prod.fst := by
  rw [List.lookup_eq_none_iff]
  simp only [List.mem_map, not_exists, not_and]
  constructor
  · intro away entry listed same
    exact absurd (away entry listed) (by simp [same])
  · intro away entry listed
    exact bne_iff_ne.mpr fun same => away entry listed same.symm

theorem mem_of_lookup {connections : List (Nat × List Nat)} {value : List Nat}
    (found : connections.lookup c = some value) : (c, value) ∈ connections := by
  obtain ⟨l, r, rfl, -⟩ := List.lookup_eq_some_iff.mp found
  exact List.mem_append_right _ List.mem_cons_self

/-- The loop of `wait` over connections that are all closed. -/
theorem exists_collect {connections : List (Nat × List Nat)}
    (ended : ∀ entry ∈ connections, ∃ ts, entry.2 = [entry.1 + 1, ts]) :
    ∃ endTimes, collect connections = .ok endTimes ∧
      ∀ pid, (endTimes pid).isSome ↔ pid ∈ connections.map fun entry => entry.1 + 1 := by
  have each : ∀ old : Nat → Option Nat, ∃ endTimes, connections.foldlM endTime old = .ok endTimes ∧
      ∀ pid, (endTimes pid).isSome ↔ (old pid).isSome ∨
        pid ∈ connections.map fun entry => entry.1 + 1 := by
    induction connections with
    | nil => exact fun old => ⟨old, rfl, by simp⟩
    | cons head connections ih =>
      intro old
      obtain ⟨⟨ts, value⟩, others⟩ := List.forall_mem_cons.mp ended
      obtain ⟨endTimes, ran, keys⟩ := ih others (Function.update old (head.1 + 1) (some ts))
      refine ⟨endTimes, ?_, fun pid => ?_⟩
      · have first : endTime old head = .ok (Function.update old (head.1 + 1) (some ts)) := by
          rw [endTime, value]
          rfl
        rw [List.foldlM_cons, first]
        exact ran
      · rw [keys, List.map_cons, List.mem_cons]
        by_cases same : pid = head.1 + 1
        · subst same
          simp
        · rw [Function.update_of_ne same]
          simp [same]
  obtain ⟨endTimes, ran, keys⟩ := each fun _ => none
  refine ⟨endTimes, ran, fun pid => ?_⟩
  rw [keys]
  simp

/-! ## What is counted -/

/-- A process died before it had written its id to the finish signal. -/
def Party.Lost (party : Party) : Prop := party.alive = false ∧ party.signal.unsent ≠ []

/-- What the finish signal has counted, while no exception was raised. -/
structure FinishedSignal.Counts (n : Nat) (parties : Nat → Party) (backlog : List Nat)
    (f : FinishedSignal) : Prop where
  nodup : (f.registered ++ backlog).Nodup
  connected : ∀ c ∈ f.registered ++ backlog, c < n ∧ 1 ≤ (parties c).place.stage
  keys : (f.connections.map Prod.fst).Nodup
  entries : ∀ e ∈ f.connections, e.2 = [e.1 + 1] ∧ e.1 ∈ f.registered ∨
    (∃ ts, e.2 = [e.1 + 1, ts]) ∧ e.1 ∉ f.registered ++ backlog ∧ e.1 < n ∧
      1 ≤ (parties e.1).place.stage ∧ (parties e.1).signal.ended
  unread : ∀ i, i ∉ f.connections.map Prod.fst → (parties i).signal.pending = htonT (i + 1)
  read : ∀ e ∈ f.connections, (parties e.1).signal.pending = []
  count : f.waitFor + (closedEntries f.connections).length = n
  events : ∀ events, f.place = .handle events → events.Nodup ∧ (.listener ∈ events → backlog ≠ []) ∧
    ∀ c, .conn c ∈ events → c ∈ f.registered ∧ (parties c).signal.Ready
  done : f.place = .done → f.waitFor ≤ 0 ∧ collect f.connections = .ok f.endTimes
  quiet : ∀ error, f.place ≠ .raised error

/-- The reason for an exception. -/
def SignalError.Cause (n : Nat) (parties : Nat → Party) : SignalError → Prop
  | .struct data => 0 < data.length ∧ data.length < 8
  | .key c => c < n ∧ (parties c).Lost
  | .index _ | .blocking => False

/-- What the finish signal has done, or why it raised. -/
def FinishedSignal.Inv (n : Nat) (parties : Nat → Party) (backlog : List Nat)
    (f : FinishedSignal) : Prop :=
  f.Counts n parties backlog ∨ ∃ error, f.place = .raised error ∧ error.Cause n parties

/-- The finish signal sees no difference but what has come in. -/
structure Unmoved (parties parties' : Nat → Party) : Prop where
  stage : ∀ i, (parties i).place.stage ≤ (parties' i).place.stage
  later : ∀ i, (parties i).signal.Later (parties' i).signal
  lost : ∀ i, (parties i).Lost → (parties' i).Lost

theorem Party.Later.lost {party party' : Party} (later : party.Later party') (lost : party.Lost) :
    party'.Lost := by
  obtain ⟨dead, -, -, unsent⟩ := later.dead lost.1
  exact ⟨dead, unsent ▸ lost.2⟩

theorem unmoved_set {party : Party} (stage : (parties i).place.stage ≤ party.place.stage)
    (later : (parties i).signal.Later party.signal) (lost : (parties i).Lost → party.Lost) :
    Unmoved parties (Function.update parties i party) where
  stage j := by
    by_cases same : j = i
    · subst same
      rwa [Function.update_self]
    · rw [Function.update_of_ne same]
  later j := by
    by_cases same : j = i
    · subst same
      rwa [Function.update_self]
    · rw [Function.update_of_ne same]
      exact .refl _
  lost j := by
    by_cases same : j = i
    · subst same
      rwa [Function.update_self]
    · rw [Function.update_of_ne same]
      exact id

theorem SignalError.Cause.unmoved {error : SignalError} (cause : error.Cause n parties)
    (same : Unmoved parties parties') : error.Cause n parties' := by
  cases error with
  | struct data => exact cause
  | key c => exact ⟨cause.1, same.lost c cause.2⟩
  | index | blocking => exact cause

theorem FinishedSignal.Counts.unmoved (counts : f.Counts n parties backlog)
    (same : Unmoved parties parties') : f.Counts n parties' backlog := by
  refine { counts with
    connected := fun c mem => ?_
    entries := fun e mem => (counts.entries e mem).imp_right fun closed => ?_
    unread := fun i away => (same.later i).pending.trans (counts.unread i away)
    read := fun e mem => (same.later e.1).pending.trans (counts.read e mem)
    events := fun events place => ?_ }
  · obtain ⟨inside, stage⟩ := counts.connected c mem
    exact ⟨inside, stage.trans (same.stage c)⟩
  · obtain ⟨value, away, inside, stage, ended⟩ := closed
    exact ⟨value, away, inside, stage.trans (same.stage e.1), (same.later e.1).ended ended⟩
  · obtain ⟨nodup, listener, conns⟩ := counts.events events place
    refine ⟨nodup, listener, fun c mem => ?_⟩
    obtain ⟨registered, ready⟩ := conns c mem
    exact ⟨registered, (same.later c).ready ready⟩

theorem FinishedSignal.Inv.unmoved (inv : f.Inv n parties backlog) (same : Unmoved parties parties') :
    f.Inv n parties' backlog := by
  rcases inv with counts | ⟨error, raised, cause⟩
  · exact .inl (counts.unmoved same)
  · exact .inr ⟨error, raised, cause.unmoved same⟩

theorem FinishedSignal.Inv.connect (inv : f.Inv n parties backlog) (inside : i < n)
    (stage : (parties i).place.stage = 0) {party : Party} (later : party.place.stage = 1)
    (signal : party.signal = (parties i).signal) (alive : party.alive = (parties i).alive) :
    f.Inv n (Function.update parties i party) (backlog ++ [i]) := by
  have same : Unmoved parties (Function.update parties i party) := by
    refine unmoved_set (by omega) (signal ▸ .refl _) fun lost => ?_
    exact ⟨alive.trans lost.1, signal ▸ lost.2⟩
  rcases inv with before | ⟨error, raised, cause⟩
  case inr => exact .inr ⟨error, raised, cause.unmoved same⟩
  have counts := before.unmoved same
  have fresh : i ∉ f.registered ++ backlog := by
    intro mem
    have := (before.connected i mem).2
    omega
  refine .inl { counts with
    nodup := ?_
    connected := fun c mem => ?_
    entries := fun e mem => ?_
    events := fun events place => ?_ }
  · rw [← List.append_assoc]
    refine List.nodup_append.mpr ⟨counts.nodup, List.nodup_singleton i, fun c mem d last => ?_⟩
    obtain rfl := List.mem_singleton.mp last
    exact fun same => fresh (same ▸ mem)
  · rw [← List.append_assoc] at mem
    rcases List.mem_append.mp mem with old | new
    · exact counts.connected c old
    · obtain rfl := List.mem_singleton.mp new
      rw [Function.update_self]
      exact ⟨inside, later.ge⟩
  · refine (counts.entries e mem).imp_right fun closed => ⟨closed.1, ?_, closed.2.2⟩
    rw [← List.append_assoc]
    intro listed
    rcases List.mem_append.mp listed with old | new
    · exact closed.2.1 old
    · obtain same := List.mem_singleton.mp new
      rcases before.entries e mem with first | closed
      · exact fresh (same ▸ List.mem_append_left _ first.2)
      · have := closed.2.2.2.1
        rw [same] at this
        omega
  · obtain ⟨nodup, listener, conns⟩ := counts.events events place
    exact ⟨nodup, fun mem => List.append_ne_nil_of_left_ne_nil (listener mem) _, conns⟩

theorem FinishedSignal.Inv.moved (inv : s.signal.Inv n s.parties s.signalBacklog)
    (moved : Moved n s s') : s'.signal.Inv n s'.parties s'.signalBacklog := by
  cases moved with
  | move later => exact inv.unmoved (unmoved_set later.stage later.signal later.lost)
  | connectSignal inside place => exact inv.connect inside (by rw [place]; rfl) rfl rfl rfl
  | connectBarrier inside place =>
    refine inv.unmoved (unmoved_set ?_ (.refl _) id)
    simp [place, Place.stage]

theorem unmoved_foldl_release (cs : List Nat) :
    Unmoved s.parties (cs.foldl State.release s).parties ∧
      (cs.foldl State.release s).signalBacklog = s.signalBacklog ∧
      (cs.foldl State.release s).signal = s.signal := by
  induction cs generalizing s with
  | nil => exact ⟨⟨fun _ => le_rfl, fun _ => .refl _, fun _ => id⟩, rfl, rfl⟩
  | cons c cs ih =>
    obtain ⟨rest, backlog, signal⟩ := ih (s := s.release c)
    have first : Unmoved s.parties (s.release c).parties := unmoved_set le_rfl (.refl _) id
    exact ⟨⟨fun i => (first.stage i).trans (rest.stage i),
      fun i => (first.later i).trans (rest.later i),
      fun i lost => rest.lost i (first.lost i lost)⟩, backlog, signal⟩

/-- The barrier changes nothing that the finish signal sees. -/
theorem barrierStep_frame (step : barrierStep n time s = some s') :
    Unmoved s.parties s'.parties ∧ s'.signalBacklog = s.signalBacklog ∧ s'.signal = s.signal := by
  have idle : Unmoved s.parties s.parties := ⟨fun _ => le_rfl, fun _ => .refl _, fun _ => id⟩
  unfold barrierStep at step
  split at step
  case h_1 =>
    split at step <;> cases step
    exact ⟨idle, rfl, rfl⟩
  case h_2 c idInBytes place =>
    split at step
    case h_1 => cases step
    case h_2 =>
      cases step
      exact unmoved_foldl_release _
    case h_3 data stream _ received =>
      have heard : Unmoved s.parties (s.set c { s.parties c with barrier := stream }).parties :=
        unmoved_set le_rfl (.refl _) id
      dsimp only at step
      split at step
      · cases step
        exact ⟨heard, rfl, rfl⟩
      · split at step <;> cases step
        exact ⟨heard, rfl, rfl⟩
  case h_3 =>
    cases step
    exact ⟨idle, rfl, rfl⟩
  case h_4 =>
    cases step
    exact ⟨unmoved_set le_rfl (.refl _) id, rfl, rfl⟩
  case h_5 => cases step
  case h_6 => cases step

/-! ## The steps of the finish signal -/

theorem FinishedSignal.Counts.key_lt (counts : f.Counts n parties backlog) {e : Nat × List Nat}
    (mem : e ∈ f.connections) : e.1 < n := by
  rcases counts.entries e mem with first | closed
  · exact (counts.connected e.1 (List.mem_append_left _ first.2)).1
  · exact closed.2.2.1

/-- When it waits for no more, it has seen the end of every connection. -/
theorem FinishedSignal.Counts.all_closed (counts : f.Counts n parties backlog)
    (spent : f.waitFor ≤ 0) : (f.connections.map Prod.fst).Perm (List.range n) ∧
      ∀ e ∈ f.connections, (∃ ts, e.2 = [e.1 + 1, ts]) ∧ (parties e.1).signal.ended := by
  have inside : f.connections.map Prod.fst ⊆ List.range n := by
    intro c mem
    obtain ⟨e, listed, rfl⟩ := List.mem_map.mp mem
    exact List.mem_range.mpr (counts.key_lt listed)
  have sub := counts.keys.subperm inside
  have few := sub.length_le
  rw [List.length_range, List.length_map] at few
  have count := counts.count
  have part : (closedEntries f.connections).length ≤ f.connections.length :=
    List.length_filter_le _ _
  have whole : (closedEntries f.connections).length = f.connections.length := by omega
  refine ⟨sub.perm_of_length_le ?_, fun e mem => ?_⟩
  · rw [List.length_range, List.length_map]
    omega
  · have pair := of_decide_eq_true (List.length_filter_eq_length_iff.mp whole e mem)
    rcases counts.entries e mem with first | closed
    · rw [first.1] at pair
      cases pair
    · exact ⟨closed.1, closed.2.2.2.2⟩

theorem FinishedSignal.Counts.handle {events : List Fd} (counts : f.Counts n parties backlog)
    (nodup : events.Nodup) (listener : .listener ∈ events → backlog ≠ [])
    (conns : ∀ c, .conn c ∈ events → c ∈ f.registered ∧ (parties c).signal.Ready) :
    { f with place := .handle events }.Counts n parties backlog :=
  { counts with
    events := fun events' place => by
      cases place
      exact ⟨nodup, listener, conns⟩
    done := fun place => by cases place
    quiet := fun error place => by cases place }

theorem FinishedSignal.Counts.select (counts : f.Counts n parties backlog) :
    { f with place := .select }.Counts n parties backlog :=
  { counts with
    events := fun events place => by cases place
    done := fun place => by cases place
    quiet := fun error place => by cases place }

/-- A connection is accepted. -/
theorem FinishedSignal.Counts.accept {rest : List Nat} {events : List Fd}
    (counts : f.Counts n parties (c :: rest))
    (place : f.place = .handle (.listener :: events)) :
    { f with
      registered := f.registered ++ [c]
      place := .handle events }.Counts n parties rest := by
  obtain ⟨nodup, -, conns⟩ := counts.events _ place
  obtain ⟨once, nodup⟩ := List.nodup_cons.mp nodup
  have order : f.registered ++ [c] ++ rest = f.registered ++ c :: rest := by simp
  refine { counts with
    nodup := order ▸ counts.nodup
    connected := order ▸ counts.connected
    entries := fun e mem => ?_
    events := fun events' place => ?_
    done := fun place => (by cases place)
    quiet := fun error place => (by cases place) }
  · exact (counts.entries e mem).imp (fun first => ⟨first.1, List.mem_append_left _ first.2⟩)
      fun closed => ⟨closed.1, order ▸ closed.2.1, closed.2.2⟩
  · cases place
    refine ⟨nodup, fun mem => absurd mem once, fun d mem => ?_⟩
    obtain ⟨registered, ready⟩ := conns d (List.mem_cons_of_mem _ mem)
    exact ⟨List.mem_append_left _ registered, ready⟩

/-- The whole id comes in. -/
theorem FinishedSignal.Counts.hear {events : List Fd} {data : List UInt8} {stream : ByteStream}
    {pid : Nat} (fits : n < 2 ^ 64) (counts : f.Counts n parties backlog)
    (place : f.place = .handle (.conn c :: events))
    (received : (parties c).signal.recv 8 = some (data, stream)) (full : unpack data = some pid) :
    { f with
      connections := setEntry c [pid] f.connections
      place := .handle events }.Counts n
      (Function.update parties c { parties c with signal := stream }) backlog := by
  obtain ⟨nodup, listener, conns⟩ := counts.events _ place
  obtain ⟨once, nodup⟩ := List.nodup_cons.mp nodup
  have registered := (conns c List.mem_cons_self).1
  have inside := (counts.connected c (List.mem_append_left _ registered)).1
  have pieces := ByteStream.pending_recv received
  have size : data.length = 8 := by
    unfold unpack at full
    split at full
    case isTrue size => exact size
    case isFalse => cases full
  have fresh : c ∉ f.connections.map Prod.fst := by
    intro mem
    obtain ⟨e, listed, rfl⟩ := List.mem_map.mp mem
    rw [counts.read e listed] at pieces
    rw [(List.append_eq_nil_iff.mp pieces).1] at size
    cases size
  rw [counts.unread c fresh] at pieces
  have sizes := congrArg List.length pieces
  rw [List.length_append, length_htonT, size] at sizes
  have empty : stream.pending = [] := List.eq_nil_of_length_eq_zero (by omega)
  rw [empty, List.append_nil] at pieces
  obtain rfl : c + 1 = pid := by
    rw [pieces, unpack_htonT (by omega)] at full
    exact Option.some.inj full
  generalize party : ({ parties c with signal := stream } : Party) = party'
  have other : ∀ i, i ≠ c → Function.update parties c party' i = parties i := fun i other =>
    Function.update_of_ne other ..
  have stage : ∀ i, (Function.update parties c party' i).place = (parties i).place := by
    intro i
    by_cases same : i = c
    · subst same
      rw [Function.update_self, ← party]
    · rw [other i same]
  have apart : ∀ e ∈ f.connections, e.1 ≠ c := fun e mem same =>
    fresh (same ▸ List.mem_map_of_mem mem)
  rw [setEntry_of_notMem fresh]
  refine ⟨counts.nodup, fun i mem => ?_, ?_, fun e mem => ?_, fun i away => ?_, fun e mem => ?_, ?_,
    fun events' place => ?_, fun place => (by cases place), fun error place => (by cases place)⟩
  · rw [stage]
    exact counts.connected i mem
  · rw [List.map_append]
    refine List.nodup_append.mpr ⟨counts.keys, List.nodup_singleton c, fun d mem d' last => ?_⟩
    obtain rfl := List.mem_singleton.mp last
    exact fun same => fresh (same ▸ mem)
  · rcases List.mem_append.mp mem with old | new
    · rw [other _ (apart e old)]
      exact counts.entries e old
    · obtain rfl := List.mem_singleton.mp new
      exact .inl ⟨rfl, registered⟩
  · rw [List.map_append] at away
    have different : i ≠ c := fun same => away (List.mem_append_right _ (same ▸ List.mem_cons_self))
    rw [other i different]
    exact counts.unread i fun mem => away (List.mem_append_left _ mem)
  · rcases List.mem_append.mp mem with old | new
    · rw [other _ (apart e old)]
      exact counts.read e old
    · obtain rfl := List.mem_singleton.mp new
      rw [Function.update_self, ← party]
      exact empty
  · have same : closedEntries (f.connections ++ [(c, [c + 1])]) = closedEntries f.connections := by
      simp [closedEntries]
    rw [same]
    exact counts.count
  · cases place
    refine ⟨nodup, fun mem => listener (List.mem_cons_of_mem _ mem), fun d mem => ?_⟩
    rw [other d fun same => once (same ▸ mem)]
    exact conns d (List.mem_cons_of_mem _ mem)

/-- A connection ends. -/
theorem FinishedSignal.Counts.close {events : List Fd} {value : List Nat}
    (counts : f.Counts n parties backlog) (place : f.place = .handle (.conn c :: events))
    (ended : (parties c).signal.ended) (found : f.connections.lookup c = some value) :
    { f with
      connections := setEntry c (value ++ [time]) f.connections
      registered := f.registered.erase c
      waitFor := f.waitFor - 1
      place := .handle events }.Counts n parties backlog := by
  obtain ⟨nodup, listener, conns⟩ := counts.events _ place
  obtain ⟨once, nodup⟩ := List.nodup_cons.mp nodup
  have registered := (conns c List.mem_cons_self).1
  have here := counts.connected c (List.mem_append_left _ registered)
  have mem := mem_of_lookup found
  have key : c ∈ f.connections.map Prod.fst := List.mem_map_of_mem mem
  obtain rfl : value = [c + 1] := by
    rcases counts.entries _ mem with first | closed
    · exact first.1
    · exact absurd (List.mem_append_left _ registered) closed.2.1
  have fewer : (f.registered.erase c ++ backlog).Sublist (f.registered ++ backlog) :=
    List.erase_sublist.append_right backlog
  have gone : c ∉ f.registered.erase c ++ backlog := by
    obtain ⟨first, -, apart⟩ := List.nodup_append.mp counts.nodup
    intro listed
    rcases List.mem_append.mp listed with old | waits
    · exact first.not_mem_erase old
    · exact apart c registered c waits rfl
  refine ⟨counts.nodup.sublist fewer, fun d listed => counts.connected d (fewer.subset listed), ?_,
    fun e listed => ?_, fun i away => ?_, fun e listed => ?_, ?_, fun events' place => ?_,
    fun place => (by cases place), fun error place => (by cases place)⟩
  · rw [map_fst_setEntry key]
    exact counts.keys
  · rcases mem_setEntry key listed with rfl | ⟨old, other⟩
    · exact .inr ⟨⟨time, rfl⟩, gone, here.1, here.2, ended⟩
    · refine (counts.entries e old).imp (fun first => ⟨first.1, ?_⟩) fun closed =>
        ⟨closed.1, fun listed => closed.2.1 (fewer.subset listed), closed.2.2⟩
      exact (List.mem_erase_of_ne other).mpr first.2
  · rw [map_fst_setEntry key] at away
    exact counts.unread i away
  · rcases mem_setEntry key listed with rfl | ⟨old, -⟩
    · exact counts.read (c, [c + 1]) mem
    · exact counts.read e old
  · have more := @length_closedEntries_setEntry c _ (c + 1) time counts.keys mem
    have count := counts.count
    show f.waitFor - 1 + ((closedEntries (setEntry c [c + 1, time] f.connections)).length : Int) = n
    rw [more]
    push_cast
    omega
  · cases place
    refine ⟨nodup, fun mem => listener (List.mem_cons_of_mem _ mem), fun d mem => ?_⟩
    obtain ⟨listed, ready⟩ := conns d (List.mem_cons_of_mem _ mem)
    have other : d ≠ c := fun same => once (same ▸ mem)
    exact ⟨(List.mem_erase_of_ne other).mpr listed, ready⟩

/-- A connection ends before an id has come in. -/
theorem FinishedSignal.Counts.lost {events : List Fd} {stream : ByteStream}
    (counts : f.Counts n parties backlog) (ok : (parties c).Ok)
    (place : f.place = .handle (.conn c :: events))
    (received : (parties c).signal.recv 8 = some ([], stream))
    (absent : f.connections.lookup c = none) : c < n ∧ (parties c).Lost := by
  have whole := counts.unread c (lookup_eq_none_iff.mp absent)
  obtain ⟨ended, empty, -⟩ := ByteStream.ended_of_recv_nil (by decide) received
  have unsent : (parties c).signal.unsent ≠ [] := by
    intro none_
    have size := congrArg List.length whole
    rw [ByteStream.pending, empty, ok.signal.flight ended, none_, length_htonT] at size
    cases size
  have registered := ((counts.events _ place).2.2 c List.mem_cons_self).1
  refine ⟨(counts.connected c (List.mem_append_left _ registered)).1, ?_, unsent⟩
  rcases ok.signalClosed (ok.signal.closed ended) with dead | finished
  · exact dead
  · exact absurd (ok.signalSent (by omega)) unsent

/-- A step of the finish signal. -/
theorem FinishedSignal.Inv.step {events : List Fd} (fits : n < 2 ^ 64)
    (ok : ∀ i, (s.parties i).Ok) (inv : s.signal.Inv n s.parties s.signalBacklog)
    (step : signalStep events time s = some s') : s'.signal.Inv n s'.parties s'.signalBacklog := by
  rcases inv with counts | ⟨error, raised, -⟩
  case inr =>
    simp only [signalStep, raised] at step
    cases step
  unfold signalStep at step
  split at step
  case h_1 place =>
    split at step
    case isTrue =>
      split at step
      case isTrue found =>
        cases step
        refine .inl (counts.handle found.2.1 (fun mem => ?_) fun c mem => ?_)
        · simpa [State.readable] using found.2.2 _ mem
        · have readable := found.2.2 _ mem
          simp only [State.readable, Bool.and_eq_true, decide_eq_true_eq, Bool.or_eq_true] at readable
          exact readable
      case isFalse => cases step
    case isFalse spent =>
      obtain ⟨perm, closed⟩ := counts.all_closed (by omega)
      obtain ⟨endTimes, collected, -⟩ := exists_collect fun e mem => (closed e mem).1
      rw [collected] at step
      cases step
      exact .inl { counts with
        events := fun events place => by cases place
        done := fun _ => ⟨by dsimp only; omega, collected⟩
        quiet := fun error place => by cases place }
  case h_2 place =>
    cases step
    exact .inl counts.select
  case h_3 events place =>
    split at step
    case h_1 empty =>
      exact absurd empty ((counts.events _ place).2.1 List.mem_cons_self)
    case h_2 c rest waiting =>
      cases step
      rw [waiting] at counts
      exact .inl (counts.accept place)
  case h_4 c events place =>
    have ready := ((counts.events _ place).2.2 c List.mem_cons_self).2
    split at step
    case h_1 blocked => exact absurd blocked (ByteStream.recv_ne_none ready)
    case h_2 stream received =>
      split at step
      case h_1 absent =>
        cases step
        exact .inr ⟨_, rfl, counts.lost (ok c) place received absent⟩
      case h_2 value found =>
        cases step
        exact .inl (counts.close place (ByteStream.ended_of_recv_nil (by decide) received).1 found)
    case h_3 data stream some_ received =>
      split at step
      case h_1 part =>
        cases step
        refine .inr ⟨_, rfl, List.length_pos_of_ne_nil some_, ?_⟩
        have bound := ByteStream.recv_length received
        unfold unpack at part
        split at part
        · cases part
        · omega
      case h_2 pid full =>
        cases step
        exact .inl (counts.hear fits place received full)
  case h_5 place => cases step
  case h_6 error place => cases step

/-! ## Runs -/

/-- The finish signal in every run. -/
theorem signal_inv (fits : n < 2 ^ 64) (reach : (system n).Reachable s) :
    (∀ i, (s.parties i).Ok) ∧ s.signal.Inv n s.parties s.signalBacklog := by
  have counts : (system n).start.signal.Counts n (system n).start.parties
      (system n).start.signalBacklog :=
    ⟨.nil, fun c mem => (by cases mem), .nil, fun e mem => (by cases mem), fun i _ => rfl,
      fun e mem => (by cases mem), by simp [system, closedEntries],
      fun events place => (by cases place),
      fun place => (by cases place), fun error place => (by cases place)⟩
  refine reach.invariant (P := fun s => (∀ i, (s.parties i).Ok) ∧
    s.signal.Inv n s.parties s.signalBacklog) ⟨ok_start, .inl counts⟩ fun s a s' _ inv next => ?_
  obtain ⟨ok, inv⟩ := inv
  rcases moved_of_next next with moved | ⟨time, step⟩ | ⟨events, time, step⟩
  · exact ⟨moved.ok ok, inv.moved moved⟩
  · obtain ⟨same, backlog, signal⟩ := barrierStep_frame step
    exact ⟨ok_of_barrierStep ok step, backlog ▸ signal ▸ inv.unmoved same⟩
  · exact ⟨(signalStep_frame ok step).1, inv.step fits ok step⟩

/-- **The finish signal comes back when all have finished.** When `wait` is done every process has
closed its connection, at the end of its broadcasts or by its death, and there is an end time for each
id and for no other. It raises only where an id came in in pieces, or a process died before it had
written its id. -/
theorem finish_waits (fits : n < 2 ^ 64) (reach : (system n).Reachable s) :
    (s.signal.place = .done →
      (∀ i < n, (s.parties i).place = .finished ∨ (s.parties i).alive = false) ∧
      ∀ pid, (s.signal.endTimes pid).isSome ↔ 1 ≤ pid ∧ pid ≤ n) ∧
    ∀ error, s.signal.place = .raised error →
      (∃ data, error = .struct data ∧ 0 < data.length ∧ data.length < 8) ∨
        ∃ c < n, error = .key c ∧ (s.parties c).Lost := by
  obtain ⟨ok, inv⟩ := signal_inv fits reach
  refine ⟨fun done => ?_, fun error raised => ?_⟩
  · rcases inv with counts | ⟨error, raised, -⟩
    case inr => rw [raised] at done; cases done
    obtain ⟨spent, collected⟩ := counts.done done
    obtain ⟨perm, closed⟩ := counts.all_closed spent
    refine ⟨fun i inside => ?_, fun pid => ?_⟩
    · have mem := perm.mem_iff.mpr (List.mem_range.mpr inside)
      obtain ⟨e, listed, rfl⟩ := List.mem_map.mp mem
      have ended := (closed e listed).2
      rcases (ok e.1).signalClosed ((ok e.1).signal.closed ended) with dead | stage
      · exact .inr dead
      · exact .inl (Place.eq_finished stage)
    · obtain ⟨endTimes, ran, keys⟩ := exists_collect fun e mem => (closed e mem).1
      obtain rfl : s.signal.endTimes = endTimes := Except.ok.inj (collected.symm.trans ran)
      have pids : s.signal.connections.map (fun entry => entry.1 + 1) =
          (s.signal.connections.map Prod.fst).map (· + 1) := by
        rw [List.map_map]
        rfl
      rw [keys, pids, (perm.map _).mem_iff]
      exact mem_map_succ_range
  · rcases inv with counts | ⟨error', raised', cause⟩
    · exact absurd raised (counts.quiet error)
    · obtain rfl : error' = error := by
        rw [raised'] at raised
        exact SignalPlace.raised.inj raised
      cases error' with
      | struct data => exact .inl ⟨data, rfl, cause⟩
      | key c => exact .inr ⟨c, cause.1, rfl, cause.2⟩
      | index | blocking => exact cause.elim

/-- The first process finishes, and the second one dies while it broadcasts. -/
def deathSchedule : List Action :=
  pairSchedule ++ [.run 0 0, .die 1, .signal [.listener] 0, .signal [] 0, .signal [] 0,
    .signal [.listener] 0, .signal [] 0, .signal [] 0] ++
  (List.range 2).flatMap (fun i => [.signalArrive i 8, .signalEnd i]) ++
  [.signal [.conn 1, .conn 0] 0, .signal [] 0, .signal [] 0, .signal [] 0,
    .signal [.conn 0, .conn 1] 0, .signal [] 5, .signal [] 6, .signal [] 0, .signal [] 0]

theorem finish_waits_of_death : ∃ s, (system 2).Reachable s ∧ (s.parties 1).alive = false ∧
    ∀ pid, (s.signal.endTimes pid).isSome ↔ 1 ≤ pid ∧ pid ≤ 2 := by
  have ran : ((system 2).execute (system 2).start deathSchedule).any
      fun s => s.signal.place = .done && !(s.parties 1).alive := by decide +kernel
  obtain ⟨s, reach, checked⟩ := Transitions.exists_reachable ran
  rw [Bool.and_eq_true, Bool.not_eq_true'] at checked
  exact ⟨s, reach, checked.2, ((finish_waits (by decide) reach).1 (of_decide_eq_true checked.1)).2⟩

end CausalBroadcast.Rendezvous
