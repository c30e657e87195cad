import CausalBroadcast.Async.Runs
import CausalBroadcast.Link.Nesting

/-!
# The schedule of a worker, over a run

A worker that finds an entry due leaves its queue alone, so the queue moves only if the worker is
not kept busy by its schedule for ever. The doubled timeouts see to that: while the worker is busy no
entry is added, each one it sees to comes back later than the last time, and in the end all of them
come back later than it takes to go through the schedule once.
-/

namespace CausalBroadcast

open Async Filter

variable {σ κ ε : Type}

/-! ## The worker's loop body -/

section
variable {id receiver : Nat} {top : Option Entry} {now woken later : Nat} {peer peer' : Peer}
  {sent : List Datagram}

/-- While an entry is due, the loop body sees to the first one. -/
theorem Peer.work_due {e : Entry} (worked : peer.work id receiver top now woken later =
    some (peer', sent)) (mem : e ∈ peer.scheduled) (due : e.backoff.retryAt ≤ now) :
    ∃ next, peer.scheduled.IsTop (some next) ∧ next.backoff.retryAt ≤ now ∧
      handleTimeout id receiver (some next) later peer = (peer', sent) := by
  unfold Peer.work at worked
  split at worked
  case isFalse => cases worked
  case isTrue isTop =>
    cases top with
    | none =>
      rw [show peer.scheduled = [] from isTop] at mem
      cases mem
    | some next =>
      have first := (isTop.2 e mem).trans due
      simp only [tryPop, if_neg (Nat.not_lt.mpr first), Option.some.injEq] at worked
      exact ⟨next, isTop, first, worked⟩

/-- While no entry is due, the loop body takes from the queue. -/
theorem Peer.work_quiet {msg : Message} {rest : List Message} (worked : peer.work id receiver top now
    woken later = some (peer', sent)) (quiet : ∀ e ∈ peer.scheduled, now < e.backoff.retryAt)
    (incoming : peer.incoming = msg :: rest) : peer'.incoming = rest := by
  unfold Peer.work at worked
  split at worked
  case isFalse => cases worked
  case isTrue isTop =>
    have popped : tryPop peer.incoming top now woken = some (some msg, rest) := by
      cases top with
      | none => simp [tryPop, tryPopUntil, incoming]
      | some next => simp [tryPop, tryPopUntil, incoming, quiet next isTop.1]
    simp only [popped] at worked
    split at worked <;> cases worked <;> rfl

/-- The entry that is seen to goes, and comes back later unless it was acknowledged. -/
theorem handleTimeout_cases {next : Entry}
    (handled : handleTimeout id receiver (some next) later peer = (peer', sent)) :
    seqNum next.msg ∈ peer.acknowledged ∧ peer'.scheduled = peer.scheduled.erase next ∨
      (∃ msg, peer'.scheduled = { msg, backoff := next.backoff.retry later } ::
        peer.scheduled.erase next) ∧ FairLossLink.send id receiver next.msg ∈ sent := by
  unfold handleTimeout at handled
  dsimp only at handled
  split at handled
  case isTrue known =>
    cases handled
    exact .inl ⟨known, rfl⟩
  case isFalse =>
    cases handled
    exact .inr ⟨⟨_, rfl⟩, List.mem_cons_self⟩

/-- An entry is an old one, was just made, or is an old one that was sent again. -/
theorem Peer.entry_of_work {e : Entry} (worked : peer.work id receiver top now woken later =
    some (peer', sent)) (mem : e ∈ peer'.scheduled) : e ∈ peer.scheduled ∨
      e.backoff = .start later ∨ ∃ next ∈ peer.scheduled, e.backoff = next.backoff.retry later := by
  unfold Peer.work at worked
  split at worked
  case isFalse => cases worked
  case isTrue isTop =>
    split at worked
    case h_1 => cases worked
    case h_2 =>
      cases top with
      | none =>
        cases worked
        exact .inl mem
      | some next =>
        rcases handleTimeout_cases (Option.some.inj worked) with ⟨-, same⟩ | ⟨⟨msg, same⟩, -⟩
        · rw [same] at mem
          exact .inl (List.mem_of_mem_erase mem)
        · rw [same] at mem
          rcases List.mem_cons.mp mem with rfl | old
          · exact .inr (.inr ⟨next, isTop.1, rfl⟩)
          · exact .inl (List.mem_of_mem_erase old)
    case h_3 =>
      split at worked <;> cases worked
      · rcases List.mem_cons.mp mem with rfl | old
        · exact .inr (.inl rfl)
        · exact .inl old
      · exact .inl mem

/-- The entries due by some time. -/
def EntryQueue.dueBy (scheduled : EntryQueue) (time : Nat) : Nat :=
  scheduled.countP fun e => e.backoff.retryAt ≤ time

theorem dueBy_lt_of_handled {next : Entry} {time : Nat}
    (handled : handleTimeout id receiver (some next) later peer = (peer', sent))
    (mem : next ∈ peer.scheduled) (due : next.backoff.retryAt ≤ time)
    (after : time < later + next.backoff.timeout * 2) :
    peer'.scheduled.dueBy time < peer.scheduled.dueBy time := by
  have gone : EntryQueue.dueBy (peer.scheduled.erase next) time < peer.scheduled.dueBy time := by
    have pos : 0 < peer.scheduled.dueBy time :=
      List.countP_pos_iff.mpr ⟨next, mem, decide_eq_true due⟩
    rw [EntryQueue.dueBy, List.countP_erase, if_pos ⟨mem, decide_eq_true due⟩]
    exact Nat.sub_lt pos Nat.one_pos
  rcases handleTimeout_cases handled with ⟨-, same⟩ | ⟨⟨msg, same⟩, -⟩
  · rw [same]
    exact gone
  · have late : ¬ (next.backoff.retry later).retryAt ≤ time := by
      simp only [ExponentialBackoff.retry]
      omega
    rw [same, EntryQueue.dueBy, List.countP_cons_of_neg (by simpa using late)]
    exact gone

end

/-- The main thread leaves the schedules to the workers. -/
theorem scheduled_setPeer {s : Process σ κ} {q q' : Nat} {peer : Peer}
    (same : peer.scheduled = (s.peers q').scheduled) :
    ((s.setPeer q' peer).peers q).scheduled = (s.peers q).scheduled := by
  by_cases here : q = q'
  · rw [here, Process.setPeer_self, same]
  · rw [Process.setPeer_other _ here]

theorem scheduled_run (client : Client σ κ ε) (id q : Nat) (s : Process σ κ) (frame : Frame κ) :
    ((frame.run client id s).state.peers q).scheduled = (s.peers q).scheduled := by
  cases frame with
  | transmit | client => rfl
  | send receiver msg =>
    simp only [Frame.run, PerfectLink.send]
    split <;> exact scheduled_setPeer rfl
  | receive msg =>
    simp only [Frame.run, PerfectLink.deliver]
    split
    · exact scheduled_setPeer rfl
    · split
      · exact scheduled_setPeer rfl
      · rfl

theorem scheduled_step {client : Client σ κ ε} {id q : Nat} {act : Act} {s : Process σ κ}
    {r : ProcessReaction σ κ ε} (step : s.step client id act = some r)
    (other : ∀ top now woken later, act ≠ .work q top now woken later) :
    (r.state.peers q).scheduled = (s.peers q).scheduled := by
  cases act with
  | main =>
    simp only [Process.step, Option.ite_none_left_eq_some] at step
    have step := step.2
    unfold Process.main at step
    split at step
    · cases step
      exact scheduled_run client id q _ _
    · split at step <;> cases step <;> rfl
  | stop =>
    simp only [Process.step] at step
    split at step <;> cases step
    rfl
  | work q' top now woken later =>
    obtain ⟨worked, -, rfl⟩ := Option.map_eq_some_iff.mp step
    have away : q ≠ q' := by
      rintro rfl
      exact other _ _ _ _ rfl
    show ((Process.setPeer _ q' _).peers q).scheduled = _
    rw [Process.setPeer_other _ away]

theorem linkMachine_step_eq {n : Nat} {client : Client σ κ ε} {id : Nat} {act : Act}
    {s : Process σ κ} (inside : id < n) :
    (linkMachine n client).step id act s = s.step client id act := if_pos inside

theorem step_of_linkMachine {n : Nat} {client : Client σ κ ε} {id : Nat} {act : Act}
    {s : Process σ κ} {r : ProcessReaction σ κ ε}
    (step : (linkMachine n client).step id act s = some r) : s.step client id act = some r := by
  rwa [linkMachine_step_eq (linkMachine_step_cases step).1] at step

/-! ## The loop bodies of a run -/

section
variable {n : Nat} {client : Client σ κ ε}

/-- The worker of `p` for `q` takes step `k`, and reads the clock at `now` and `later`. -/
def Works (run : Run (linkMachine n client)) (p q k now later : Nat) : Prop :=
  ∃ top woken, run.choice k = .act p (.work q top now woken later)

/-- The worker finds no entry due. -/
def Quiet (run : Run (linkMachine n client)) (p q k now : Nat) : Prop :=
  ∀ e ∈ ((run.node k p).peers q).scheduled, now < e.backoff.retryAt

/-- A loop body that finds an entry due does not wait: the next one reads the clock at most `d`
later. -/
def Prompt (run : Run (linkMachine n client)) (p q d : Nat) : Prop :=
  ∀ᶠ k in atTop, ∀ now later, Works run p q k now later → ¬ Quiet run p q k now →
    ∀ j > k, ∀ now' later', Works run p q j now' later' →
      (∀ i, k < i → i < j → ∀ now later, ¬ Works run p q i now later) → now ≤ now' ∧ now' ≤ now + d

/-- The worker of `p` for `q` goes on, in time. -/
structure Timely (run : Run (linkMachine n client)) (p q : Nat) : Prop where
  works : ∃ᶠ k in atTop, ∃ now later, Works run p q k now later
  /-- The clock passes every time. -/
  clock : ∀ time, ∀ᶠ k in atTop, ∀ now later, Works run p q k now later → time < now ∧ now ≤ later
  prompt : ∃ d, Prompt run p q d

/-- Again and again the worker of `p` for `q` finds no entry due. -/
def Attends (run : Run (linkMachine n client)) (p q : Nat) : Prop :=
  ∃ᶠ k in atTop, ∃ now later, Works run p q k now later ∧ Quiet run p q k now

variable {run : Run (linkMachine n client)} {p q k : Nat}

theorem worked_of_works {now later : Nat} (works : Works run p q k now later) :
    ∃ top woken peer' sent, ((run.node k p).peers q).work p q top now woken later =
        some (peer', sent) ∧ (run.node (k + 1) p).peers q = peer' ∧
      ∀ d ∈ sent, run.Transmits d k := by
  obtain ⟨top, woken, choice⟩ := works
  obtain ⟨r, step, world⟩ := Run.act choice
  obtain ⟨⟨peer', sent⟩, worked, rfl⟩ := Option.map_eq_some_iff.mp (step_of_linkMachine step)
  refine ⟨top, woken, peer', sent, worked, ?_, fun d mem => ⟨p, _, _, choice, step, mem⟩⟩
  rw [Run.node, world, World.react_self, Process.setPeer_self]

/-- Only a worker changes its schedule. -/
theorem scheduled_saw (run : Run (linkMachine n client)) (p q k : Nat) :
    (∃ now later, Works run p q k now later) ∨
      ((run.node (k + 1) p).peers q).scheduled = ((run.node k p).peers q).scheduled := by
  have saw := run.saw k p
  generalize run.node (k + 1) p = s at saw
  cases saw with
  | arrive | other => exact .inr rfl
  | @act act r choice step =>
    by_cases works : ∃ now later, Works run p q k now later
    · exact .inl works
    · refine .inr (scheduled_step (step_of_linkMachine step) fun top now woken later same => ?_)
      exact works ⟨now, later, top, woken, same ▸ choice⟩

/-- Once the clock has passed a time, a loop body sees to the entries due by that time. -/
theorem dueBy_saw {time : Nat} (passed : ∀ now later, Works run p q k now later →
    time < now ∧ now ≤ later) :
    ((run.node (k + 1) p).peers q).scheduled.dueBy time ≤
        ((run.node k p).peers q).scheduled.dueBy time ∧
      ((∃ now later, Works run p q k now later) →
        ((run.node k p).peers q).scheduled.dueBy time ≠ 0 →
        ((run.node (k + 1) p).peers q).scheduled.dueBy time <
          ((run.node k p).peers q).scheduled.dueBy time) := by
  have lower : ∀ now later, Works run p q k now later →
      ((run.node k p).peers q).scheduled.dueBy time ≠ 0 →
      ((run.node (k + 1) p).peers q).scheduled.dueBy time <
        ((run.node k p).peers q).scheduled.dueBy time := by
    intro now later works some_
    obtain ⟨before, last⟩ := passed now later works
    obtain ⟨top, woken, peer', sent, worked, after, -⟩ := worked_of_works works
    obtain ⟨e, mem, due⟩ := List.countP_pos_iff.mp (Nat.pos_of_ne_zero some_)
    have due := of_decide_eq_true due
    obtain ⟨next, isTop, -, handled⟩ := Peer.work_due worked mem (due.trans before.le)
    rw [after]
    exact dueBy_lt_of_handled handled isTop.1 ((isTop.2 e mem).trans due) (by omega)
  refine ⟨?_, fun ⟨now, later, works⟩ => lower now later works⟩
  rcases scheduled_saw run p q k with ⟨now, later, works⟩ | same
  case inr => rw [same]
  by_cases none_ : ((run.node k p).peers q).scheduled.dueBy time = 0
  case neg => exact (lower now later works none_).le
  obtain ⟨before, last⟩ := passed now later works
  obtain ⟨top, woken, peer', sent, worked, after, -⟩ := worked_of_works works
  rw [none_, after, Nat.le_zero]
  refine List.countP_eq_zero.mpr fun e mem due => ?_
  have due : e.backoff.retryAt ≤ time := of_decide_eq_true due
  rcases Peer.entry_of_work worked mem with old | new | ⟨next, -, again⟩
  · exact List.countP_eq_zero.mp none_ e old (decide_eq_true due)
  · rw [new] at due
    simp only [ExponentialBackoff.start] at due
    omega
  · rw [again] at due
    simp only [ExponentialBackoff.retry] at due
    omega

/-- Whatever is due by some time is seen to. -/
theorem eventually_retryAt_gt (timely : Timely run p q) (time : Nat) :
    ∀ᶠ k in atTop, ∀ e ∈ ((run.node k p).peers q).scheduled, time < e.backoff.retryAt := by
  obtain ⟨start, passed⟩ := eventually_atTop.mp (timely.clock time)
  let due (k : Nat) : Nat := ((run.node k p).peers q).scheduled.dueBy time
  obtain ⟨k, after, none_⟩ := exists_of_frequently (I := fun _ => True) (G := fun j => due j = 0)
    (k := start) timely.works due trivial fun j after _ => by
      obtain ⟨less, lower⟩ := dueBy_saw (passed j after)
      by_cases some_ : due j = 0
      · exact .inl (Nat.le_zero.mp (less.trans some_.le))
      · exact .inr ⟨trivial, less, fun works => lower works some_⟩
  have stays : ∀ j ≥ k, due j = 0 := by
    intro j later
    induction j, later using Nat.le_induction with
    | base => exact none_
    | succ j later ih =>
      exact Nat.le_zero.mp ((dueBy_saw (passed j (after.trans later))).1.trans ih.le)
  refine eventually_atTop.mpr ⟨k, fun j later e mem => Nat.lt_of_not_le fun soon => ?_⟩
  exact List.countP_eq_zero.mp (stays j later) e mem (decide_eq_true soon)

/-! ## Backing off -/

/-- What a loop body does that finds an entry due. -/
theorem handled_of_works {now later : Nat} (works : Works run p q k now later)
    (busy : ¬ Quiet run p q k now) :
    ∃ next ∈ ((run.node k p).peers q).scheduled, next.backoff.retryAt ≤ now ∧ ∃ peer' sent,
      handleTimeout p q (some next) later ((run.node k p).peers q) = (peer', sent) ∧
        (run.node (k + 1) p).peers q = peer' := by
  simp only [Quiet, not_forall, Nat.not_lt] at busy
  obtain ⟨e, mem, due⟩ := busy
  obtain ⟨top, woken, peer', sent, worked, after, -⟩ := worked_of_works works
  obtain ⟨next, isTop, first, handled⟩ := Peer.work_due worked mem due
  exact ⟨next, isTop.1, first, peer', sent, handled, after⟩

section
variable {start : Nat} (busy : ∀ k ≥ start, ∀ now later, Works run p q k now later →
  ¬ Quiet run p q k now)
include busy

/-- A worker that is kept busy puts nothing on its schedule but what it sent again. -/
theorem entry_of_busy (after : start ≤ k) {e : Entry}
    (mem : e ∈ ((run.node (k + 1) p).peers q).scheduled) : e ∈ ((run.node k p).peers q).scheduled ∨
      ∃ next ∈ ((run.node k p).peers q).scheduled, e.backoff.timeout = next.backoff.timeout * 2 := by
  rcases scheduled_saw run p q k with ⟨now, later, works⟩ | same
  case inr => exact .inl (same ▸ mem)
  obtain ⟨next, held, -, peer', sent, handled, after'⟩ :=
    handled_of_works works (busy k after _ _ works)
  rw [after'] at mem
  rcases handleTimeout_cases handled with ⟨-, same⟩ | ⟨⟨msg, same⟩, -⟩
  · rw [same] at mem
    exact .inl (List.mem_of_mem_erase mem)
  · rw [same] at mem
    rcases List.mem_cons.mp mem with rfl | old
    · exact .inr ⟨next, held, rfl⟩
    · exact .inl (List.mem_of_mem_erase old)

theorem length_of_busy (after : start ≤ k) :
    ((run.node k p).peers q).scheduled.length ≤ ((run.node start p).peers q).scheduled.length := by
  induction k, after using Nat.le_induction with
  | base => exact le_rfl
  | succ k after ih =>
    refine Nat.le_trans ?_ ih
    rcases scheduled_saw run p q k with ⟨now, later, works⟩ | same
    case inr => rw [same]
    obtain ⟨next, held, -, peer', sent, handled, after'⟩ :=
      handled_of_works works (busy k after _ _ works)
    have pos := List.length_pos_of_mem held
    rw [after']
    rcases handleTimeout_cases handled with ⟨-, same⟩ | ⟨⟨msg, same⟩, -⟩
    · rw [same, List.length_erase_of_mem held]
      exact Nat.sub_le _ _
    · rw [same, List.length_cons, List.length_erase_of_mem held]
      omega

/-- The timeouts of a worker that is kept busy pass every bound. -/
theorem eventually_timeout_ge (timely : Timely run p q)
    (positive : ∀ k, ∀ e ∈ ((run.node k p).peers q).scheduled, 0 < e.backoff.timeout) (bound : Nat) :
    ∀ᶠ k in atTop, ∀ e ∈ ((run.node k p).peers q).scheduled, bound ≤ e.backoff.timeout := by
  induction bound with
  | zero => exact .of_forall fun k e _ => Nat.zero_le _
  | succ bound ih =>
    obtain ⟨first, low⟩ := eventually_atTop.mp ih
    let from_ := max start first
    -- what is on the schedule now comes back later and later
    let last := ((run.node from_ p).peers q).scheduled.toFinset.sup fun e => e.backoff.retryAt
    have doubled : ∀ k ≥ from_, ∀ e ∈ ((run.node k p).peers q).scheduled,
        e.backoff.retryAt ≤ last ∨ bound + 1 ≤ e.backoff.timeout := by
      intro k after
      induction k, after using Nat.le_induction with
      | base =>
        intro e mem
        exact .inl (Finset.le_sup (f := fun e : Entry => e.backoff.retryAt)
          (List.mem_toFinset.mpr mem))
      | succ k after ih =>
        intro e mem
        rcases entry_of_busy busy ((le_max_left start first).trans after) mem with
          old | ⟨next, held, twice⟩
        · exact ih e old
        · have pos := positive k next held
          have enough := low k ((le_max_right start first).trans after) next held
          exact .inr (by omega)
    filter_upwards [eventually_retryAt_gt timely last, eventually_ge_atTop from_] with
      k late after e mem
    exact (doubled k after e mem).resolve_left (Nat.not_le.mpr (late e mem))

end

theorem timeout_pos (run : Run (linkMachine n client)) (p q k : Nat) :
    ∀ e ∈ ((run.node k p).peers q).scheduled, 0 < e.backoff.timeout := by
  induction k with
  | zero =>
    intro e mem
    rw [Run.node, run.start] at mem
    cases mem
  | succ k ih =>
    intro e mem
    rcases scheduled_saw run p q k with ⟨now, later, works⟩ | same
    case inr => exact ih e (same ▸ mem)
    obtain ⟨top, woken, peer', sent, worked, after, -⟩ := worked_of_works works
    rw [after] at mem
    rcases Peer.entry_of_work worked mem with old | new | ⟨next, held, again⟩
    · exact ih e old
    · rw [new]
      show 0 < milliseconds 100
      decide
    · rw [again]
      exact Nat.mul_pos (ih next held) Nat.two_pos

/-- Between two loop bodies the schedule is left alone. -/
theorem exists_next_works (timely : Timely run p q) (k : Nat) :
    ∃ j > k, (∃ now later, Works run p q j now later) ∧
    (∀ i, k < i → i < j → ∀ now later, ¬ Works run p q i now later) ∧
    ((run.node j p).peers q).scheduled = ((run.node (k + 1) p).peers q).scheduled := by
  classical
  have some_ : ∃ j, k < j ∧ ∃ now later, Works run p q j now later :=
    frequently_atTop.mp timely.works (k + 1)
  obtain ⟨after, works⟩ := Nat.find_spec some_
  have between : ∀ i, k < i → i < Nat.find some_ → ∀ now later, ¬ Works run p q i now later :=
    fun i after before now later works => Nat.find_min some_ before ⟨after, now, later, works⟩
  have same : ∀ i, k + 1 ≤ i → i ≤ Nat.find some_ →
      ((run.node i p).peers q).scheduled = ((run.node (k + 1) p).peers q).scheduled := by
    intro i after
    induction i, after using Nat.le_induction with
    | base => exact fun _ => rfl
    | succ i after ih =>
      intro before
      rcases scheduled_saw run p q i with ⟨now, later, works⟩ | same
      · exact absurd works (between i after before now later)
      · exact same.trans (ih (Nat.le_of_succ_le before))
  exact ⟨_, after, works, between, same _ after le_rfl⟩

/-- A worker that goes through its schedule promptly comes to its queue, again and again. -/
theorem attends_of_timely (timely : Timely run p q) : Attends run p q := by
  obtain ⟨d, prompt⟩ := timely.prompt
  by_contra never
  have busy : ∀ᶠ k in atTop, ∀ now later, Works run p q k now later → ¬ Quiet run p q k now := by
    refine (not_frequently.mp never).mono fun k never now later works quiet => ?_
    exact never ⟨now, later, works, quiet⟩
  obtain ⟨start, busy⟩ := eventually_atTop.mp busy
  let size := ((run.node start p).peers q).scheduled.length
  obtain ⟨first, settled⟩ := eventually_atTop.mp
    ((eventually_timeout_ge busy timely (timeout_pos run p q) (size * d + 1)).and
      ((timely.clock 0).and prompt))
  obtain ⟨k, after, now, later, works⟩ := frequently_atTop.mp timely.works (max start first)
  -- the time by which every entry was seen to once
  obtain ⟨time, last⟩ : ∃ time, time = now + size * d := ⟨_, rfl⟩
  have pass : ∀ i ≤ size, ∃ j ≥ max start first, ∃ now' later', Works run p q j now' later' ∧
      now ≤ now' ∧ now' ≤ now + i * d ∧
      ((run.node j p).peers q).scheduled.dueBy time + i ≤ size := by
    intro i
    induction i with
    | zero =>
      refine fun _ => ⟨k, after, now, later, works, le_rfl, Nat.le_add_right _ _, ?_⟩
      exact List.countP_le_length.trans (length_of_busy busy ((le_max_left start first).trans after))
    | succ i ih =>
      intro room
      obtain ⟨j, after, now', later', works, since, until_, left⟩ := ih (Nat.le_of_succ_le room)
      have always := busy j ((le_max_left start first).trans after) now' later' works
      obtain ⟨long, passed, soon⟩ := settled j ((le_max_right start first).trans after)
      obtain ⟨next, held, due, peer', sent, handled, became⟩ := handled_of_works works always
      obtain ⟨j', next_, ⟨now'', later'', works'⟩, between, same⟩ := exists_next_works timely j
      obtain ⟨since', until'⟩ := soon now' later' works always j' next_ now'' later'' works' between
      have room' : i * d ≤ size * d := Nat.mul_le_mul_right d (Nat.le_of_succ_le room)
      have long := long next held
      have monotone := (passed now' later' works).2
      have lowered : peer'.scheduled.dueBy time <
          ((run.node j p).peers q).scheduled.dueBy time :=
        dueBy_lt_of_handled handled held (by omega) (by omega)
      refine ⟨j', after.trans next_.le, now'', later'', works', since.trans since', ?_, ?_⟩
      · rw [Nat.succ_mul]
        omega
      · rw [same, became]
        omega
  obtain ⟨j, after, now', later', works, since, until_, left⟩ := pass size le_rfl
  obtain ⟨next, held, due, -⟩ :=
    handled_of_works works (busy j ((le_max_left start first).trans after) now' later' works)
  have some_ : 0 < ((run.node j p).peers q).scheduled.dueBy time :=
    List.countP_pos_iff.mpr ⟨next, held, decide_eq_true (due.trans (until_.trans last.ge))⟩
  omega

end

end CausalBroadcast
