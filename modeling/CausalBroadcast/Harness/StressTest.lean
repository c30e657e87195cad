import Mathlib.Algebra.Order.BigOperators.Group.Finset
import CausalBroadcast.Async.Threads

/-!
# The stress test

The threads of `validate.py` that stop, continue and terminate the processes of a run. Each draws a
process and an operation, and under the lock of the process sends the signal if the operation is
allowed; a shared counter limits how many processes are terminated.

Whatever the threads draw and however their steps interleave, a majority of the processes is never
terminated, and every signal finds its process in a state that takes it.
-/

namespace CausalBroadcast.StressTest

open Async

/-! ## Processes and signals -/

/-- `ProcessState`. -/
inductive ProcessState where
  | running
  | stopped
  | terminated
  deriving DecidableEq

/-- The signals of `stateToSignal`. -/
inductive Signal where
  | cont
  | stop
  | term
  deriving DecidableEq

/-- `stateToSignal`. -/
def stateToSignal : ProcessState → Signal
  | .running => .cont
  | .stopped => .stop
  | .terminated => .term

/-- `validStateTransition`. -/
def validStateTransition (current desired : ProcessState) : Bool :=
  match current with
  | .terminated => false
  | .running => desired = .stopped || desired = .terminated
  | .stopped => desired = .running

/-- What a signal does to a process, `none` where it has no effect yet or no more: a stopped process
handles `SIGTERM` when it is continued, and one that was terminated handles nothing. -/
def Signal.effect : ProcessState → Signal → Option ProcessState
  | .running, .cont => some .running
  | .running, .stop => some .stopped
  | .running, .term => some .terminated
  | .stopped, .cont => some .running
  | .stopped, .stop => some .stopped
  | .stopped, .term => none
  | .terminated, _ => none

/-- The state that signals leave a new process in, if it handles each as it comes. -/
def handled (signals : List Signal) : Option ProcessState := signals.foldlM Signal.effect .running

theorem handled_append (signals more : List Signal) :
    handled (signals ++ more) =
      (handled signals).bind fun state => more.foldlM Signal.effect state :=
  List.foldlM_append

theorem handled_concat (signals : List Signal) (signal : Signal) :
    handled (signals ++ [signal]) = (handled signals).bind fun state => signal.effect state := by
  rw [handled_append]
  exact congrArg _ (funext fun state => bind_pure _)

/-- The operations of the stress test lead to the state they are named by. -/
theorem effect_stateToSignal {current desired : ProcessState}
    (valid : validStateTransition current desired) :
    (stateToSignal desired).effect current = some desired := by
  cases current <;> cases desired <;> first | rfl | cases valid

/-- A process that has handled `SIGTERM` stays as it is. -/
theorem handled_of_term_mem {signals : List Signal} (mem : .term ∈ signals) :
    ∀ {state : ProcessState}, handled signals = some state →
      state = .terminated ∧ signals.count .term = 1 := by
  induction signals using List.reverseRecOn with
  | nil => cases mem
  | append_singleton signals signal ih =>
    intro state done
    rw [handled_concat, Option.bind_eq_some_iff] at done
    obtain ⟨old, before, after⟩ := done
    by_cases earlier : Signal.term ∈ signals
    · obtain ⟨rfl, -⟩ := ih earlier before
      cases signal <;> cases after
    · obtain rfl : signal = .term := by
        rcases List.mem_append.mp mem with mem | mem
        · exact absurd mem earlier
        · exact (List.mem_singleton.mp mem).symm
      refine ⟨?_, ?_⟩
      · cases old <;> simp [Signal.effect] at after
        exact after.symm
      · rw [List.count_append, List.count_eq_zero_of_not_mem earlier, List.count_singleton_self]

theorem term_mem_of_handled {signals : List Signal} (done : handled signals = some .terminated) :
    .term ∈ signals := by
  induction signals using List.reverseRecOn with
  | nil => cases done
  | append_singleton signals signal =>
    rw [handled_concat, Option.bind_eq_some_iff] at done
    obtain ⟨old, -, after⟩ := done
    cases signal with
    | term => exact List.mem_append_right _ (List.mem_singleton_self _)
    | cont | stop => cases old <;> cases after

/-! ## The threads -/

variable {τ : Type}

/-- `ProcessInfo`: its lock with the thread that holds it, the signals its handle has sent, and its
state. -/
structure ProcessInfo (τ : Type) where
  lock : Option τ := none
  sent : List Signal := []
  state : ProcessState := .running

/-- `handle.send_signal(ProcessInfo.stateToSignal(op))`. -/
def ProcessInfo.sendSignal (info : ProcessInfo τ) (op : ProcessState) : ProcessInfo τ :=
  { info with sent := info.sent ++ [stateToSignal op] }

/-- What the threads share: `processesInfo`, and the `AtomicSaturatedCounter` with the thread that
holds its lock. -/
structure Shared (τ : Type) where
  processesInfo : Nat → ProcessInfo τ := fun _ => {}
  counterLock : Option τ := none
  value : Nat := 0

/-- The information of one process changes. -/
def Shared.modify (s : Shared τ) (proc : Nat) (f : ProcessInfo τ → ProcessInfo τ) : Shared τ :=
  { s with processesInfo := Function.update s.processesInfo proc (f (s.processesInfo proc)) }

@[simp] theorem Shared.modify_self (s : Shared τ) (proc : Nat)
    (f : ProcessInfo τ → ProcessInfo τ) :
    (s.modify proc f).processesInfo proc = f (s.processesInfo proc) := Function.update_self ..

@[simp] theorem Shared.modify_other (s : Shared τ) {proc other : Nat} (away : other ≠ proc)
    (f : ProcessInfo τ → ProcessInfo τ) :
    (s.modify proc f).processesInfo other = s.processesInfo other :=
  Function.update_of_ne away ..

/-- Where a thread is in `stress`. -/
inductive Place where
  /-- Before `while`. -/
  | loop
  /-- Before `with info.lock`. -/
  | entering (proc : Nat) (op : ProcessState)
  /-- Before `if ProcessInfo.validStateTransition`. -/
  | checking (proc : Nat) (op : ProcessState)
  /-- Before `with self._lock`, in `reserve`. -/
  | reserving (proc : Nat)
  /-- Before `if self._value < self._saturation`. -/
  | comparing (proc : Nat)
  /-- Before `self._value += 1`. -/
  | adding (proc : Nat)
  /-- Before `info.handle.send_signal`. -/
  | signalling (proc : Nat) (op : ProcessState)
  /-- Before `info.state = op`. -/
  | storing (proc : Nat) (op : ProcessState)
  deriving DecidableEq

/-- A thread in `stress`. -/
structure Stress where
  selectProc : List Nat
  successfulAttempts : Nat := 0
  place : Place := .loop

/-- The parameters of a stress test. -/
structure Test where
  processes : Nat
  attempts : Nat
  stop : Nat
  cont : Nat
  term : Nat

namespace Test

variable (test : Test)

/-- `maxTerminatedProcesses`. -/
def maxTerminatedProcesses : Int :=
  if test.processes % 2 = 1 then (test.processes / 2 : Nat) else ((test.processes : Int) - 1) / 2

/-- `selectOp`, but for its order. -/
def selectOp : List ProcessState :=
  List.replicate test.stop .stopped ++ List.replicate test.cont .running ++
    List.replicate test.term .terminated

/-- `stress`, with what it draws chosen by the environment. The last access of a critical section
is one step with the release of its lock. -/
def step (t : τ) (drawn : Nat × ProcessState) (s : Shared τ) (l : Stress) :
    Option (Shared τ × Stress) :=
  match l.place with
  | .loop =>
    if l.successfulAttempts < test.attempts ∧ drawn.1 ∈ l.selectProc ∧ drawn.2 ∈ test.selectOp then
      some (s, { l with place := .entering drawn.1 drawn.2 })
    else none
  | .entering proc op =>
    if (s.processesInfo proc).lock = none then
      some (s.modify proc fun info => { info with lock := some t },
        { l with place := .checking proc op })
    else none
  | .checking proc op =>
    if validStateTransition (s.processesInfo proc).state op then
      if op = .terminated then some (s, { l with place := .reserving proc })
      else some (s, { l with place := .signalling proc op })
    else
      some (s.modify proc fun info => { info with lock := none }, { l with place := .loop })
  | .reserving proc =>
    if s.counterLock = none then
      some ({ s with counterLock := some t }, { l with place := .comparing proc })
    else none
  | .comparing proc =>
    if s.value < test.maxTerminatedProcesses then some (s, { l with place := .adding proc })
    else
      -- `continue` leaves both critical sections
      some ({ s with counterLock := none }.modify proc fun info => { info with lock := none },
        { l with place := .loop })
  | .adding proc =>
    -- `remove` raises where the process is not listed
    if proc ∈ l.selectProc then
      some ({ s with value := s.value + 1, counterLock := none },
        { l with selectProc := l.selectProc.erase proc, place := .signalling proc .terminated })
    else none
  | .signalling proc op =>
    some (s.modify proc fun info => info.sendSignal op, { l with place := .storing proc op })
  | .storing proc op =>
    some (s.modify proc fun info => { info with state := op, lock := none },
      { l with successfulAttempts := l.successfulAttempts + 1, place := .loop })

/-- The threads of `run`, each with the processes in an order of its own. -/
def threads (orders : τ → List Nat) : Threads τ (Shared τ) Stress (Nat × ProcessState) where
  shared := {}
  locals t := { selectProc := orders t }
  step := test.step

/-- What a step of thread `t` does. -/
inductive Took (t : τ) : Shared τ → Stress → Shared τ → Stress → Prop
  | draw {s : Shared τ} {l : Stress} {proc : Nat} {op : ProcessState} : l.place = .loop →
      proc ∈ l.selectProc → Took t s l s { l with place := .entering proc op }
  | enter {s : Shared τ} {l : Stress} {proc : Nat} {op : ProcessState} :
      l.place = .entering proc op → (s.processesInfo proc).lock = none →
      Took t s l (s.modify proc fun info => { info with lock := some t })
        { l with place := .checking proc op }
  | refuse {s : Shared τ} {l : Stress} {proc : Nat} {op : ProcessState} :
      l.place = .checking proc op →
      Took t s l (s.modify proc fun info => { info with lock := none }) { l with place := .loop }
  | allow {s : Shared τ} {l : Stress} {proc : Nat} {op : ProcessState} :
      l.place = .checking proc op → validStateTransition (s.processesInfo proc).state op →
      op ≠ .terminated → Took t s l s { l with place := .signalling proc op }
  | ask {s : Shared τ} {l : Stress} {proc : Nat} : l.place = .checking proc .terminated →
      validStateTransition (s.processesInfo proc).state .terminated →
      Took t s l s { l with place := .reserving proc }
  | reserve {s : Shared τ} {l : Stress} {proc : Nat} : l.place = .reserving proc →
      s.counterLock = none →
      Took t s l { s with counterLock := some t } { l with place := .comparing proc }
  | grant {s : Shared τ} {l : Stress} {proc : Nat} : l.place = .comparing proc →
      s.value < test.maxTerminatedProcesses → Took t s l s { l with place := .adding proc }
  | giveUp {s : Shared τ} {l : Stress} {proc : Nat} : l.place = .comparing proc →
      Took t s l ({ s with counterLock := none }.modify proc fun info => { info with lock := none })
        { l with place := .loop }
  | add {s : Shared τ} {l : Stress} {proc : Nat} : l.place = .adding proc → proc ∈ l.selectProc →
      Took t s l { s with value := s.value + 1, counterLock := none }
        { l with selectProc := l.selectProc.erase proc, place := .signalling proc .terminated }
  | signal {s : Shared τ} {l : Stress} {proc : Nat} {op : ProcessState} :
      l.place = .signalling proc op →
      Took t s l (s.modify proc fun info => info.sendSignal op) { l with place := .storing proc op }
  | store {s : Shared τ} {l : Stress} {proc : Nat} {op : ProcessState} :
      l.place = .storing proc op →
      Took t s l (s.modify proc fun info => { info with state := op, lock := none })
        { l with successfulAttempts := l.successfulAttempts + 1, place := .loop }

variable {test} {t : τ} {drawn : Nat × ProcessState} {s s' : Shared τ} {l l' : Stress}

theorem took_of_step (step : test.step t drawn s l = some (s', l')) : test.Took t s l s' l' := by
  unfold Test.step at step
  split at step
  case h_1 place =>
    split at step <;> cases step
    case isTrue enabled => exact .draw place enabled.2.1
  case h_2 place =>
    split at step <;> cases step
    case isTrue free => exact .enter place free
  case h_3 proc op place =>
    split at step
    case isFalse => cases step; exact .refuse place
    case isTrue valid =>
      split at step <;> cases step
      case isTrue same => subst same; exact .ask place valid
      case isFalse other => exact .allow place valid other
  case h_4 place =>
    split at step <;> cases step
    case isTrue free => exact .reserve place free
  case h_5 place =>
    split at step <;> cases step
    case isTrue room => exact .grant place room
    case isFalse => exact .giveUp place
  case h_6 place =>
    split at step <;> cases step
    case isTrue mem => exact .add place mem
  case h_7 place => cases step; exact .signal place
  case h_8 place => cases step; exact .store place

/-! ## What the locks protect -/

/-- What a thread relies on where it is. -/
def Relies (test : Test) (t : τ) (l : Stress) (s : Shared τ) : Prop :=
  test.processes ≤ l.selectProc.length + s.value ∧
  match l.place with
  | .loop => True
  | .entering proc _ => proc ∈ l.selectProc
  | .checking proc _ => proc ∈ l.selectProc ∧ (s.processesInfo proc).lock = some t ∧
      handled (s.processesInfo proc).sent = some (s.processesInfo proc).state
  | .reserving proc => proc ∈ l.selectProc ∧ (s.processesInfo proc).lock = some t ∧
      handled (s.processesInfo proc).sent = some (s.processesInfo proc).state ∧
      validStateTransition (s.processesInfo proc).state .terminated
  | .comparing proc => proc ∈ l.selectProc ∧ (s.processesInfo proc).lock = some t ∧
      handled (s.processesInfo proc).sent = some (s.processesInfo proc).state ∧
      validStateTransition (s.processesInfo proc).state .terminated ∧ s.counterLock = some t
  | .adding proc => proc ∈ l.selectProc ∧ (s.processesInfo proc).lock = some t ∧
      handled (s.processesInfo proc).sent = some (s.processesInfo proc).state ∧
      validStateTransition (s.processesInfo proc).state .terminated ∧ s.counterLock = some t ∧
      s.value < test.maxTerminatedProcesses
  | .signalling proc op => (s.processesInfo proc).lock = some t ∧
      handled (s.processesInfo proc).sent = some (s.processesInfo proc).state ∧
      validStateTransition (s.processesInfo proc).state op
  | .storing proc op => (s.processesInfo proc).lock = some t ∧
      handled (s.processesInfo proc).sent = some op

/-- What holds of the processes and of the counter that no thread has locked. -/
structure Settled (test : Test) (s : Shared τ) : Prop where
  handled : ∀ proc, (s.processesInfo proc).lock = none →
    handled (s.processesInfo proc).sent = some (s.processesInfo proc).state
  value : s.value ≤ test.maxTerminatedProcesses

/-- What another thread may do while `t` has a lock. -/
structure Spares (t : τ) (s s' : Shared τ) : Prop where
  info : ∀ proc, (s.processesInfo proc).lock = some t → s'.processesInfo proc = s.processesInfo proc
  counter : s.counterLock = some t → s'.counterLock = some t ∧ s'.value = s.value
  value : s.value ≤ s'.value

theorem Relies.mono (relies : Relies test t l s) (spares : Spares t s s') : Relies test t l s' := by
  obtain ⟨enough, here⟩ := relies
  refine ⟨enough.trans (Nat.add_le_add_left spares.value _), ?_⟩
  split at here
  case h_1 => exact trivial
  case h_2 => exact here
  case h_3 | h_4 => rwa [spares.info _ here.2.1]
  case h_5 =>
    rw [spares.info _ here.2.1]
    exact ⟨here.1, here.2.1, here.2.2.1, here.2.2.2.1, (spares.counter here.2.2.2.2).1⟩
  case h_6 =>
    obtain ⟨same, value⟩ := spares.counter here.2.2.2.2.1
    rw [spares.info _ here.2.1, value]
    exact ⟨here.1, here.2.1, here.2.2.1, here.2.2.2.1, same, here.2.2.2.2.2⟩
  case h_7 | h_8 => rwa [spares.info _ here.1]

theorem Spares.refl (t : τ) (s : Shared τ) : Spares t s s :=
  ⟨fun _ _ => rfl, fun h => ⟨h, rfl⟩, le_rfl⟩

theorem Spares.modify {proc : Nat} (away : (s.processesInfo proc).lock ≠ some t)
    (f : ProcessInfo τ → ProcessInfo τ) : Spares t s (s.modify proc f) where
  info other held := by
    by_cases same : other = proc
    · exact absurd (same ▸ held) away
    · exact s.modify_other same f
  counter held := ⟨held, rfl⟩
  value := le_rfl

theorem Took.spares (took : test.Took t s l s' l') (relies : Relies test t l s) {t' : τ}
    (other : t' ≠ t) : Spares t' s s' := by
  have own : some t ≠ some t' := fun same => other (Option.some.inj same).symm
  obtain ⟨-, here⟩ := relies
  cases took with
  | draw | allow | ask | grant => exact .refl t' s
  | enter place free => exact .modify (free ▸ (Option.some_ne_none t').symm) _
  | refuse place =>
    simp only [place] at here
    exact .modify (here.2.1 ▸ own) _
  | reserve place free =>
    exact ⟨fun _ _ => rfl, fun held => absurd (held.symm.trans free) (Option.some_ne_none t'), le_rfl⟩
  | giveUp place =>
    simp only [place] at here
    refine ⟨fun proc held => ?_, fun held => absurd (here.2.2.2.2.symm.trans held) own, le_rfl⟩
    exact (Spares.modify (s := { s with counterLock := none }) (here.2.1 ▸ own) _).info proc held
  | add place =>
    simp only [place] at here
    exact ⟨fun _ _ => rfl, fun held => absurd (here.2.2.2.2.1.symm.trans held) own, Nat.le_succ _⟩
  | signal place | store place =>
    simp only [place] at here
    exact .modify (here.1 ▸ own) _

theorem Settled.modify (settled : Settled test s) {proc : Nat} {f : ProcessInfo τ → ProcessInfo τ}
    (done : (f (s.processesInfo proc)).lock = none →
      StressTest.handled (f (s.processesInfo proc)).sent = some (f (s.processesInfo proc)).state) :
    Settled test (s.modify proc f) where
  handled other free := by
    by_cases same : other = proc
    · subst same
      rw [Shared.modify_self] at free ⊢
      exact done free
    · rw [Shared.modify_other s same] at free ⊢
      exact settled.handled other free
  value := settled.value

theorem Took.settled (took : test.Took t s l s' l') (relies : Relies test t l s)
    (settled : Settled test s) : Settled test s' := by
  obtain ⟨-, here⟩ := relies
  cases took with
  | draw | allow | ask | grant => exact settled
  | enter place free => exact settled.modify fun held => absurd held (Option.some_ne_none t)
  | refuse place =>
    simp only [place] at here
    exact settled.modify fun _ => here.2.2
  | reserve place free => exact ⟨settled.handled, settled.value⟩
  | giveUp place =>
    simp only [place] at here
    have unlocked : Settled test { s with counterLock := none } := ⟨settled.handled, settled.value⟩
    exact unlocked.modify fun _ => here.2.2.1
  | add place =>
    simp only [place] at here
    refine ⟨settled.handled, ?_⟩
    have room := here.2.2.2.2.2
    push_cast
    omega
  | signal place =>
    simp only [place] at here
    exact settled.modify fun free => absurd (here.1.symm.trans free) (Option.some_ne_none t)
  | store place =>
    simp only [place] at here
    exact settled.modify fun _ => here.2

theorem Took.relies (took : test.Took t s l s' l') (relies : Relies test t l s)
    (settled : Settled test s) : Relies test t l' s' := by
  obtain ⟨enough, here⟩ := relies
  cases took with
  | draw place mem => exact ⟨enough, mem⟩
  | enter place free =>
    simp only [place] at here
    refine ⟨enough, here, ?_⟩
    simpa using settled.handled _ free
  | refuse place => exact ⟨enough, trivial⟩
  | allow place valid other =>
    simp only [place] at here
    exact ⟨enough, here.2.1, here.2.2, valid⟩
  | ask place valid =>
    simp only [place] at here
    exact ⟨enough, here.1, here.2.1, here.2.2, valid⟩
  | reserve place free =>
    simp only [place] at here
    exact ⟨enough, here.1, here.2.1, here.2.2.1, here.2.2.2, rfl⟩
  | grant place room =>
    simp only [place] at here
    exact ⟨enough, here.1, here.2.1, here.2.2.1, here.2.2.2.1, here.2.2.2.2, room⟩
  | giveUp place => exact ⟨enough, trivial⟩
  | add place mem =>
    simp only [place] at here
    refine ⟨?_, here.2.1, here.2.2.1, here.2.2.2.1⟩
    have := List.length_erase_of_mem mem
    have := List.length_pos_of_mem mem
    dsimp only
    omega
  | signal place =>
    simp only [place] at here
    refine ⟨enough, ?_, ?_⟩
    · simpa [ProcessInfo.sendSignal] using here.1
    · rw [Shared.modify_self, ProcessInfo.sendSignal, handled_concat, here.2.1]
      exact effect_stateToSignal here.2.2
  | store place => exact ⟨enough, trivial⟩

end Test

/-! ## Runs -/

section
variable [DecidableEq τ] {test : Test} {orders : τ → List Nat}
  {w : Moment τ (Shared τ) Stress}

theorem maxTerminatedProcesses_bound (some_ : 0 < test.processes) :
    0 ≤ test.maxTerminatedProcesses ∧ 2 * test.maxTerminatedProcesses < test.processes := by
  unfold Test.maxTerminatedProcesses
  split <;> omega

/-- What the locks protect holds at every moment of a stress test. -/
theorem settled_relies (some_ : 0 < test.processes)
    (all : ∀ t, (orders t).Perm (List.range' 1 test.processes))
    (reach : (test.threads orders).system.Reachable w) :
    Test.Settled test w.shared ∧ ∀ t, Test.Relies test t (w.locals t) w.shared := by
  refine Threads.holds (I := Test.Settled test) (P := fun t l s => Test.Relies test t l s)
    ⟨fun _ _ => rfl, (maxTerminatedProcesses_bound some_).1⟩ (fun t => ⟨?_, trivial⟩)
    (fun t a s l s' l' settled relies step => ?_) reach
  · have := (all t).length_eq
    rw [List.length_range'] at this
    exact this.ge
  · have took := Test.took_of_step step
    exact ⟨took.settled relies settled, took.relies relies settled,
      fun t' _ other held => held.mono (took.spares relies other)⟩

/-- The processes in `counted` are those the counter has let a thread terminate. -/
structure Counted (w : Moment τ (Shared τ) Stress) (counted : List Nat) : Prop where
  length : counted.length = w.shared.value
  sent : ∀ proc, .term ∈ (w.shared.processesInfo proc).sent → proc ∈ counted
  next : ∀ t proc, (w.locals t).place = .signalling proc .terminated → proc ∈ counted

theorem Counted.take {counted counted' : List Nat} {t : τ} {s : Shared τ} {l : Stress}
    (inv : Counted w counted) (more : counted ⊆ counted') (length : counted'.length = s.value)
    (sent : ∀ proc, .term ∈ (s.processesInfo proc).sent →
      .term ∈ (w.shared.processesInfo proc).sent ∨ proc ∈ counted')
    (next : ∀ proc, l.place = .signalling proc .terminated → proc ∈ counted') :
    Counted (w.take t (s, l)) counted' where
  length := length
  sent proc mem := (sent proc mem).elim (fun old => more (inv.sent proc old)) id
  next t' proc at_ := by
    by_cases same : t' = t
    · subst same
      rw [Moment.take_self] at at_
      exact next proc at_
    · rw [Moment.take_other w same] at at_
      exact more (inv.next t' proc at_)

omit [DecidableEq τ] in
theorem term_mem_modify {s : Shared τ} {proc proc' : Nat} {f : ProcessInfo τ → ProcessInfo τ}
    (mem : .term ∈ ((s.modify proc f).processesInfo proc').sent)
    (same : ∀ info, (f info).sent = info.sent) :
    .term ∈ (s.processesInfo proc').sent := by
  by_cases here : proc' = proc
  · subst here
    rwa [Shared.modify_self, same] at mem
  · rwa [Shared.modify_other s here] at mem

/-- Each `SIGTERM` was counted before it was sent. -/
theorem exists_counted (reach : (test.threads orders).system.Reachable w) :
    ∃ counted : List Nat, Counted w counted := by
  refine Threads.invariant (P := fun w => ∃ counted, Counted w counted)
    ⟨[], ⟨rfl, fun proc mem => (by cases mem), fun t proc at_ => (by cases at_)⟩⟩ ?_ reach
  rintro w t a ⟨s', l'⟩ - ⟨counted, inv⟩ step
  have took := Test.took_of_step step
  generalize shared : w.shared = s at took
  generalize locals : w.locals t = l at took
  subst shared locals
  cases took with
  | draw | ask | grant | reserve =>
    exact ⟨counted, inv.take (List.Subset.refl _) inv.length (fun _ mem => .inl mem)
      fun _ at_ => by cases at_⟩
  | allow place valid other =>
    refine ⟨counted, inv.take (List.Subset.refl _) inv.length (fun _ mem => .inl mem)
      fun _ at_ => ?_⟩
    cases at_
    exact absurd rfl other
  | enter | refuse | store =>
    exact ⟨counted, inv.take (List.Subset.refl _) inv.length
      (fun _ mem => .inl (term_mem_modify mem fun _ => rfl)) fun _ at_ => by cases at_⟩
  | giveUp =>
    refine ⟨counted, inv.take (List.Subset.refl _) inv.length (fun _ mem => .inl ?_)
      fun _ at_ => by cases at_⟩
    exact term_mem_modify (s := { w.shared with counterLock := none }) mem fun _ => rfl
  | @add proc place mem =>
    refine ⟨proc :: counted, inv.take (List.subset_cons_self _ _) (congrArg _ inv.length)
      (fun _ mem => .inl mem) fun _ at_ => ?_⟩
    cases at_
    exact List.mem_cons_self
  | @signal proc op place =>
    refine ⟨counted, inv.take (List.Subset.refl _) inv.length (fun proc' mem => ?_)
      fun _ at_ => by cases at_⟩
    by_cases here : proc' = proc
    · subst here
      rw [Shared.modify_self] at mem
      rcases List.mem_append.mp mem with old | new
      · exact .inl old
      · have term := List.mem_singleton.mp new
        obtain rfl : op = .terminated := by cases op <;> first | rfl | cases term
        exact .inr (inv.next t _ place)
    · rw [Shared.modify_other _ here] at mem
      exact .inl mem

/-! ## Locks are given back -/

/-- The process whose lock a thread has. -/
def Place.inside : Place → Option Nat
  | .loop | .entering .. => none
  | .checking proc _ | .reserving proc | .comparing proc | .adding proc | .signalling proc _
  | .storing proc _ => some proc

/-- The thread has the lock of the counter. -/
def Place.counting : Place → Bool
  | .comparing _ | .adding _ => true
  | _ => false

/-- A lock that is taken is held by a thread in its critical section. -/
structure Owned (w : Moment τ (Shared τ) Stress) : Prop where
  info : ∀ proc t, (w.shared.processesInfo proc).lock = some t →
    (w.locals t).place.inside = some proc
  counter : ∀ t, w.shared.counterLock = some t → (w.locals t).place.counting

theorem Owned.take {t : τ} {s : Shared τ} {l : Stress} (owned : Owned w)
    (info : ∀ proc, ((s.processesInfo proc).lock = (w.shared.processesInfo proc).lock ∧
        ((w.locals t).place.inside = some proc → l.place.inside = some proc)) ∨
      ∀ t', (s.processesInfo proc).lock = some t' → t' = t ∧ l.place.inside = some proc)
    (counter : s.counterLock = w.shared.counterLock ∧
        ((w.locals t).place.counting → l.place.counting) ∨
      ∀ t', s.counterLock = some t' → t' = t ∧ l.place.counting) :
    Owned (w.take t (s, l)) where
  info proc t' held := by
    rcases info proc with ⟨same, stays⟩ | new
    · have old := owned.info proc t' (same ▸ held)
      by_cases here : t' = t
      · subst here
        rw [Moment.take_self]
        exact stays old
      · rwa [Moment.take_other w here]
    · obtain ⟨rfl, inside⟩ := new t' held
      rwa [Moment.take_self]
  counter t' held := by
    rcases counter with ⟨same, stays⟩ | new
    · have old := owned.counter t' (same ▸ held)
      by_cases here : t' = t
      · subst here
        rw [Moment.take_self]
        exact stays old
      · rwa [Moment.take_other w here]
    · obtain ⟨rfl, counting⟩ := new t' held
      rwa [Moment.take_self]

omit [DecidableEq τ] in
theorem lock_modify {s : Shared τ} {proc proc' : Nat} (f : ProcessInfo τ → ProcessInfo τ)
    (away : proc' ≠ proc) :
    ((s.modify proc f).processesInfo proc').lock = (s.processesInfo proc').lock := by
  rw [Shared.modify_other s away]

theorem owned_of_reachable (reach : (test.threads orders).system.Reachable w) : Owned w := by
  refine Threads.invariant (P := Owned) ⟨fun proc t held => ?_, fun t held => ?_⟩ ?_ reach
  · cases held
  · cases held
  rintro w t a ⟨s', l'⟩ - owned step
  have took := Test.took_of_step step
  generalize shared : w.shared = s at took
  generalize locals : w.locals t = l at took
  subst shared locals
  cases took with
  | draw place =>
    refine owned.take (fun proc => .inl ⟨rfl, fun held => ?_⟩) (.inl ⟨rfl, fun held => ?_⟩)
    · rw [place] at held
      cases held
    · rw [place] at held
      cases held
  | @enter proc op place free =>
    refine owned.take (fun proc' => ?_) (.inl ⟨rfl, fun held => ?_⟩)
    · by_cases here : proc' = proc
      · subst here
        exact .inr fun t' held => ⟨by simpa using held.symm, rfl⟩
      · refine .inl ⟨lock_modify _ here, fun held => ?_⟩
        rw [place] at held
        cases held
    · rw [place] at held
      cases held
  | @refuse proc op place | @store proc op place =>
    refine owned.take (fun proc' => ?_) (.inl ⟨rfl, fun held => ?_⟩)
    · by_cases here : proc' = proc
      · subst here
        refine .inr fun t' held => ?_
        simp at held
      · refine .inl ⟨lock_modify _ here, fun held => ?_⟩
        rw [place] at held
        exact absurd (Option.some.inj held).symm here
    · rw [place] at held
      cases held
  | allow place | ask place =>
    refine owned.take (fun proc' => .inl ⟨rfl, fun held => ?_⟩) (.inl ⟨rfl, fun held => ?_⟩)
    · rwa [place] at held
    · rw [place] at held
      cases held
  | reserve place free =>
    refine owned.take (fun proc' => .inl ⟨rfl, fun held => ?_⟩) (.inr fun t' held => ?_)
    · rwa [place] at held
    · exact ⟨(Option.some.inj held).symm, rfl⟩
  | grant place =>
    refine owned.take (fun proc' => .inl ⟨rfl, fun held => ?_⟩) (.inl ⟨rfl, fun _ => rfl⟩)
    rwa [place] at held
  | @giveUp proc place =>
    refine owned.take (fun proc' => ?_) (.inr fun t' held => ?_)
    · by_cases here : proc' = proc
      · subst here
        refine .inr fun t' held => ?_
        simp at held
      · refine .inl ⟨lock_modify _ here, fun held => ?_⟩
        rw [place] at held
        exact absurd (Option.some.inj held).symm here
    · cases held
  | add place =>
    refine owned.take (fun proc' => .inl ⟨rfl, fun held => ?_⟩) (.inr fun t' held => ?_)
    · rwa [place] at held
    · cases held
  | @signal proc op place =>
    refine owned.take (fun proc' => .inl ⟨?_, fun held => ?_⟩) (.inl ⟨rfl, fun held => ?_⟩)
    · by_cases here : proc' = proc
      · subst here
        rw [Shared.modify_self, ProcessInfo.sendSignal]
      · exact lock_modify _ here
    · rwa [place] at held
    · rw [place] at held
      cases held

end

/-! ## After the run -/

/-- What `continueStoppedProcesses` does to one process. -/
def ProcessInfo.continueStopped (info : ProcessInfo τ) : ProcessInfo τ :=
  if info.state ≠ .terminated then
    if info.state = .stopped then info.sendSignal .running else info
  else info

/-- What `terminateAllProcesses` does to one process. -/
def ProcessInfo.terminate (info : ProcessInfo τ) : ProcessInfo τ :=
  if info.state ≠ .terminated then
    (if info.state = .stopped then info.sendSignal .running else info).sendSignal .terminated
  else info

namespace Test

variable (test : Test)

/-- `for _, info in self.processesInfo.items()`. -/
def forEach (f : ProcessInfo τ → ProcessInfo τ) (s : Shared τ) : Shared τ :=
  (List.range' 1 test.processes).foldl (fun s pid => s.modify pid f) s

/-- `continueStoppedProcesses`. -/
def continueStoppedProcesses (s : Shared τ) : Shared τ := test.forEach .continueStopped s

/-- `terminateAllProcesses`. -/
def terminateAllProcesses (s : Shared τ) : Shared τ := test.forEach .terminate s

/-- `remainingUnterminatedProcesses`. -/
def remainingUnterminatedProcesses (s : Shared τ) : Option (List Nat) :=
  let remaining := (List.range' 1 test.processes).filter
    fun pid => (s.processesInfo pid).state ≠ .terminated
  if remaining.length = 0 then none else some remaining

end Test

theorem foldl_modify {f : ProcessInfo τ → ProcessInfo τ} {pids : List Nat} (nodup : pids.Nodup)
    (s : Shared τ) (pid : Nat) :
    ((pids.foldl (fun s pid => s.modify pid f) s).processesInfo pid) =
      if pid ∈ pids then f (s.processesInfo pid) else s.processesInfo pid := by
  induction pids generalizing s with
  | nil => rfl
  | cons head pids ih =>
    obtain ⟨fresh, nodup⟩ := List.nodup_cons.mp nodup
    rw [List.foldl_cons, ih nodup]
    by_cases here : pid = head
    · subst here
      rw [if_neg fresh, Shared.modify_self, if_pos List.mem_cons_self]
    · rw [Shared.modify_other s here]
      simp [here]

theorem Test.forEach_processesInfo (test : Test) (f : ProcessInfo τ → ProcessInfo τ) (s : Shared τ)
    {pid : Nat} (inside : pid ∈ List.range' 1 test.processes) :
    (test.forEach f s).processesInfo pid = f (s.processesInfo pid) := by
  rw [Test.forEach, foldl_modify List.nodup_range', if_pos inside]

theorem ProcessInfo.continueStopped_state (info : ProcessInfo τ) :
    info.continueStopped.state = info.state := by
  unfold continueStopped sendSignal
  split
  · split <;> rfl
  · rfl

/-- A process that is not terminated runs when it was continued, and the signals that terminate it
are handled. -/
theorem ProcessInfo.handled_terminate {info : ProcessInfo τ}
    (done : handled info.sent = some info.state) :
    (info.state ≠ .terminated → handled info.continueStopped.sent = some .running) ∧
      handled info.continueStopped.terminate.sent = some .terminated := by
  have each : ∀ state, handled info.sent = some state → info.state = state →
      (info.state ≠ .terminated → handled info.continueStopped.sent = some .running) ∧
        handled info.continueStopped.terminate.sent = some .terminated := by
    rintro (_ | _ | _) done same <;>
      simp [continueStopped, terminate, sendSignal, same, handled_append, done, stateToSignal,
        Signal.effect, List.foldlM_cons]
  exact each _ done rfl

section
variable [DecidableEq τ] {test : Test} {orders : τ → List Nat} {w : Moment τ (Shared τ) Stress}

theorem handled_isSome (some_ : 0 < test.processes)
    (all : ∀ t, (orders t).Perm (List.range' 1 test.processes))
    (reach : (test.threads orders).system.Reachable w) (pid : Nat) :
    (handled (w.shared.processesInfo pid).sent).isSome := by
  obtain ⟨settled, relies⟩ := settled_relies some_ all reach
  cases lock : (w.shared.processesInfo pid).lock with
  | none => exact Option.isSome_iff_exists.mpr ⟨_, settled.handled pid lock⟩
  | some t =>
    have inside := (owned_of_reachable reach).info pid t lock
    obtain ⟨-, here⟩ := relies t
    generalize (w.locals t).place = place at inside here
    cases place with
    | loop | entering => cases inside
    | checking =>
      cases inside
      exact Option.isSome_iff_exists.mpr ⟨_, here.2.2⟩
    | reserving | comparing | adding =>
      cases inside
      exact Option.isSome_iff_exists.mpr ⟨_, here.2.2.1⟩
    | signalling =>
      cases inside
      exact Option.isSome_iff_exists.mpr ⟨_, here.2.1⟩
    | storing =>
      cases inside
      exact Option.isSome_iff_exists.mpr ⟨_, here.2⟩

theorem handled_of_loop (some_ : 0 < test.processes)
    (all : ∀ t, (orders t).Perm (List.range' 1 test.processes))
    (reach : (test.threads orders).system.Reachable w) (done : ∀ t, (w.locals t).place = .loop)
    (pid : Nat) : handled (w.shared.processesInfo pid).sent =
      some (w.shared.processesInfo pid).state := by
  refine (settled_relies some_ all reach).1.handled pid ?_
  cases lock : (w.shared.processesInfo pid).lock with
  | none => rfl
  | some t =>
    have inside := (owned_of_reachable reach).info pid t lock
    rw [done t] at inside
    cases inside

/-- The processes that were sent `SIGTERM` are no more than the counter allows. -/
theorem length_le_of_term_mem (some_ : 0 < test.processes)
    (all : ∀ t, (orders t).Perm (List.range' 1 test.processes))
    (reach : (test.threads orders).system.Reachable w) {pids : List Nat} (nodup : pids.Nodup)
    (sent : ∀ pid ∈ pids, .term ∈ (w.shared.processesInfo pid).sent) :
    2 * pids.length < test.processes := by
  obtain ⟨counted, inv⟩ := exists_counted reach
  have few := (nodup.subperm fun pid mem => inv.sent pid (sent pid mem)).length_le
  have value := (settled_relies some_ all reach).1.value
  have bound := (maxTerminatedProcesses_bound some_).2
  have length := inv.length
  omega

/-- **The stress test keeps to what the broadcast layers stand.** At every moment every signal was
handled as it was sent, every thread has a process to draw, and the processes that were terminated
are a minority. When the threads are done, the stopped processes are continued and a majority runs;
each of these is terminated in the end, so that every process handles `SIGTERM` once. -/
theorem terminates_minority (some_ : 0 < test.processes)
    (all : ∀ t, (orders t).Perm (List.range' 1 test.processes))
    (reach : (test.threads orders).system.Reachable w) :
    (∀ pid, (handled (w.shared.processesInfo pid).sent).isSome) ∧
    (∀ t, (w.locals t).selectProc ≠ []) ∧
    2 * ((Finset.range test.processes).filter fun i =>
      .term ∈ (w.shared.processesInfo (i + 1)).sent).card < test.processes ∧
    ((∀ t, (w.locals t).place = .loop) →
      ∃ remaining, test.remainingUnterminatedProcesses (test.continueStoppedProcesses w.shared) =
          some remaining ∧
        test.processes < 2 * remaining.length ∧
        (∀ pid ∈ remaining, handled ((test.continueStoppedProcesses
          w.shared).processesInfo pid).sent = some .running) ∧
        ∀ pid ∈ List.range' 1 test.processes, handled ((test.terminateAllProcesses
            (test.continueStoppedProcesses w.shared)).processesInfo pid).sent = some .terminated ∧
          ((test.terminateAllProcesses (test.continueStoppedProcesses
            w.shared)).processesInfo pid).sent.count .term = 1) := by
  refine ⟨handled_isSome some_ all reach, fun t empty => ?_, ?_, fun done => ?_⟩
  · obtain ⟨settled, relies⟩ := settled_relies some_ all reach
    have enough := (relies t).1
    have value := settled.value
    have bound := (maxTerminatedProcesses_bound some_).2
    rw [empty, List.length_nil] at enough
    omega
  · have few := length_le_of_term_mem some_ all reach (Finset.nodup_toList (Finset.image (· + 1)
      ((Finset.range test.processes).filter fun i =>
        .term ∈ (w.shared.processesInfo (i + 1)).sent))) fun pid mem => by
      obtain ⟨i, sent, rfl⟩ := Finset.mem_image.mp (Finset.mem_toList.mp mem)
      exact (Finset.mem_filter.mp sent).2
    rwa [Finset.length_toList, Finset.card_image_of_injective _ fun i j => Nat.succ.inj] at few
  · have settled := handled_of_loop some_ all reach done
    have continued : ∀ pid ∈ List.range' 1 test.processes,
        (test.continueStoppedProcesses w.shared).processesInfo pid =
          (w.shared.processesInfo pid).continueStopped := fun pid inside =>
      test.forEach_processesInfo _ _ inside
    have terminated : ∀ pid ∈ List.range' 1 test.processes, ((test.terminateAllProcesses
        (test.continueStoppedProcesses w.shared)).processesInfo pid) =
          (w.shared.processesInfo pid).continueStopped.terminate := fun pid inside =>
      (test.forEach_processesInfo _ _ inside).trans (congrArg _ (continued pid inside))
    have few : 2 * ((List.range' 1 test.processes).filter fun pid =>
        !decide (((test.continueStoppedProcesses w.shared).processesInfo pid).state ≠
          .terminated)).length < test.processes := by
      refine length_le_of_term_mem some_ all reach (List.Nodup.filter _ List.nodup_range')
        fun pid mem => ?_
      obtain ⟨inside, state⟩ := List.mem_filter.mp mem
      rw [continued pid inside, ProcessInfo.continueStopped_state] at state
      exact term_mem_of_handled ((settled pid).trans (congrArg some (by simpa using state)))
    have parts := List.length_eq_length_filter_add (l := List.range' 1 test.processes) fun pid =>
      decide (((test.continueStoppedProcesses w.shared).processesInfo pid).state ≠ .terminated)
    rw [List.length_range'] at parts
    refine ⟨_, if_neg (by omega), by omega, fun pid mem => ?_, fun pid inside => ?_⟩
    · obtain ⟨inside, state⟩ := List.mem_filter.mp mem
      rw [continued pid inside, ProcessInfo.continueStopped_state] at state
      rw [continued pid inside]
      exact (ProcessInfo.handled_terminate (settled pid)).1 (of_decide_eq_true state)
    · rw [terminated pid inside]
      have ended := (ProcessInfo.handled_terminate (settled pid)).2
      exact ⟨ended, (handled_of_term_mem (term_mem_of_handled ended) ended).2⟩

/-- Two threads and three processes. -/
def pair : Test := { processes := 3, attempts := 1, stop := 1, cont := 1, term := 1 }

/-- One thread terminates the first process while the other one stops the second. -/
def pairSchedule : List (Bool × Nat × ProcessState) :=
  [(true, 1, .terminated), (false, 2, .stopped)] ++
    (List.replicate 4 [(true, 0, .running), (false, 0, .running)]).flatten ++
    List.replicate 3 (true, 0, .running)

theorem terminates_minority_of_pair : ∃ w : Moment Bool (Shared Bool) Stress,
    .term ∈ (w.shared.processesInfo 1).sent ∧ .stop ∈ (w.shared.processesInfo 2).sent ∧
    ∃ remaining, pair.remainingUnterminatedProcesses (pair.continueStoppedProcesses w.shared) =
      some remaining ∧ 3 < 2 * remaining.length := by
  let ok : Moment Bool (Shared Bool) Stress → Bool := fun w =>
    (w.shared.processesInfo 1).sent.contains .term &&
      (w.shared.processesInfo 2).sent.contains .stop &&
      (w.locals true).place = .loop && (w.locals false).place = .loop
  have ran : ((pair.threads fun _ => [1, 2, 3]).system.execute
      (pair.threads fun _ => [1, 2, 3]).system.start pairSchedule).any ok := by decide +kernel
  obtain ⟨w, reach, checked⟩ := Transitions.exists_reachable ran
  simp only [ok, Bool.and_eq_true, List.contains_iff_mem, decide_eq_true_eq] at checked
  obtain ⟨⟨⟨term, stop⟩, first⟩, second⟩ := checked
  obtain ⟨remaining, rest, majority, -⟩ :=
    (terminates_minority (by decide : 0 < pair.processes) (fun _ => .refl _) reach).2.2.2
      (Bool.rec second first)
  exact ⟨w, term, stop, remaining, rest, majority⟩

/-! ## The threads can always go on -/

/-- The steps before the thread is back at `while`, at most. -/
def Place.left : Place → Nat
  | .loop => 0
  | .entering .. => 7
  | .checking .. => 6
  | .reserving _ => 5
  | .comparing _ => 4
  | .adding _ => 3
  | .signalling .. => 2
  | .storing .. => 1

/-- What a thread still has to do. -/
def Stress.effort (test : Test) (l : Stress) : Nat :=
  8 * (test.attempts - l.successfulAttempts) + l.place.left

omit [DecidableEq τ] in
theorem Test.Took.effort_lt {t : τ} {s s' : Shared τ} {l l' : Stress}
    (took : test.Took t s l s' l') (away : l.place ≠ .loop) : l'.effort test < l.effort test := by
  unfold Stress.effort
  cases took with
  | draw place => exact absurd place away
  | ask place | enter place | refuse place | allow place | reserve place | grant place
  | giveUp place | add place | signal place =>
    simp [place, Place.left]
  | store place =>
    simp only [place, Place.left]
    omega

/-- Where some thread is under way, one can take a step. -/
theorem exists_step_of_ne_loop (some_ : 0 < test.processes)
    (all : ∀ t, (orders t).Perm (List.range' 1 test.processes))
    (reach : (test.threads orders).system.Reachable w) {t : τ} (away : (w.locals t).place ≠ .loop) :
    ∃ t' after, (w.locals t').place ≠ .loop ∧
      ∀ drawn, test.step t' drawn w.shared (w.locals t') = some after := by
  have relies := (settled_relies some_ all reach).2
  have owned := owned_of_reachable reach
  by_cases counting : ∃ t, (w.locals t).place.counting
  · obtain ⟨t, counting⟩ := counting
    have here := (relies t).2
    cases place : (w.locals t).place with
    | loop | entering | checking | reserving | signalling | storing =>
      rw [place] at counting
      cases counting
    | comparing proc =>
      by_cases room : w.shared.value < test.maxTerminatedProcesses
      · exact ⟨t, _, by simp [place], fun drawn => by simp only [Test.step, place, if_pos room]; rfl⟩
      · exact ⟨t, _, by simp [place], fun drawn => by simp only [Test.step, place, if_neg room]; rfl⟩
    | adding proc =>
      simp only [place] at here
      exact ⟨t, _, by simp [place], fun drawn => by simp only [Test.step, place, if_pos here.1]; rfl⟩
  have free : w.shared.counterLock = none := by
    cases lock : w.shared.counterLock with
    | none => rfl
    | some t => exact absurd ⟨t, owned.counter t lock⟩ counting
  by_cases inside : ∃ t proc, (w.locals t).place.inside = some proc
  · obtain ⟨t, proc, inside⟩ := inside
    have here := (relies t).2
    cases place : (w.locals t).place with
    | loop | entering =>
      rw [place] at inside
      cases inside
    | comparing | adding => exact absurd ⟨t, by rw [place]; rfl⟩ counting
    | checking proc op =>
      by_cases valid : validStateTransition (w.shared.processesInfo proc).state op
      · by_cases term : op = .terminated
        · exact ⟨t, _, by simp [place], fun drawn => by
            simp only [Test.step, place, if_pos valid, if_pos term]; rfl⟩
        · exact ⟨t, _, by simp [place], fun drawn => by
            simp only [Test.step, place, if_pos valid, if_neg term]; rfl⟩
      · exact ⟨t, _, by simp [place], fun drawn => by simp only [Test.step, place, if_neg valid]; rfl⟩
    | reserving proc =>
      exact ⟨t, _, by simp [place], fun drawn => by simp only [Test.step, place, if_pos free]; rfl⟩
    | signalling proc op | storing proc op =>
      exact ⟨t, _, by simp [place], fun drawn => by simp only [Test.step, place]; rfl⟩
  · cases place : (w.locals t).place with
    | loop => exact absurd place away
    | entering proc op =>
      have unlocked : (w.shared.processesInfo proc).lock = none := by
        cases lock : (w.shared.processesInfo proc).lock with
        | none => rfl
        | some t => exact absurd ⟨t, proc, owned.info proc t lock⟩ inside
      exact ⟨t, _, away, fun drawn => by simp only [Test.step, place, if_pos unlocked]; rfl⟩
    | checking | reserving | comparing | adding | signalling | storing =>
      exact absurd ⟨t, _, by rw [place]; rfl⟩ inside

theorem selectProc_sublist (reach : (test.threads orders).system.Reachable w) (t : τ) :
    (w.locals t).selectProc.Sublist (orders t) := by
  refine Threads.invariant (P := fun w => (w.locals t).selectProc.Sublist (orders t)) (.refl _) ?_
    reach
  rintro w t' a ⟨s', l'⟩ - before step
  by_cases same : t = t'
  · subst same
    have took := Test.took_of_step step
    rw [Moment.take_self]
    generalize w.shared = s at took
    generalize w.locals t = l at took before
    cases took with
    | add => exact List.erase_sublist.trans before
    | draw | enter | refuse | allow | ask | reserve | grant | giveUp | signal | store =>
      exact before
  · rwa [Moment.take_other w same]

/-- A thread at `while` has an operation that is allowed. -/
theorem exists_allowed (some_ : 0 < test.processes)
    (all : ∀ t, (orders t).Perm (List.range' 1 test.processes)) (stops : 0 < test.stop)
    (continues : 0 < test.cont) (reach : (test.threads orders).system.Reachable w)
    (done : ∀ t, (w.locals t).place = .loop) (t : τ) :
    ∃ proc op, proc ∈ (w.locals t).selectProc ∧ op ∈ test.selectOp ∧ op ≠ .terminated ∧
      validStateTransition (w.shared.processesInfo proc).state op := by
  obtain ⟨settled, relies⟩ := settled_relies some_ all reach
  have handled := handled_of_loop some_ all reach done
  have alive : ∃ proc ∈ (w.locals t).selectProc,
      (w.shared.processesInfo proc).state ≠ .terminated := by
    by_contra none_
    push Not at none_
    have nodup := (selectProc_sublist reach t).nodup ((all t).nodup_iff.mpr List.nodup_range')
    have few := length_le_of_term_mem some_ all reach nodup fun pid mem =>
      term_mem_of_handled ((handled pid).trans (congrArg some (none_ pid mem)))
    have enough := (relies t).1
    have value := settled.value
    have bound := (maxTerminatedProcesses_bound some_).2
    omega
  obtain ⟨proc, mem, alive⟩ := alive
  cases state : (w.shared.processesInfo proc).state with
  | running =>
    refine ⟨proc, .stopped, mem, ?_, by simp, state ▸ rfl⟩
    simp [Test.selectOp, stops.ne']
  | stopped =>
    refine ⟨proc, .running, mem, ?_, by simp, state ▸ rfl⟩
    simp [Test.selectOp, continues.ne']
  | terminated => exact absurd state alive

/-- One attempt, from `while` to `while`, with nobody in the way. -/
theorem leads_attempt {t : τ} {proc : Nat} {op : ProcessState} (place : (w.locals t).place = .loop)
    (wanted : (w.locals t).successfulAttempts < test.attempts)
    (mem : proc ∈ (w.locals t).selectProc) (listed : op ∈ test.selectOp) (other : op ≠ .terminated)
    (free : (w.shared.processesInfo proc).lock = none)
    (valid : validStateTransition (w.shared.processesInfo proc).state op) :
    ∃ s, (test.threads orders).system.Leads w (w.take t (s, { w.locals t with
      successfulAttempts := (w.locals t).successfulAttempts + 1, place := .loop })) := by
  have twice : ∀ (w : Moment τ (Shared τ) Stress) (after after' : Shared τ × Stress),
      (w.take t after).take t after' = w.take t after' := by
    intro w after after'
    simp [Moment.take]
  have step : ∀ {after after' : Shared τ × Stress},
      test.step t (proc, op) after.1 after.2 = some after' →
      (test.threads orders).system.Leads (w.take t after) (w.take t after') := by
    intro after after' taken
    have next : (test.threads orders).step t (proc, op) (w.take t after).shared
        ((w.take t after).locals t) = some after' := by
      rw [Moment.take_self]
      exact taken
    exact twice w after after' ▸ Threads.leads_of_step next
  have draw : (test.threads orders).system.Leads w
      (w.take t (w.shared, { w.locals t with place := .entering proc op })) := by
    refine Threads.leads_of_step (a := (proc, op)) ?_
    simp [Test.threads, Test.step, place, wanted, mem, listed]
  let taken := w.shared.modify proc fun info => { info with lock := some t }
  let sent := taken.modify proc fun info => info.sendSignal op
  let stored := sent.modify proc fun info => { info with state := op, lock := none }
  have enter : test.step t (proc, op) w.shared { w.locals t with place := .entering proc op } =
      some (taken, { w.locals t with place := .checking proc op }) := by
    simp only [Test.step, if_pos free]
    rfl
  have check : test.step t (proc, op) taken { w.locals t with place := .checking proc op } =
      some (taken, { w.locals t with place := .signalling proc op }) := by
    simp only [Test.step, taken, Shared.modify_self, if_pos valid, if_neg other]
  have signal : test.step t (proc, op) taken { w.locals t with place := .signalling proc op } =
      some (sent, { w.locals t with place := .storing proc op }) := rfl
  have store : test.step t (proc, op) sent { w.locals t with place := .storing proc op } =
      some (stored, { w.locals t with
        successfulAttempts := (w.locals t).successfulAttempts + 1, place := .loop }) := rfl
  exact ⟨stored, draw.trans ((step enter).trans ((step check).trans ((step signal).trans
    (step store))))⟩

/-- **The stress test never gets stuck** where it has operations that stop a process and some that
continue one. Wherever the threads are, they can go on until each has made its attempts. -/
theorem stress_completes [Fintype τ] (some_ : 0 < test.processes)
    (all : ∀ t, (orders t).Perm (List.range' 1 test.processes)) (stops : 0 < test.stop)
    (continues : 0 < test.cont) (reach : (test.threads orders).system.Reachable w) :
    ∃ w', (test.threads orders).system.Leads w w' ∧ ∀ t, (w'.locals t).place = .loop ∧
      test.attempts ≤ (w'.locals t).successfulAttempts := by
  have less : ∀ {w : Moment τ (Shared τ) Stress} {t : τ} {after : Shared τ × Stress},
      after.2.effort test < (w.locals t).effort test →
      ∑ t', ((w.take t after).locals t').effort test < ∑ t', (w.locals t').effort test := by
    intro w t after less
    refine Finset.sum_lt_sum (fun t' _ => ?_) ⟨t, Finset.mem_univ t, ?_⟩
    · by_cases same : t' = t
      · subst same
        rw [Moment.take_self]
        exact less.le
      · rw [Moment.take_other w same]
    · rw [Moment.take_self]
      exact less
  refine reach.exists_leads (fun w => ∑ t, (w.locals t).effort test) fun w reach unfinished => ?_
  by_cases away : ∃ t, (w.locals t).place ≠ .loop
  · obtain ⟨t, away⟩ := away
    obtain ⟨t', ⟨s', l'⟩, away', enabled⟩ := exists_step_of_ne_loop some_ all reach away
    have step := enabled (0, .running)
    exact ⟨_, Threads.leads_of_step step, less ((Test.took_of_step step).effort_lt away')⟩
  · push Not at away
    push Not at unfinished
    obtain ⟨t, unfinished⟩ := unfinished
    have wanted := unfinished (away t)
    obtain ⟨proc, op, mem, listed, other, valid⟩ :=
      exists_allowed some_ all stops continues reach away t
    have free : (w.shared.processesInfo proc).lock = none := by
      cases lock : (w.shared.processesInfo proc).lock with
      | none => rfl
      | some t =>
        have inside := (owned_of_reachable reach).info proc t lock
        rw [away t] at inside
        cases inside
    obtain ⟨s, leads⟩ :=
      @leads_attempt _ _ test orders _ _ _ _ (away t) wanted mem listed other free valid
    refine ⟨_, leads, less ?_⟩
    simp only [Stress.effort, away t, Place.left]
    omega

/-- The first thread has reserved the termination of a process and holds its lock, and the second one
waits for the lock. -/
theorem stress_completes_of_pair : ∃ w w' : Moment Bool (Shared Bool) Stress,
    (w.shared.processesInfo 1).lock = some true ∧ w.shared.value = 1 ∧
    (w.locals true).place = .signalling 1 .terminated ∧
    (w.locals false).place = .entering 1 .stopped ∧
    (pair.threads fun _ => [1, 2, 3]).system.Leads w w' ∧
    ∀ t, (w'.locals t).place = .loop ∧ 1 ≤ (w'.locals t).successfulAttempts := by
  let ok : Moment Bool (Shared Bool) Stress → Bool := fun w =>
    (w.shared.processesInfo 1).lock = some true && w.shared.value = 1 &&
      (w.locals true).place = .signalling 1 .terminated &&
      (w.locals false).place = .entering 1 .stopped
  have ran : ((pair.threads fun _ => [1, 2, 3]).system.execute
      (pair.threads fun _ => [1, 2, 3]).system.start
      ((true, 1, .terminated) :: (false, 1, .stopped) ::
        List.replicate 5 (true, 0, .running))).any ok := by decide +kernel
  obtain ⟨w, reach, checked⟩ := Transitions.exists_reachable ran
  simp only [ok, Bool.and_eq_true, decide_eq_true_eq] at checked
  obtain ⟨⟨⟨lock, value⟩, first⟩, second⟩ := checked
  obtain ⟨w', leads, done⟩ := stress_completes (by decide : 0 < pair.processes) (fun _ => .refl _)
    (by decide) (by decide) reach
  exact ⟨w, w', lock, value, first, second, leads, done⟩

end

end CausalBroadcast.StressTest
