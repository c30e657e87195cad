import CausalBroadcast.Validator.Exact

/-!
# The validator of FIFO broadcast

`FifoBroadcastValidation`, which reads each log by itself. What it accepts is a part of what the
validator of localized causal broadcast does, and all of it where no process depends on another and
every message that was delivered is in the log of its originator.
-/

namespace CausalBroadcast

open Async LCausalBroadcastValidation

/-- A validation: the number of processes, and the log of each. -/
structure FifoBroadcastValidation where
  processes : Nat
  logs : Int → List LogLine

namespace FifoBroadcastValidation

/-- The variables of `checkProcess`. The `defaultdict` is a function. -/
structure Scan where
  i : Int := 1
  nextMessage : Int → Int := fun _ => 1

/-- One line in `checkProcess`: `none` where it returns `False`. -/
def Scan.line (s : Scan) : LogLine → Option Scan
  | .b msg => if msg ≠ s.i then none else some { s with i := s.i + 1 }
  | .d sender msg =>
    if msg ≠ s.nextMessage sender then none
    else some { s with nextMessage := Function.update s.nextMessage sender (msg + 1) }

/-- `checkProcess`. -/
def checkProcess (v : FifoBroadcastValidation) (pid : Int) : Bool :=
  ((v.logs pid).foldlM Scan.line {}).isSome

/-- The loop of `checkAll`. -/
def checkPids (v : FifoBroadcastValidation) (continueOnError ok : Bool) : List Int → Bool
  | [] => ok
  | pid :: pids =>
    if v.checkProcess pid then checkPids v continueOnError ok pids
    else if continueOnError then checkPids v continueOnError false pids
    else false

/-- `checkAll`. -/
def checkAll (v : FifoBroadcastValidation) (continueOnError : Bool) : Bool :=
  v.checkPids continueOnError true (upTo v.processes)

/-- What both validators keep of the lines of a log. -/
structure Counts (s : Scan) (s' : LCausalBroadcastValidation.Scan) : Prop where
  i : s.i = s'.i
  nextMessage : s.nextMessage = s'.nextMessage

variable {v : FifoBroadcastValidation} {myDependencies : List Int} {log : List LogLine}

/-- A line that one of them refuses the other refuses too. -/
theorem Counts.line {s : Scan} {s' : LCausalBroadcastValidation.Scan} (counts : Counts s s')
    (myDependencies : List Int) (line : LogLine) :
    Option.Rel Counts (s.line line) (s'.line myDependencies line) := by
  obtain ⟨i, nextMessage⟩ := s
  obtain ⟨rfl, rfl⟩ := counts
  cases line with
  | b msg =>
    simp only [Scan.line, LCausalBroadcastValidation.Scan.line]
    split
    · exact .none
    · exact .some ⟨rfl, rfl⟩
  | d sender msg =>
    simp only [Scan.line, LCausalBroadcastValidation.Scan.line]
    split
    · exact .none
    next next =>
      rw [not_not] at next
      exact .some ⟨rfl, next ▸ rfl⟩

theorem Counts.foldlM {s : Scan} {s' : LCausalBroadcastValidation.Scan} (counts : Counts s s')
    (myDependencies : List Int) (log : List LogLine) :
    Option.Rel Counts (log.foldlM Scan.line s)
      (log.foldlM (LCausalBroadcastValidation.Scan.line myDependencies) s') := by
  induction log generalizing s s' with
  | nil => exact .some counts
  | cons e log ih =>
    rw [List.foldlM_cons, List.foldlM_cons]
    have first := counts.line myDependencies e
    generalize s.line e = next at first ⊢
    generalize s'.line myDependencies e = next' at first ⊢
    cases first with
    | none => exact .none
    | some counts => exact ih counts

/-- A log passes if it is in order. -/
theorem checkProcess_iff (v : FifoBroadcastValidation) (pid : Int) :
    v.checkProcess pid = true ↔ Ordered (v.logs pid) := by
  have both := @Counts.foldlM {} {} ⟨rfl, rfl⟩ [] (v.logs pid)
  have sound : ∀ s, (v.logs pid).foldlM (LCausalBroadcastValidation.Scan.line []) {} = some s →
      Ordered (v.logs pid) := fun s read => (Scanned.foldlM read).ordered
  unfold checkProcess
  generalize (v.logs pid).foldlM Scan.line {} = mine at both ⊢
  constructor
  · intro passed
    generalize (v.logs pid).foldlM (LCausalBroadcastValidation.Scan.line []) {} = its at both sound
    cases both with
    | none => cases passed
    | some counts => exact sound _ rfl
  · intro ordered
    obtain ⟨s, read⟩ := ordered.exists_foldlM []
    rw [read] at both
    cases both
    rfl

theorem checkPids_iff {continueOnError ok : Bool} {pids : List Int} :
    v.checkPids continueOnError ok pids = true ↔
      ok = true ∧ ∀ pid ∈ pids, v.checkProcess pid = true := by
  induction pids generalizing ok with
  | nil => simp [checkPids]
  | cons pid pids ih =>
    rw [List.forall_mem_cons]
    unfold checkPids
    split
    next passed => simp [ih, passed]
    next refused =>
      split
      · simp [ih, refused]
      · simp [refused]

/-- The validator accepts exactly the runs whose logs are all in order. -/
theorem checkAll_eq_true_iff (v : FifoBroadcastValidation) (continueOnError : Bool) :
    v.checkAll continueOnError = true ↔ ∀ q ∈ upTo v.processes, Ordered (v.logs q) := by
  unfold checkAll
  rw [checkPids_iff]
  simp [checkProcess_iff]

end FifoBroadcastValidation

namespace LCausalBroadcastValidation

/-- The same run, to be validated as one of FIFO broadcast. -/
def fifo (v : LCausalBroadcastValidation) : FifoBroadcastValidation where
  processes := v.processes
  logs := v.logs

/-- **The two validators agree** where they ask the same: what the causal one accepts the other one
accepts, and where no process depends on another the causal one asks one thing more, that what a
process delivered from another is in the log of the latter. -/
theorem checkAll_eq_fifo (v : LCausalBroadcastValidation)
    (continueOnError continueOnError' : Bool) :
    (v.checkAll continueOnError = some true → v.fifo.checkAll continueOnError' = true) ∧
    ((∀ x, v.dependencies x = []) →
      (v.checkAll continueOnError = some true ↔ v.fifo.checkAll continueOnError' = true ∧
        ∀ x ∈ v.pids, ∀ q ∈ v.pids, q ≠ x → ∀ k, .d x k ∈ v.logs q → .b k ∈ v.logs x)) := by
  rw [checkAll_eq_some_true_iff, v.fifo.checkAll_eq_true_iff]
  refine ⟨And.left, fun alone => and_congr_right fun ordered => ⟨fun all x listed q mem other k => ?_,
    fun all x listed q mem other before k upTo_ => ?_⟩⟩
  · intro delivered
    obtain ⟨before, rest, parts⟩ := List.append_of_mem delivered
    obtain ⟨past, made, -⟩ := all x listed q mem other before k ⟨rest, by rw [parts]; simp⟩
    exact made.subset (by simp)
  · obtain ⟨past, rest, parts⟩ :=
      List.append_of_mem (all x listed q mem other k (upTo_.subset (by simp)))
    refine ⟨past, ⟨rest, by rw [parts]; simp⟩, fun z dep => ?_⟩
    rw [alone x] at dep
    cases dep

end LCausalBroadcastValidation

end CausalBroadcast
