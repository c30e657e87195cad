import CausalBroadcast.Async.History
import CausalBroadcast.Message

/-!
# The logger

`Logger` formats lines into an `ostringstream` and copies that stream to its file on `flush`, which
a delivery triggers when the stream is long and the stop handler triggers at the end.

`buffer.clear()` resets the stream's state flags and leaves its text alone, so a second `flush`
writes again what the first one wrote. `Sparing` says of each call that it does not come to that,
and a log whose calls are all sparing is what the file holds.
-/

namespace CausalBroadcast

open Async

/-- A line of the log. -/
inductive Line where
  | broadcast (num : Nat)
  | deliver (process num : Nat)
  deriving DecidableEq, Repr

namespace Line

/-- The characters of a line but for the newline. -/
def body : Line → List Char
  | .broadcast num => ['b', ' '] ++ Nat.toDigits 10 num
  | .deliver process num => ['d', ' '] ++ Nat.toDigits 10 process ++ ' ' :: Nat.toDigits 10 num

/-- A line as the stream holds it. -/
def text (line : Line) : List Char := line.body ++ ['\n']

private theorem toDigits_injective {x y : Nat} (same : Nat.toDigits 10 x = Nat.toDigits 10 y) :
    x = y := by
  rw [← Nat.ofDigitChars_ten_toDigits (n := x), same, Nat.ofDigitChars_ten_toDigits]

private theorem notMem_toDigits {c : Char} (other : c.isDigit = false) (x : Nat) :
    c ∉ Nat.toDigits 10 x := by
  intro mem
  have digit := Nat.isDigit_of_mem_toDigits (by decide) (by decide) mem
  rw [other] at digit
  cases digit

/-- What stands before the first delimiter is determined. -/
private theorem append_delimiter_inj {c : Char} {xs xs' ys ys' : List Char} (left : c ∉ xs)
    (right : c ∉ xs') (same : xs ++ c :: ys = xs' ++ c :: ys') : xs = xs' ∧ ys = ys' := by
  induction xs generalizing xs' with
  | nil =>
    cases xs' with
    | nil => exact ⟨rfl, by simpa using same⟩
    | cons x' xs' =>
      obtain rfl : c = x' := (List.cons.inj same).1
      exact absurd List.mem_cons_self right
  | cons x xs ih =>
    cases xs' with
    | nil =>
      obtain rfl : x = c := (List.cons.inj same).1
      exact absurd List.mem_cons_self left
    | cons x' xs' =>
      obtain ⟨rfl, rest⟩ := List.cons.inj same
      obtain ⟨rfl, tail⟩ := ih (fun mem => left (List.mem_cons_of_mem _ mem))
        (fun mem => right (List.mem_cons_of_mem _ mem)) rest
      exact ⟨rfl, tail⟩

theorem newline_notMem_body (line : Line) : '\n' ∉ line.body := by
  have digits := notMem_toDigits (c := '\n') (by decide)
  cases line <;> simp [body, digits]

theorem body_injective {line line' : Line} (same : line.body = line'.body) : line = line' := by
  have blank := notMem_toDigits (c := ' ') (by decide)
  cases line with
  | broadcast num =>
    cases line' with
    | broadcast num' =>
      have digits : Nat.toDigits 10 num = Nat.toDigits 10 num' := by simpa [body] using same
      rw [toDigits_injective digits]
    | deliver => simp [body] at same
  | deliver process num =>
    cases line' with
    | broadcast => simp [body] at same
    | deliver process' num' =>
      have tail : Nat.toDigits 10 process ++ ' ' :: Nat.toDigits 10 num =
          Nat.toDigits 10 process' ++ ' ' :: Nat.toDigits 10 num' := by
        simpa [body] using same
      obtain ⟨first, second⟩ := append_delimiter_inj (blank process) (blank process') tail
      rw [toDigits_injective first, toDigits_injective second]

/-- The text of some lines. -/
def texts (lines : List Line) : List Char := lines.flatMap text

/-- Lines are read back from their text: each ends at the first newline. -/
theorem texts_injective : Function.Injective texts := by
  intro lines lines' same
  induction lines generalizing lines' with
  | nil =>
    cases lines' with
    | nil => rfl
    | cons line' rest' => simp [texts, text] at same
  | cons line rest ih =>
    cases lines' with
    | nil => simp [texts, text] at same
    | cons line' rest' =>
      have split : line.body ++ '\n' :: texts rest = line'.body ++ '\n' :: texts rest' := by
        simpa [texts, text] using same
      obtain ⟨first, others⟩ := append_delimiter_inj (newline_notMem_body line)
        (newline_notMem_body line') split
      rw [body_injective first, ih others]

end Line

/-- `Logger`: the text written to its file, the lines its stream holds, and how many deliveries it
counted. -/
structure Logger where
  file : List Char := []
  buffer : List Line := []
  count : Nat := 0

namespace Logger

/-- `MAX_LEN`. -/
def maxLen : Nat := 1024 * 1024

/-- `buffer.str()`. -/
def str (log : Logger) : List Char := Line.texts log.buffer

/-- `buffer.tellp()`. -/
def tellp (log : Logger) : Nat := log.str.length

/-- `flush`. The stream keeps its text. -/
def flush (log : Logger) : Logger := { log with file := log.file ++ log.str }

/-- `log_broadcast`. -/
def logBroadcast (seqNum : Nat) (log : Logger) : Logger :=
  { log with buffer := log.buffer ++ [.broadcast (succ32 seqNum)] }

/-- `try_flush`. -/
def tryFlush (log : Logger) : Logger := if log.tellp > maxLen then log.flush else log

/-- `deliver`. The originator is promoted to an `int` before the addition, the sequence number is
not. -/
def deliver (msg : Message) (log : Logger) : Logger :=
  tryFlush { log with
    buffer := log.buffer ++ [.deliver (msg.originator + 1) (succ32 msg.bcastSeqNum)]
    count := succ64 log.count }

@[simp] theorem buffer_flush (log : Logger) : log.flush.buffer = log.buffer := rfl

@[simp] theorem buffer_logBroadcast (seqNum : Nat) (log : Logger) :
    (log.logBroadcast seqNum).buffer = log.buffer ++ [.broadcast (succ32 seqNum)] := rfl

@[simp] theorem buffer_deliver (msg : Message) (log : Logger) :
    (log.deliver msg).buffer =
      log.buffer ++ [.deliver (msg.originator + 1) (succ32 msg.bcastSeqNum)] := by
  unfold deliver tryFlush
  split <;> rfl

/-! ## Whole runs of the logger -/

/-- A call of one of the logger's functions. -/
inductive Op where
  | logBroadcast (seqNum : Nat)
  | deliver (msg : Message)
  | flush

/-- One call. -/
def apply (log : Logger) : Op → Logger
  | .logBroadcast seqNum => log.logBroadcast seqNum
  | .deliver msg => log.deliver msg
  | .flush => log.flush

/-- A sequence of calls on a fresh logger. -/
def run (ops : List Op) : Logger := ops.foldl apply {}

/-- The line a call puts in the stream. -/
def Op.written : Op → Option Line
  | .logBroadcast seqNum => some (.broadcast (succ32 seqNum))
  | .deliver msg => some (.deliver (msg.originator + 1) (succ32 msg.bcastSeqNum))
  | .flush => none

/-- The line the specification asks of a call: every number is one more than in the code. -/
def Op.line : Op → Option Line
  | .logBroadcast seqNum => some (.broadcast (seqNum + 1))
  | .deliver msg => some (.deliver (msg.originator + 1) (msg.bcastSeqNum + 1))
  | .flush => none

/-- What the specification asks of a sequence of calls. -/
def lines (ops : List Op) : List Line := ops.filterMap Op.line

/-- A call that does not spoil the file: a flush comes before anything was logged, a delivery
leaves the log within `MAX_LEN`, and one more than the sequence number is still a number of 32
bits. -/
def Sparing (before : List Op) : Op → Prop
  | .logBroadcast seqNum => seqNum + 1 < 2 ^ 32
  | .deliver msg => msg.bcastSeqNum + 1 < 2 ^ 32 ∧
      (Line.texts (lines (before ++ [.deliver msg]))).length ≤ maxLen
  | .flush => lines before = []

theorem succ32_eq_iff {x : Nat} : succ32 x = x + 1 ↔ x + 1 < 2 ^ 32 := by
  unfold succ32
  constructor
  · intro same
    rw [← same]
    exact Nat.mod_lt _ (by decide)
  · exact Nat.mod_eq_of_lt

private theorem run_concat (ops : List Op) (op : Op) : run (ops ++ [op]) = (run ops).apply op := by
  simp [run]

theorem buffer_run (ops : List Op) : (run ops).buffer = ops.filterMap Op.written := by
  induction ops using List.reverseRecOn with
  | nil => rfl
  | append_singleton ops op ih =>
    rw [run_concat, List.filterMap_append, ← ih]
    cases op <;> simp [apply, Op.written]

private theorem length_written (ops : List Op) :
    (ops.filterMap Op.written).length = (lines ops).length := by
  induction ops with
  | nil => rfl
  | cons op ops ih => cases op <;> simpa [lines, List.filterMap_cons, Op.written, Op.line] using ih

/-- The file holds whole lines, and it holds none and the stream is right exactly when every call
was sparing. The induction is on the calls, the last one first. -/
private theorem spilled (ops : List Op) : ∃ spill : List Line, (run ops).file = Line.texts spill ∧
    (spill = [] ∧ (run ops).buffer = lines ops ↔ Justified Sparing ops) := by
  induction ops using List.reverseRecOn with
  | nil => exact ⟨[], rfl, iff_of_true ⟨rfl, rfl⟩ (justified_nil _)⟩
  | append_singleton ops op ih =>
    obtain ⟨spill, file, sound⟩ := ih
    rw [run_concat, justified_concat, ← sound]
    generalize run ops = log at *
    cases op with
    | logBroadcast seqNum =>
      refine ⟨spill, file, ?_⟩
      simp only [apply, buffer_logBroadcast, lines, List.filterMap_append, List.filterMap_cons,
        List.filterMap_nil, Op.line, Sparing, ← succ32_eq_iff]
      constructor
      · rintro ⟨empty, same⟩
        obtain ⟨same, last⟩ := List.append_inj' same rfl
        exact ⟨⟨empty, same⟩, by simpa using last⟩
      · rintro ⟨⟨empty, same⟩, last⟩
        exact ⟨empty, by rw [same, last]⟩
    | flush =>
      refine ⟨spill ++ log.buffer, ?_, ?_⟩
      · simp [apply, flush, file, str, Line.texts]
      · simp only [apply, buffer_flush, lines, List.filterMap_append, List.filterMap_cons,
          List.filterMap_nil, Op.line, Sparing, List.append_nil, List.append_eq_nil_iff]
        constructor
        · rintro ⟨⟨empty, none⟩, same⟩
          exact ⟨⟨empty, same⟩, same ▸ none⟩
        · rintro ⟨⟨empty, same⟩, none⟩
          exact ⟨⟨empty, same ▸ none⟩, same⟩
    | deliver msg =>
      have grown : lines (ops ++ [.deliver msg]) =
          lines ops ++ [.deliver (msg.originator + 1) (msg.bcastSeqNum + 1)] := by
        simp [lines, Op.line]
      by_cases long : (Line.texts (log.buffer ++
          [.deliver (msg.originator + 1) (succ32 msg.bcastSeqNum)])).length > maxLen
      · refine ⟨spill ++ (log.buffer ++
          [.deliver (msg.originator + 1) (succ32 msg.bcastSeqNum)]), ?_, ?_⟩
        · refine (congrArg Logger.file (if_pos long)).trans ?_
          simp [flush, str, file, Line.texts]
        · refine iff_of_false (fun empty => by simp at empty) ?_
          rintro ⟨⟨-, same⟩, last, short⟩
          rw [grown, ← same, ← succ32_eq_iff.mpr last] at short
          exact absurd long (Nat.not_lt.mpr short)
      · refine ⟨spill, ?_, ?_⟩
        · exact (congrArg Logger.file (if_neg long)).trans file
        simp only [apply, buffer_deliver, grown, Sparing, ← succ32_eq_iff]
        constructor
        · rintro ⟨empty, same⟩
          rw [← same]
          obtain ⟨same, last⟩ := List.append_inj' same rfl
          exact ⟨⟨empty, same⟩, by simpa using last, Nat.not_lt.mp long⟩
        · rintro ⟨⟨empty, same⟩, last, -⟩
          exact ⟨empty, by rw [same, last]⟩

private theorem file_run_flush (ops : List Op) : ∃ spill : List Line,
    (run (ops ++ [.flush])).file = Line.texts (spill ++ (run ops).buffer) ∧
      (spill = [] ∧ (run ops).buffer = lines ops ↔ Justified Sparing ops) := by
  obtain ⟨spill, file, sound⟩ := spilled ops
  refine ⟨spill, ?_, sound⟩
  rw [run_concat]
  simp [apply, flush, str, file, Line.texts]

/-- A file that holds the log comes of sparing calls. -/
theorem sparing_of_file {ops : List Op}
    (whole : (run (ops ++ [.flush])).file = Line.texts (lines ops)) : Justified Sparing ops := by
  obtain ⟨spill, file, sound⟩ := file_run_flush ops
  have same : spill ++ (run ops).buffer = lines ops := Line.texts_injective (file.symm.trans whole)
  have sizes := congrArg List.length same
  rw [List.length_append, buffer_run, length_written] at sizes
  obtain rfl : spill = [] := List.eq_nil_of_length_eq_zero (by omega)
  exact sound.mp ⟨rfl, same⟩

/-- Sparing calls leave the log in the file. -/
theorem file_of_sparing {ops : List Op} (sparing : Justified Sparing ops) :
    (run (ops ++ [.flush])).file = Line.texts (lines ops) := by
  obtain ⟨spill, file, sound⟩ := file_run_flush ops
  obtain ⟨rfl, same⟩ := sound.mpr sparing
  rw [file, same, List.nil_append]

/-- **Fidelity**: after the last flush the file holds the log, each line once and in order, exactly
when every call before it was sparing. -/
theorem file_eq_lines_iff (ops : List Op) :
    (run (ops ++ [.flush])).file = Line.texts (lines ops) ↔ Justified Sparing ops :=
  ⟨sparing_of_file, file_of_sparing⟩

private theorem six_mul_length_le (msgs : List Message) :
    6 * msgs.length ≤ (Line.texts (lines (msgs.map Op.deliver))).length := by
  induction msgs with
  | nil => exact Nat.zero_le _
  | cons msg msgs ih =>
    have first := Nat.length_toDigits_pos (b := 10) (n := msg.originator + 1)
    have second := Nat.length_toDigits_pos (b := 10) (n := msg.bcastSeqNum + 1)
    simp only [lines, List.map_cons, List.filterMap_cons, Op.line, Line.texts, List.flatMap_cons,
      Line.text, Line.body, List.length_append, List.length_cons, List.length_nil] at ih ⊢
    omega

/-- The deliveries of the first 174763 messages of the first process, then the last flush: the
delivery that takes the stream past `MAX_LEN` writes the whole log, and so does the flush. -/
theorem file_ne_lines :
    (run ((List.range 174763).map (fun k => .deliver { bcastSeqNum := k }) ++ [.flush])).file ≠
      Line.texts (lines ((List.range 174763).map fun k => .deliver { bcastSeqNum := k })) := by
  intro whole
  have sparing := sparing_of_file whole
  rw [List.range_succ, List.map_append, List.map_singleton] at sparing
  have short := (justified_concat.mp sparing).2.2
  have long := six_mul_length_le ((List.range (174762 + 1)).map fun k => { bcastSeqNum := k })
  rw [List.map_map, List.length_map, List.length_range, List.range_succ, List.map_append] at long
  exact absurd (Nat.le_trans long short) (by decide)

end Logger

end CausalBroadcast
