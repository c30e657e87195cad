import Mathlib.Data.List.ReduceOption
import CausalBroadcast.Logger
import CausalBroadcast.Text.Python
import CausalBroadcast.Validator

/-!
# Log files as the validators read them

A line is split at white space, its first word says what it is, and the words behind it are numbers.
The text that the logger writes is read as the lines it logged.
-/

namespace CausalBroadcast

open Text

/-- How the reading of a line ends if it raises an exception. -/
inductive Raised where
  | indexError
  | valueError
  deriving DecidableEq

namespace LogLine

/-- `int(tokens[i])`. -/
def number (tokens : List (List Char)) (i : Nat) : Except Raised Int :=
  match tokens[i]? with
  | none => .error .indexError
  | some token =>
    match Python.int token with
    | none => .error .valueError
    | some n => .ok n

/-- What the loops over a log file make of a line: `none` of one that starts with another word. -/
def read (line : List Char) : Except Raised (Option LogLine) :=
  match Python.split line with
  | [] => .error .indexError
  | first :: rest =>
    if first = ['b'] then do
      let msg ← number (first :: rest) 1
      return some (.b msg)
    else if first = ['d'] then do
      let sender ← number (first :: rest) 1
      let msg ← number (first :: rest) 2
      return some (.d sender msg)
    else return none

/-- The lines of a log file. -/
def readLog (text : List Char) : Except Raised (List LogLine) := do
  let lines ← (Python.readLines text).mapM read
  return lines.reduceOption

end LogLine

namespace Line

/-- A line of the logger, as a validator reads it. -/
def logLine : Line → LogLine
  | .broadcast num => .b num
  | .deliver process num => .d process num

/-- The words of a line. -/
def words : Line → List (List Char)
  | .broadcast num => [['b'], Python.str num]
  | .deliver process num => [['d'], Python.str process, Python.str num]

theorem body_eq (line : Line) : line.body = [' '].intercalate line.words := by
  cases line <;> simp [body, words, Python.str, List.intercalate_cons_cons]

theorem word_of_mem_words {line : Line} {word : List Char} (mem : word ∈ line.words) :
    Python.Word word := by
  have letter : ∀ c : Char, Python.isSpace c = false → Python.Word [c] := fun c solid =>
    ⟨List.cons_ne_nil _ _, by simpa using solid⟩
  cases line with
  | broadcast num =>
    rcases List.mem_pair.mp mem with rfl | rfl
    · exact letter 'b' (by decide)
    · exact Python.word_str num
  | deliver process num =>
    rcases List.mem_cons.mp mem with rfl | mem
    · exact letter 'd' (by decide)
    rcases List.mem_pair.mp mem with rfl | rfl
    · exact Python.word_str process
    · exact Python.word_str num

/-- A line is read as what was logged. -/
theorem read_body (line : Line) : LogLine.read line.body = .ok (some line.logLine) := by
  have words_ : Python.split line.body = line.words := by
    rw [body_eq]
    exact Python.split_intercalate fun _ => word_of_mem_words
  have other : ['d'] ≠ ['b'] := by decide
  unfold LogLine.read
  rw [words_]
  cases line with
  | broadcast num =>
    have first : LogLine.number [['b'], Python.str num] 1 = .ok (num : Int) := by
      simp [LogLine.number, Python.int_str]
    simp only [words, if_true, first]
    rfl
  | deliver process num =>
    have first : LogLine.number [['d'], Python.str process, Python.str num] 1 =
        .ok (process : Int) := by
      simp [LogLine.number, Python.int_str]
    have second : LogLine.number [['d'], Python.str process, Python.str num] 2 =
        .ok (num : Int) := by
      simp [LogLine.number, Python.int_str]
    simp only [words, if_neg other, if_true, first, second]
    rfl

theorem carriageReturn_notMem_body (line : Line) : '\r' ∉ line.body := by
  have digits : ∀ n, '\r' ∉ Nat.toDigits 10 n := fun n mem =>
    absurd (Python.isDigit_of_mem_str mem) (by decide)
  cases line <;> simp [body, digits]

theorem mapM_read (lines : List Line) :
    (lines.map body).mapM LogLine.read = .ok (lines.map fun line => some line.logLine) := by
  induction lines with
  | nil => rfl
  | cons line lines ih =>
    rw [List.map_cons, List.mapM_cons, read_body, ih]
    rfl

/-- What the logger wrote is read as what was logged. -/
theorem readLog_texts (lines : List Line) :
    LogLine.readLog (texts lines) = .ok (lines.map logLine) := by
  have parts : Python.readLines (texts lines) = lines.map body := by
    have text_ : texts lines = (lines.map body).flatMap fun line => line ++ ['\n'] := by
      rw [List.flatMap_map]
      rfl
    rw [text_]
    refine Python.readLines_flatMap fun line mem => ?_
    obtain ⟨line, -, rfl⟩ := List.mem_map.mp mem
    exact ⟨newline_notMem_body line, carriageReturn_notMem_body line⟩
  unfold LogLine.readLog
  rw [parts, mapM_read]
  show Except.ok (lines.map fun line => some line.logLine).reduceOption = _
  simp [List.reduceOption, List.filterMap_map]

end Line

end CausalBroadcast
