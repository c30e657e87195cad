import Mathlib.Data.Int.Notation
import CausalBroadcast.Text.Extraction

/-!
# Reading and writing text in Python

A text file is a list of characters, which is read line by line and word by word. The digits of `int`
are those of ASCII.
-/

namespace Text.Python

/-- `str.isspace`. -/
def isSpace (c : Char) : Bool :=
  (9 ≤ c.toNat && c.toNat ≤ 13) || (28 ≤ c.toNat && c.toNat ≤ 32) || c.toNat = 0x85 ||
    c.toNat = 0xa0 || c.toNat = 0x1680 || (0x2000 ≤ c.toNat && c.toNat ≤ 0x200a) ||
    c.toNat = 0x2028 || c.toNat = 0x2029 || c.toNat = 0x202f || c.toNat = 0x205f || c.toNat = 0x3000

/-- Universal newlines: the characters read of a text file. -/
def newlines : List Char → List Char
  | [] => []
  | '\r' :: '\n' :: cs => '\n' :: newlines cs
  | '\r' :: cs => '\n' :: newlines cs
  | c :: cs => c :: newlines cs

/-- The lines of a text file, each without its newline. -/
def readLines (cs : List Char) : List (List Char) := lines (newlines cs)

/-- `str.split()`. -/
def split (cs : List Char) : List (List Char) := (cs.splitOnP isSpace).filter (· ≠ [])

/-- `int` of a word: digits behind a sign, with single underscores between them; `none` where it raises a
`ValueError`. -/
def int (cs : List Char) : Option Int :=
  let (negative, body) := sign cs
  let parts := body.splitOn '_'
  if parts.all fun digits => digits ≠ [] && digits.all Char.isDigit then
    let n := Nat.ofDigitChars 10 parts.flatten 0
    some (if negative then -n else n)
  else none

/-- `str` of a number that is not negative. -/
def str (n : Nat) : List Char := Nat.toDigits 10 n

/-- A run of characters that are no white space. -/
structure Word (cs : List Char) : Prop where
  nonempty : cs ≠ []
  solid : ∀ c ∈ cs, isSpace c = false

section
variable {c : Char} {cs line : List Char} {words ls : List (List Char)}

/-! ## Words -/

theorem split_word (word : Word cs) : split cs = [cs] := by
  unfold split
  rw [List.splitOnP_eq_singleton word.solid]
  simp [word.nonempty]

theorem split_cons (word : Word line) (space : isSpace c) (cs : List Char) :
    split (line ++ c :: cs) = line :: split cs := by
  unfold split
  rw [List.splitOnP_append_cons_of_forall_mem word.solid c space]
  simp [word.nonempty]

/-- Words with a blank between any two are taken apart again. -/
theorem split_intercalate (all : ∀ word ∈ words, Word word) :
    split ([' '].intercalate words) = words := by
  induction words with
  | nil => rfl
  | cons word words ih =>
    obtain ⟨first, others⟩ := List.forall_mem_cons.mp all
    cases words with
    | nil => rw [List.intercalate_singleton, split_word first]
    | cons next words =>
      rw [List.intercalate_cons_cons, List.append_assoc, List.singleton_append,
        split_cons first (by decide), ih others]

/-! ## Numbers -/

theorem isDigit_of_mem_str {n : Nat} (mem : c ∈ str n) : c.isDigit :=
  Nat.isDigit_of_mem_toDigits (by decide) (by decide) mem

theorem isSpace_of_isDigit (digit : c.isDigit) : isSpace c = false := by
  have digit := Char.isDigit_iff_toNat.mp digit
  simp only [Char.reduceToNat] at digit
  simp only [isSpace, Bool.or_eq_false_iff, Bool.and_eq_false_iff, decide_eq_false_iff_not]
  omega

theorem str_ne_nil (n : Nat) : str n ≠ [] :=
  List.length_pos_iff.mp Nat.length_toDigits_pos

/-- A number is written as a word. -/
theorem word_str (n : Nat) : Word (str n) where
  nonempty := str_ne_nil n
  solid _ mem := isSpace_of_isDigit (isDigit_of_mem_str mem)

/-- A number is written as a numeral. -/
theorem numeral_str (n : Nat) : Numeral n (str n) where
  nonempty := str_ne_nil n
  isDigit _ := isDigit_of_mem_str
  value := Nat.ofDigitChars_ten_toDigits

/-- A number is read as it was written. -/
theorem int_str (n : Nat) : int (str n) = some (n : Int) := by
  have unsigned : sign (str n) = (false, str n) := by
    obtain ⟨c, cs, same, digit⟩ := (numeral_str n).exists_cons
    rw [same]
    exact sign_of_isDigit digit cs
  have whole : (str n).splitOn '_' = [str n] := by
    refine List.splitOn_eq_singleton fun mem => ?_
    exact absurd (isDigit_of_mem_str mem) (by decide)
  have digits : (str n).all Char.isDigit = true :=
    List.all_eq_true.mpr fun c mem => isDigit_of_mem_str mem
  unfold int
  rw [unsigned]
  simp [whole, str_ne_nil, digits, (numeral_str n).value]

/-! ## Lines -/

/-- Where there is no carriage return nothing is translated. -/
theorem newlines_eq (plain : '\r' ∉ cs) : newlines cs = cs := by
  fun_induction newlines cs with
  | case1 => rfl
  | case2 cs ih => simp at plain
  | case3 cs other ih => simp at plain
  | case4 c cs _ _ ih => rw [ih fun mem => plain (List.mem_cons_of_mem _ mem)]

theorem lines_cons (plain : '\n' ∉ line) (cs : List Char) :
    lines (line ++ '\n' :: cs) = line :: lines cs := by
  induction line with
  | nil => simp [lines]
  | cons c line ih =>
    have other : c ≠ '\n' := fun same => plain (same ▸ List.mem_cons_self)
    rw [List.cons_append, lines, if_neg other, ih fun mem => plain (List.mem_cons_of_mem _ mem)]

/-- Lines that are written with a newline behind each are read again. -/
theorem lines_flatMap (plain : ∀ line ∈ ls, '\n' ∉ line) :
    lines (ls.flatMap fun line => line ++ ['\n']) = ls := by
  induction ls with
  | nil => rfl
  | cons line ls ih =>
    obtain ⟨first, others⟩ := List.forall_mem_cons.mp plain
    rw [List.flatMap_cons, List.append_assoc, List.singleton_append, lines_cons first, ih others]

theorem readLines_flatMap (plain : ∀ line ∈ ls, '\n' ∉ line ∧ '\r' ∉ line) :
    readLines (ls.flatMap fun line => line ++ ['\n']) = ls := by
  unfold readLines
  rw [newlines_eq, lines_flatMap fun line mem => (plain line mem).1]
  intro mem
  obtain ⟨line, listed, mem⟩ := List.mem_flatMap.mp mem
  rcases List.mem_append.mp mem with inside | last
  · exact (plain line listed).2 inside
  · exact absurd (List.mem_singleton.mp last) (by decide)

end

end Text.Python
