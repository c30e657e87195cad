import Mathlib.Algebra.Group.Int.Defs
import Mathlib.Algebra.Group.Nat.Defs
import Mathlib.Data.List.TakeWhile

/-!
# Reading numbers from text

`std::getline` and the operators `>>` of an input stream, over lists of characters. An extraction says
what it leaves in its variable and what of the stream is left: nothing, if it sets `failbit`, after
which no other extraction of the stream does anything.

`Numerals` is a line of numbers as a person would write it, and such a line is read as its numbers.
-/

namespace Text

/-- `isspace`, of the C locale. -/
def isSpace (c : Char) : Bool := c.toNat = 32 || (9 ≤ c.toNat && c.toNat ≤ 13)

/-- A line of white space only. -/
def Blank (line : List Char) : Prop := ∀ c ∈ line, isSpace c

instance (line : List Char) : Decidable (Blank line) := List.decidableBAll (isSpace ·) line

/-- The lines that `std::getline` reads one after the other. -/
def lines : List Char → List (List Char)
  | [] => []
  | c :: cs =>
    if c = '\n' then [] :: lines cs
    else
      match lines cs with
      | [] => [[c]]
      | line :: rest => (c :: line) :: rest

/-- The stream behind white space. -/
def skipSpace (cs : List Char) : List Char := cs.dropWhile isSpace

/-- A sign, if there is one: whether it is a minus, and the rest. -/
def sign : List Char → Bool × List Char
  | '-' :: cs => (true, cs)
  | '+' :: cs => (false, cs)
  | cs => (false, cs)

/-- A sign and the digits behind it, as whether the number is negative and how large it is, and the rest:
`none` if there is no digit. -/
def number (cs : List Char) : Option (Bool × Nat × List Char) :=
  let digits := (sign cs).2.takeWhile Char.isDigit
  if digits = [] then none
  else some ((sign cs).1, Nat.ofDigitChars 10 digits 0, (sign cs).2.dropWhile Char.isDigit)

/-- What an extraction leaves. -/
structure Extracted (T : Type) where
  value : T
  /-- the stream, `none` where `failbit` is set -/
  rest : Option (List Char)

/-- A number is stored, or the bound it is beyond. -/
def store (low high x : Int) (rest : List Char) : Extracted Int :=
  if x < low then ⟨low, none⟩ else if high < x then ⟨high, none⟩ else ⟨x, some rest⟩

/-- `>>` of a signed number of `bits` bits. -/
def extractInt (bits : Nat) (old : Int) (cs : List Char) : Extracted Int :=
  if skipSpace cs = [] then ⟨old, none⟩
  else
    match number (skipSpace cs) with
    | none => ⟨0, none⟩
    | some (negative, n, rest) =>
      store (-2 ^ (bits - 1)) (2 ^ (bits - 1) - 1) (if negative then -n else n) rest

/-- `>>` of an unsigned number of `bits` bits, which takes a minus sign too. -/
def extractUnsigned (bits old : Nat) (cs : List Char) : Extracted Nat :=
  if skipSpace cs = [] then ⟨old, none⟩
  else
    match number (skipSpace cs) with
    | none => ⟨0, none⟩
    | some (negative, n, rest) =>
      if 2 ^ bits ≤ n then ⟨2 ^ bits - 1, none⟩
      else ⟨if negative then (2 ^ bits - n) % 2 ^ bits else n, some rest⟩

/-- `>>` of a string. -/
def extractWord (old : List Char) (cs : List Char) : Extracted (List Char) :=
  if skipSpace cs = [] then ⟨old, none⟩
  else
    ⟨(skipSpace cs).takeWhile fun c => !isSpace c, some ((skipSpace cs).dropWhile fun c => !isSpace c)⟩

section
variable {cs rest : List Char} {bits : Nat} {old x : Int}

theorem length_lt_of_number {negative : Bool} {n : Nat}
    (read : number cs = some (negative, n, rest)) : rest.length < cs.length := by
  have unsigned : (sign cs).2.length ≤ cs.length := by
    unfold sign
    split <;> simp
  unfold number at read
  obtain ⟨some_, read⟩ := Option.ite_none_left_eq_some.mp read
  generalize (sign cs).2 = body at unsigned some_ read
  cases read
  have parts := congrArg List.length (List.takeWhile_append_dropWhile (p := Char.isDigit)
    (l := body))
  have digits := List.length_pos_iff.mpr some_
  rw [List.length_append] at parts
  omega

theorem store_rest {low high : Int} {stream : List Char}
    (stored : store low high x stream = ⟨old, some rest⟩) : stream = rest := by
  unfold store at stored
  split at stored
  · cases stored
  split at stored <;> cases stored
  rfl

/-- An extraction takes something from the stream. -/
theorem length_lt_of_extractInt (read : extractInt bits old cs = ⟨x, some rest⟩) :
    rest.length < cs.length := by
  unfold extractInt at read
  split at read
  · cases read
  split at read
  · cases read
  next negative n rest' numbered =>
    rw [← store_rest read]
    exact Nat.lt_of_lt_of_le (length_lt_of_number numbered) (List.length_dropWhile_le _ _)

end

/-- The numbers of `bits` bits that are extracted in a loop until one fails. -/
def ints (bits : Nat) (cs : List Char) : List Int :=
  match _read : extractInt bits 0 cs with
  | ⟨_, none⟩ => []
  | ⟨x, some rest⟩ => x :: ints bits rest
termination_by cs.length
decreasing_by exact length_lt_of_extractInt ‹_›

/-! ## Lines of numbers -/

/-- A number as a run of digits. -/
structure Numeral (x : Nat) (digits : List Char) : Prop where
  nonempty : digits ≠ []
  isDigit : ∀ c ∈ digits, c.isDigit
  value : Nat.ofDigitChars 10 digits 0 = x

/-- A line of numbers, with white space between any two of them and anywhere else. -/
inductive Numerals : List Nat → List Char → Prop
  | nil {space : List Char} : Blank space → Numerals [] space
  | cons {space digits rest : List Char} {x : Nat} {xs : List Nat} : Blank space →
      Numeral x digits → (∀ c ∈ rest.head?, isSpace c) → Numerals xs rest →
      Numerals (x :: xs) (space ++ (digits ++ rest))

section
variable {cs space digits rest : List Char} {x bits : Nat} {xs : List Nat}

theorem skipSpace_blank (blank : Blank space) : skipSpace space = [] :=
  List.dropWhile_eq_nil_iff.mpr blank

theorem skipSpace_append (blank : Blank space) : skipSpace (space ++ cs) = skipSpace cs :=
  List.dropWhile_append_of_pos blank

theorem not_isDigit_of_isSpace {c : Char} (space : isSpace c) : c.isDigit = false := by
  by_contra digit
  have digit := Char.isDigit_iff_toNat.mp (Bool.not_eq_false _ ▸ digit)
  simp only [isSpace, Bool.or_eq_true, Bool.and_eq_true, decide_eq_true_eq, Char.reduceToNat]
    at space digit
  omega

theorem sign_of_isDigit {c : Char} (digit : c.isDigit) (cs : List Char) :
    sign (c :: cs) = (false, c :: cs) := by
  unfold sign
  split
  next same => cases same; exact absurd digit (by decide)
  next same => cases same; exact absurd digit (by decide)
  next => rfl

namespace Numeral

theorem exists_cons (numeral : Numeral x digits) :
    ∃ c cs, digits = c :: cs ∧ c.isDigit := by
  obtain ⟨c, cs, rfl⟩ := List.exists_cons_of_ne_nil numeral.nonempty
  exact ⟨c, cs, rfl, numeral.isDigit c List.mem_cons_self⟩

theorem skipSpace_append (numeral : Numeral x digits) (rest : List Char) :
    skipSpace (digits ++ rest) = digits ++ rest := by
  obtain ⟨c, cs, rfl, digit⟩ := numeral.exists_cons
  refine List.dropWhile_cons_of_neg fun space => ?_
  rw [not_isDigit_of_isSpace space] at digit
  cases digit

/-- The digits of a numeral are read to their end. -/
theorem number_append (numeral : Numeral x digits) (apart : ∀ c ∈ rest.head?, isSpace c) :
    number (digits ++ rest) = some (false, x, rest) := by
  have unsigned : sign (digits ++ rest) = (false, digits ++ rest) := by
    obtain ⟨c, cs, rfl, digit⟩ := numeral.exists_cons
    exact sign_of_isDigit digit _
  have stop : rest.takeWhile Char.isDigit = [] ∧ rest.dropWhile Char.isDigit = rest := by
    cases rest with
    | nil => exact ⟨rfl, rfl⟩
    | cons c cs =>
      have space := not_isDigit_of_isSpace (apart c rfl)
      simp [space]
  unfold number
  rw [unsigned, List.takeWhile_append_of_pos numeral.isDigit,
    List.dropWhile_append_of_pos numeral.isDigit, stop.1, stop.2, List.append_nil]
  exact (if_neg numeral.nonempty).trans (by rw [numeral.value])

variable {old : Nat} {old' : Int}

/-- A numeral behind white space is extracted. -/
theorem extractUnsigned (numeral : Numeral x digits) (blank : Blank space)
    (apart : ∀ c ∈ rest.head?, isSpace c) (small : x < 2 ^ bits) :
    extractUnsigned bits old (space ++ (digits ++ rest)) = ⟨x, some rest⟩ := by
  unfold Text.extractUnsigned
  rw [Text.skipSpace_append blank, numeral.skipSpace_append, if_neg (by simp [numeral.nonempty]),
    numeral.number_append apart]
  exact if_neg (Nat.not_le.mpr small)

theorem extractInt (numeral : Numeral x digits) (blank : Blank space)
    (apart : ∀ c ∈ rest.head?, isSpace c) (small : x < 2 ^ (bits - 1)) :
    extractInt bits old' (space ++ (digits ++ rest)) = ⟨x, some rest⟩ := by
  unfold Text.extractInt
  rw [Text.skipSpace_append blank, numeral.skipSpace_append, if_neg (by simp [numeral.nonempty]),
    numeral.number_append apart]
  have small : (x : Int) < 2 ^ (bits - 1) := by exact_mod_cast small
  show store _ _ (x : Int) rest = _
  unfold store
  rw [if_neg (by omega), if_neg (by omega)]

end Numeral

theorem extractInt_blank (old : Int) (blank : Blank space) : extractInt bits old space = ⟨old, none⟩ :=
  if_pos (skipSpace_blank blank)

theorem ints_of_none {y : Int} (failed : extractInt bits 0 cs = ⟨y, none⟩) : ints bits cs = [] := by
  rw [ints]
  split
  · rfl
  next y' rest read =>
    rw [failed] at read
    cases read

theorem ints_of_some {y : Int} (read : extractInt bits 0 cs = ⟨y, some rest⟩) :
    ints bits cs = y :: ints bits rest := by
  rw [ints]
  split
  next y' failed =>
    rw [read] at failed
    cases failed
  next y' rest' read' =>
    rw [read] at read'
    cases read'
    rfl

/-- A line of numbers is extracted as its numbers. -/
theorem Numerals.ints (numerals : Numerals xs cs) (small : ∀ x ∈ xs, x < 2 ^ (bits - 1)) :
    ints bits cs = xs.map Int.ofNat := by
  induction numerals with
  | nil blank => exact ints_of_none (extractInt_blank 0 blank)
  | cons blank numeral apart numerals ih =>
    have ⟨first, others⟩ := List.forall_mem_cons.mp small
    rw [ints_of_some (numeral.extractInt blank apart first), ih others]
    rfl

end

end Text
