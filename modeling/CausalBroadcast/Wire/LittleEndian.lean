import Mathlib.Data.Nat.Digits.Defs

/-!
# Little-endian memory

Integers as they lie in memory, and the fields of a struct read back from its bytes: a field survives
what comes before it and after it, the end of a copy that stops after it, and the elements of an array
beside it.
-/

namespace LittleEndian

/-- The lowest `width` bytes of `x`, the least significant first. -/
def encode (width x : Nat) : List UInt8 := (List.range width).map fun i => UInt8.ofNat (x / 256 ^ i)

/-- The number whose bytes these are. -/
def decode (bytes : List UInt8) : Nat := Nat.ofDigits 256 (bytes.map UInt8.toNat)

/-- The value of the field of `width` bytes at `offset`. -/
def field (offset width : Nat) (bytes : List UInt8) : Nat :=
  decode ((bytes.drop offset).take width)

variable {width offset k x : Nat} {a b bytes : List UInt8}

@[simp] theorem length_encode : (encode width x).length = width := by simp [encode]

@[simp] theorem decode_encode (width x : Nat) : decode (encode width x) = x % 256 ^ width := by
  induction width with
  | zero => simp [encode, decode, Nat.mod_one]
  | succ width ih =>
    have top : decode (encode (width + 1) x) =
        decode (encode width x) + 256 ^ width * (x / 256 ^ width % 256) := by
      simp [encode, decode, List.range_succ, Nat.ofDigits_append]
    rw [top, ih, Nat.mod_pow_succ]

@[simp] theorem field_encode : field 0 width (encode width x) = x % 256 ^ width := by
  rw [field, List.drop_zero, List.take_of_length_le length_encode.le, decode_encode]

/-- A field is not changed by what comes after it. -/
theorem field_append_left (inside : offset + width ≤ a.length) :
    field offset width (a ++ b) = field offset width a := by
  unfold field
  rw [List.drop_append_of_le_length (by omega), List.take_append_of_le_length]
  rw [List.length_drop]
  omega

/-- A field moves with what comes before it. -/
theorem field_append_right (place : a.length ≤ offset) :
    field offset width (a ++ b) = field (offset - a.length) width b := by
  unfold field
  rw [List.drop_append, List.drop_of_length_le place, List.nil_append]

/-- A field is in every copy that ends after it. -/
theorem field_take (inside : offset + width ≤ k) :
    field offset width (bytes.take k) = field offset width bytes := by
  unfold field
  rw [List.drop_take, List.take_take, Nat.min_eq_left (by omega)]

/-! ## Arrays -/

/-- The elements of an array, one after the other. -/
def encodeAll (width : Nat) (xs : List Nat) : List UInt8 := xs.flatMap (encode width)

@[simp] theorem length_encodeAll {xs : List Nat} :
    (encodeAll width xs).length = xs.length * width := by
  induction xs with
  | nil => simp [encodeAll]
  | cons x xs ih =>
    rw [encodeAll, List.flatMap_cons, List.length_append, length_encode, ← encodeAll, ih,
      List.length_cons, Nat.succ_mul, Nat.add_comm]

/-- An element of an array is a field of it. -/
theorem field_encodeAll {xs : List Nat} {i : Nat} (inside : i < xs.length) :
    field (width * i) width (encodeAll width xs) = xs[i] % 256 ^ width := by
  induction xs generalizing i with
  | nil => exact absurd inside (Nat.not_lt_zero i)
  | cons x xs ih =>
    rw [encodeAll, List.flatMap_cons, ← encodeAll]
    cases i with
    | zero =>
      rw [Nat.mul_zero, field_append_left (by simp), field_encode]
      rfl
    | succ i =>
      have below : i < xs.length := by simpa using inside
      rw [field_append_right (by rw [length_encode, Nat.mul_succ]; omega), length_encode,
        Nat.mul_succ, Nat.add_sub_cancel, ih below]
      rfl

end LittleEndian
