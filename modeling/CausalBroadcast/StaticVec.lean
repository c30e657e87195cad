import Mathlib.Data.List.TakeDrop

/-!
# A vector with a fixed capacity

`StaticVec` keeps its elements in the first `size()` places of an array, and whatever was in the
memory before in the others. Nothing checks the size against the capacity, so every operation that
reaches for an element is `none` where it would leave the array.
-/

namespace CausalBroadcast

/-- `StaticVec<T, Cap>`. -/
structure StaticVec (T : Type) (cap : Nat) where
  storage : Vector T cap
  /-- a `std::size_t` -/
  sz : Nat := 0

namespace StaticVec

variable {T : Type} {cap : Nat} {v w : StaticVec T cap}

/-- The elements, from `begin()` to `end()`. -/
def elements (v : StaticVec T cap) : List T := v.storage.toList.take v.sz

/-- `force_set_size`. -/
def forceSetSize (v : StaticVec T cap) (size : Nat) : StaticVec T cap := { v with sz := size }

/-- `operator[]`. -/
def get (v : StaticVec T cap) (idx : Nat) : Option T := v.storage[idx]?

/-- `push_back`. -/
def pushBack (v : StaticVec T cap) (item : T) : Option (StaticVec T cap) :=
  if inside : v.sz < cap then some ⟨v.storage.set v.sz item inside, v.sz + 1⟩ else none

/-- What a call of `pop_back` does. -/
structure Popped (T : Type) (cap : Nat) where
  /-- the place it reads -/
  slot : Nat
  /-- what it finds there: `none` outside the array -/
  item : Option T
  rest : StaticVec T cap

/-- `pop_back`, of a vector that is not empty. The place is the size before it is decreased. -/
def popBack (v : StaticVec T cap) : Popped T cap where
  slot := v.sz
  item := v.get v.sz
  rest := { v with sz := v.sz - 1 }

/-- An assignment to `operator[]`. -/
def write (v : StaticVec T cap) (idx : Nat) (item : T) : Option (StaticVec T cap) :=
  if inside : idx < cap then some { v with storage := v.storage.set idx item inside } else none

/-- The constructor with a size. -/
def ofSize (cap : Nat) (value : T) (size : Nat) : StaticVec T cap := ⟨.replicate cap value, size⟩

/-- The `memcpy` of both copies and both assignments, onto a vector whose array holds `old`: the
elements below the size are copied, however many there are. -/
def copy (old : Vector T cap) (v : StaticVec T cap) : Option (StaticVec T cap) :=
  if v.sz ≤ cap then
    some ⟨Vector.ofFn fun i => if i < v.sz then v.storage[i] else old[i], v.sz⟩
  else none

theorem length_elements (small : v.sz ≤ cap) : v.elements.length = v.sz := by
  rw [elements, List.length_take, Vector.length_toList, Nat.min_eq_left small]

/-- Below the capacity, `push_back` puts the item behind the elements. -/
theorem exists_pushBack (item : T) (room : v.sz < cap) :
    ∃ w, v.pushBack item = some w ∧ w.sz = v.sz + 1 ∧ w.elements = v.elements ++ [item] := by
  refine ⟨_, dif_pos room, rfl, ?_⟩
  simp only [elements, Vector.toList_set]
  rw [List.take_succ_eq_append_getElem (by simpa using room), List.take_set_of_le (Nat.le_refl _)]
  simp

theorem exists_write {idx : Nat} (item : T) (small : v.sz ≤ cap) (below : idx < v.sz) :
    ∃ w, v.write idx item = some w ∧ w.sz = v.sz ∧ w.elements = v.elements.set idx item := by
  refine ⟨_, dif_pos (Nat.lt_of_lt_of_le below small), rfl, ?_⟩
  simp only [elements, Vector.toList_set]
  exact List.take_set

theorem elements_popBack (small : v.sz ≤ cap) : v.popBack.rest.elements = v.elements.dropLast := by
  rw [List.dropLast_eq_take, length_elements small]
  simp only [elements, popBack, List.take_take]
  rw [Nat.min_eq_left (Nat.sub_le v.sz 1)]

theorem elements_ofSize {value : T} {size : Nat} (small : size ≤ cap) :
    (ofSize cap value size).elements = .replicate size value := by
  simp [elements, ofSize, small]

/-- Items are pushed one after the other as long as there is room for all of them. -/
theorem exists_pushAll {α : Type} (f : α → T) {items : List α} (room : v.sz + items.length ≤ cap) :
    ∃ w, items.foldlM (fun (v : StaticVec T cap) item => v.pushBack (f item)) v = some w ∧
      w.sz = v.sz + items.length ∧ w.elements = v.elements ++ items.map f := by
  induction items generalizing v with
  | nil => exact ⟨v, rfl, rfl, by simp⟩
  | cons item items ih =>
    rw [List.length_cons] at room
    obtain ⟨next, pushed, size, elements⟩ := v.exists_pushBack (f item) (by omega)
    obtain ⟨w, rest, size', elements'⟩ := @ih next (by omega)
    refine ⟨w, ?_, by simp only [List.length_cons]; omega, ?_⟩
    · rw [List.foldlM_cons, pushed]
      exact rest
    · rw [elements', elements, List.map_cons, List.append_assoc, List.singleton_append]

/-- A copy stays inside both arrays exactly when the size is honest. -/
theorem copy_isSome (old : Vector T cap) : (v.copy old).isSome ↔ v.sz ≤ cap := by
  unfold copy
  split <;> simp [*]

/-- A copy has the elements of the original. -/
theorem elements_of_copy {old : Vector T cap} (made : v.copy old = some w) :
    w.elements = v.elements ∧ w.sz = v.sz := by
  unfold copy at made
  split at made
  next small =>
    obtain rfl := Option.some.inj made
    refine ⟨List.ext_getElem? fun i => ?_, rfl⟩
    unfold elements
    rw [List.getElem?_take, List.getElem?_take]
    split
    next below =>
      have inside : i < cap := Nat.lt_of_lt_of_le below small
      simp [inside, below]
    next => rfl
  next => exact absurd made (by simp)

end StaticVec

end CausalBroadcast
