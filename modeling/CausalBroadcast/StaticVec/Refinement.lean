import CausalBroadcast.StaticVec

/-!
# Vectors as lists

A program that works on several `StaticVec`s, and the same program on lists of at most `cap`
elements. The elements of the vectors are the lists at every moment; only `pop_back` does not return
what it takes off, because it reads the place behind the last element.
-/

namespace CausalBroadcast

namespace StaticVec

/-- An operation on the vectors of a program, each known by when it was constructed. -/
inductive Op (T : Type) (cap : Nat) where
  /-- `StaticVec()`, where `memory` was -/
  | construct (memory : Vector T cap)
  /-- `StaticVec(size)` -/
  | constructSized (size : Nat)
  /-- `StaticVec(v)`, where `memory` was -/
  | copyConstruct (memory : Vector T cap) (source : Nat)
  /-- `operator=` -/
  | assign (target source : Nat)
  | pushBack (target : Nat) (item : T)
  | popBack (target : Nat)
  /-- an assignment to `operator[]` -/
  | write (target idx : Nat) (item : T)

variable {T : Type} {cap : Nat}

/-- What an operation makes of the vectors: `none` where it leaves an array, or there is no such
vector. `value` is `T{}`. -/
def step (value : T) (vecs : List (StaticVec T cap)) (op : Op T cap) :
    Option (List (StaticVec T cap)) :=
  match op with
  | .construct memory => some (vecs ++ [⟨memory, 0⟩])
  | .constructSized size => some (vecs ++ [.ofSize cap value size])
  | .copyConstruct memory source => do
    let v ← vecs[source]?
    let copied ← v.copy memory
    return vecs ++ [copied]
  | .assign target source => do
    let old ← vecs[target]?
    let v ← vecs[source]?
    let copied ← v.copy old.storage
    return vecs.set target copied
  | .pushBack target item => do
    let v ← vecs[target]?
    let pushed ← v.pushBack item
    return vecs.set target pushed
  | .popBack target => do
    let v ← vecs[target]?
    return vecs.set target v.popBack.rest
  | .write target idx item => do
    let v ← vecs[target]?
    let written ← v.write idx item
    return vecs.set target written

/-- What a sequence of operations makes of no vectors. -/
def run (value : T) (ops : List (Op T cap)) : Option (List (StaticVec T cap)) :=
  ops.foldlM (step value) []

/-- What an operation makes of lists: `none` where it would exceed the capacity, takes an element
off an empty list, writes behind the end, or there is no such list. -/
def stepLists (value : T) (lists : List (List T)) (op : Op T cap) : Option (List (List T)) :=
  match op with
  | .construct _ => some (lists ++ [[]])
  | .constructSized size => if size ≤ cap then some (lists ++ [.replicate size value]) else none
  | .copyConstruct _ source => do
    let l ← lists[source]?
    return lists ++ [l]
  | .assign target source => do
    let _ ← lists[target]?
    let l ← lists[source]?
    return lists.set target l
  | .pushBack target item => do
    let l ← lists[target]?
    if l.length < cap then return lists.set target (l ++ [item]) else none
  | .popBack target => do
    let l ← lists[target]?
    if l = [] then none else return lists.set target l.dropLast
  | .write target idx item => do
    let l ← lists[target]?
    if idx < l.length then return lists.set target (l.set idx item) else none

/-- What a sequence of operations makes of no lists. -/
def runLists (value : T) (ops : List (Op T cap)) : Option (List (List T)) :=
  ops.foldlM (stepLists value) []

/-- The vectors hold the lists, and no size exceeds the capacity. -/
structure Holds (vecs : List (StaticVec T cap)) (lists : List (List T)) : Prop where
  elements : vecs.map StaticVec.elements = lists
  small : ∀ v ∈ vecs, v.sz ≤ cap

namespace Holds

variable {vecs : List (StaticVec T cap)} {lists lists' : List (List T)} {v : StaticVec T cap}
  {i : Nat} {l : List T} {value : T} {op : Op T cap} {ops : List (Op T cap)}

/-- A list is held by the vector at its place. -/
theorem exists_vec (holds : Holds vecs lists) (at_ : lists[i]? = some l) :
    ∃ v, vecs[i]? = some v ∧ v.elements = l ∧ v.sz ≤ cap ∧ l.length = v.sz := by
  rw [← holds.elements, List.getElem?_map, Option.map_eq_some_iff] at at_
  obtain ⟨v, at_, rfl⟩ := at_
  have small := holds.small v (List.mem_of_getElem? at_)
  exact ⟨v, at_, rfl, small, length_elements small⟩

theorem concat (holds : Holds vecs lists) (small : v.sz ≤ cap) :
    Holds (vecs ++ [v]) (lists ++ [v.elements]) where
  elements := by rw [List.map_append, holds.elements, List.map_singleton]
  small w mem := by
    rcases List.mem_append.mp mem with old | new
    · exact holds.small w old
    · exact List.mem_singleton.mp new ▸ small

theorem set (holds : Holds vecs lists) (i : Nat) (small : v.sz ≤ cap) :
    Holds (vecs.set i v) (lists.set i v.elements) where
  elements := by rw [List.map_set, holds.elements]
  small w mem := by
    rcases List.mem_or_eq_of_mem_set mem with old | rfl
    · exact holds.small w old
    · exact small

/-- A list can be copied, whatever was in the memory of the copy. -/
theorem exists_copy (holds : Holds vecs lists) (at_ : lists[i]? = some l) (memory : Vector T cap) :
    ∃ v copied, vecs[i]? = some v ∧ v.copy memory = some copied ∧ copied.elements = l ∧
      copied.sz ≤ cap := by
  obtain ⟨v, here, rfl, small, -⟩ := holds.exists_vec at_
  obtain ⟨copied, made⟩ := Option.isSome_iff_exists.mp ((copy_isSome memory).mpr small)
  obtain ⟨elements, size⟩ := elements_of_copy made
  exact ⟨v, copied, here, made, elements, size ▸ small⟩

/-- What is allowed on the lists is done on the vectors. -/
theorem step (holds : Holds vecs lists) (done : stepLists value lists op = some lists') :
    ∃ vecs', step value vecs op = some vecs' ∧ Holds vecs' lists' := by
  cases op with
  | construct memory =>
    obtain rfl := Option.some.inj done
    exact ⟨_, rfl, holds.concat (v := ⟨memory, 0⟩) (Nat.zero_le _)⟩
  | constructSized size =>
    obtain ⟨small, done⟩ := Option.ite_none_right_eq_some.mp done
    obtain rfl := Option.some.inj done
    refine ⟨_, rfl, ?_⟩
    rw [← elements_ofSize small]
    exact holds.concat small
  | copyConstruct memory source =>
    obtain ⟨l, at_, done⟩ := Option.bind_eq_some_iff.mp done
    obtain rfl := Option.some.inj done
    obtain ⟨v, copied, here, made, rfl, small⟩ := holds.exists_copy at_ memory
    exact ⟨vecs ++ [copied], by simp [StaticVec.step, here, made], holds.concat small⟩
  | assign target source =>
    obtain ⟨old, atOld, done⟩ := Option.bind_eq_some_iff.mp done
    obtain ⟨l, at_, done⟩ := Option.bind_eq_some_iff.mp done
    obtain rfl := Option.some.inj done
    obtain ⟨old, hereOld, -⟩ := holds.exists_vec atOld
    obtain ⟨v, copied, here, made, rfl, small⟩ := holds.exists_copy at_ old.storage
    exact ⟨vecs.set target copied, by simp [StaticVec.step, here, hereOld, made],
      holds.set target small⟩
  | pushBack target item =>
    obtain ⟨l, at_, done⟩ := Option.bind_eq_some_iff.mp done
    obtain ⟨room, done⟩ := Option.ite_none_right_eq_some.mp done
    obtain rfl := Option.some.inj done
    obtain ⟨v, here, rfl, small, length⟩ := holds.exists_vec at_
    obtain ⟨pushed, made, size, elements⟩ := exists_pushBack item (length ▸ room)
    refine ⟨vecs.set target pushed, by simp [StaticVec.step, here, made], ?_⟩
    exact elements ▸ holds.set target (by omega)
  | popBack target =>
    obtain ⟨l, at_, done⟩ := Option.bind_eq_some_iff.mp done
    obtain ⟨some_, done⟩ := Option.ite_none_left_eq_some.mp done
    obtain rfl := Option.some.inj done
    obtain ⟨v, here, rfl, small, -⟩ := holds.exists_vec at_
    refine ⟨vecs.set target v.popBack.rest, by simp [StaticVec.step, here], ?_⟩
    rw [← elements_popBack small]
    exact holds.set target (Nat.le_trans (Nat.sub_le _ _) small)
  | write target idx item =>
    obtain ⟨l, at_, done⟩ := Option.bind_eq_some_iff.mp done
    obtain ⟨below, done⟩ := Option.ite_none_right_eq_some.mp done
    obtain rfl := Option.some.inj done
    obtain ⟨v, here, rfl, small, length⟩ := holds.exists_vec at_
    obtain ⟨written, made, size, elements⟩ := exists_write item small (length ▸ below)
    refine ⟨vecs.set target written, by simp [StaticVec.step, here, made], ?_⟩
    exact elements ▸ holds.set target (size ▸ small)

/-- A run on lists is a run on vectors that hold them. -/
theorem foldlM (holds : Holds vecs lists)
    (done : ops.foldlM (stepLists value) lists = some lists') :
    ∃ vecs', ops.foldlM (StaticVec.step value) vecs = some vecs' ∧ Holds vecs' lists' := by
  induction ops generalizing vecs lists with
  | nil =>
    obtain rfl := Option.some.inj done
    exact ⟨vecs, rfl, holds⟩
  | cons op ops ih =>
    rw [List.foldlM_cons] at done
    obtain ⟨next, first, rest⟩ := Option.bind_eq_some_iff.mp done
    obtain ⟨vecs', first', holds'⟩ := holds.step first
    obtain ⟨vecs'', rest', holds''⟩ := ih holds' rest
    exact ⟨vecs'', by rw [List.foldlM_cons, first']; exact rest', holds''⟩

end Holds

section
variable {value : T} {ops ops' : List (Op T cap)} {lists : List (List T)}

theorem exists_run (done : runLists value ops = some lists) :
    ∃ vecs, run value ops = some vecs ∧ Holds vecs lists :=
  Holds.foldlM ⟨rfl, List.forall_mem_nil _⟩ done

/-- What is allowed is allowed up to each of its operations. -/
theorem exists_runLists_of_append (allowed : (runLists value (ops ++ ops')).isSome) :
    ∃ lists, runLists value ops = some lists ∧ (ops'.foldlM (stepLists value) lists).isSome := by
  obtain ⟨last, all⟩ := Option.isSome_iff_exists.mp allowed
  unfold runLists at all
  rw [List.foldlM_append] at all
  obtain ⟨lists, first, rest⟩ := Option.bind_eq_some_iff.mp all
  exact ⟨lists, first, Option.isSome_iff_exists.mpr ⟨last, rest⟩⟩

/-- The vectors are the lists: their elements at every moment, and what `pop_back` returns, which
reads no place behind the elements. -/
structure Refines (value : T) (ops : List (Op T cap)) : Prop where
  elements : ∀ past rest, ops = past ++ rest → ∃ vecs, run value past = some vecs ∧
    runLists value past = some (vecs.map StaticVec.elements)
  popped : ∀ past target rest, ops = past ++ .popBack target :: rest → ∀ vecs v,
    run value past = some vecs → vecs[target]? = some v →
    v.popBack.item = v.elements.getLast? ∧ v.popBack.slot < v.sz

/-- **Vectors are lists as long as nothing is popped.** -/
theorem refines_iff (allowed : (runLists value ops).isSome) :
    Refines value ops ↔ ∀ target, .popBack target ∉ ops := by
  constructor
  · intro refines target mem
    obtain ⟨past, rest, rfl⟩ := List.append_of_mem mem
    obtain ⟨lists, done, next⟩ := exists_runLists_of_append allowed
    obtain ⟨vecs, done', holds⟩ := exists_run done
    -- the list that is popped is there
    obtain ⟨last, all⟩ := Option.isSome_iff_exists.mp next
    rw [List.foldlM_cons] at all
    obtain ⟨after, popped, -⟩ := Option.bind_eq_some_iff.mp all
    obtain ⟨l, at_, -⟩ := Option.bind_eq_some_iff.mp popped
    obtain ⟨v, here, -⟩ := holds.exists_vec at_
    exact Nat.lt_irrefl _ (refines.popped past target rest rfl vecs v done' here).2
  · intro unpopped
    refine ⟨fun past rest parts => ?_, fun past target rest parts => ?_⟩
    · obtain ⟨lists, done, -⟩ := exists_runLists_of_append (parts ▸ allowed)
      obtain ⟨vecs, done', holds⟩ := exists_run done
      exact ⟨vecs, done', holds.elements ▸ done⟩
    · exact absurd (parts ▸ List.mem_append_right _ List.mem_cons_self) (unpopped target)

end

/-- One element pushed, with the memory behind it as it was. -/
def pushThenPop : List (Op Nat 2) := [.construct #v[0, 0], .pushBack 0 7, .popBack 0]

/-- What is popped is not what was pushed. -/
theorem not_refines : (runLists 0 pushThenPop).isSome ∧ ¬ Refines 0 pushThenPop := by
  refine ⟨rfl, fun refines => ?_⟩
  have returned := (refines.popped [.construct #v[0, 0], .pushBack 0 7] 0 [] rfl
    [⟨#v[7, 0], 1⟩] ⟨#v[7, 0], 1⟩ rfl rfl).1
  cases returned

/-- The element can be read, overwritten and copied. -/
theorem refines_iff_of_copies :
    Refines 0 [.construct #v[0, 0], .pushBack 0 7, .write 0 0 8, .copyConstruct #v[5, 5] 0,
      .pushBack 1 9, .assign 1 (0 : Nat)] := by
  refine (refines_iff ?_).mpr ?_
  · rfl
  · simp

end StaticVec

end CausalBroadcast
