import Mathlib.Data.List.Induction
import Mathlib.Data.Set.Basic

/-!
# Histories

A history is a list of events, oldest first. Two readings of it serve every proof about runs:
what one process did (`eventsOf`), and what was already there when an event happened (`Justified`).
-/

namespace Async

variable {ι E : Type}

/-- What a reading `f` of a list finds, where `f` reads each `g c` as `k c` and nothing else. -/
theorem mem_reading {α β γ : Type} {f : α → Option β} {g : γ → α} {k : γ → β} {b : β}
    {l : List α} (reads : ∀ a, f a = some b ↔ ∃ c, g c = a ∧ k c = b) :
    b ∈ l.filterMap f ↔ ∃ c, g c ∈ l ∧ k c = b := by
  rw [List.mem_filterMap]
  constructor
  · intro found
    obtain ⟨a, mem, read⟩ := found
    obtain ⟨c, rfl, same⟩ := (reads a).mp read
    exact ⟨c, mem, same⟩
  · intro listed
    obtain ⟨c, mem, same⟩ := listed
    exact ⟨g c, mem, (reads _).mpr ⟨c, rfl, same⟩⟩

/-! ## One process's share -/

section
variable [DecidableEq ι]

/-- The events of one process, in order. -/
def eventsOf (i : ι) (h : List (ι × E)) : List E :=
  h.filterMap fun e => if e.1 = i then some e.2 else none

@[simp] theorem eventsOf_nil (i : ι) : eventsOf i ([] : List (ι × E)) = [] := rfl

@[simp] theorem mem_eventsOf {i : ι} {e : E} {h : List (ι × E)} :
    e ∈ eventsOf i h ↔ (i, e) ∈ h := by
  unfold eventsOf
  rw [mem_reading (g := Prod.mk i) (k := id)]
  · simp
  · intro a
    obtain ⟨j, e'⟩ := a
    by_cases same : j = i
    · subst same
      simp [eq_comm]
    · simp [same, Ne.symm same]

theorem eventsOf_append (i : ι) (h h' : List (ι × E)) :
    eventsOf i (h ++ h') = eventsOf i h ++ eventsOf i h' :=
  List.filterMap_append

/-- What a process adds to the history is what is added to its own share. -/
@[simp] theorem eventsOf_append_own (i : ι) (h : List (ι × E)) (es : List E) :
    eventsOf i (h ++ es.map (Prod.mk i)) = eventsOf i h ++ es := by
  rw [eventsOf_append]
  congr 1
  rw [eventsOf, List.filterMap_map]
  have own : (fun e : ι × E => if e.1 = i then some e.2 else none) ∘ Prod.mk i = some :=
    funext fun e => if_pos rfl
  rw [own, List.filterMap_some]

/-- Another process's events leave a share alone. -/
theorem eventsOf_append_other {i j : ι} (other : j ≠ i) (h : List (ι × E)) (es : List E) :
    eventsOf i (h ++ es.map (Prod.mk j)) = eventsOf i h := by
  rw [eventsOf_append]
  induction es with
  | nil => simp
  | cons e es ih =>
    simp only [List.append_right_eq_self] at ih ⊢
    simp [eventsOf, other]

end

/-- A process's event in the extended history is old or one of those it added. -/
@[simp] theorem mem_append_own {i : ι} {e : E} {h : List (ι × E)} {es : List E} :
    (i, e) ∈ h ++ es.map (Prod.mk i) ↔ (i, e) ∈ h ∨ e ∈ es := by
  simp [List.mem_append]

/-- The events another process adds are not this process's. -/
theorem mem_append_other {i j : ι} (other : j ≠ i) {e : E} {h : List (ι × E)} {es : List E} :
    (i, e) ∈ h ++ es.map (Prod.mk j) ↔ (i, e) ∈ h := by
  simp [List.mem_append, other]

/-- An event is the last one of a history, or one of those before. -/
theorem concat_prefix_concat {h h' : List E} {e e' : E} :
    h ++ [e] <+: h' ++ [e'] ↔ h = h' ∧ e = e' ∨ h ++ [e] <+: h' := by
  rw [List.prefix_concat_iff, List.append_singleton_inj]

/-! ## Justified events -/

/-- Each event has `P` of what came before it. -/
def Justified (P : List E → E → Prop) (h : List E) : Prop :=
  ∀ before e after, h = before ++ e :: after → P before e

theorem justified_nil (P : List E → E → Prop) : Justified P [] := by
  intro before e after split
  simp at split

/-- One more event needs one more justification, and nothing else. -/
theorem justified_concat {P : List E → E → Prop} {h : List E} {e : E} :
    Justified P (h ++ [e]) ↔ Justified P h ∧ P h e := by
  constructor
  · intro all
    refine ⟨fun before e' after split => ?_, all h e [] rfl⟩
    exact all before e' (after ++ [e]) (by simp [split])
  · rintro ⟨all, last⟩ before e' after split
    rcases List.eq_nil_or_concat after with rfl | ⟨rest, x, rfl⟩
    · obtain ⟨rfl, same⟩ := List.append_inj' split rfl
      cases same
      exact last
    · rw [List.concat_eq_append, ← List.cons_append, ← List.append_assoc] at split
      obtain ⟨eq, _⟩ := List.append_inj' split rfl
      exact all before e' rest eq

/-- What comes first is justified by itself. -/
theorem Justified.of_append {P : List E → E → Prop} {h h' : List E}
    (all : Justified P (h ++ h')) : Justified P h := by
  intro before e after split
  exact all before e (after ++ h') (by rw [split, List.append_assoc, List.cons_append])

/-- Events that need no justification can be added freely. -/
theorem Justified.append {P : List E → E → Prop} {h es : List E} (all : Justified P h)
    (free : ∀ before, ∀ e ∈ es, P before e) : Justified P (h ++ es) := by
  induction es generalizing h with
  | nil => simpa using all
  | cons e es ih =>
    rw [List.append_cons]
    refine ih (justified_concat.mpr ⟨all, free h e List.mem_cons_self⟩) ?_
    exact fun before e' mem => free before e' (List.mem_cons_of_mem _ mem)

/-- Where nothing that may happen ever may no longer happen, a set that takes up whatever may happen
after it has all of a justified history. -/
theorem Justified.mem_of_closed {enabled : Set E → E → Prop}
    (grows : ∀ {S T : Set E} {e : E}, S ⊆ T → enabled S e → enabled T e) {h : List E} {T : Set E}
    (all : Justified (fun before e => enabled {x | x ∈ before} e) h)
    (closed : ∀ e ∈ h, enabled T e → e ∈ T) : ∀ e ∈ h, e ∈ T := by
  induction h using List.reverseRecOn with
  | nil => exact List.forall_mem_nil _
  | append_singleton h e ih =>
    have ⟨before, last⟩ := justified_concat.mp all
    have earlier := ih before fun e' mem => closed e' (List.mem_append_left _ mem)
    intro e' mem
    rcases List.mem_append.mp mem with old | new
    · exact earlier e' old
    · obtain rfl := List.mem_singleton.mp new
      exact closed e' mem (grows earlier last)

end Async
