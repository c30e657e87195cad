import Mathlib.Logic.Relation

/-!
# Transitions

Runs of a system whose next state is a function of its state and of what the environment chooses.
-/

namespace Async

/-- A first state, and what each action leads to, `none` where it is not enabled. -/
structure Transitions (S A : Type) where
  start : S
  next : A → S → Option S

namespace Transitions

variable {S A : Type} (m : Transitions S A)

/-- Any number of steps. -/
def Leads : S → S → Prop := Relation.ReflTransGen fun s s' => ∃ a, m.next a s = some s'

/-- The states of the runs. -/
def Reachable (s : S) : Prop := m.Leads m.start s

/-- A whole schedule, `none` as soon as one of its actions is not enabled. -/
def execute (s : S) (schedule : List A) : Option S := schedule.foldlM (fun s a => m.next a s) s

variable {m} {s s' s'' : S}

theorem Leads.refl : m.Leads s s := Relation.ReflTransGen.refl

theorem Leads.trans (leads : m.Leads s s') (leads' : m.Leads s' s'') : m.Leads s s'' :=
  Relation.ReflTransGen.trans leads leads'

theorem leads_of_next {a : A} (next : m.next a s = some s') : m.Leads s s' :=
  Relation.ReflTransGen.single ⟨a, next⟩

theorem Reachable.leads (reach : m.Reachable s) (leads : m.Leads s s') : m.Reachable s' :=
  Relation.ReflTransGen.trans reach leads

theorem Leads.execute (schedule : List A) (ran : m.execute s schedule = some s') : m.Leads s s' := by
  induction schedule generalizing s with
  | nil =>
    obtain rfl := Option.some.inj ran
    exact .refl
  | cons a schedule ih =>
    obtain ⟨s₁, first, rest⟩ := Option.bind_eq_some_iff.mp ran
    exact (leads_of_next first).trans (ih rest)

/-- A schedule that ends in a state of some kind shows that such a state is reachable. -/
theorem exists_reachable {schedule : List A} {ok : S → Bool}
    (ran : (m.execute m.start schedule).any ok) : ∃ s, m.Reachable s ∧ ok s := by
  obtain ⟨s, ran, holds⟩ := (Option.any_eq_true _ _).mp ran
  exact ⟨s, Leads.execute schedule ran, holds⟩

/-! ## Rules -/

/-- A property that every step keeps. -/
theorem Reachable.invariant {P : S → Prop} (start : P m.start)
    (kept : ∀ s a s', m.Reachable s → P s → m.next a s = some s' → P s') (reach : m.Reachable s) :
    P s := by
  induction reach with
  | refl => exact start
  | tail before next ih =>
    obtain ⟨a, next⟩ := next
    exact kept _ a _ before ih next

/-- Where every state that is not of some kind leads to one of a lower measure, a state of that kind
can be reached. -/
theorem Reachable.exists_leads {Goal : S → Prop} (measure : S → Nat)
    (lower : ∀ s, m.Reachable s → ¬ Goal s → ∃ s', m.Leads s s' ∧ measure s' < measure s)
    (reach : m.Reachable s) : ∃ s', m.Leads s s' ∧ Goal s' := by
  induction size : measure s using Nat.strongRecOn generalizing s with
  | ind k ih =>
    by_cases goal : Goal s
    · exact ⟨s, .refl, goal⟩
    · obtain ⟨s₁, leads, less⟩ := lower s reach goal
      obtain ⟨s', rest, goal⟩ := ih _ (size ▸ less) (reach.leads leads) rfl
      exact ⟨s', leads.trans rest, goal⟩

/-- Actions that lower a measure are taken no more often than it allows. -/
theorem Reachable.length_le {P : A → Prop} (measure : S → Nat)
    (lower : ∀ s a s', m.Reachable s → P a → m.next a s = some s' → measure s' < measure s)
    (reach : m.Reachable s) {schedule : List A} (all : ∀ a ∈ schedule, P a)
    (ran : m.execute s schedule = some s') : schedule.length + measure s' ≤ measure s := by
  induction schedule generalizing s with
  | nil =>
    obtain rfl := Option.some.inj ran
    simp
  | cons a schedule ih =>
    obtain ⟨s₁, first, rest⟩ := Option.bind_eq_some_iff.mp ran
    obtain ⟨own, others⟩ := List.forall_mem_cons.mp all
    have less := lower s a s₁ reach own first
    have fewer := ih (reach.leads (leads_of_next first)) others rest
    rw [List.length_cons]
    omega

/-- The same among other actions, none of which raises the measure. -/
theorem Reachable.countP_le {p : A → Bool} (measure : S → Nat)
    (lower : ∀ s a s', m.Reachable s → p a → m.next a s = some s' → measure s' < measure s)
    (keep : ∀ s a s', m.Reachable s → m.next a s = some s' → measure s' ≤ measure s)
    (reach : m.Reachable s) {schedule : List A} (ran : m.execute s schedule = some s') :
    schedule.countP p + measure s' ≤ measure s := by
  induction schedule generalizing s with
  | nil =>
    obtain rfl := Option.some.inj ran
    simp
  | cons a schedule ih =>
    obtain ⟨s₁, first, rest⟩ := Option.bind_eq_some_iff.mp ran
    have fewer := ih (reach.leads (leads_of_next first)) rest
    by_cases own : p a
    · have less := lower s a s₁ reach own first
      rw [List.countP_cons_of_pos own]
      omega
    · have same := keep s a s₁ reach first
      rw [List.countP_cons_of_neg own]
      omega

/-- Where no more of them can be taken, none is enabled. -/
theorem next_eq_none_of_countP {p : A → Bool} {a : A}
    (spent : ∀ schedule s', m.execute s schedule = some s' → schedule.countP p ≤ 0) (own : p a) :
    m.next a s = none := by
  refine Option.eq_none_iff_forall_ne_some.mpr fun s' next => ?_
  have count := spent [a] s' (by simp [execute, next])
  rw [List.countP_singleton, if_pos own] at count
  exact absurd count (Nat.not_succ_le_zero 0)

end Transitions

end Async
