import Mathlib.Order.Filter.AtTopBot.Basic
import CausalBroadcast.Async.System

/-!
# Runs without end

What comes to pass in a run, where some of its steps are taken again and again. Every proof goes by
one rule, `exists_of_frequently`: an invariant that every step keeps until the goal is there, and a
measure that no step raises and a step taken again and again lowers.
-/

namespace Async

open Filter

/-! ## The rule -/

section
variable {P I G : Nat → Prop} {k : Nat}

theorem exists_of_frequently (often : ∃ᶠ k in atTop, P k) (measure : Nat → Nat) (here : I k)
    (steps : ∀ j ≥ k, I j → G (j + 1) ∨ I (j + 1) ∧ measure (j + 1) ≤ measure j ∧
      (P j → measure (j + 1) < measure j)) : ∃ j ≥ k, G j := by
  induction size : measure k using Nat.strongRecOn generalizing k with
  | ind size ih =>
    subst size
    obtain ⟨i, later, taken⟩ := frequently_atTop.mp often k
    -- up to the next step of the kind, the measure is not raised
    have before : ∀ d, (∃ j ≥ k, G j) ∨ I (k + d) ∧ measure (k + d) ≤ measure k := by
      intro d
      induction d with
      | zero => exact .inr ⟨here, le_rfl⟩
      | succ d earlier =>
        rcases earlier with there | ⟨holds, low⟩
        · exact .inl there
        · rcases steps (k + d) (Nat.le_add_right k d) holds with there | ⟨holds, lower, -⟩
          · exact .inl ⟨k + d + 1, Nat.le_add_right k (d + 1), there⟩
          · exact .inr ⟨holds, lower.trans low⟩
    obtain ⟨d, rfl⟩ := Nat.exists_eq_add_of_le later
    rcases before d with there | ⟨holds, low⟩
    · exact there
    · rcases steps (k + d) later holds with there | ⟨holds, -, lower⟩
      · exact ⟨k + d + 1, Nat.le_add_right k (d + 1), there⟩
      · obtain ⟨j, after, there⟩ := ih _ (Nat.lt_of_lt_of_le (lower taken) low) holds
          (fun j after => steps j (Nat.le_trans (Nat.le_add_right k (d + 1)) after)) rfl
        exact ⟨j, Nat.le_trans (Nat.le_add_right k (d + 1)) after, there⟩

/-- What is only ever raised, and is bounded, is left alone at some time. -/
theorem eventually_succ_eq {f : Nat → Nat} {bound : Nat} (mono : Monotone f)
    (bounded : ∀ k, f k ≤ bound) : ∀ᶠ k in atTop, f (k + 1) = f k := by
  by_contra changes
  obtain ⟨_, -, impossible⟩ := exists_of_frequently (P := fun k => ¬ f (k + 1) = f k)
    (I := fun _ => True) (G := fun _ => False) (k := 0) (not_eventually.mp changes)
    (fun k => bound - f k) trivial fun j _ _ => by
      have raised : f j ≤ f (j + 1) := mono (Nat.le_succ j)
      have low := bounded (j + 1)
      refine .inr ⟨trivial, by omega, fun changed => ?_⟩
      have changed : f (j + 1) ≠ f j := changed
      omega
  exact impossible

end

/-! ## Runs -/

variable {ι S A E M : Type} [DecidableEq ι] [DecidableEq M]

/-- A run without end. -/
structure Run (m : Machine ι S A E M) where
  world : Nat → World ι S E M
  choice : Nat → Choice ι A M
  start : world 0 = m.start
  next (k : Nat) : m.next (world k) (choice k) = some (world (k + 1))

namespace Run

variable {m : Machine ι S A E M} (run : Run m) {i j : Nat} {p : ι} {a : A} {msg : M}

/-- Process `p` before step `k`. -/
def node (k : Nat) (p : ι) : S := (run.world k).nodes p

theorem reachable (k : Nat) : m.Reachable (run.world k) := by
  induction k with
  | zero =>
    rw [run.start]
    exact .start
  | succ k ih => exact ih.next (run.next k)

variable {run}

theorem act {k : Nat} (choice : run.choice k = .act p a) :
    ∃ r, m.step p a (run.node k p) = some r ∧ run.world (k + 1) = (run.world k).react p r := by
  have next := run.next k
  rw [choice] at next
  obtain ⟨r, step, same⟩ := Option.map_eq_some_iff.mp next
  exact ⟨r, step, same.symm⟩

theorem arrive {k : Nat} (choice : run.choice k = .arrive p msg) : (p, msg) ∈ (run.world k).sent ∧
    run.world (k + 1) = (run.world k).replace p (m.arrive msg (run.node k p)) := by
  have next := run.next k
  rw [choice] at next
  simp only [Machine.next, Option.ite_none_right_eq_some, Option.some.injEq] at next
  exact ⟨next.1, next.2.symm⟩

/-- A step of the whole system, as one process sees it. -/
inductive Saw (run : Run m) (k : Nat) (p : ι) : S → Prop
  | act {a : A} {r : Reaction ι S E M} : run.choice k = .act p a →
      m.step p a (run.node k p) = some r → run.world (k + 1) = (run.world k).react p r →
      run.Saw k p r.state
  | arrive {msg : M} : run.choice k = .arrive p msg →
      run.Saw k p (m.arrive msg (run.node k p))
  | other : (∀ a, run.choice k ≠ .act p a) → run.Saw k p (run.node k p)

theorem saw (run : Run m) (k : Nat) (p : ι) : run.Saw k p (run.node (k + 1) p) := by
  cases choice : run.choice k with
  | act p' a =>
    obtain ⟨r, step, world⟩ := act choice
    by_cases same : p = p'
    · subst same
      rw [node, world, World.react_self]
      exact .act choice step world
    · rw [node, world, World.react_other _ same]
      refine .other fun a' chosen => same ?_
      rw [choice, Choice.act.injEq] at chosen
      exact chosen.1.symm
  | arrive p' msg =>
    obtain ⟨-, world⟩ := arrive choice
    by_cases same : p = p'
    · subst same
      rw [node, world, World.replace_self]
      exact .arrive choice
    · rw [node, world, World.replace_other _ same]
      exact .other fun a' chosen => by rw [choice] at chosen; cases chosen

theorem history_succ (run : Run m) (k : Nat) :
    (run.world k).history <+: (run.world (k + 1)).history := by
  cases choice : run.choice k with
  | act p a =>
    obtain ⟨r, -, world⟩ := act choice
    rw [world]
    exact List.prefix_append _ _
  | arrive p msg =>
    rw [(arrive choice).2]
    exact List.prefix_rfl

theorem history_prefix (run : Run m) (le : i ≤ j) :
    (run.world i).history <+: (run.world j).history := by
  induction j, le using Nat.le_induction with
  | base => exact List.prefix_rfl
  | succ j _ ih => exact ih.trans (run.history_succ j)

theorem mem_history {e : ι × E} (mem : e ∈ (run.world i).history) (le : i ≤ j) :
    e ∈ (run.world j).history := (run.history_prefix le).subset mem

theorem events_prefix (run : Run m) (p : ι) (le : i ≤ j) :
    eventsOf p (run.world i).history <+: eventsOf p (run.world j).history :=
  (run.history_prefix le).filterMap _

/-- Where its own steps add no events, a process has no more of them. -/
theorem eventsOf_of_silent (le : i ≤ j) (silent : ∀ k, i ≤ k → ∀ a r,
    run.choice k = .act p a → m.step p a (run.node k p) = some r → r.events = []) :
    eventsOf p (run.world j).history = eventsOf p (run.world i).history := by
  induction j, le using Nat.le_induction with
  | base => rfl
  | succ j after ih =>
    rw [← ih]
    cases choice : run.choice j with
    | act p' a =>
      obtain ⟨r, step, world⟩ := act choice
      rw [world, World.react_history]
      by_cases same : p' = p
      · subst same
        rw [silent j after a r choice step, eventsOf_append_own, List.append_nil]
      · exact eventsOf_append_other same _ _
    | arrive p' msg => rw [(arrive choice).2, World.replace_history]

/-- A packet is put on the network. -/
def Transmits (run : Run m) (d : ι × M) (k : Nat) : Prop :=
  ∃ p a r, run.choice k = .act p a ∧ m.step p a (run.node k p) = some r ∧ d ∈ r.sent

/-- The network loses no packet for ever that is sent to `p` again and again. -/
def FairLoss (run : Run m) (p : ι) : Prop :=
  ∀ msg, (∃ᶠ k in atTop, run.Transmits (p, msg) k) → ∃ᶠ k in atTop, run.choice k = .arrive p msg

/-- A schedule, and then steps that change nothing. -/
theorem exists_of_execute {schedule : List (Choice ι A M)} {last : World ι S E M}
    {idle : Nat → Choice ι A M} (ran : m.execute m.start schedule = some last)
    (still : ∀ k, m.next last (idle k) = some last) :
    ∃ run : Run m, ∀ k ≥ schedule.length, run.world k = last ∧ run.choice k = idle k := by
  have upTo : ∀ k, ∃ w, m.execute m.start (schedule.take k) = some w := by
    intro k
    rw [← List.take_append_drop k schedule, Machine.execute, List.foldlM_append] at ran
    obtain ⟨w, first, -⟩ := Option.bind_eq_some_iff.mp ran
    exact ⟨w, first⟩
  choose world reached using upTo
  have all : ∀ k ≥ schedule.length, world k = last := by
    intro k past
    have same := reached k
    rw [List.take_of_length_le past, ran] at same
    exact (Option.some.inj same).symm
  refine ⟨{
    world
    choice := fun k => (schedule[k]?).getD (idle k)
    start := ?_
    next := fun k => ?_ }, fun k past => ⟨all k past, ?_⟩⟩
  · have none_ := reached 0
    rw [List.take_zero] at none_
    exact (Option.some.inj none_).symm
  · by_cases more : k < schedule.length
    · have both := reached (k + 1)
      rw [List.take_add_one, Machine.execute, List.foldlM_append] at both
      obtain ⟨w, first, next⟩ := Option.bind_eq_some_iff.mp both
      obtain rfl := Option.some.inj (first.symm.trans (reached k))
      simpa [List.getElem?_eq_getElem more] using next
    · have past := Nat.not_lt.mp more
      rw [all k past, all (k + 1) (Nat.le_succ_of_le past), List.getElem?_eq_none past]
      exact still k
  · show (schedule[k]?).getD (idle k) = idle k
    rw [List.getElem?_eq_none past, Option.getD_none]

end Run

end Async
