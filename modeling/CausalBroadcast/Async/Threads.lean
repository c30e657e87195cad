import Mathlib.Logic.Function.Basic
import CausalBroadcast.Async.Transitions

/-!
# Threads over shared memory

Threads with states of their own, whose steps read and write one shared state and follow each other
in any order. What a thread does between two accesses of the shared state is part of the step of
the first.

A property of the shared state and of what each thread is about to do goes by `Reachable.holds`: a
step keeps it for its own thread, and does not take it from any other.
-/

namespace Async

/-- Threads: the first states, and the steps, under a choice `a` of the environment. A thread
without a step under any choice waits, or is at its end. -/
structure Threads (τ S L A : Type) where
  shared : S
  locals : τ → L
  step : τ → A → S → L → Option (S × L)

/-- The shared state and every thread, at one moment. -/
structure Moment (τ S L : Type) where
  shared : S
  locals : τ → L

variable {τ S L A : Type} [DecidableEq τ]

/-- Thread `t` has taken a step. -/
def Moment.take (w : Moment τ S L) (t : τ) (after : S × L) : Moment τ S L where
  shared := after.1
  locals := Function.update w.locals t after.2

@[simp] theorem Moment.take_shared (w : Moment τ S L) (t : τ) (after : S × L) :
    (w.take t after).shared = after.1 := rfl

@[simp] theorem Moment.take_self (w : Moment τ S L) (t : τ) (after : S × L) :
    (w.take t after).locals t = after.2 := Function.update_self ..

@[simp] theorem Moment.take_other (w : Moment τ S L) {t t' : τ} (other : t' ≠ t)
    (after : S × L) : (w.take t after).locals t' = w.locals t' := Function.update_of_ne other ..

namespace Threads

variable (p : Threads τ S L A)

/-- All threads together. -/
def system : Transitions (Moment τ S L) (τ × A) where
  start := { shared := p.shared, locals := p.locals }
  next choice w := (p.step choice.1 choice.2 w.shared (w.locals choice.1)).map (w.take choice.1)

variable {p} {w : Moment τ S L}

theorem leads_of_step {t : τ} {a : A} {after : S × L}
    (step : p.step t a w.shared (w.locals t) = some after) : p.system.Leads w (w.take t after) :=
  Transitions.leads_of_next (a := (t, a)) (Option.map_eq_some_iff.mpr ⟨after, step, rfl⟩)

/-- A property of moments that every step keeps. -/
theorem invariant {P : Moment τ S L → Prop} (start : P p.system.start)
    (kept : ∀ w t a after, p.system.Reachable w → P w →
      p.step t a w.shared (w.locals t) = some after → P (w.take t after))
    (reach : p.system.Reachable w) : P w := by
  refine reach.invariant start fun w choice w' before holds next => ?_
  obtain ⟨after, step, rfl⟩ := Option.map_eq_some_iff.mp next
  exact kept w choice.1 choice.2 after before holds step

/-- A property `I` of the shared state and a property `P` of each thread and the shared state: a
step keeps `I`, keeps `P` of its own thread, and does not interfere with `P` of any other. -/
theorem holds {I : S → Prop} {P : τ → L → S → Prop} (init : I p.shared)
    (inits : ∀ t, P t (p.locals t) p.shared)
    (kept : ∀ t a s l s' l', I s → P t l s → p.step t a s l = some (s', l') →
      I s' ∧ P t l' s' ∧ ∀ t' l'', t' ≠ t → P t' l'' s → P t' l'' s')
    (reach : p.system.Reachable w) : I w.shared ∧ ∀ t, P t (w.locals t) w.shared := by
  refine invariant (P := fun w => I w.shared ∧ ∀ t, P t (w.locals t) w.shared) ⟨init, inits⟩
    (fun w t a after _ holds step => ?_) reach
  obtain ⟨shared, own, others⟩ := kept t a _ _ after.1 after.2 holds.1 (holds.2 t) step
  refine ⟨shared, fun t' => ?_⟩
  by_cases same : t' = t
  · subst same
    rw [Moment.take_self]
    exact own
  · rw [Moment.take_other w same]
    exact others t' _ same (holds.2 t')

end Threads

end Async
