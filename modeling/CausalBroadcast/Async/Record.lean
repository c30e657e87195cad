import CausalBroadcast.Async.System

/-!
# Systems that keep a record

A system whose processes keep beside their states what is read of each of their steps, under the choice
and the state that the step starts from. The record takes part in nothing, so the runs are the same.
-/

namespace Async

variable {ι S A E M B : Type} [DecidableEq ι]

/-- A world without the records. -/
def World.forget (w : World ι (S × List B) E M) : World ι S E M where
  nodes i := (w.nodes i).1
  sent := w.sent
  history := w.history

/-- A reaction after which `more` is in the record. -/
def Reaction.record (record more : List B) (r : Reaction ι S E M) :
    Reaction ι (S × List B) E M where
  state := (r.state, record ++ more)
  events := r.events
  sent := r.sent

/-- A record is kept of what `read` finds in a step. -/
def Machine.recording (m : Machine ι S A E M) (read : A → S → List B) :
    Machine ι (S × List B) A E M where
  init i := (m.init i, [])
  step i a s := (m.step i a s.1).map (Reaction.record s.2 (read a s.1))
  arrive msg s := (m.arrive msg s.1, s.2)

theorem World.forget_react (w : World ι (S × List B) E M) (i : ι) (record more : List B)
    (r : Reaction ι S E M) : (w.react i (r.record record more)).forget = w.forget.react i r := by
  refine congrArg (World.mk · _ _) (funext fun j => ?_)
  by_cases same : j = i
  · subst same
    simp [World.react, Reaction.record]
  · simp [World.react, World.forget, same]

theorem World.forget_replace (w : World ι (S × List B) E M) (i : ι) (s : S) (record : List B) :
    (w.replace i (s, record)).forget = w.forget.replace i s := by
  refine congrArg (World.mk · _ _) (funext fun j => ?_)
  by_cases same : j = i
  · subst same
    simp [World.replace]
  · simp [World.replace, World.forget, same]

namespace Machine

variable {m : Machine ι S A E M} {read : A → S → List B}

/-- The runs of both are the same. -/
theorem reachable_iff_recording {w : World ι S E M} :
    m.Reachable w ↔ ∃ w', (m.recording read).Reachable w' ∧ w'.forget = w := by
  constructor
  · intro reach
    induction reach with
    | start => exact ⟨_, .start, rfl⟩
    | @act w i a r reach step ih =>
      obtain ⟨w', reach', rfl⟩ := ih
      have recorded : (m.recording read).step i a (w'.nodes i) =
          some (r.record (w'.nodes i).2 (read a (w'.nodes i).1)) :=
        Option.map_eq_some_iff.mpr ⟨r, step, rfl⟩
      exact ⟨_, reach'.act recorded, World.forget_react ..⟩
    | @arrive w i msg reach sent ih =>
      obtain ⟨w', reach', rfl⟩ := ih
      exact ⟨_, reach'.arrive sent, World.forget_replace ..⟩
  · rintro ⟨w, reach, rfl⟩
    induction reach with
    | start => exact .start
    | @act w i a r reach step ih =>
      obtain ⟨r, fired, rfl⟩ := Option.map_eq_some_iff.mp step
      rw [World.forget_react]
      exact ih.act fired
    | @arrive w i msg reach sent ih =>
      exact World.forget_replace w i _ _ ▸ ih.arrive sent

end Machine

end Async
