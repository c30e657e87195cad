import Mathlib.Logic.Function.Basic
import CausalBroadcast.Async.History

/-!
# Asynchronous message passing

Processes with local steps over a network that may lose, duplicate, delay and reorder what is put
on it, but never forges. The network is the list of every packet ever sent: a packet may arrive any
number of times, at any later moment, or never.

Two induction rules are packaged here: `Reachable.locally` for a property of one process and its
own events, and `Carried.holds` for properties of processes and packets that speak of the events
of others. A property of whole worlds goes by `induction` on `Reachable` itself, and what was known
when an event happened is read off the world of its `Reachable.moment`.
-/

namespace Async

/-- What a local step leaves: the new state, the events it is observed by, the packets it sends. -/
structure Reaction (ι S E M : Type) where
  state : S
  events : List E := []
  sent : List (ι × M) := []

/-- A kind of process: its first state, its steps (under a choice `a` of the environment, `none`
where the step is not enabled), and what an arriving packet does. -/
structure Machine (ι S A E M : Type) where
  init : ι → S
  step : ι → A → S → Option (Reaction ι S E M)
  arrive : M → S → S

/-- A system at one moment: every process, every packet ever sent, every event so far. -/
structure World (ι S E M : Type) where
  nodes : ι → S
  sent : List (ι × M)
  history : List (ι × E)

/-- What happens next: a process takes a step, or a packet arrives. -/
inductive Choice (ι A M : Type) where
  | act (i : ι) (a : A)
  | arrive (i : ι) (msg : M)

variable {ι S A E M : Type} [DecidableEq ι]

/-- Process `i` reacts. -/
def World.react (w : World ι S E M) (i : ι) (r : Reaction ι S E M) : World ι S E M where
  nodes := Function.update w.nodes i r.state
  sent := w.sent ++ r.sent
  history := w.history ++ r.events.map (Prod.mk i)

/-- The state of process `i` alone changes. -/
def World.replace (w : World ι S E M) (i : ι) (s : S) : World ι S E M :=
  { w with nodes := Function.update w.nodes i s }

@[simp] theorem World.react_self (w : World ι S E M) (i : ι) (r : Reaction ι S E M) :
    (w.react i r).nodes i = r.state := Function.update_self ..

@[simp] theorem World.react_other (w : World ι S E M) {i j : ι} (other : j ≠ i)
    (r : Reaction ι S E M) : (w.react i r).nodes j = w.nodes j := Function.update_of_ne other ..

@[simp] theorem World.react_sent (w : World ι S E M) (i : ι) (r : Reaction ι S E M) :
    (w.react i r).sent = w.sent ++ r.sent := rfl

@[simp] theorem World.react_history (w : World ι S E M) (i : ι) (r : Reaction ι S E M) :
    (w.react i r).history = w.history ++ r.events.map (Prod.mk i) := rfl

@[simp] theorem World.replace_self (w : World ι S E M) (i : ι) (s : S) :
    (w.replace i s).nodes i = s := Function.update_self ..

@[simp] theorem World.replace_other (w : World ι S E M) {i j : ι} (other : j ≠ i) (s : S) :
    (w.replace i s).nodes j = w.nodes j := Function.update_of_ne other ..

@[simp] theorem World.replace_sent (w : World ι S E M) (i : ι) (s : S) :
    (w.replace i s).sent = w.sent := rfl

@[simp] theorem World.replace_history (w : World ι S E M) (i : ι) (s : S) :
    (w.replace i s).history = w.history := rfl

namespace Machine

/-- Every process in its first state, an empty network, nothing observed. -/
def start (m : Machine ι S A E M) : World ι S E M :=
  { nodes := m.init, sent := [], history := [] }

/-- One step of the system, `none` where the choice is not enabled. -/
def next [DecidableEq M] (m : Machine ι S A E M) (w : World ι S E M) :
    Choice ι A M → Option (World ι S E M)
  | .act i a => (m.step i a (w.nodes i)).map (w.react i)
  | .arrive i msg =>
    if (i, msg) ∈ w.sent then some (w.replace i (m.arrive msg (w.nodes i))) else none

/-- A whole schedule, `none` as soon as one of its choices is not enabled. -/
def execute [DecidableEq M] (m : Machine ι S A E M) (w : World ι S E M)
    (schedule : List (Choice ι A M)) : Option (World ι S E M) :=
  schedule.foldlM m.next w

/-- The worlds of the runs of a system. -/
inductive Reachable (m : Machine ι S A E M) : World ι S E M → Prop
  | start : m.Reachable m.start
  | act {w : World ι S E M} {i : ι} {a : A} {r : Reaction ι S E M} :
      m.Reachable w → m.step i a (w.nodes i) = some r → m.Reachable (w.react i r)
  | arrive {w : World ι S E M} {i : ι} {msg : M} :
      m.Reachable w → (i, msg) ∈ w.sent → m.Reachable (w.replace i (m.arrive msg (w.nodes i)))

/-- The worlds of the runs all of whose steps `allow` admits, judged by the world before the
step. -/
inductive ReachableBy (m : Machine ι S A E M) (allow : World ι S E M → ι → A → Prop) :
    World ι S E M → Prop
  | start : m.ReachableBy allow m.start
  | act {w : World ι S E M} {i : ι} {a : A} {r : Reaction ι S E M} :
      m.ReachableBy allow w → allow w i a → m.step i a (w.nodes i) = some r →
      m.ReachableBy allow (w.react i r)
  | arrive {w : World ι S E M} {i : ι} {msg : M} :
      m.ReachableBy allow w → (i, msg) ∈ w.sent →
      m.ReachableBy allow (w.replace i (m.arrive msg (w.nodes i)))

variable {m : Machine ι S A E M}

theorem ReachableBy.reachable {allow : World ι S E M → ι → A → Prop} {w : World ι S E M}
    (run : m.ReachableBy allow w) : m.Reachable w := by
  induction run with
  | start => exact .start
  | act run allowed step ih => exact ih.act step
  | arrive run sent ih => exact ih.arrive sent

theorem Reachable.next [DecidableEq M] {w w' : World ι S E M} {c : Choice ι A M}
    (reach : m.Reachable w) (stepped : m.next w c = some w') : m.Reachable w' := by
  cases c with
  | act i a =>
    obtain ⟨r, step, rfl⟩ := Option.map_eq_some_iff.mp stepped
    exact reach.act step
  | arrive i msg =>
    simp only [Machine.next, Option.ite_none_right_eq_some, Option.some.injEq] at stepped
    obtain ⟨sent, rfl⟩ := stepped
    exact reach.arrive sent

/-- What a schedule leads to is reachable. -/
theorem Reachable.execute [DecidableEq M] {w w' : World ι S E M} (reach : m.Reachable w)
    {schedule : List (Choice ι A M)} (ran : m.execute w schedule = some w') :
    m.Reachable w' := by
  induction schedule generalizing w with
  | nil => cases ran; exact reach
  | cons c rest ih =>
    simp only [Machine.execute, List.foldlM_cons, Option.bind_eq_bind,
      Option.bind_eq_some_iff] at ran
    obtain ⟨mid, stepped, ran⟩ := ran
    exact ih (reach.next stepped) ran

/-- A schedule of steps that are always admitted. -/
theorem ReachableBy.execute [DecidableEq M] {allow : World ι S E M → ι → A → Prop}
    {w w' : World ι S E M} (run : m.ReachableBy allow w) {schedule : List (Choice ι A M)}
    (free : ∀ i a, .act i a ∈ schedule → ∀ w, allow w i a)
    (ran : m.execute w schedule = some w') : m.ReachableBy allow w' := by
  induction schedule generalizing w with
  | nil => cases ran; exact run
  | cons c rest ih =>
    simp only [Machine.execute, List.foldlM_cons, Option.bind_eq_bind,
      Option.bind_eq_some_iff] at ran
    obtain ⟨mid, stepped, ran⟩ := ran
    refine ih ?_ (fun i a mem => free i a (List.mem_cons_of_mem _ mem)) ran
    cases c with
    | act i a =>
      obtain ⟨r, step, rfl⟩ := Option.map_eq_some_iff.mp stepped
      exact run.act (free i a List.mem_cons_self w) step
    | arrive i msg =>
      simp only [Machine.next, Option.ite_none_right_eq_some, Option.some.injEq] at stepped
      obtain ⟨sent, rfl⟩ := stepped
      exact run.arrive sent

/-- A schedule that ends in a world of some kind shows that such a world is reachable. -/
theorem exists_reachable [DecidableEq M] {schedule : List (Choice ι A M)} {ok : World ι S E M → Bool}
    (ran : (m.execute m.start schedule).any ok) : ∃ w, m.Reachable w ∧ ok w := by
  cases final : m.execute m.start schedule with
  | none => simp [final] at ran
  | some w => exact ⟨w, Reachable.start.execute final, by simpa [final] using ran⟩

/-- The moment an event happened: a world of the run, with nothing observed but what was observed
before the event, and the step that was observed by it. -/
theorem Reachable.moment {w : World ι S E M} (reach : m.Reachable w) {i : ι} {e : E}
    {before after : List (ι × E)} (split : w.history = before ++ (i, e) :: after) :
    ∃ (past : World ι S E M) (a : A) (r : Reaction ι S E M), m.Reachable past ∧
      past.history <+: before ∧ m.step i a (past.nodes i) = some r ∧ e ∈ r.events := by
  induction reach generalizing after with
  | start => simp [Machine.start] at split
  | arrive reach sent ih => exact ih split
  | @act w j a r reach step ih =>
    rw [World.react_history, List.append_eq_append_iff] at split
    -- either the event is one of the step's own, or it had happened already
    rcases split with ⟨first, rfl, own⟩ | ⟨last, old, rest⟩
    · have mem : (i, e) ∈ r.events.map (Prod.mk j) := own ▸ by simp
      obtain ⟨e', mem, same⟩ := List.mem_map.mp mem
      cases same
      exact ⟨w, a, r, reach, List.prefix_append .., step, mem⟩
    · cases last with
      | nil =>
        have mem : (i, e) ∈ r.events.map (Prod.mk j) := by
          rw [List.nil_append] at rest
          exact rest ▸ List.mem_cons_self
        obtain ⟨e', mem, same⟩ := List.mem_map.mp mem
        cases same
        exact ⟨w, a, r, reach, by simp [old], step, mem⟩
      | cons x last =>
        obtain ⟨rfl, -⟩ := List.cons.inj rest
        exact ih old

/-! ## Induction rules -/

/-- A property of one process and its own events, preserved by that process's steps and by
arrivals, holds of every process of every reachable world. -/
theorem Reachable.locally {P : ι → S → List E → Prop}
    (init : ∀ i, P i (m.init i) [])
    (act : ∀ {w : World ι S E M} {i : ι} {a : A} {r : Reaction ι S E M}, m.Reachable w →
      P i (w.nodes i) (eventsOf i w.history) → m.step i a (w.nodes i) = some r →
      P i r.state (eventsOf i w.history ++ r.events))
    (arrive : ∀ {w : World ι S E M} {i : ι} {msg : M}, m.Reachable w → (i, msg) ∈ w.sent →
      P i (w.nodes i) (eventsOf i w.history) →
      P i (m.arrive msg (w.nodes i)) (eventsOf i w.history))
    {w : World ι S E M} (reach : m.Reachable w) (i : ι) :
    P i (w.nodes i) (eventsOf i w.history) := by
  induction reach generalizing i with
  | start => exact init i
  | @act w j a r reach step ih =>
    by_cases same : i = j
    · subst same
      simpa using act reach (ih i) step
    · simpa [same, eventsOf_append_other (Ne.symm same)] using ih i
  | @arrive w j msg reach sent ih =>
    by_cases same : i = j
    · subst same
      simpa using arrive reach sent (ih i)
    · simpa [same] using ih i

/-- A property `L` of a process and a property `K` of a packet for `i`, both relative to the whole
history. Steps keep `L` and send packets with `K`; a packet with `K` arrives safely; and neither
is lost when other processes go on. -/
structure Carried (m : Machine ι S A E M) (L : List (ι × E) → ι → S → Prop)
    (K : List (ι × E) → ι → M → Prop) : Prop where
  init : ∀ i, L [] i (m.init i)
  act : ∀ {w : World ι S E M} {i : ι} {a : A} {r : Reaction ι S E M}, m.Reachable w →
    (∀ j, L w.history j (w.nodes j)) → m.step i a (w.nodes i) = some r →
    L (w.react i r).history i r.state ∧ ∀ d ∈ r.sent, K (w.react i r).history d.1 d.2
  arrive : ∀ {h : List (ι × E)} {i : ι} {msg : M} {s : S}, L h i s → K h i msg →
    L h i (m.arrive msg s)
  later : ∀ {h : List (ι × E)} {i j : ι} {s : S} (es : List E), j ≠ i → L h i s →
    L (h ++ es.map (Prod.mk j)) i s
  laterPacket : ∀ {h : List (ι × E)} {i : ι} {msg : M} (es : List (ι × E)), K h i msg →
    K (h ++ es) i msg

theorem Carried.holds {L : List (ι × E) → ι → S → Prop} {K : List (ι × E) → ι → M → Prop}
    (carried : Carried m L K) {w : World ι S E M} (reach : m.Reachable w) :
    (∀ i, L w.history i (w.nodes i)) ∧ ∀ d ∈ w.sent, K w.history d.1 d.2 := by
  induction reach with
  | start => exact ⟨carried.init, fun d mem => nomatch mem⟩
  | @act w j a r reach step ih =>
    obtain ⟨own, packets⟩ := carried.act reach ih.1 step
    constructor
    · intro i
      by_cases same : i = j
      · subst same
        simpa only [World.react_self] using own
      · simpa only [World.react_other w same, World.react_history]
        using carried.later r.events (Ne.symm same) (ih.1 i)
    · intro d mem
      rcases List.mem_append.mp mem with old | new
      · exact carried.laterPacket _ (ih.2 d old)
      · exact packets d new
  | @arrive w j msg reach sent ih =>
    refine ⟨fun i => ?_, ih.2⟩
    by_cases same : i = j
    · subst same
      simpa only [World.replace_self, World.replace_history]
        using carried.arrive (ih.1 i) (ih.2 _ sent)
    · simpa only [World.replace_other w same, World.replace_history] using ih.1 i

end Machine

end Async
