import Mathlib.Algebra.BigOperators.Group.Finset.Piecewise
import Mathlib.Algebra.Order.BigOperators.Group.Finset
import CausalBroadcast.Async.Threads
import CausalBroadcast.Broadcast.BroadcastLoop

/-!
# The queue between threads

`ConcurrentQueue` with its mutex and its condition variable, used by any number of threads. Each call
takes effect in one of its steps, and the effects are those of a plain queue used one call after the
other: what a call has seen of the queue stays so, as long as it has the mutex. No wake-up is lost: a
thread is woken for each item that is not otherwise taken.
-/

namespace CausalBroadcast.ConcurrentQueue

open Async

variable {T τ : Type}

/-! ## The plain queue -/

theorem tryPop_eq_some {inner rest : List T} {val : T} (found : tryPop inner = some (val, rest)) :
    inner = val :: rest := by
  cases inner with
  | nil => cases found
  | cons => cases found; rfl

/-- What a call does to the queue: an item goes in, or is asked for. -/
inductive Effect (T : Type) where
  | push (val : T)
  | take (item : Option T)

/-- The effect of a call on a queue of its own. -/
inductive Effect.Valid : Effect T → List T → List T → Prop
  | push {val : T} {inner : List T} : Effect.Valid (.push val) inner (inner ++ [val])
  | item {val : T} {inner rest : List T} : tryPop inner = some (val, rest) →
      Effect.Valid (.take (some val)) inner rest
  | nothing {inner : List T} : tryPop inner = none → Effect.Valid (.take none) inner inner

/-- Effects that follow each other, from the empty queue. -/
inductive Replays : List (τ × Effect T) → List T → Prop
  | nil : Replays [] []
  | concat {effects : List (τ × Effect T)} {inner inner' : List T} {t : τ} {effect : Effect T} :
      Replays effects inner → effect.Valid inner inner' → Replays (effects ++ [(t, effect)]) inner'

/-- Those of thread `t`, in order. -/
def ofThread [DecidableEq τ] (t : τ) (effects : List (τ × Effect T)) : List (Effect T) :=
  effects.filterMap fun entry => if entry.1 = t then some entry.2 else none

/-- The item that a call stores. -/
def Effect.stored : Effect T → Option T
  | .push val => some val
  | .take _ => none

/-- The item that a call is given. -/
def Effect.given : Effect T → Option T
  | .push _ => none
  | .take item => item

/-- What goes in comes out in the same order, to whichever thread. -/
theorem Replays.fifo {effects : List (τ × Effect T)} {inner : List T}
    (replays : Replays effects inner) : effects.filterMap (fun entry => entry.2.stored) =
      effects.filterMap (fun entry => entry.2.given) ++ inner := by
  induction replays with
  | nil => rfl
  | concat before valid ih =>
    rw [List.filterMap_append, List.filterMap_append, ih]
    cases valid with
    | push => simp [Effect.stored, Effect.given]
    | item found => simp [Effect.stored, Effect.given, tryPop_eq_some found]
    | nothing => simp [Effect.stored, Effect.given]

/-! ## The threads -/

/-- The calls that take an item. -/
inductive Kind where
  | pop
  | tryPop
  | tryPopUntil
  deriving DecidableEq

/-- Where a thread is. -/
inductive Place (T : Type) where
  /-- In no call of the queue. -/
  | outside
  /-- Before `std::lock_guard`. -/
  | pushing (val : T)
  /-- Before `inner.push_back`. -/
  | storing (val : T)
  /-- Before the `std::lock_guard` releases the mutex. -/
  | stored
  /-- Before `cv.notify_one`. -/
  | notifying
  /-- Before `std::unique_lock`. -/
  | popping (kind : Kind)
  /-- Before `inner.empty`; the time is up, or not. -/
  | testing (kind : Kind) (expired : Bool)
  /-- Before `cv.wait` releases the mutex. -/
  | blocking (kind : Kind)
  /-- In `cv.wait`, without the mutex. -/
  | waiting (kind : Kind)
  /-- In `cv.wait`, before it has the mutex again. -/
  | waking (kind : Kind) (expired : Bool)
  /-- Before `inner.front`. -/
  | reading
  /-- Before `inner.pop_front`, with the item. -/
  | removing (item : T)
  /-- Before the `std::unique_lock` releases the mutex. -/
  | leaving

/-- A thread, and what its calls have done: the items they have stored, and what they return. -/
structure User (T : Type) where
  place : Place T := .outside
  calls : List (Effect T) := []

/-- The queue: its items, the thread that holds the mutex, the threads the condition variable has put
to sleep, and the effects of the calls. -/
structure Shared (T τ : Type) where
  inner : List T := []
  mutex : Option τ := none
  sleeping : List τ := []
  effects : List (τ × Effect T) := []

/-- What the environment chooses. -/
inductive Choice (T τ : Type) where
  /-- The thread goes on where it can. -/
  | go
  | push (val : T)
  | take (kind : Kind)
  /-- `notify_one` wakes a thread that sleeps. -/
  | notify (woken : τ)
  /-- A thread wakes for no reason. -/
  | spurious
  | expire

variable [DecidableEq τ]

/-- One step of a thread: it takes or releases the mutex, reads or changes the queue, or uses the
condition variable. -/
def step (t : τ) (choice : Choice T τ) (s : Shared T τ) (l : User T) :
    Option (Shared T τ × User T) :=
  match l.place, choice with
  | .outside, .push val => some (s, { l with place := .pushing val })
  | .outside, .take kind => some (s, { l with place := .popping kind })
  | .pushing val, .go =>
    if s.mutex = none then some ({ s with mutex := some t }, { l with place := .storing val })
    else none
  | .storing val, .go =>
    some ({ s with inner := s.inner ++ [val], effects := s.effects ++ [(t, .push val)] },
      { place := .stored, calls := l.calls ++ [.push val] })
  | .stored, .go => some ({ s with mutex := none }, { l with place := .notifying })
  | .notifying, .go => if s.sleeping = [] then some (s, { l with place := .outside }) else none
  | .notifying, .notify woken =>
    if woken ∈ s.sleeping then
      some ({ s with sleeping := s.sleeping.erase woken }, { l with place := .outside })
    else none
  | .popping kind, .go =>
    if s.mutex = none then
      some ({ s with mutex := some t }, { l with place := .testing kind false })
    else none
  | .testing kind expired, .go =>
    if s.inner.isEmpty then
      if kind = .tryPop ∨ expired then
        some ({ s with effects := s.effects ++ [(t, .take none)] },
          { place := .leaving, calls := l.calls ++ [.take none] })
      else some (s, { l with place := .blocking kind })
    else some (s, { l with place := .reading })
  | .blocking kind, .go =>
    some ({ s with mutex := none, sleeping := s.sleeping ++ [t] }, { l with place := .waiting kind })
  | .waiting kind, .go =>
    if t ∈ s.sleeping then none else some (s, { l with place := .waking kind false })
  | .waiting kind, .spurious =>
    if t ∈ s.sleeping then
      some ({ s with sleeping := s.sleeping.erase t }, { l with place := .waking kind false })
    else none
  | .waiting kind, .expire =>
    if t ∈ s.sleeping ∧ kind = .tryPopUntil then
      some ({ s with sleeping := s.sleeping.erase t }, { l with place := .waking kind true })
    else none
  | .waking kind expired, .go =>
    if s.mutex = none then
      some ({ s with mutex := some t }, { l with place := .testing kind expired })
    else none
  | .reading, .go =>
    match s.inner with
    | [] => none
    | val :: _ => some (s, { l with place := .removing val })
  | .removing item, .go =>
    match s.inner with
    | [] => none
    -- what is removed is what the queue has then, and what is returned is what the thread has read
    | val :: rest =>
      some ({ s with inner := rest, effects := s.effects ++ [(t, .take (some val))] },
        { place := .leaving, calls := l.calls ++ [.take (some item)] })
  | .leaving, .go => some ({ s with mutex := none }, { l with place := .outside })
  | _, _ => none

/-- Threads that share an empty queue. -/
def threads : Threads τ (Shared T τ) (User T) (Choice T τ) where
  shared := {}
  locals _ := {}
  step := step

/-- The thread goes on by itself: no call starts, no time is up, and it does not wake for no
reason. -/
def Choice.own : Choice T τ → Bool
  | .go | .notify _ => true
  | .push _ | .take _ | .spurious | .expire => false

/-- What a step of thread `t` does. -/
inductive Took (t : τ) (choice : Choice T τ) (s : Shared T τ) (l : User T) :
    Shared T τ → User T → Prop
  | push {val : T} : choice.own = false → l.place = .outside →
      Took t choice s l s { l with place := .pushing val }
  | take {kind : Kind} : choice.own = false → l.place = .outside →
      Took t choice s l s { l with place := .popping kind }
  | lock {val : T} : l.place = .pushing val → s.mutex = none →
      Took t choice s l { s with mutex := some t } { l with place := .storing val }
  | store {val : T} : l.place = .storing val →
      Took t choice s l
        { s with inner := s.inner ++ [val], effects := s.effects ++ [(t, .push val)] }
        { place := .stored, calls := l.calls ++ [.push val] }
  | unlock : l.place = .stored →
      Took t choice s l { s with mutex := none } { l with place := .notifying }
  | nobody : l.place = .notifying → s.sleeping = [] → Took t choice s l s { l with place := .outside }
  | notify {woken : τ} : l.place = .notifying → woken ∈ s.sleeping →
      Took t choice s l { s with sleeping := s.sleeping.erase woken } { l with place := .outside }
  | enter {kind : Kind} {expired : Bool} : l.place = .popping kind ∨ l.place = .waking kind expired →
      s.mutex = none →
      Took t choice s l { s with mutex := some t } { l with place := .testing kind expired }
  | find {kind : Kind} {expired : Bool} : l.place = .testing kind expired → s.inner ≠ [] →
      Took t choice s l s { l with place := .reading }
  | giveUp {kind : Kind} {expired : Bool} : l.place = .testing kind expired → s.inner = [] →
      Took t choice s l { s with effects := s.effects ++ [(t, .take none)] }
        { place := .leaving, calls := l.calls ++ [.take none] }
  | block {kind : Kind} {expired : Bool} : l.place = .testing kind expired → s.inner = [] →
      Took t choice s l s { l with place := .blocking kind }
  | sleep {kind : Kind} : l.place = .blocking kind →
      Took t choice s l { s with mutex := none, sleeping := s.sleeping ++ [t] }
        { l with place := .waiting kind }
  | woken {kind : Kind} : l.place = .waiting kind → t ∉ s.sleeping →
      Took t choice s l s { l with place := .waking kind false }
  | wake {kind : Kind} {expired : Bool} : choice.own = false → l.place = .waiting kind →
      t ∈ s.sleeping →
      Took t choice s l { s with sleeping := s.sleeping.erase t }
        { l with place := .waking kind expired }
  | read {val : T} {rest : List T} : l.place = .reading → s.inner = val :: rest →
      Took t choice s l s { l with place := .removing val }
  | remove {item val : T} {rest : List T} : l.place = .removing item → s.inner = val :: rest →
      Took t choice s l
        { s with inner := rest, effects := s.effects ++ [(t, .take (some val))] }
        { place := .leaving, calls := l.calls ++ [.take (some item)] }
  | leave : l.place = .leaving →
      Took t choice s l { s with mutex := none } { l with place := .outside }

variable {t : τ} {choice : Choice T τ} {s s' : Shared T τ} {l l' : User T}

theorem took_of_step (stepped : step t choice s l = some (s', l')) : Took t choice s l s' l' := by
  unfold step at stepped
  split at stepped
  case h_1 place => cases stepped; exact .push rfl place
  case h_2 place => cases stepped; exact .take rfl place
  case h_3 place =>
    split at stepped <;> cases stepped
    case isTrue free => exact .lock place free
  case h_4 place => cases stepped; exact .store place
  case h_5 place => cases stepped; exact .unlock place
  case h_6 place =>
    split at stepped <;> cases stepped
    case isTrue none_ => exact .nobody place none_
  case h_7 place =>
    split at stepped <;> cases stepped
    case isTrue mem => exact .notify place mem
  case h_8 place =>
    split at stepped <;> cases stepped
    case isTrue free => exact .enter (.inl place) free
  case h_9 place =>
    split at stepped
    case isTrue empty =>
      split at stepped <;> cases stepped
      · exact .giveUp place (List.isEmpty_iff.mp empty)
      · exact .block place (List.isEmpty_iff.mp empty)
    case isFalse some_ =>
      cases stepped
      exact .find place (mt List.isEmpty_iff.mpr some_)
  case h_10 place => cases stepped; exact .sleep place
  case h_11 place =>
    split at stepped <;> cases stepped
    case isFalse away => exact .woken place away
  case h_12 place =>
    split at stepped <;> cases stepped
    case isTrue mem => exact .wake rfl place mem
  case h_13 place =>
    split at stepped <;> cases stepped
    case isTrue able => exact .wake rfl place able.1
  case h_14 place =>
    split at stepped <;> cases stepped
    case isTrue free => exact .enter (.inr place) free
  case h_15 place =>
    split at stepped <;> cases stepped
    case h_2 items => exact .read place items
  case h_16 place =>
    split at stepped <;> cases stepped
    case h_2 items => exact .remove place items
  case h_17 place => cases stepped; exact .leave place
  case h_18 => cases stepped

/-! ## Who holds what -/

/-- The thread has the mutex. -/
def Place.holds : Place T → Bool
  | .storing _ | .stored | .testing .. | .blocking _ | .reading | .removing _ | .leaving => true
  | .outside | .pushing _ | .notifying | .popping _ | .waiting _ | .waking .. => false

/-- The thread is in `cv.wait`, without the mutex. -/
def Place.waits : Place T → Bool
  | .waiting _ => true
  | .outside | .pushing _ | .storing _ | .stored | .notifying | .popping _ | .testing .. | .blocking _
  | .waking .. | .reading | .removing _ | .leaving => false

/-- What the thread has seen of the items is still so. -/
def Place.Sees (inner : List T) : Place T → Prop
  | .blocking _ => inner = []
  | .reading => inner ≠ []
  | .removing item => inner.head? = some item
  | .outside | .pushing _ | .storing _ | .stored | .notifying | .popping _ | .testing .. | .waiting _
  | .waking .. | .leaving => True

/-- What a thread knows of the queue. -/
structure Knows (t : τ) (l : User T) (s : Shared T τ) : Prop where
  mutex : s.mutex = some t ↔ l.place.holds
  sleeping : t ∈ s.sleeping → l.place.waits
  sees : l.place.Sees s.inner
  calls : ofThread t s.effects = l.calls

/-- The items are what the effects leave. -/
structure Sound (s : Shared T τ) : Prop where
  replays : Replays s.effects s.inner
  nodup : s.sleeping.Nodup

theorem ofThread_concat (effects : List (τ × Effect T)) (effect : Effect T) :
    ofThread t (effects ++ [(t, effect)]) = ofThread t effects ++ [effect] := by
  simp [ofThread]

theorem ofThread_other {t' : τ} (other : t' ≠ t) (effects : List (τ × Effect T))
    (effect : Effect T) : ofThread t' (effects ++ [(t, effect)]) = ofThread t' effects := by
  simp [ofThread, other.symm]

/-- Only under the mutex does a thread rely on what it has seen. -/
theorem Place.sees_of_free {place : Place T} (free : place.holds = false) (inner : List T) :
    place.Sees inner := by
  cases place with
  | blocking | reading | removing => cases free
  | outside | pushing | storing | stored | notifying | popping | testing | waiting | waking
  | leaving => trivial

theorem Took.leaves_sound (took : Took t choice s l s' l') (knows : Knows t l s) (sound : Sound s) :
    Sound s' := by
  cases took with
  | push | take | nobody | woken | find | block | read => exact sound
  | lock | enter | unlock | leave => exact ⟨sound.replays, sound.nodup⟩
  | store => exact ⟨sound.replays.concat .push, sound.nodup⟩
  | notify | wake => exact ⟨sound.replays, sound.nodup.erase _⟩
  | remove place items => exact ⟨sound.replays.concat (.item (by rw [items]; rfl)), sound.nodup⟩
  | giveUp place nothing =>
    exact ⟨sound.replays.concat (.nothing (by rw [nothing]; rfl)), sound.nodup⟩
  | sleep place =>
    refine ⟨sound.replays, List.nodup_append.mpr ⟨sound.nodup, List.nodup_singleton t,
      fun t' mem t'' last => ?_⟩⟩
    obtain rfl := List.mem_singleton.mp last
    rintro rfl
    have waits := knows.sleeping mem
    rw [place] at waits
    cases waits

theorem Knows.awake (knows : Knows t l s) (waits : l.place.waits = false) : t ∉ s.sleeping :=
  fun mem => absurd (knows.sleeping mem) (waits ▸ Bool.false_ne_true)

theorem Knows.free (knows : Knows t l s) (free : l.place.holds = false) : s.mutex ≠ some t :=
  fun held => absurd (knows.mutex.mp held) (free ▸ Bool.false_ne_true)

theorem Took.knows (took : Took t choice s l s' l') (knows : Knows t l s) (sound : Sound s) :
    Knows t l' s' := by
  have unlocked : none ≠ some t := (Option.some_ne_none t).symm
  cases took with
  | push _ place | take _ place | nobody place =>
    have awake := knows.awake (place ▸ rfl)
    have free := knows.free (place ▸ rfl)
    exact ⟨iff_of_false free Bool.false_ne_true, fun mem => absurd mem awake, trivial, knows.calls⟩
  | lock place =>
    have awake := knows.awake (place ▸ rfl)
    exact ⟨iff_of_true rfl rfl, fun mem => absurd mem awake, trivial, knows.calls⟩
  | enter place =>
    have awake := knows.awake (by rcases place with place | place <;> exact place ▸ rfl)
    exact ⟨iff_of_true rfl rfl, fun mem => absurd mem awake, trivial, knows.calls⟩
  | notify place =>
    have awake := knows.awake (place ▸ rfl)
    have free := knows.free (place ▸ rfl)
    exact ⟨iff_of_false free Bool.false_ne_true,
      fun mem => absurd (List.mem_of_mem_erase mem) awake, trivial, knows.calls⟩
  | find place seen | block place seen =>
    have awake := knows.awake (place ▸ rfl)
    have held := knows.mutex.mpr (place ▸ rfl)
    exact ⟨iff_of_true held rfl, fun mem => absurd mem awake, seen, knows.calls⟩
  | read place items =>
    have awake := knows.awake (place ▸ rfl)
    have held := knows.mutex.mpr (place ▸ rfl)
    exact ⟨iff_of_true held rfl, fun mem => absurd mem awake, congrArg List.head? items, knows.calls⟩
  | store place | giveUp place =>
    have awake := knows.awake (place ▸ rfl)
    have held := knows.mutex.mpr (place ▸ rfl)
    exact ⟨iff_of_true held rfl, fun mem => absurd mem awake, trivial,
      (ofThread_concat _ _).trans (congrArg (· ++ _) knows.calls)⟩
  | @remove item val rest place items =>
    have awake := knows.awake (place ▸ rfl)
    have held := knows.mutex.mpr (place ▸ rfl)
    -- nobody has changed the queue since the item was read
    have seen := knows.sees
    rw [place, items] at seen
    obtain rfl : val = item := Option.some.inj seen
    exact ⟨iff_of_true held rfl, fun mem => absurd mem awake, trivial,
      (ofThread_concat _ _).trans (congrArg (· ++ _) knows.calls)⟩
  | unlock place | leave place =>
    have awake := knows.awake (place ▸ rfl)
    exact ⟨iff_of_false unlocked Bool.false_ne_true, fun mem => absurd mem awake, trivial,
      knows.calls⟩
  | sleep place =>
    exact ⟨iff_of_false unlocked Bool.false_ne_true, fun _ => rfl, trivial, knows.calls⟩
  | woken place away =>
    have free := knows.free (place ▸ rfl)
    exact ⟨iff_of_false free Bool.false_ne_true, fun mem => absurd mem away, trivial, knows.calls⟩
  | wake _ place mem =>
    have free := knows.free (place ▸ rfl)
    exact ⟨iff_of_false free Bool.false_ne_true,
      fun mem => absurd mem sound.nodup.not_mem_erase, trivial, knows.calls⟩

/-- **Mutual exclusion.** -/
theorem Knows.holds_inj (knows : Knows t l s) {t' : τ} {l'' : User T} (knows' : Knows t' l'' s)
    (holds : l.place.holds) (holds' : l''.place.holds) : t = t' :=
  Option.some.inj ((knows.mutex.mpr holds).symm.trans (knows'.mutex.mpr holds'))

theorem Took.others (took : Took t choice s l s' l') (knows : Knows t l s) {t' : τ} {l'' : User T}
    (other : t' ≠ t) (knows' : Knows t' l'' s) : Knows t' l'' s' := by
  have locked : s.mutex = none → (some t = some t' ↔ l''.place.holds) := by
    intro free
    have away : ¬ l''.place.holds := by
      rw [← knows'.mutex, free]
      exact (Option.some_ne_none t').symm
    exact iff_of_false (fun same => other (Option.some.inj same).symm) away
  have outside : l.place.holds → l''.place.holds = false := fun holds =>
    Bool.eq_false_iff.mpr fun holds' => other (knows.holds_inj knows' holds holds').symm
  have unlocked : l.place.holds → (none = some t' ↔ l''.place.holds) := by
    intro holds
    exact iff_of_false (Option.some_ne_none t').symm (outside holds ▸ Bool.false_ne_true)
  cases took with
  | push | take | nobody | woken | find | block | read => exact knows'
  | lock _ free | enter _ free =>
    exact ⟨locked free, knows'.sleeping, knows'.sees, knows'.calls⟩
  | unlock place | leave place =>
    exact ⟨unlocked (place ▸ rfl), knows'.sleeping, knows'.sees, knows'.calls⟩
  | store place | remove place =>
    exact ⟨knows'.mutex, knows'.sleeping, Place.sees_of_free (outside (place ▸ rfl)) _,
      (ofThread_other other s.effects _).trans knows'.calls⟩
  | giveUp =>
    exact ⟨knows'.mutex, knows'.sleeping, knows'.sees,
      (ofThread_other other s.effects _).trans knows'.calls⟩
  | notify | wake =>
    exact ⟨knows'.mutex, fun mem => knows'.sleeping (List.mem_of_mem_erase mem), knows'.sees,
      knows'.calls⟩
  | sleep place =>
    refine ⟨unlocked (place ▸ rfl), fun mem => knows'.sleeping ?_, knows'.sees, knows'.calls⟩
    rcases List.mem_append.mp mem with old | new
    · exact old
    · exact absurd (List.mem_singleton.mp new) other

/-! ## Runs -/

section
variable {w : Moment τ (Shared T τ) (User T)}

theorem sound_knows (reach : (threads (T := T) (τ := τ)).system.Reachable w) :
    Sound w.shared ∧ ∀ t, Knows t (w.locals t) w.shared := by
  refine Threads.holds (p := threads) (I := Sound) (P := fun t l s => Knows t l s) ⟨.nil, .nil⟩
    (fun t => ⟨⟨fun held => (by cases held), fun holds => (by cases holds)⟩,
      fun mem => (by cases mem), trivial, rfl⟩) (fun t choice s l s' l' sound knows stepped => ?_) reach
  have took := took_of_step stepped
  exact ⟨took.leaves_sound knows sound, took.knows knows sound, fun t' l'' => took.others knows⟩

/-- **The queue is one queue.** Whatever the threads do at once, their calls take effect one after
the other on a plain queue. A call stores or returns what it does there, each thread's calls in their
order, items come out in the order in which they went in, and no two threads have the mutex. -/
theorem calls_in_order (reach : (threads (T := T) (τ := τ)).system.Reachable w) :
    Replays w.shared.effects w.shared.inner ∧
      (w.shared.effects.filterMap fun entry => entry.2.stored) =
        (w.shared.effects.filterMap fun entry => entry.2.given) ++ w.shared.inner ∧
      (∀ t, ofThread t w.shared.effects = (w.locals t).calls) ∧
      ∀ t t', (w.locals t).place.holds → (w.locals t').place.holds → t = t' := by
  obtain ⟨sound, knows⟩ := sound_knows reach
  exact ⟨sound.replays, sound.replays.fifo, fun t => (knows t).calls, fun t t' =>
    (knows t).holds_inj (knows t')⟩

/-- One thread pops, and sleeps; the other pushes, and wakes it. -/
def handOver : List (Bool × Choice Nat Bool) :=
  [(true, .take .pop), (true, .go), (true, .go), (true, .go), (false, .push 7), (false, .go),
    (false, .go), (false, .go), (false, .notify true)] ++ List.replicate 6 (true, .go)

theorem calls_in_order_of_pair : ∃ w, (threads (T := Nat) (τ := Bool)).system.Reachable w ∧
    w.shared.effects.length = 2 ∧ Replays w.shared.effects w.shared.inner := by
  have ran : (threads.system.execute threads.system.start handOver).any
      fun w => decide (w.shared.effects.length = 2) := by decide +kernel
  obtain ⟨w, reach, two⟩ := Transitions.exists_reachable ran
  exact ⟨w, reach, of_decide_eq_true two, (calls_in_order reach).1⟩

/-! ## No wake-up is lost -/

/-- Threads that will take an item, or wake one that does. -/
def weight (sleeping : List τ) (t : τ) : Place T → Nat
  | .outside | .pushing _ | .storing _ | .blocking _ | .leaving => 0
  | .stored | .notifying | .popping _ | .testing .. | .waking .. | .reading | .removing _ => 1
  | .waiting _ => if t ∈ sleeping then 0 else 1

/-- The steps before a thread that no call ends, with those of the thread that it wakes. -/
def steps (sleeping : List τ) (t : τ) : Place T → Nat
  | .outside => 0
  | .leaving | .blocking _ => 1
  | .removing _ => 2
  | .reading => 3
  | .testing .. => 4
  | .popping _ | .waking .. => 5
  | .waiting _ => if t ∈ sleeping then 0 else 6
  | .notifying => 7
  | .stored => 8
  | .storing _ => 9
  | .pushing _ => 10

variable [Fintype τ]

/-- Over all threads. -/
def total (f : List τ → τ → Place T → Nat) (w : Moment τ (Shared T τ) (User T)) : Nat :=
  ∑ t, f w.shared.sleeping t (w.locals t).place

/-- Over all but one. -/
def others (f : List τ → τ → Place T → Nat) (t : τ) (w : Moment τ (Shared T τ) (User T)) : Nat :=
  ∑ t' ∈ Finset.univ.erase t, f w.shared.sleeping t' (w.locals t').place

theorem total_eq (f : List τ → τ → Place T → Nat) (t : τ) (w : Moment τ (Shared T τ) (User T)) :
    total f w = f w.shared.sleeping t (w.locals t).place + others f t w :=
  (Finset.add_sum_erase _ _ (Finset.mem_univ t)).symm

theorem total_take (f : List τ → τ → Place T → Nat) (t : τ) (s : Shared T τ) (l : User T) :
    total f (w.take t (s, l)) = f s.sleeping t l.place + others f t (w.take t (s, l)) := by
  rw [total_eq f t, Moment.take_self, Moment.take_shared]

omit [Fintype τ] in
theorem weight_mono {sleeping sleeping' : List τ} (fewer : t ∈ sleeping' → t ∈ sleeping)
    (place : Place T) : weight sleeping t place ≤ weight sleeping' t place := by
  cases place with
  | waiting =>
    simp only [weight]
    split <;> split <;> simp_all
  | outside | pushing | storing | stored | notifying | popping | testing | blocking | waking | reading
  | removing | leaving => exact le_rfl

/-- The others do not go to sleep when `t` takes a step. -/
theorem others_weight_le {t : τ} {s : Shared T τ} {l : User T}
    (fewer : ∀ t', t' ≠ t → t' ∈ s.sleeping → t' ∈ w.shared.sleeping) :
    others weight t w ≤ others weight t (w.take t (s, l)) := by
  refine Finset.sum_le_sum fun t' mem => ?_
  have other := Finset.ne_of_mem_erase mem
  rw [Moment.take_other w other]
  exact weight_mono (fewer t' other) _

/-- The thread that `t` wakes is one more that is awake. -/
theorem others_weight_lt {t woken : τ} {l : User T}
    (reach : (threads (T := T) (τ := τ)).system.Reachable w)
    (place : (w.locals t).place = .notifying) (mem : woken ∈ w.shared.sleeping) :
    others weight t w < others weight t
      (w.take t ({ w.shared with sleeping := w.shared.sleeping.erase woken }, l)) := by
  have knows := (sound_knows reach).2
  have waits := (knows woken).sleeping mem
  have other : woken ≠ t := by
    rintro rfl
    rw [place] at waits
    cases waits
  refine Finset.sum_lt_sum (fun t' mem' => ?_)
    ⟨woken, Finset.mem_erase.mpr ⟨other, Finset.mem_univ _⟩, ?_⟩
  · rw [Moment.take_other w (Finset.ne_of_mem_erase mem')]
    exact weight_mono List.mem_of_mem_erase _
  · rw [Moment.take_other w other]
    have gone : woken ∉ w.shared.sleeping.erase woken := (sound_knows reach).1.nodup.not_mem_erase
    cases at_ : (w.locals woken).place with
    | waiting => simp [weight, mem, gone]
    | outside | pushing | storing | stored | notifying | popping | testing | blocking | waking
    | reading | removing | leaving =>
      rw [at_] at waits
      cases waits

/-- Where threads sleep, there are no more items than threads that are awake for them. -/
def Enough (w : Moment τ (Shared T τ) (User T)) : Prop :=
  w.shared.sleeping ≠ [] → w.shared.inner.length ≤ total weight w

theorem Enough.take {s : Shared T τ} {l : User T} (enough : Enough w) (t : τ)
    (asleep : s.sleeping ≠ [] → w.shared.sleeping ≠ [])
    (fewer : ∀ t', t' ≠ t → t' ∈ s.sleeping → t' ∈ w.shared.sleeping)
    (items : s.inner.length + weight w.shared.sleeping t (w.locals t).place ≤
      w.shared.inner.length + weight s.sleeping t l.place) : Enough (w.take t (s, l)) := by
  intro some_
  have before := enough (asleep some_)
  have more := @others_weight_le T τ _ w _ t s l fewer
  rw [total_eq weight t] at before
  rw [total_take]
  show s.inner.length ≤ _
  omega

theorem enough_of_reachable (reach : (threads (T := T) (τ := τ)).system.Reachable w) : Enough w := by
  refine Threads.invariant (p := threads) (P := Enough) (fun some_ => absurd rfl some_) ?_ reach
  rintro w t choice ⟨s', l'⟩ before enough stepped
  have knows := (sound_knows before).2 t
  have took := took_of_step stepped
  generalize shared : w.shared = s at took knows
  generalize locals : w.locals t = l at took knows
  subst shared locals
  have quiet : ∀ {sleeping : List τ}, sleeping = w.shared.sleeping → (sleeping ≠ [] →
      w.shared.sleeping ≠ []) ∧ ∀ t', t' ≠ t → t' ∈ sleeping → t' ∈ w.shared.sleeping := by
    rintro _ rfl
    exact ⟨id, fun _ _ => id⟩
  cases took with
  | push _ place | take _ place | lock place | unlock place | leave place | find place | read place =>
    exact enough.take t (quiet rfl).1 (quiet rfl).2 (by simp [weight, place])
  | enter place =>
    refine enough.take t (quiet rfl).1 (quiet rfl).2 ?_
    rcases place with place | place <;> simp [weight, place]
  | store place => exact enough.take t (quiet rfl).1 (quiet rfl).2 (by simp [weight, place])
  | nobody place none_ => exact fun some_ => absurd none_ some_
  | @notify woken place mem =>
    intro some_
    have all := enough fun none_ => some_ (by rw [none_]; rfl)
    have more := others_weight_lt (l := { w.locals t with place := .outside }) before place mem
    rw [total_eq weight t, place] at all
    rw [total_take]
    calc w.shared.inner.length ≤ 1 + others weight t w := all
      _ ≤ others weight t _ := Nat.one_add_le_iff.mpr more
      _ ≤ _ := Nat.le_add_left _ _
  | remove place items =>
    exact enough.take t (quiet rfl).1 (quiet rfl).2 (by simp [weight, place, items])
  | giveUp place nothing | block place nothing =>
    intro _
    show w.shared.inner.length ≤ _
    simp [nothing]
  | sleep place =>
    have nothing := knows.sees
    rw [place] at nothing
    intro _
    show w.shared.inner.length ≤ _
    simp [show w.shared.inner = [] from nothing]
  | woken place away =>
    exact enough.take t (quiet rfl).1 (quiet rfl).2 (by simp [weight, place, away])
  | wake _ place mem =>
    refine enough.take t (fun _ none_ => (by rw [none_] at mem; cases mem))
      (fun t' _ mem' => List.mem_of_mem_erase mem') ?_
    simp [weight, place, mem]

/-! ## Rest -/

omit [Fintype τ] in
theorem steps_mono {sleeping sleeping' : List τ} (fewer : t ∈ sleeping → t ∈ sleeping')
    (place : Place T) : steps sleeping' t place ≤ steps sleeping t place := by
  cases place with
  | waiting =>
    simp only [steps]
    split <;> split <;> simp_all
  | outside | pushing | storing | stored | notifying | popping | testing | blocking | waking | reading
  | removing | leaving => exact le_rfl

theorem others_steps_le {t : τ} {s : Shared T τ} {l : User T}
    (fewer : ∀ t', t' ∈ w.shared.sleeping → t' ∈ s.sleeping) :
    others steps t (w.take t (s, l)) ≤ others steps t w := by
  refine Finset.sum_le_sum fun t' mem => ?_
  rw [Moment.take_other w (Finset.ne_of_mem_erase mem)]
  exact steps_mono (fewer t') _

omit [Fintype τ] in
theorem steps_erase {woken : τ} {sleeping : List τ} (place : Place T) :
    steps (sleeping.erase woken) t place ≤
      steps sleeping t place + if t = woken then 6 else 0 := by
  cases place with
  | waiting =>
    by_cases same : t = woken
    · simp only [steps, if_pos same]
      split <;> omega
    · simp [steps, List.mem_erase_of_ne same, same]
  | outside | pushing | storing | stored | notifying | popping | testing | blocking | waking | reading
  | removing | leaving => exact Nat.le_add_right ..

/-- Only the thread that `t` wakes has more steps before it. -/
theorem others_steps_erase {t woken : τ} {l : User T} :
    others steps t (w.take t ({ w.shared with sleeping := w.shared.sleeping.erase woken }, l)) ≤
      others steps t w + 6 := by
  calc others steps t (w.take t _)
      ≤ ∑ t' ∈ Finset.univ.erase t, (steps w.shared.sleeping t' (w.locals t').place +
          if t' = woken then 6 else 0) := by
        refine Finset.sum_le_sum fun t' mem => ?_
        rw [Moment.take_other w (Finset.ne_of_mem_erase mem)]
        exact steps_erase _
    _ = others steps t w + ∑ t' ∈ Finset.univ.erase t, (if t' = woken then 6 else 0) :=
        Finset.sum_add_distrib
    _ ≤ others steps t w + 6 := by
        rw [Finset.sum_ite_eq']
        split <;> omega

theorem total_steps_lt {t : τ} {s : Shared T τ} {l : User T}
    (fewer : ∀ t', t' ∈ w.shared.sleeping → t' ∈ s.sleeping)
    (less : steps s.sleeping t l.place < steps w.shared.sleeping t (w.locals t).place) :
    total steps (w.take t (s, l)) < total steps w := by
  have others := @others_steps_le T τ _ w _ t s l fewer
  rw [total_eq steps t w, total_take]
  omega

theorem steps_lt {t : τ} {choice : Choice T τ} {after : Shared T τ × User T}
    (stepped : step t choice w.shared (w.locals t) = some after) (own : choice.own) :
    total steps (w.take t after) < total steps w := by
  obtain ⟨s', l'⟩ := after
  have took := took_of_step stepped
  generalize shared : w.shared = s at took
  generalize locals : w.locals t = l at took
  subst shared locals
  cases took with
  | push other | take other | wake other => exact absurd own (by simp [other])
  | lock place | store place | unlock place | nobody place | find place | giveUp place | block place
  | read place | remove place | leave place =>
    exact total_steps_lt (fun _ => id) (by simp [steps, place])
  | woken place away => exact total_steps_lt (fun _ => id) (by simp [steps, place, away])
  | enter place =>
    refine total_steps_lt (fun _ => id) ?_
    rcases place with place | place <;> simp [steps, place]
  | @notify woken place =>
    have more := @others_steps_erase T τ _ w _ t woken { w.locals t with place := .outside }
    rw [total_eq steps t w, total_take, place]
    exact Nat.lt_of_le_of_lt (Nat.add_le_add_left more _) (by simp only [steps]; omega)
  | sleep place =>
    exact total_steps_lt (fun _ mem => List.mem_append_left _ mem) (by simp [steps, place])

/-- Nothing goes on by itself. -/
def AtRest (w : Moment τ (Shared T τ) (User T)) : Prop :=
  ∀ t, ∀ choice : Choice T τ, choice.own → step t choice w.shared (w.locals t) = none

omit [Fintype τ] in
/-- A thread that has the mutex goes on. -/
theorem Knows.step_ne_none (knows : Knows t l s) (holds : l.place.holds) :
    step t .go s l ≠ none := by
  have sees := knows.sees
  cases place : l.place with
  | storing | stored | blocking | leaving => simp [step, place]
  | testing kind expired =>
    simp only [step, place]
    split
    · split <;> exact Option.some_ne_none _
    · exact Option.some_ne_none _
  | reading =>
    rw [place] at sees
    obtain ⟨val, rest, items⟩ := List.exists_cons_of_ne_nil sees
    simp [step, place, items]
  | removing item =>
    rw [place] at sees
    obtain ⟨rest, items⟩ := List.head?_eq_some_iff.mp sees
    simp [step, place, items]
  | outside | pushing | notifying | popping | waiting | waking =>
    rw [place] at holds
    cases holds

omit [Fintype τ] in
theorem AtRest.unlocked (rest : AtRest w) (reach : (threads (T := T) (τ := τ)).system.Reachable w) :
    w.shared.mutex = none := by
  cases held : w.shared.mutex with
  | none => rfl
  | some t =>
    have knows := (sound_knows reach).2 t
    exact absurd (rest t .go rfl) (knows.step_ne_none (knows.mutex.mp held))

omit [Fintype τ] in
theorem AtRest.quiet (rest : AtRest w) (reach : (threads (T := T) (τ := τ)).system.Reachable w)
    (t : τ) : (w.locals t).place = .outside ∨ (w.locals t).place.waits ∧ t ∈ w.shared.sleeping := by
  have free := rest.unlocked reach
  have stuck := rest t .go rfl
  cases place : (w.locals t).place with
  | outside => exact .inl rfl
  | storing | stored | testing | blocking | reading | removing | leaving =>
    exact absurd stuck (((sound_knows reach).2 t).step_ne_none (by rw [place]; rfl))
  | pushing | popping | waking =>
    simp [step, place, free] at stuck
  | waiting =>
    refine .inr ⟨rfl, Classical.byContradiction fun away => ?_⟩
    simp [step, place, away] at stuck
  | notifying =>
    by_cases none_ : w.shared.sleeping = []
    · simp [step, place, none_] at stuck
    · obtain ⟨woken, mem⟩ := List.exists_mem_of_ne_nil _ none_
      have wakes := rest t (.notify woken) rfl
      simp [step, place, mem] at wakes

/-- **No wake-up is lost.** Where no call starts, no time is up and no thread wakes for no reason, the
threads come to rest within the steps before them. There every call has returned but those that wait
for an item, and where one waits, there is none. -/
theorem comes_to_rest (reach : (threads (T := T) (τ := τ)).system.Reachable w) :
    (∀ schedule w', (∀ action ∈ schedule, action.2.own) →
        threads.system.execute w schedule = some w' → schedule.length ≤ total steps w) ∧
      (AtRest w → ∀ t, (w.locals t).place = .outside ∨
        (w.locals t).place.waits ∧ t ∈ w.shared.sleeping ∧ w.shared.inner = []) := by
  constructor
  · intro schedule w' own ran
    have bound := reach.length_le (total steps) (P := fun action => action.2.own)
      (fun w action w' _ own next => ?_) own ran
    · omega
    · obtain ⟨after, stepped, rfl⟩ := Option.map_eq_some_iff.mp next
      exact steps_lt stepped own
  · intro rest t
    rcases rest.quiet reach t with out | ⟨waits, asleep⟩
    · exact .inl out
    · have few := enough_of_reachable reach (List.ne_nil_of_mem asleep)
      have none_ : total weight w = 0 := by
        refine Finset.sum_eq_zero fun t' _ => ?_
        rcases rest.quiet reach t' with out | ⟨waits, asleep⟩
        · rw [out]
          rfl
        · cases place : (w.locals t').place <;> simp_all [Place.waits, weight]
      exact .inr ⟨waits, asleep, List.eq_nil_of_length_eq_zero (by omega)⟩

/-- One thread waits for an item, and the other is in no call. -/
theorem comes_to_rest_of_pair : ∃ w, (threads (T := Nat) (τ := Bool)).system.Reachable w ∧
    AtRest w ∧ (w.locals true).place.waits ∧ true ∈ w.shared.sleeping ∧ w.shared.inner = [] := by
  let ok : Moment Bool (Shared Nat Bool) (User Nat) → Bool := fun w =>
    (w.locals true).place.waits && [true, false].all fun t =>
      (step t .go w.shared (w.locals t)).isNone &&
        [true, false].all fun woken => (step t (.notify woken) w.shared (w.locals t)).isNone
  have ran : (threads.system.execute threads.system.start (handOver.take 4)).any ok := by
    decide +kernel
  obtain ⟨w, reach, checked⟩ := Transitions.exists_reachable ran
  simp only [ok, Bool.and_eq_true, List.all_eq_true, Option.isNone_iff_eq_none] at checked
  obtain ⟨waits, stuck⟩ := checked
  have rest : AtRest w := by
    intro t choice own
    cases choice with
    | go => exact (stuck t (by cases t <;> simp)).1
    | notify woken => exact (stuck t (by cases t <;> simp)).2 woken (by cases woken <;> simp)
    | push | take | spurious | expire => cases own
  rcases (comes_to_rest reach).2 rest true with out | ⟨-, asleep, empty⟩
  · rw [out] at waits
    cases waits
  · exact ⟨w, reach, rest, waits, asleep, empty⟩

end

end CausalBroadcast.ConcurrentQueue
