import CausalBroadcast.Message

/-!
# A queue that hands out its items by their numbers

`MonotonicQueue` keeps what is added in a priority queue, the lowest number on top, and hands out the
item with the number after the last one. `has_next` looks at the top without asking whether there is
one: what it answers of an empty queue is not said by the language, and a parameter here.
-/

namespace CausalBroadcast

/-- `MonotonicQueue::Entry`. -/
structure MonotonicQueue.Entry (T : Type) where
  val : T
  /-- a `BroadcastSeqNum`, like `expectedNext` -/
  id : Nat
  deriving DecidableEq

/-- `MonotonicQueue<T, BroadcastSeqNum>`. -/
structure MonotonicQueue (T : Type) where
  queue : List (MonotonicQueue.Entry T) := []
  expectedNext : Nat := 0

namespace MonotonicQueue

variable {T : Type}

/-- `add`. -/
def add (q : MonotonicQueue T) (item : T) (seqNum : Nat) : MonotonicQueue T :=
  { q with queue := ⟨item, seqNum⟩ :: q.queue }

/-- `queue.top()`, `none` on an empty queue. -/
def top (q : MonotonicQueue T) : Option (Entry T) := List.argmin Entry.id q.queue

/-- `has_next`, which answers `ofEmpty` on an empty queue. -/
def hasNext (ofEmpty : Option Bool) (q : MonotonicQueue T) : Option Bool :=
  match q.top with
  | some entry => some (entry.id = q.expectedNext)
  | none => ofEmpty

section
variable [DecidableEq T]

/-- `pop_next`, `none` on an empty queue. -/
def popNext (q : MonotonicQueue T) : Option (T × MonotonicQueue T) :=
  q.top.map fun entry =>
    (entry.val, { queue := q.queue.erase entry, expectedNext := succ32 q.expectedNext })

theorem length_popNext {q next : MonotonicQueue T} {item : T}
    (popped : q.popNext = some (item, next)) : next.queue.length < q.queue.length := by
  obtain ⟨entry, top, same⟩ := Option.map_eq_some_iff.mp popped
  cases same
  have mem : entry ∈ q.queue := List.argmin_mem top
  rw [List.length_erase_of_mem mem]
  exact Nat.sub_lt (List.length_pos_of_mem mem) Nat.one_pos

/-- The loop that pops items while there is a next one, and the items. -/
def drain (ofEmpty : Option Bool) (q : MonotonicQueue T) : Option (MonotonicQueue T × List T) :=
  match q.hasNext ofEmpty with
  | none => none
  | some false => some (q, [])
  | some true =>
    match _popped : q.popNext with
    | none => none
    | some (item, next) => (drain ofEmpty next).map fun (last, items) => (last, item :: items)
termination_by q.queue.length
decreasing_by exact length_popNext ‹_›

section
variable {q : MonotonicQueue T} {entry : Entry T}

theorem drain_of_empty (empty : q.queue = []) :
    q.drain (some false) = some (q, []) ∧ q.drain none = none := by
  have none_ : q.top = none := List.argmin_eq_none.mpr empty
  constructor
  · rw [drain]
    simp [hasNext, none_]
  · rw [drain]
    simp [hasNext, none_]

/-- The loop stops at a top with another number. -/
theorem drain_of_ne (top : q.top = some entry) (other : entry.id ≠ q.expectedNext)
    (ofEmpty : Option Bool) : q.drain ofEmpty = some (q, []) := by
  have answer : q.hasNext ofEmpty = some false := by simp [hasNext, top, other]
  rw [drain, answer]

/-- The loop pops a top with the next number. -/
theorem drain_of_eq (top : q.top = some entry) (next : entry.id = q.expectedNext)
    (ofEmpty : Option Bool) : q.drain ofEmpty = (drain ofEmpty
      { queue := q.queue.erase entry, expectedNext := succ32 q.expectedNext }).map
        fun (last, items) => (last, entry.val :: items) := by
  have answer : q.hasNext ofEmpty = some true := by simp [hasNext, top, next]
  have popped : q.popNext = some (entry.val,
      { queue := q.queue.erase entry, expectedNext := succ32 q.expectedNext }) := by
    simp [popNext, top]
  rw [drain, answer]
  dsimp only
  split
  next stuck => rw [popped] at stuck; cases stuck
  next item rest more => rw [popped] at more; cases more; rfl

end

end

/-! ## What the loop hands out -/

/-- After the items below `n` were handed out: those in the queue have other numbers, and no two the
same one. -/
structure Counts (q : MonotonicQueue T) (n : Nat) : Prop where
  next : q.expectedNext = n % 2 ^ 32
  distinct : (q.queue.map Entry.id).Nodup
  low : ∀ entry ∈ q.queue, n ≤ entry.id
  high : ∀ entry ∈ q.queue, entry.id < 2 ^ 32

/-- What the loop leaves of a queue after `n` items, and the entries it handed out. -/
structure Drained (q : MonotonicQueue T) (n : Nat) (last : MonotonicQueue T)
    (entries : List (Entry T)) : Prop where
  split : q.queue.Perm (entries ++ last.queue)
  numbers : entries.map Entry.id = List.range' n entries.length
  counts : last.Counts (n + entries.length)
  missing : ∀ entry ∈ last.queue, entry.id ≠ n + entries.length

/-- What the loop hands out after one item, it hands out with the item in front. -/
theorem Drained.cons [DecidableEq T] {q last : MonotonicQueue T} {n next : Nat} {entry : Entry T}
    {entries : List (Entry T)} (mem : entry ∈ q.queue) (first : entry.id = n)
    (drained : Drained ⟨q.queue.erase entry, next⟩ (n + 1) last entries) :
    q.Drained n last (entry :: entries) := by
  have count : n + (entry :: entries).length = n + 1 + entries.length := by
    rw [List.length_cons]
    omega
  exact {
    split := (List.perm_cons_erase mem).trans (drained.split.cons entry)
    numbers := by rw [List.map_cons, drained.numbers, first]; rfl
    counts := count ▸ drained.counts
    missing := count ▸ drained.missing }

namespace Counts

variable {q : MonotonicQueue T} {n : Nat} {entry : Entry T}

/-- The number of the top is compared with the number of items, as long as there is a top. -/
theorem id_eq_expectedNext (counts : q.Counts n) (mem : entry ∈ q.queue) :
    entry.id = q.expectedNext ↔ entry.id = n := by
  have low := counts.low entry mem
  have high := counts.high entry mem
  rw [counts.next, Nat.mod_eq_of_lt (by omega)]

variable [DecidableEq T]

/-- The next item is handed out. -/
theorem pop (counts : q.Counts n) (mem : entry ∈ q.queue) (next : entry.id = n) :
    Counts { queue := q.queue.erase entry, expectedNext := succ32 q.expectedNext } (n + 1) where
  next := by
    show succ32 q.expectedNext = _
    rw [succ32, counts.next, Nat.mod_add_mod]
  distinct := counts.distinct.sublist (List.erase_sublist.map _)
  low other mem' := by
    have old := List.mem_of_mem_erase mem'
    have different : other.id ≠ n := fun same => by
      have equal := List.inj_on_of_nodup_map counts.distinct old mem (same.trans next.symm)
      exact (counts.distinct.of_map _).not_mem_erase (equal ▸ mem')
    have := counts.low other old
    omega
  high other mem' := counts.high other (List.mem_of_mem_erase mem')

/-- **The loop hands out the items up to the first number that is missing.** Where `has_next` does
not answer on an empty queue, the loop fails exactly if it would leave the queue empty. -/
theorem drain (counts : q.Counts n) : ∃ last entries, q.Drained n last entries ∧
    q.drain (some false) = some (last, entries.map Entry.val) ∧
    q.drain none = if last.queue.isEmpty then none else some (last, entries.map Entry.val) := by
  -- the loop is at a queue that gets shorter
  induction size : q.queue.length generalizing q n with
  | zero =>
    have empty : q.queue = [] := List.length_eq_zero_iff.mp size
    obtain ⟨answered, unanswered⟩ := drain_of_empty empty
    exact ⟨q, [], ⟨by simp, rfl, counts, by simp [empty]⟩, answered, by simp [unanswered, empty]⟩
  | succ k ih =>
    cases top : q.top with
    | none => simp [List.argmin_eq_none.mp top] at size
    | some entry =>
      have mem : entry ∈ q.queue := List.argmin_mem top
      by_cases next : entry.id = n
      · have expected := (counts.id_eq_expectedNext mem).mpr next
        obtain ⟨last, entries, drained, answered, unanswered⟩ := ih (counts.pop mem next)
          (by simp [List.length_erase_of_mem mem, size])
        refine ⟨last, entry :: entries, .cons mem next drained, ?_, ?_⟩
        · rw [drain_of_eq top expected, answered]
          rfl
        · rw [drain_of_eq top expected, unanswered]
          split <;> rfl
      · have stop := drain_of_ne top (mt (counts.id_eq_expectedNext mem).mp next)
        refine ⟨q, [], ⟨by simp, rfl, counts, fun other mem' same => ?_⟩, stop _, ?_⟩
        · -- the top is the lowest
          have least : entry.id ≤ other.id := List.le_of_mem_argmin mem' top
          have low := counts.low entry mem
          simp only [List.length_nil] at same
          omega
        · simp [stop, List.ne_nil_of_mem mem]

end Counts

end MonotonicQueue

end CausalBroadcast
