import Mathlib.Data.List.Basic

/-!
# Byte streams

One direction of a connection: what is written arrives in order and in pieces of any size, and what
has arrived is read in pieces of any size. What was read, what can be read, what is on its way and
what is still to be written are together what the writer was given.
-/

/-- A stream: what its writer has still to write, what is on its way, and what has arrived; whether
the writer has closed it, and whether the reader knows. -/
structure ByteStream where
  unsent : List UInt8
  flight : List UInt8 := []
  buffer : List UInt8 := []
  closed : Bool := false
  ended : Bool := false

namespace ByteStream

/-- A call of `write` that takes `k` bytes. -/
def write (k : Nat) (s : ByteStream) : Option ByteStream :=
  if 0 < k ∧ k ≤ s.unsent.length ∧ s.closed = false then
    some { s with unsent := s.unsent.drop k, flight := s.flight ++ s.unsent.take k }
  else none

/-- The writer closes the stream. -/
def close (s : ByteStream) : ByteStream := { s with closed := true }

/-- `k` bytes arrive. -/
def arrive (k : Nat) (s : ByteStream) : Option ByteStream :=
  if 0 < k ∧ k ≤ s.flight.length then
    some { s with flight := s.flight.drop k, buffer := s.buffer ++ s.flight.take k }
  else none

/-- The end arrives. -/
def finish (s : ByteStream) : Option ByteStream :=
  if s.flight = [] ∧ s.closed then some { s with ended := true } else none

/-- `recv` of at most `n` bytes: no bytes at the end, `none` where there is nothing to read yet. -/
def recv (n : Nat) (s : ByteStream) : Option (List UInt8 × ByteStream) :=
  if s.buffer = [] then (if s.ended then some ([], s) else none)
  else some (s.buffer.take n, { s with buffer := s.buffer.drop n })

/-- What can still be read. -/
def pending (s : ByteStream) : List UInt8 := s.buffer ++ s.flight ++ s.unsent

/-- Nothing is on its way any more when the reader has come to the end. -/
structure Sound (s : ByteStream) : Prop where
  flight : s.ended → s.flight = []
  closed : s.ended → s.closed

variable {s s' : ByteStream} {k n : Nat} {data : List UInt8}

/-- There is something to read, be it the end. -/
def Ready (s : ByteStream) : Prop := s.buffer ≠ [] ∨ s.ended

/-- After a step of the writer or of the network. -/
structure Later (s s' : ByteStream) : Prop where
  pending : s'.pending = s.pending
  ready : s.Ready → s'.Ready
  ended : s.ended → s'.ended

theorem Later.refl (s : ByteStream) : s.Later s := ⟨rfl, id, id⟩

theorem Later.trans {s'' : ByteStream} (later : s.Later s') (later' : s'.Later s'') : s.Later s'' :=
  ⟨later'.pending.trans later.pending, later'.ready ∘ later.ready, later'.ended ∘ later.ended⟩

theorem later_write (written : s.write k = some s') : s.Later s' := by
  unfold write at written
  split at written <;> cases written
  exact ⟨by simp [pending], id, id⟩

theorem closed_of_write (written : s.write k = some s') : s'.closed = false := by
  unfold write at written
  split at written <;> cases written
  case isTrue able => exact able.2.2

theorem later_close (s : ByteStream) : s.Later s.close := ⟨rfl, id, id⟩

theorem later_arrive (arrived : s.arrive k = some s') : s.Later s' := by
  unfold arrive at arrived
  split at arrived <;> cases arrived
  exact ⟨by simp [pending], Or.imp_left fun full empty => full (List.append_eq_nil_iff.mp empty).1, id⟩

/-- Where nothing can arrive, nothing is on its way. -/
theorem flight_of_arrive_none (none_ : s.arrive s.flight.length = none) : s.flight = [] := by
  by_contra flies
  rw [arrive, if_pos ⟨List.length_pos_iff.mpr flies, Nat.le_refl _⟩] at none_
  cases none_

theorem later_finish (finished : s.finish = some s') : s.Later s' := by
  unfold finish at finished
  split at finished <;> cases finished
  exact ⟨rfl, fun _ => .inr rfl, fun _ => rfl⟩

theorem pending_recv (received : s.recv n = some (data, s')) : data ++ s'.pending = s.pending := by
  unfold recv at received
  split at received
  · split at received <;> cases received
    rfl
  · cases received
    rw [pending, pending, ← List.append_assoc, ← List.append_assoc, List.take_append_drop]

theorem Sound.write (sound : s.Sound) (written : s.write k = some s') : s'.Sound := by
  unfold ByteStream.write at written
  split at written <;> cases written
  case isTrue able =>
    exact ⟨fun ended => absurd (sound.closed ended) (by simp [able.2.2]), sound.closed⟩

theorem Sound.close (sound : s.Sound) : s.close.Sound := ⟨sound.flight, fun _ => rfl⟩

theorem Sound.arrive (sound : s.Sound) (arrived : s.arrive k = some s') : s'.Sound := by
  unfold ByteStream.arrive at arrived
  split at arrived <;> cases arrived
  case isTrue able =>
    refine ⟨fun ended => ?_, sound.closed⟩
    rw [sound.flight ended] at able
    exact absurd able.2 (Nat.not_le.mpr able.1)

theorem sound_finish (finished : s.finish = some s') : s'.Sound := by
  unfold finish at finished
  split at finished <;> cases finished
  case isTrue able => exact ⟨fun _ => able.1, fun _ => able.2⟩

theorem Sound.recv (sound : s.Sound) (received : s.recv n = some (data, s')) : s'.Sound := by
  unfold ByteStream.recv at received
  split at received
  · split at received <;> cases received
    exact sound
  · cases received
    exact ⟨sound.flight, sound.closed⟩

theorem recv_ne_none (ready : s.Ready) : s.recv n ≠ none := by
  unfold recv
  split
  case isTrue empty => simp [ready.resolve_left (not_not_intro empty)]
  case isFalse => simp

theorem recv_length (received : s.recv n = some (data, s')) : data.length ≤ n := by
  unfold recv at received
  split at received
  · split at received <;> cases received
    exact Nat.zero_le n
  · cases received
    exact List.length_take_le n _

/-- An empty answer is the end. -/
theorem ended_of_recv_nil (some_ : 0 < n) (received : s.recv n = some ([], s')) :
    s.ended ∧ s.buffer = [] ∧ s' = s := by
  unfold recv at received
  split at received
  · split at received <;> cases received
    case isTrue.isTrue empty ended => exact ⟨ended, empty, rfl⟩
  · case isFalse full =>
      simp only [Option.some.injEq, Prod.mk.injEq, List.take_eq_nil_iff] at received
      rcases received.1 with zero | empty
      · exact absurd zero (Nat.ne_of_gt some_)
      · exact absurd empty full

/-- The network changes nothing for the writer. -/
theorem writer_arrive (arrived : s.arrive k = some s') :
    s'.unsent = s.unsent ∧ s'.closed = s.closed := by
  unfold arrive at arrived
  split at arrived <;> cases arrived
  exact ⟨rfl, rfl⟩

theorem writer_finish (finished : s.finish = some s') :
    s'.unsent = s.unsent ∧ s'.closed = s.closed := by
  unfold finish at finished
  split at finished <;> cases finished
  exact ⟨rfl, rfl⟩

/-- Nor does the reader. -/
theorem writer_recv (received : s.recv n = some (data, s')) :
    s'.unsent = s.unsent ∧ s'.closed = s.closed ∧ s'.ended = s.ended := by
  unfold recv at received
  split at received
  · split at received <;> cases received
    exact ⟨rfl, rfl, rfl⟩
  · cases received
    exact ⟨rfl, rfl, rfl⟩

end ByteStream
