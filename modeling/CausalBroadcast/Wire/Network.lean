import CausalBroadcast.Async.Encoding
import CausalBroadcast.Broadcast.Accesses

/-!
# The system over datagrams of bytes

What goes over the network are the first bytes of a `Message` as they lie in memory, the bytes between
its fields among them, and it is read back by the length of the datagram alone. The system over these
datagrams is the system over messages, whatever the bytes are that no field holds.
-/

namespace CausalBroadcast

open Async

/-- Where the messages lie: for each of them a `Message` in memory that the program sees as it. -/
def Memory : Type :=
  { place : Message → RawMessage // ∀ msg : Message, msg.Fits →
    (place msg).view = msg ∧ (place msg).vectorClock.sz ≤ maxProcesses }

instance : Nonempty Memory := by
  have places : ∀ msg : Message, ∃ raw : RawMessage, msg.Fits →
      raw.view = msg ∧ raw.vectorClock.sz ≤ maxProcesses := fun msg => by
    by_cases fits : msg.Fits
    · obtain ⟨raw, seen⟩ := RawMessage.exists_view fits
      exact ⟨raw, fun _ => seen⟩
    · exact ⟨RawMessage.ofBytes [], fun fits' => absurd fits' fits⟩
  choose place seen using places
  exact ⟨⟨place, seen⟩⟩

/-- The datagram that a message is sent as. -/
def Memory.datagram (memory : Memory) (msg : Message) : List UInt8 :=
  RawMessage.send (memory.1 msg).sender (memory.1 msg)

/-- The message that the receiver task makes of a datagram. -/
def Message.ofDatagram (datagram : List UInt8) : Message := (RawMessage.receive datagram).view

/-- The system, over datagrams of bytes. -/
def wireSystem (cfg : Config) :
    Async.Machine Nat (Process Node Call) (Act × Memory) (Event Notice) (List UInt8) :=
  (system cfg).encoded Memory.datagram Message.ofDatagram

variable {cfg : Config} {w : SystemWorld} {msg : Message}

/-- Whatever is on the network keeps to the types of its fields. -/
theorem fits_of_mem_sent (reach : (system cfg).Reachable w) {p : Nat} (mem : (p, msg) ∈ w.sent) :
    msg.Fits := by
  obtain ⟨inside, traced⟩ := sentTo_or_ackOf reach mem
  have few : msg.sender < 2 ^ 8 :=
    Nat.lt_trans inside (Nat.lt_of_le_of_lt cfg.le_max (by decide))
  rcases traced with sent | ⟨syn, sent, same⟩
  · exact fits_of_sentTo reach sent
  · exact same ▸ (fits_of_sentTo reach sent).setAck few

theorem Memory.length_datagram (memory : Memory) (fits : msg.Fits) :
    (memory.datagram msg).length = clockOffset + 4 * msg.vectorClock.length := by
  obtain ⟨seen, short⟩ := memory.2 msg fits
  have entries : msg.vectorClock.length = (memory.1 msg).vectorClock.sz := by
    rw [← StaticVec.length_elements short, ← List.length_map UInt32.toNat]
    exact congrArg (fun msg => msg.vectorClock.length) seen.symm
  rw [Memory.datagram, RawMessage.length_send _ short, entries]

theorem Memory.ofDatagram_datagram (memory : Memory) (fits : msg.Fits) :
    Message.ofDatagram (memory.datagram msg) = msg := by
  obtain ⟨seen, short⟩ := memory.2 msg fits
  exact fits.travels.2 _ seen short

/-- **The bytes are the messages**: the system over datagrams of bytes has the same runs as the system
over messages, and every datagram in it is as long as its header and its clock entries. -/
theorem wire_faithful (cfg : Config) :
    (∀ w, (system cfg).Reachable w ↔
      ∃ w', (wireSystem cfg).Reachable w' ∧ w'.decode Message.ofDatagram = w) ∧
    ∀ w', (wireSystem cfg).Reachable w' → ∀ d ∈ w'.sent,
      d.2.length = clockOffset + 4 * (Message.ofDatagram d.2).vectorClock.length ∧
        (Message.ofDatagram d.2).vectorClock.length ≤ maxProcesses := by
  have faithful : ∀ w, (system cfg).Reachable w → ∀ d ∈ w.sent, ∀ memory : Memory,
      Message.ofDatagram (memory.datagram d.2) = d.2 := fun w reach d mem memory =>
    memory.ofDatagram_datagram (fits_of_mem_sent reach mem)
  refine ⟨fun w => Machine.reachable_iff_encoded faithful, fun w' reach d mem => ?_⟩
  obtain ⟨memory, msg, same, sent⟩ := Machine.exists_encode faithful reach mem
  have fits := fits_of_mem_sent (Machine.reachable_decode faithful reach) sent
  rw [same, memory.ofDatagram_datagram fits]
  exact ⟨memory.length_datagram fits, fits.length⟩

end CausalBroadcast
