import CausalBroadcast.Link.Worker
import CausalBroadcast.StaticVec
import CausalBroadcast.Wire.LittleEndian

/-!
# Messages on the wire

`FairLossLink::send` puts the first bytes of a `Message` on the network as they lie in memory, and the
receiver task reads the bytes of a datagram into a zeroed `Message`. Only the length of the datagram
says how many clock entries it carries.

The layout is that of x86-64: 8 bytes of `link_seq_num`, 4 of `bcast_seq_num`, one each for
`originator` and `sender`, 2 of padding, 128 entries of 4 bytes, and 8 bytes of `sz`.
-/

namespace CausalBroadcast

open LittleEndian

/-- `offsetof(Message, vector_clock)`. -/
def clockOffset : Nat := 16

/-- `sizeof(Message)`. -/
def sizeofMessage : Nat := 536

/-- A `Message` with all of its bytes. -/
structure RawMessage where
  linkSeqNum : UInt64
  bcastSeqNum : UInt32
  originator : UInt8
  sender : UInt8
  /-- what the compiler puts between `sender` and `vector_clock` -/
  padding : Vector UInt8 2
  vectorClock : StaticVec UInt32 maxProcesses

/-- The ranges of the types of a message's fields. -/
structure Message.Fits (msg : Message) : Prop where
  linkSeqNum : msg.linkSeqNum < 2 ^ 64
  bcastSeqNum : msg.bcastSeqNum < 2 ^ 32
  originator : msg.originator < 2 ^ 8
  sender : msg.sender < 2 ^ 8
  entries : ∀ x ∈ msg.vectorClock, x < 2 ^ 32
  length : msg.vectorClock.length ≤ maxProcesses

namespace RawMessage

/-- What the program sees of a `Message`. -/
def view (msg : RawMessage) : Message where
  linkSeqNum := msg.linkSeqNum.toNat
  bcastSeqNum := msg.bcastSeqNum.toNat
  originator := msg.originator.toNat
  sender := msg.sender.toNat
  vectorClock := msg.vectorClock.elements.map UInt32.toNat

/-- `reinterpret_cast<const char*>(&msg)`. -/
def toBytes (msg : RawMessage) : List UInt8 :=
  encode 8 msg.linkSeqNum.toNat ++ (encode 4 msg.bcastSeqNum.toNat ++
    ([msg.originator, msg.sender] ++ msg.padding.toList ++
      (encodeAll 4 (msg.vectorClock.storage.toList.map UInt32.toNat) ++
        encode 8 msg.vectorClock.sz)))

/-- The `Message` that these bytes are. -/
def ofBytes (bytes : List UInt8) : RawMessage where
  linkSeqNum := UInt64.ofNat (field 0 8 bytes)
  bcastSeqNum := UInt32.ofNat (field 8 4 bytes)
  originator := UInt8.ofNat (field 12 1 bytes)
  sender := UInt8.ofNat (field 13 1 bytes)
  padding := Vector.ofFn fun i => UInt8.ofNat (field (14 + i) 1 bytes)
  vectorClock :=
    { storage := Vector.ofFn fun i => UInt32.ofNat (field (clockOffset + 4 * i) 4 bytes)
      sz := field 528 8 bytes }

/-- `Message::size_bytes`. -/
def sizeBytes (msg : RawMessage) : Nat := clockOffset + 4 * msg.vectorClock.sz

/-- `FairLossLink::send` of process `id`, to the bytes that `sendto` is given. -/
def send (id : UInt8) (msg : RawMessage) : List UInt8 :=
  let msg := { msg with sender := id }
  msg.toBytes.take msg.sizeBytes

/-- `vector_size` in the receiver task, for what `recv` returned. -/
def vectorSize (len : UInt64) : UInt64 := (len - 16) / 4

/-- The receiver task, up to the `push`: `recv` cuts a datagram that is longer than a `Message`, and
leaves the bytes after a shorter one zero. -/
def receive (datagram : List UInt8) : RawMessage :=
  let read := datagram.take sizeofMessage
  let msg := ofBytes (read ++ List.replicate (sizeofMessage - read.length) 0)
  let size := vectorSize (UInt64.ofNat read.length)
  { msg with vectorClock := msg.vectorClock.forceSetSize size.toNat }

/-- A copy of a `Message`, made in the memory of `old`. -/
def copy (old msg : RawMessage) : Option RawMessage :=
  (msg.vectorClock.copy old.vectorClock.storage).map fun clock =>
    { msg with padding := old.padding, vectorClock := clock }

/-- `set_ack`, whose parameter is a copy of the message made in the memory of `old`. -/
def setAck (old msg : RawMessage) : Option RawMessage :=
  (copy old msg).map fun msg =>
    { msg with
      linkSeqNum := msg.linkSeqNum ||| (1 : UInt64) <<< 63
      vectorClock := msg.vectorClock.forceSetSize 0 }

/-! ## What arrives -/

theorem length_toBytes (msg : RawMessage) : msg.toBytes.length = sizeofMessage := by
  simp [toBytes, sizeofMessage, maxProcesses]

variable {msg old ack : RawMessage} {id : UInt8}

theorem toNat_vectorSize {len : Nat} (whole : 16 ≤ len) (fits : len < 2 ^ 64) :
    (vectorSize (UInt64.ofNat len)).toNat = (len - 16) / 4 := by
  have size : (UInt64.ofNat len).toNat = len := Nat.mod_eq_of_lt fits
  have header : (16 : UInt64) ≤ UInt64.ofNat len := by
    rw [UInt64.le_iff_toNat_le, size]
    exact whole
  rw [vectorSize, UInt64.toNat_div, UInt64.toNat_sub_of_le _ _ header, size]
  rfl

theorem length_send (id : UInt8) (short : msg.vectorClock.sz ≤ maxProcesses) :
    (send id msg).length = clockOffset + 4 * msg.vectorClock.sz := by
  unfold send
  rw [List.length_take, length_toBytes, sizeBytes]
  unfold sizeofMessage clockOffset
  unfold maxProcesses at short
  exact Nat.min_eq_left (by show 16 + 4 * msg.vectorClock.sz ≤ 536; omega)

/-- The size that the receiver puts in is the size that the sender had. -/
theorem sz_receive_send (id : UInt8) (short : msg.vectorClock.sz ≤ maxProcesses) :
    (receive (send id msg)).vectorClock.sz = msg.vectorClock.sz := by
  have length := length_send id short
  unfold maxProcesses at short
  unfold clockOffset at length
  unfold receive
  show (vectorSize (UInt64.ofNat ((send id msg).take sizeofMessage).length)).toNat = _
  rw [List.length_take, length, sizeofMessage, Nat.min_eq_right (by omega),
    toNat_vectorSize (by omega) (by omega)]
  omega

/-- The fields of a message, where the layout puts them. -/
theorem field_toBytes (msg : RawMessage) :
    field 0 8 msg.toBytes = msg.linkSeqNum.toNat ∧
    field 8 4 msg.toBytes = msg.bcastSeqNum.toNat ∧
    field 12 1 msg.toBytes = msg.originator.toNat ∧
    field 13 1 msg.toBytes = msg.sender.toNat := by
  have link : msg.linkSeqNum.toNat % 256 ^ 8 = msg.linkSeqNum.toNat :=
    Nat.mod_eq_of_lt msg.linkSeqNum.toNat_lt
  have bcast : msg.bcastSeqNum.toNat % 256 ^ 4 = msg.bcastSeqNum.toNat :=
    Nat.mod_eq_of_lt msg.bcastSeqNum.toNat_lt
  unfold toBytes
  refine ⟨?_, ?_, ?_, ?_⟩
  · rw [field_append_left (by simp), field_encode, link]
  · rw [field_append_right (by simp), field_append_left (by simp), length_encode, field_encode,
      bcast]
  · rw [field_append_right (by simp), field_append_right (by simp), field_append_left (by simp)]
    simp [field, decode]
  · rw [field_append_right (by simp), field_append_right (by simp), field_append_left (by simp)]
    simp [field, decode]

/-- The clock entries of a message, where the layout puts them. -/
theorem field_toBytes_clock (msg : RawMessage) (i : Fin maxProcesses) :
    field (clockOffset + 4 * i) 4 msg.toBytes = msg.vectorClock.storage[i].toNat := by
  have inside : (i : Nat) < (msg.vectorClock.storage.toList.map UInt32.toNat).length := by simp
  unfold toBytes clockOffset
  rw [field_append_right (by simp; omega), field_append_right (by simp; omega),
    field_append_right (by simp; omega), field_append_left (by simp; omega)]
  simp only [length_encode, List.length_append, Vector.length_toList, List.length_cons,
    List.length_nil]
  rw [show 16 + 4 * (i : Nat) - 8 - 4 - (0 + 1 + 1 + 2) = 4 * i by omega, field_encodeAll inside]
  simp

/-- What was sent of a message, the receiver has where it was. -/
theorem field_image (id : UInt8) {offset width : Nat} (short : msg.vectorClock.sz ≤ maxProcesses)
    (inside : offset + width ≤ clockOffset + 4 * msg.vectorClock.sz) (rest : List UInt8) :
    field offset width ((send id msg).take sizeofMessage ++ rest) =
      field offset width { msg with sender := id }.toBytes := by
  have length := length_send id short
  have whole : (send id msg).take sizeofMessage = send id msg := by
    apply List.take_of_length_le
    rw [length]
    unfold maxProcesses at short
    unfold clockOffset sizeofMessage
    omega
  rw [whole, field_append_left (by rw [length]; exact inside)]
  exact field_take inside

/-- **What arrives is what was sent**, signed by the sender. -/
theorem view_receive_send (id : UInt8) (short : msg.vectorClock.sz ≤ maxProcesses) :
    (receive (send id msg)).view = { msg.view with sender := id.toNat } := by
  have size := sz_receive_send id short
  have ⟨link, bcast, origin, signed⟩ := field_toBytes { msg with sender := id }
  have image := fun {offset width} inside rest => @field_image msg id offset width short inside rest
  have header : ∀ {stop}, stop ≤ 16 → stop ≤ clockOffset + 4 * msg.vectorClock.sz := fun le =>
    Nat.le_trans le (Nat.le_add_right _ _)
  have clock : (receive (send id msg)).vectorClock.elements = msg.vectorClock.elements := by
    unfold StaticVec.elements
    rw [size]
    refine List.ext_getElem? fun i => ?_
    rw [List.getElem?_take, List.getElem?_take]
    split
    next below =>
      have inside : i < maxProcesses := Nat.lt_of_lt_of_le below short
      have entry := field_toBytes_clock { msg with sender := id } ⟨i, inside⟩
      have place : clockOffset + 4 * i + 4 ≤ clockOffset + 4 * msg.vectorClock.sz := by omega
      simp [receive, ofBytes, StaticVec.forceSetSize, inside, image place, entry]
    next => rfl
  unfold view
  rw [clock]
  simp [receive, ofBytes, image (header (show 0 + 8 ≤ 16 by decide)), link,
    image (header (show 8 + 4 ≤ 16 by decide)), bcast,
    image (header (show 12 + 1 ≤ 16 by decide)), origin,
    image (header (show 13 + 1 ≤ 16 by decide)), signed]

/-- Every message whose fields are in range is what some `Message` in memory looks like. -/
theorem exists_view {msg : Message} (fits : msg.Fits) :
    ∃ raw : RawMessage, raw.view = msg ∧ raw.vectorClock.sz ≤ maxProcesses := by
  let storage : Vector UInt32 maxProcesses :=
    Vector.ofFn fun i => UInt32.ofNat (msg.vectorClock.getD i 0)
  refine ⟨⟨UInt64.ofNat msg.linkSeqNum, UInt32.ofNat msg.bcastSeqNum, UInt8.ofNat msg.originator,
    UInt8.ofNat msg.sender, Vector.ofFn fun _ => 0, storage, msg.vectorClock.length⟩, ?_, fits.length⟩
  have entries : (storage.toList.take msg.vectorClock.length).map UInt32.toNat =
      msg.vectorClock := by
    refine List.ext_getElem? fun i => ?_
    rw [List.getElem?_map, List.getElem?_take]
    split
    next below =>
      have inside : i < maxProcesses := Nat.lt_of_lt_of_le below fits.length
      have range : msg.vectorClock[i] < 2 ^ 32 := fits.entries _ (List.getElem_mem below)
      simpa [storage, inside, below] using range
    next beyond => simp [List.getElem?_eq_none (Nat.le_of_not_lt beyond)]
  unfold view StaticVec.elements
  dsimp only
  rw [entries, UInt64.toNat_ofNat_of_lt' fits.linkSeqNum, UInt32.toNat_ofNat_of_lt' fits.bcastSeqNum,
    UInt8.toNat_ofNat_of_lt' fits.originator, UInt8.toNat_ofNat_of_lt' fits.sender]

/-! ## Acks -/

/-- A copy is made exactly of a message whose clock fits. -/
theorem copy_isSome (old : RawMessage) : (copy old msg).isSome ↔ msg.vectorClock.sz ≤ maxProcesses := by
  unfold copy
  rw [Option.isSome_map]
  exact StaticVec.copy_isSome _

theorem view_of_copy (made : copy old msg = some ack) : ack.view = msg.view := by
  unfold copy at made
  obtain ⟨clock, copied, rfl⟩ := Option.map_eq_some_iff.mp made
  unfold view
  rw [(StaticVec.elements_of_copy copied).1]

/-- The ack that is built from a message is the ack of what the program sees of it. -/
theorem view_of_setAck (made : setAck old msg = some ack) :
    ack.view = CausalBroadcast.setAck msg.view ∧ ack.vectorClock.sz = 0 := by
  unfold setAck at made
  obtain ⟨copied, copying, rfl⟩ := Option.map_eq_some_iff.mp made
  rw [← view_of_copy copying]
  refine ⟨?_, rfl⟩
  have bit : ((1 : UInt64) <<< 63).toNat = seqNumMsb := rfl
  simp [view, CausalBroadcast.setAck, StaticVec.forceSetSize, StaticVec.elements, bit]

/-- **Round trip on the wire**, of a message and of the ack that is built from it: the receiver has
what the sender had, and the ack names the syn it is for. -/
theorem wire_round_trip (id : UInt8) (old msg : RawMessage)
    (short : msg.vectorClock.sz ≤ maxProcesses) :
    (receive (send id msg)).view = { msg.view with sender := id.toNat } ∧
    (receive (send id msg)).vectorClock.sz = msg.vectorClock.sz ∧
    ∃ ack, setAck old msg = some ack ∧
      (receive (send id ack)).view =
        { CausalBroadcast.setAck msg.view with sender := id.toNat } ∧
      (receive (send id ack)).vectorClock.sz = 0 ∧
      (msg.linkSeqNum.toNat < 2 ^ 63 →
        isSyn (receive (send id msg)).view = true ∧
        seqNum (receive (send id msg)).view = msg.linkSeqNum.toNat ∧
        isSyn (receive (send id ack)).view = false ∧
        seqNum (receive (send id ack)).view = msg.linkSeqNum.toNat) := by
  have syn := view_receive_send id short
  refine ⟨syn, sz_receive_send id short, ?_⟩
  obtain ⟨copied, made⟩ := Option.isSome_iff_exists.mp ((copy_isSome old).mpr short)
  have built : setAck old msg = some _ := congrArg (Option.map _) made
  have ⟨ackView, empty⟩ := view_of_setAck built
  have ackShort := empty.le.trans (Nat.zero_le maxProcesses)
  have acked := view_receive_send id ackShort
  rw [ackView] at acked
  refine ⟨_, built, acked, (sz_receive_send id ackShort).trans empty, fun small => ?_⟩
  rw [syn, acked]
  have number : msg.view.linkSeqNum < 2 ^ 63 := small
  exact ⟨isSyn_of_lt number, seqNum_of_lt number, not_isSyn_setAck msg.view,
    (seqNum_setAck msg.view).trans (seqNum_of_lt number)⟩

/-- A message with a clock of two entries, in memory that held something else. -/
def sample : RawMessage where
  linkSeqNum := 7
  bcastSeqNum := 41
  originator := 2
  sender := 9
  padding := Vector.ofFn fun _ => 255
  vectorClock := ⟨Vector.ofFn fun i => i.val.toUInt32, 2⟩

theorem sample_round_trip :
    (receive (send 3 sample)).view =
        { linkSeqNum := 7, bcastSeqNum := 41, originator := 2, sender := 3,
          vectorClock := [0, 1] } ∧
      ∃ ack, setAck sample sample = some ack ∧ isSyn (receive (send 3 ack)).view = false ∧
        seqNum (receive (send 3 ack)).view = 7 := by
  obtain ⟨syn, -, ack, built, -, -, names⟩ := wire_round_trip 3 sample sample (by decide)
  obtain ⟨-, -, isAck, number⟩ := names (by decide)
  rw [syn]
  exact ⟨by decide, ack, built, isAck, number⟩

/-! ## Datagrams of strangers -/

/-- What the receiver task owes the rest of the program whatever is on the network: the length
arithmetic does not wrap, the size covers only bytes that came, and the message can be copied and its
clock read. -/
def SizeSound (datagram : List UInt8) : Prop :=
  let len := (datagram.take sizeofMessage).length
  let msg := receive datagram
  ((UInt64.ofNat len - 16).toNat : Int) = (len : Int) - clockOffset ∧
  msg.vectorClock.sz ≤ maxProcesses ∧
  clockOffset + 4 * msg.vectorClock.sz ≤ len ∧
  (∀ old, (copy old msg).isSome) ∧
  ∀ i < msg.vectorClock.sz, (msg.vectorClock.get i).isSome

/-- **A datagram is read safely** exactly when it is as long as the header and shorter than a header
with one clock entry too many. -/
theorem sizeSound_iff (datagram : List UInt8) :
    SizeSound datagram ↔ 16 ≤ datagram.length ∧ datagram.length ≤ 531 := by
  have read : (datagram.take sizeofMessage).length = min sizeofMessage datagram.length :=
    List.length_take
  have size : (receive datagram).vectorClock.sz =
    (vectorSize (UInt64.ofNat (datagram.take sizeofMessage).length)).toNat := rfl
  unfold SizeSound
  simp only [copy_isSome, size]
  generalize (datagram.take sizeofMessage).length = len at read
  unfold sizeofMessage at read
  constructor
  · intro ⟨exactly, small, covered, _⟩
    have whole : 16 ≤ len := by
      unfold clockOffset at exactly
      omega
    rw [toNat_vectorSize whole (by omega)] at small
    unfold maxProcesses at small
    omega
  · intro ⟨whole, short⟩
    have whole : 16 ≤ len := by omega
    have number : (UInt64.ofNat len).toNat = len := Nat.mod_eq_of_lt (by omega)
    have header : (16 : UInt64) ≤ UInt64.ofNat len := by
      rw [UInt64.le_iff_toNat_le, number]
      exact whole
    have exactly : (UInt64.ofNat len - 16).toNat = len - 16 := by
      rw [UInt64.toNat_sub_of_le _ _ header, number]
      rfl
    have small : (len - 16) / 4 ≤ maxProcesses := by
      unfold maxProcesses
      omega
    rw [toNat_vectorSize whole (by omega), exactly]
    unfold clockOffset
    refine ⟨by omega, small, by omega, fun _ => small, fun i below => ?_⟩
    simp [StaticVec.get, Nat.lt_of_lt_of_le below small]

/-- On an empty datagram the length wraps, and one of 532 bytes names 129 clock entries. -/
theorem not_sizeSound :
    ¬ SizeSound [] ∧ ¬ SizeSound (List.replicate 532 0) := by
  constructor
  · intro ⟨exactly, _⟩
    exact absurd exactly (by decide)
  · intro ⟨_, small, _⟩
    have size : (receive (List.replicate 532 0)).vectorClock.sz = 129 := by
      unfold receive
      show (vectorSize (UInt64.ofNat ((List.replicate 532 (0 : UInt8)).take sizeofMessage).length)).toNat
        = 129
      rw [List.length_take, List.length_replicate]
      decide
    rw [size] at small
    exact absurd small (by decide)

end RawMessage

end CausalBroadcast
