import CausalBroadcast.Broadcast.CausalOrder
import CausalBroadcast.Broadcast.Reliable
import CausalBroadcast.Broadcast.Setup
import CausalBroadcast.Broadcast.Volume
import CausalBroadcast.Link.Acks
import CausalBroadcast.Wire.Datagram

/-!
# Every index is in range

Nothing checks an index: every layer reaches into its vectors by what a message says. `accesses` lists
the places that the next step of a process reaches into, and `Safe` says of a world that these are
there, whatever steps are next, that the counters count, and that what is on the network arrives as it
was sent.

Every message is a copy of one that a process of the system broadcast, or the ack of one, and this is
where its originator, its number and the length of its vector clock come from.
-/

namespace CausalBroadcast

open Async

/-! ## Accesses -/

/-- Something the program reaches into by position. -/
inductive Container where
  /-- `PerfectLink::peers` -/
  | peers
  /-- `FairLossLink::addrs` -/
  | addrs
  /-- a value of `UniformReliableBroadcast::ack` -/
  | ack
  /-- `UniformReliableBroadcast::pending` -/
  | urbPending
  /-- `UniformReliableBroadcast::delivered` -/
  | urbDelivered
  /-- `LocalizedCausalBroadcast::pending` -/
  | lcbPending
  /-- `LocalizedCausalBroadcast::deps` -/
  | deps
  /-- `deps[originator].depends` -/
  | depends (originator : Nat)
  /-- `LocalizedCausalBroadcast::current_clock` -/
  | currentClock
  /-- `msg.vector_clock` -/
  | vectorClock (msg : Message)
  /-- the array behind a vector clock that is being built -/
  | storage
  /-- `RollingBitset::chunks` -/
  | chunks (set : RollingBitset)
  /-- `RollingBitset::Chunk::bits` -/
  | bits

/-- Whether there is a place for each process. -/
def Container.OfProcesses : Container → Prop
  | .peers | .addrs | .ack | .urbPending | .urbDelivered | .lcbPending | .deps | .currentClock => True
  | .depends _ | .vectorClock _ | .storage | .chunks _ | .bits => False

/-- A use of `operator[]`, `set` or `push_back`. -/
structure Access where
  container : Container
  index : Nat

/-- How many places there are. -/
def Setup.size (setup : Setup) : Container → Nat
  | .peers | .addrs | .urbPending | .urbDelivered | .lcbPending | .currentClock => setup.hosts.length
  | .deps => setup.deps.length
  | .depends originator => (setup.deps[originator]?.map fun dep => dep.depends.sz).getD 0
  | .vectorClock msg => msg.vectorClock.length
  | .ack | .storage => maxProcesses
  | .chunks set => set.chunks.length
  | .bits => chunkSize

/-- The place is there, and where the places are the processes', it is one of theirs. -/
def Setup.InRange (setup : Setup) (access : Access) : Prop :=
  access.index < setup.size access.container ∧
    (access.container.OfProcesses → access.index < setup.hosts.length)

/-- `RollingBitset::insert`. -/
def RollingBitset.insertAccesses (set : RollingBitset) (elem : Nat) : List Access :=
  if set.hasPassed elem then []
  else
    let idx := set.chunkIndex elem
    [⟨.chunks (set.extend idx), idx⟩, ⟨.bits, elem % chunkSize⟩]

/-- `RollingBitset::contains`. -/
def RollingBitset.containsAccesses (set : RollingBitset) (elem : Nat) : List Access :=
  if set.hasPassed elem then []
  else if set.chunkIndex elem ≥ set.chunks.length then []
  else [⟨.chunks set, set.chunkIndex elem⟩, ⟨.bits, elem % chunkSize⟩]

/-- `insert` of `UniformReliableBroadcast`, on the vector `container`. -/
def SeenSets.insertAccesses (set : SeenSets) (container : Container) (key : BroadcastKey) :
    List Access :=
  ⟨container, key.1⟩ :: (set key.1).insertAccesses key.2

/-- `contains` of `UniformReliableBroadcast`, on the vector `container`. -/
def SeenSets.containsAccesses (set : SeenSets) (container : Container) (key : BroadcastKey) :
    List Access :=
  ⟨container, key.1⟩ :: (set key.1).containsAccesses key.2

/-- `UniformReliableBroadcast::deliver`, up to the calls it makes. -/
def UniformReliableBroadcast.deliverAccesses (msg : Message) (urb : UniformReliableBroadcast) :
    List Access :=
  urb.delivered.containsAccesses .urbDelivered msg.key ++
    if urb.delivered.contains msg.key then []
    else
      ⟨.ack, msg.sender⟩ :: urb.pending.containsAccesses .urbPending msg.key ++
        if urb.pending.contains msg.key then []
        else urb.pending.insertAccesses .urbPending msg.key

/-- `UniformReliableBroadcast::try_deliver`. -/
def UniformReliableBroadcast.tryDeliverAccesses (setup : Setup) (msg : Message)
    (urb : UniformReliableBroadcast) : List Access :=
  if (urb.acks msg.key).card > setup.hosts.length / 2 then
    urb.delivered.insertAccesses .urbDelivered msg.key
  else []

namespace LocalizedCausalBroadcast

/-- `LocalizedCausalBroadcast::send`. -/
def sendAccesses (setup : Setup) (id : Nat) : List Access :=
  ⟨.deps, id⟩ :: (setup.depends id).zipIdx.flatMap fun (process, i) =>
    [⟨.currentClock, process⟩, ⟨.storage, i⟩]

/-- `LocalizedCausalBroadcast::can_deliver`, if its loop goes on to its end. -/
def canDeliverAccesses (setup : Setup) (msg : Message) (lcb : LocalizedCausalBroadcast) :
    List Access :=
  ⟨.currentClock, msg.originator⟩ ::
    if msg.bcastSeqNum > lcb.currentClock msg.originator then []
    else
      ⟨.deps, msg.originator⟩ :: (List.range msg.vectorClock.length).flatMap fun i =>
        ⟨.depends msg.originator, i⟩ :: ⟨.vectorClock msg, i⟩ ::
          (setup.depends msg.originator)[i]?.toList.map (⟨.currentClock, ·⟩)

/-- One round of the loop of `LocalizedCausalBroadcast::deliver`, which ends when it meets
`pending.end()`, if it delivers the top of the heap. -/
def scanAccesses (setup : Setup) (it : Nat) (lcb : LocalizedCausalBroadcast) : List Access :=
  if it = setup.hosts.length then []
  else
    ⟨.lcbPending, it⟩ :: match (lcb.pending it).top with
      | some msg => lcb.canDeliverAccesses setup msg ++ [⟨.currentClock, msg.originator⟩]
      | none => []

end LocalizedCausalBroadcast

/-- What a call of process `id` reaches into before it makes others. -/
def Call.accesses (setup : Setup) (id : Nat) (s : Node) : Call → List Access
  | .lcbSend _ => LocalizedCausalBroadcast.sendAccesses setup id
  | .urbSend seqNum _ => s.urb.pending.insertAccesses .urbPending (id, seqNum)
  | .urbDeliver msg => s.urb.deliverAccesses msg
  | .urbTryDeliver msg => s.urb.tryDeliverAccesses setup msg
  | .lcbDeliver msg => [⟨.lcbPending, msg.originator⟩]
  | .lcbScan it => s.lcb.scanAccesses setup it
  | .bebSend _ | .logBroadcast _ => []

/-- `PerfectLink::deliver`, up to the calls it makes. -/
def PerfectLink.deliverAccesses (msg : Message) (s : Process Node Call) : List Access :=
  ⟨.peers, msg.sender⟩ ::
    if ¬ isSyn msg then []
    else
      let delivered := (s.peers msg.sender).delivered
      delivered.containsAccesses (seqNum msg) ++
        if delivered.contains (seqNum msg) then [] else delivered.insertAccesses (seqNum msg)

/-- What a call on the stack reaches into before it makes others. -/
def Frame.accesses (setup : Setup) (id : Nat) (s : Process Node Call) : Frame Call → List Access
  | .send receiver _ => [⟨.peers, receiver⟩]
  | .transmit receiver _ => [⟨.addrs, receiver⟩]
  | .receive msg => PerfectLink.deliverAccesses msg s
  | .client c => c.accesses setup id s.client

/-- What a step of process `id` reaches into. A worker passes each datagram it sends to
`FairLossLink::send`. -/
def Process.accesses (setup : Setup) (id : Nat) (s : Process Node Call) : Act → List Access
  | .main => s.stack.head?.toList.flatMap (Frame.accesses setup id s)
  | .work q top now woken later =>
    ((s.peers q).work id q top now woken later).toList.flatMap fun (_, sent) =>
      sent.map fun d => ⟨.addrs, d.1⟩
  | .stop => []

/-! ## Accesses in range -/

section
variable {setup : Setup}

/-- A place for a process is there for every process. -/
theorem Setup.Sound.inRange (sound : setup.Sound) {container : Container} {index : Nat}
    (of : container.OfProcesses) (inside : index < setup.hosts.length) :
    setup.InRange ⟨container, index⟩ := by
  refine ⟨?_, fun _ => inside⟩
  have small := sound.le_max
  cases container with
  | peers | addrs | urbPending | urbDelivered | lcbPending | currentClock => exact inside
  | ack => exact Nat.lt_of_lt_of_le inside small
  | deps =>
    have sizes := congrArg List.length sound.processes
    rw [List.length_map] at sizes
    exact Nat.lt_of_lt_of_eq inside sizes.symm
  | depends | vectorClock | storage | chunks | bits => exact of.elim

/-- A chunk is made before it is reached into. -/
theorem RollingBitset.inRange_of_insert (setup : Setup) {set : RollingBitset} {elem : Nat}
    {access : Access} (mem : access ∈ set.insertAccesses elem) : setup.InRange access := by
  unfold insertAccesses at mem
  split at mem
  · cases mem
  simp only [List.mem_cons, List.not_mem_nil, or_false] at mem
  rcases mem with rfl | rfl
  · refine ⟨?_, fun of => of.elim⟩
    simp only [Setup.size, extend, List.length_append, List.length_replicate]
    omega
  · exact ⟨Nat.mod_lt _ (by decide), fun of => of.elim⟩

theorem RollingBitset.inRange_of_contains (setup : Setup) {set : RollingBitset} {elem : Nat}
    {access : Access} (mem : access ∈ set.containsAccesses elem) : setup.InRange access := by
  unfold containsAccesses at mem
  split at mem
  · cases mem
  split at mem
  · cases mem
  next stored =>
  simp only [List.mem_cons, List.not_mem_nil, or_false] at mem
  rcases mem with rfl | rfl
  · exact ⟨Nat.lt_of_not_le stored, fun of => of.elim⟩
  · exact ⟨Nat.mod_lt _ (by decide), fun of => of.elim⟩

theorem SeenSets.inRange_of_insert {set : SeenSets} {container : Container} {key : BroadcastKey}
    (there : setup.InRange ⟨container, key.1⟩) {access : Access}
    (mem : access ∈ set.insertAccesses container key) : setup.InRange access := by
  rcases List.mem_cons.mp mem with rfl | inner
  · exact there
  · exact RollingBitset.inRange_of_insert setup inner

theorem SeenSets.inRange_of_contains {set : SeenSets} {container : Container} {key : BroadcastKey}
    (there : setup.InRange ⟨container, key.1⟩) {access : Access}
    (mem : access ∈ set.containsAccesses container key) : setup.InRange access := by
  rcases List.mem_cons.mp mem with rfl | inner
  · exact there
  · exact RollingBitset.inRange_of_contains setup inner

theorem UniformReliableBroadcast.inRange_of_deliver (sound : setup.Sound)
    {urb : UniformReliableBroadcast} {msg : Message} (origin : msg.originator < setup.hosts.length)
    (sender : msg.sender < setup.hosts.length) {access : Access}
    (mem : access ∈ urb.deliverAccesses msg) : setup.InRange access := by
  have pending : setup.InRange ⟨.urbPending, msg.key.1⟩ := sound.inRange trivial origin
  have delivered : setup.InRange ⟨.urbDelivered, msg.key.1⟩ := sound.inRange trivial origin
  rcases List.mem_append.mp mem with seen | rest
  · exact SeenSets.inRange_of_contains delivered seen
  split at rest
  · cases rest
  rcases List.mem_append.mp rest with first | relay
  · rcases List.mem_cons.mp first with rfl | held
    · exact sound.inRange trivial sender
    · exact SeenSets.inRange_of_contains pending held
  split at relay
  · cases relay
  · exact SeenSets.inRange_of_insert pending relay

theorem UniformReliableBroadcast.inRange_of_tryDeliver (sound : setup.Sound)
    {urb : UniformReliableBroadcast} {msg : Message} (origin : msg.originator < setup.hosts.length)
    {access : Access} (mem : access ∈ urb.tryDeliverAccesses setup msg) : setup.InRange access := by
  have delivered : setup.InRange ⟨.urbDelivered, msg.key.1⟩ := sound.inRange trivial origin
  unfold tryDeliverAccesses at mem
  split at mem
  · exact SeenSets.inRange_of_insert delivered mem
  · cases mem

namespace LocalizedCausalBroadcast

theorem inRange_of_send (sound : setup.Sound) {id : Nat} (inside : id < setup.hosts.length)
    {access : Access} (mem : access ∈ sendAccesses setup id) : setup.InRange access := by
  obtain ⟨short, below⟩ := sound.depends_ok id
  rcases List.mem_cons.mp mem with rfl | entry
  · exact sound.inRange trivial inside
  obtain ⟨⟨process, i⟩, listed, entry⟩ := List.mem_flatMap.mp entry
  have got := List.mem_zipIdx_iff_getElem?.mp listed
  simp only [List.mem_cons, List.not_mem_nil, or_false] at entry
  rcases entry with rfl | rfl
  · exact sound.inRange trivial (below process (List.mem_of_getElem? got))
  · obtain ⟨bound, -⟩ := List.getElem?_eq_some_iff.mp got
    exact ⟨Nat.lt_of_lt_of_le bound short, fun of => of.elim⟩

variable {lcb : LocalizedCausalBroadcast} {msg : Message}

theorem inRange_of_canDeliver (sound : setup.Sound) (origin : msg.originator < setup.hosts.length)
    (clock : msg.vectorClock.length = (setup.depends msg.originator).length)
    {access : Access} (mem : access ∈ lcb.canDeliverAccesses setup msg) : setup.InRange access := by
  rcases List.mem_cons.mp mem with rfl | rest
  · exact sound.inRange trivial origin
  split at rest
  · cases rest
  rcases List.mem_cons.mp rest with rfl | entry
  · exact sound.inRange trivial origin
  obtain ⟨i, listed, entry⟩ := List.mem_flatMap.mp entry
  have bound : i < msg.vectorClock.length := List.mem_range.mp listed
  obtain ⟨dep, got, size⟩ := sound.exists_dep origin
  simp only [List.mem_cons, List.mem_map, Option.mem_toList] at entry
  rcases entry with rfl | rfl | ⟨process, depends, rfl⟩
  · refine ⟨?_, fun of => of.elim⟩
    simp only [Setup.size, got, Option.map_some, Option.getD_some]
    omega
  · exact ⟨bound, fun of => of.elim⟩
  · exact sound.inRange trivial ((sound.depends_ok _).2 process (List.mem_of_getElem? depends))

theorem inRange_of_scan (sound : setup.Sound) {it : Nat} (inside : it ≤ setup.hosts.length)
    (waiting : ∀ msg ∈ lcb.pending it, msg.originator < setup.hosts.length ∧
      msg.vectorClock.length = (setup.depends msg.originator).length)
    {access : Access} (mem : access ∈ lcb.scanAccesses setup it) : setup.InRange access := by
  unfold scanAccesses at mem
  split at mem
  · cases mem
  next more =>
  rcases List.mem_cons.mp mem with rfl | rest
  · exact sound.inRange trivial (Nat.lt_of_le_of_ne inside more)
  split at rest
  next msg top =>
    obtain ⟨origin, clock⟩ := waiting msg (BroadcastMessageHeap.mem_of_top top)
    rcases List.mem_append.mp rest with ask | count
    · exact inRange_of_canDeliver sound origin clock ask
    · obtain rfl := List.mem_singleton.mp count
      exact sound.inRange trivial origin
  next => cases rest

end LocalizedCausalBroadcast

end

/-! ## What messages say -/

section
variable {cfg : Config} {w : SystemWorld} {p q it : Nat} {msg : Message}

/-- No clock goes past the number of messages. -/
theorem currentClock_le (reach : (system cfg).Reachable w) (p o : Nat) :
    (w.nodes p).client.lcb.currentClock o ≤ cfg.numMessages := by
  by_contra beyond
  have numbers := (lcb_ok reach p).numbers o
  have last : cfg.numMessages ∈ List.range ((w.nodes p).client.lcb.currentClock o) :=
    List.mem_range.mpr (Nat.lt_of_not_le beyond)
  rw [← numbers] at last
  obtain ⟨msg, listed, number⟩ := List.mem_map.mp last
  have event := mem_eventsOf.mp (mem_lcbDeliveries.mp (mem_fromProcess.mp listed).1)
  have below := (genuine_of_lcbDeliver reach event).bcastSeqNum_lt reach
  omega

/-- The vector clock of a broadcast has an entry for each dependency of its originator. -/
theorem Genuine.clock_ok (reach : (system cfg).Reachable w) (genuine : Genuine w.history msg) :
    msg.vectorClock.length = (cfg.depends msg.originator).length ∧
      ∀ x ∈ msg.vectorClock, x ≤ cfg.numMessages := by
  obtain ⟨original, same, sent⟩ := genuine
  have ok := lcb_ok reach msg.originator
  obtain ⟨before, after, split⟩ := List.append_of_mem (mem_eventsOf.mpr sent)
  have clock : original.vectorClock = (cfg.depends msg.originator).map (delivered · before) :=
    ok.causal before _ after split
  rw [← Message.vectorClock_eq_of_payload same, clock]
  refine ⟨List.length_map _, fun x mem => ?_⟩
  obtain ⟨d, -, rfl⟩ := List.mem_map.mp mem
  have counted : delivered d before ≤ delivered d (eventsOf msg.originator w.history) := by
    rw [split]
    simp [delivered]
  rw [← ok.clock_eq] at counted
  exact counted.trans (currentClock_le reach _ d)

/-- A message sent on the link keeps to the types of its fields. -/
theorem fits_of_sentTo (reach : (system cfg).Reachable w) (sent : SentTo w.history p q msg) :
    msg.Fits := by
  have genuine : Genuine w.history msg := genuine_of_event reach sent rfl
  have few := cfg.numMessages_lt
  have small := cfg.le_max
  have origin := genuine.originator_lt reach
  have number := genuine.bcastSeqNum_lt reach
  have signed := sender_of_sentTo reach sent
  have inside := lt_of_mem_history reach sent
  have link := (getElem_seqNum reach (fewSends reach) sent).2
  obtain ⟨length, entries⟩ := genuine.clock_ok reach
  unfold maxProcesses at small
  exact {
    linkSeqNum := by omega
    bcastSeqNum := by omega
    originator := by omega
    sender := by omega
    entries := fun x mem => Nat.lt_of_le_of_lt (entries x mem) few
    length := length.trans_le (cfg.depends_length _) }

/-- So does its ack. -/
theorem Message.Fits.setAck (fits : msg.Fits) {sender : Nat} (small : sender < 2 ^ 8) :
    ({ CausalBroadcast.setAck msg with sender } : Message).Fits where
  linkSeqNum := Nat.or_lt_two_pow fits.linkSeqNum (by decide)
  bcastSeqNum := fits.bcastSeqNum
  originator := fits.originator
  sender := small
  entries := List.forall_mem_nil _
  length := Nat.zero_le _

/-- The loop of `LocalizedCausalBroadcast::deliver` does not go past the last heap. -/
theorem scan_le_of_run {id : Nat} {c : Call} {s : Node}
    (mem : .call (.lcbScan it) ∈ (Node.run cfg id c s).calls) : it ≤ cfg.numProcesses := by
  cases c with
  | lcbSend k => cases List.mem_singleton.mp mem
  | urbSend k msg => cases List.mem_singleton.mp mem
  | logBroadcast k => cases mem
  | lcbDeliver msg =>
    cases List.mem_singleton.mp mem
    exact Nat.zero_le _
  | bebSend msg =>
    rcases List.mem_append.mp mem with near | self
    · obtain ⟨q, -, same⟩ := List.mem_map.mp near
      cases same
    · cases List.mem_singleton.mp self
  | urbDeliver msg =>
    simp only [Node.run, UniformReliableBroadcast.deliver, Outcome.lift] at mem
    split at mem
    · cases mem
    split at mem <;> simp at mem
  | urbTryDeliver msg =>
    simp only [Node.run, UniformReliableBroadcast.tryDeliver, Outcome.lift] at mem
    split at mem <;> simp at mem
  | lcbScan from_ =>
    simp only [Node.run, LocalizedCausalBroadcast.scan, Outcome.lift] at mem
    split at mem
    next inside =>
      split at mem
      · split at mem
        · cases List.mem_singleton.mp mem
          exact Nat.zero_le _
        · cases List.mem_singleton.mp mem
          exact inside
      · cases List.mem_singleton.mp mem
        exact inside
    next => cases mem

theorem scan_le (reach : (system cfg).Reachable w)
    (mem : .call (.lcbScan it) ∈ requestsOf (w.nodes p).stack) : it ≤ cfg.numProcesses := by
  refine requests_have (R := fun _ r => ∀ it, r = .call (.lcbScan it) → it ≤ cfg.numProcesses)
    ?_ ?_ ?_ reach p _ mem it rfl
  · intro i a a' calls nonempty turn c listed it same
    obtain ⟨-, -, rfl⟩ := Node.loop_call turn
    cases same
    simp at listed
  · intro i msg it same
    cases same
  · intro i c a r new it same
    exact scan_le_of_run (same ▸ new)

/-- What is handed to `UniformReliableBroadcast::deliver` was signed by a process of the system. -/
theorem sender_lt_of_urbDeliver (reach : (system cfg).Reachable w)
    (mem : .call (.urbDeliver msg) ∈ requestsOf (w.nodes p).stack) :
    msg.sender < cfg.numProcesses := by
  have arriving : (msg.sender, msg.key) ∈
      (ledger (requestsOf (w.nodes p).stack) (eventsOf p w.history)).arriving :=
    List.mem_filterMap.mpr ⟨_, mem, rfl⟩
  obtain ⟨copy, handed, signed, -⟩ := mem_came.mp ((urb_ok reach p).arriving _ _ arriving)
  exact signed ▸ lt_of_mem_history reach (sentTo_of_handedTo reach (mem_eventsOf.mp handed))

end

/-! ## The whole stack -/

/-- There is a `Message` in memory that the program sees as `msg`, and whichever it is, the receiver of
its bytes sees the same. -/
def Message.Travels (msg : Message) : Prop :=
  (∃ raw : RawMessage, raw.view = msg ∧ raw.vectorClock.sz ≤ maxProcesses) ∧
    ∀ raw : RawMessage, raw.view = msg → raw.vectorClock.sz ≤ maxProcesses →
      (RawMessage.receive (RawMessage.send raw.sender raw)).view = msg

theorem Message.Fits.travels {msg : Message} (fits : msg.Fits) : msg.Travels := by
  refine ⟨RawMessage.exists_view fits, fun raw seen short => ?_⟩
  rw [RawMessage.view_receive_send raw.sender short, ← seen]
  rfl

/-- In this world, and whatever its processes do next, nothing reaches for a place that is not there. -/
structure Setup.Safe (setup : Setup) (w : SystemWorld) : Prop where
  accesses : ∀ id < setup.hosts.length, ∀ act, ∀ access ∈ (w.nodes id).accesses setup id act,
    setup.InRange access
  /-- what comes to `can_deliver` has a clock entry for each dependency -/
  pending : ∀ id o, ∀ msg ∈ (w.nodes id).client.lcb.pending o,
    msg.bcastSeqNum + 1 ≤ setup.numMessages ∧
    ∃ dep, setup.deps[msg.originator]? = some dep ∧ msg.vectorClock.length = dep.depends.sz
  calls : ∀ id, ∀ r ∈ requestsOf (w.nodes id).stack,
    (∀ msg, r.copied = some msg → msg.bcastSeqNum + 1 ≤ setup.numMessages) ∧
    ∀ k, r = .call (.logBroadcast k) → k + 1 ≤ setup.numMessages
  datagrams : ∀ d ∈ w.sent, d.2.sender < setup.hosts.length ∧
    d.2.originator < setup.hosts.length ∧ d.2.bcastSeqNum + 1 ≤ setup.numMessages ∧ d.2.Travels
  /-- the clocks count deliveries, without a wrap -/
  currentClock : ∀ id o,
    (w.nodes id).client.lcb.currentClock o = delivered o (eventsOf id w.history) ∧
    (w.nodes id).client.lcb.currentClock o ≤ setup.numMessages
  /-- and `next_msg` counts broadcasts -/
  nextMsg : ∀ id,
    (w.nodes id).client.nextMsg = (loggedBroadcasts (eventsOf id w.history)).length ∧
    (w.nodes id).client.nextMsg ≤ setup.numMessages

section
variable {setup : Setup} {w : SystemWorld} {id : Nat}

theorem Setup.Sound.inRange_of_call (sound : setup.Sound)
    (reach : (system (setup.config sound)).Reachable w) (inside : id < setup.hosts.length) {c : Call}
    (mem : .call c ∈ requestsOf (w.nodes id).stack) {access : Access}
    (reaches : access ∈ c.accesses setup id (w.nodes id).client) : setup.InRange access := by
  have origin : ∀ {msg}, (Request.call c).copied = some msg →
      msg.originator < setup.hosts.length :=
    fun copied => (genuine_of_request reach mem copied).originator_lt reach
  cases c with
  | lcbSend k => exact LocalizedCausalBroadcast.inRange_of_send sound inside reaches
  | urbSend k msg =>
    have marks : setup.InRange ⟨.urbPending, id⟩ := sound.inRange trivial inside
    exact SeenSets.inRange_of_insert marks reaches
  | urbDeliver msg =>
    exact UniformReliableBroadcast.inRange_of_deliver sound (origin rfl)
      (sender_lt_of_urbDeliver reach mem) reaches
  | urbTryDeliver msg =>
    exact UniformReliableBroadcast.inRange_of_tryDeliver sound (origin rfl) reaches
  | lcbDeliver msg =>
    obtain rfl := List.mem_singleton.mp reaches
    exact sound.inRange trivial (origin rfl)
  | lcbScan it =>
    refine LocalizedCausalBroadcast.inRange_of_scan sound (scan_le reach mem) ?_ reaches
    intro msg waits
    have handed := ((lcb_ok reach id).mem_urbDeliveries_of_pending waits).1
    have genuine := genuine_of_event reach (mem_eventsOf.mp (mem_urbDeliveries.mp handed)) rfl
    exact ⟨genuine.originator_lt reach, (genuine.clock_ok reach).1⟩
  | bebSend | logBroadcast => cases reaches

theorem Setup.Sound.inRange_of_frame (sound : setup.Sound)
    (reach : (system (setup.config sound)).Reachable w) (inside : id < setup.hosts.length)
    {f : Frame Call} (mem : f ∈ (w.nodes id).stack) {access : Access}
    (reaches : access ∈ f.accesses setup id (w.nodes id)) : setup.InRange access := by
  have known : Acks.FrameOk _ w.history id f := (((Acks.carried _ _).holds reach).1 id).stack f mem
  have near : ∀ {q}, q ∈ (setup.config sound).neighborhood id → q < setup.hosts.length :=
    fun near => Finset.mem_range.mp (Config.neighborhood_subset inside near)
  cases f with
  | send receiver msg =>
    obtain rfl := List.mem_singleton.mp reaches
    have asked : .send receiver msg ∈ requestsOf (w.nodes id).stack :=
      List.mem_filterMap.mpr ⟨_, mem, rfl⟩
    exact sound.inRange trivial (near ((near_ok reach id).requests receiver msg asked))
  | transmit receiver msg =>
    obtain rfl := List.mem_singleton.mp reaches
    rcases known with sent | ⟨syn, sent, -⟩
    · exact sound.inRange trivial (near (near_of_sentTo reach sent))
    · exact sound.inRange trivial (lt_of_mem_history reach sent)
  | receive msg =>
    have packet : Acks.Packet _ w.history id msg := known
    rcases List.mem_cons.mp reaches with rfl | filter
    · exact sound.inRange trivial packet.1
    split at filter
    · cases filter
    rcases List.mem_append.mp filter with seen | fresh
    · exact RollingBitset.inRange_of_contains setup seen
    split at fresh
    · cases fresh
    · exact RollingBitset.inRange_of_insert setup fresh
  | client c => exact sound.inRange_of_call reach inside (List.mem_filterMap.mpr ⟨_, mem, rfl⟩) reaches

theorem Setup.Sound.inRange_of_step (sound : setup.Sound)
    (reach : (system (setup.config sound)).Reachable w) (inside : id < setup.hosts.length)
    (act : Act) {access : Access} (reaches : access ∈ (w.nodes id).accesses setup id act) :
    setup.InRange access := by
  cases act with
  | stop => cases reaches
  | main =>
    obtain ⟨f, top, reaches⟩ := List.mem_flatMap.mp reaches
    exact sound.inRange_of_frame reach inside (List.mem_of_head? (Option.mem_toList.mp top)) reaches
  | work q top now woken later =>
    obtain ⟨⟨peer, sent⟩, worked, reaches⟩ := List.mem_flatMap.mp reaches
    obtain ⟨d, mem, rfl⟩ := List.mem_map.mp reaches
    cases Peer.work_cases (Option.mem_toList.mp worked) with
    | idle | schedule | acknowledge | retire => cases mem
    | @retry next later scheduled unacked =>
      obtain rfl := List.mem_singleton.mp mem
      have known := ((Provenance.carried _ _).holds reach).1 id
      have near := near_of_sentTo reach ((known.peers q).scheduled next scheduled)
      exact sound.inRange trivial (Finset.mem_range.mp (Config.neighborhood_subset inside near))

/-- Every world of every run is safe. -/
theorem Setup.Sound.safe (sound : setup.Sound) (reach : (system (setup.config sound)).Reachable w) :
    setup.Safe w where
  accesses id inside act access mem := sound.inRange_of_step reach inside act mem
  pending id o msg mem := by
    have handed := ((lcb_ok reach id).mem_urbDeliveries_of_pending mem).1
    have genuine := genuine_of_event reach (mem_eventsOf.mp (mem_urbDeliveries.mp handed)) rfl
    obtain ⟨dep, got, size⟩ := sound.exists_dep (genuine.originator_lt reach)
    exact ⟨genuine.bcastSeqNum_lt reach, dep, got, (genuine.clock_ok reach).1.trans size⟩
  calls id r mem := by
    refine ⟨fun msg copied => (genuine_of_request reach mem copied).bcastSeqNum_lt reach, ?_⟩
    rintro k rfl
    exact (main_ok reach id).phase.lt_of_logBroadcast mem
  datagrams d mem := by
    obtain ⟨inside, traced⟩ := sentTo_or_ackOf reach mem
    have small : d.2.sender < 2 ^ 8 :=
      Nat.lt_trans inside (Nat.lt_of_le_of_lt sound.le_max (by decide))
    rcases traced with sent | ⟨syn, sent, same⟩
    · have genuine : Genuine w.history d.2 := genuine_of_event reach sent rfl
      exact ⟨inside, genuine.originator_lt reach, genuine.bcastSeqNum_lt reach,
        (fits_of_sentTo reach sent).travels⟩
    · have genuine : Genuine w.history syn := genuine_of_event reach sent rfl
      refine ⟨inside, ?_, ?_, same ▸ ((fits_of_sentTo reach sent).setAck small).travels⟩
      · rw [← same]
        exact genuine.originator_lt reach
      · rw [← same]
        exact genuine.bcastSeqNum_lt reach
  currentClock id o := ⟨(lcb_ok reach id).clock_eq o, currentClock_le reach id o⟩
  nextMsg id := by
    have ok := main_ok reach id
    refine ⟨?_, ok.bound⟩
    rw [ok.logged]
    exact List.length_range.symm

end

/-- **Index safety**: from well-formed files a system is set up in which nothing is ever reached for
that is not there. -/
theorem index_safety {input : Input} (ok : input.WellFormed) (memory : Vector Nat maxProcesses) :
    ∃ setup, input.read memory = some setup ∧ ∃ sound : setup.Sound,
      (setup.config sound).numProcesses = input.hosts.length ∧
      (setup.config sound).numMessages = input.numMessages.toNat ∧
      ∀ w, (system (setup.config sound)).Reachable w → setup.Safe w := by
  obtain ⟨setup, read, sound, hosts, messages⟩ := ok.exists_read memory
  exact ⟨setup, read, sound, hosts, messages, fun w reach => sound.safe reach⟩

/-- The files of two processes with one message each, of which the second depends on the first. -/
def followerFiles : Input where
  hosts := [2, 1]
  numMessages := 1
  dependencies := [(1, []), (2, [1])]

/-- What is read of them, into memory that is zero. -/
def followerSetup : Setup where
  hosts := [1, 2]
  numMessages := 1
  deps := [⟨1, ⟨Vector.replicate maxProcesses 0, 0⟩⟩,
    ⟨2, ⟨(Vector.replicate maxProcesses 0).set 0 0, 1⟩⟩]

theorem followerFiles_read :
    followerFiles.read (Vector.replicate maxProcesses 0) = some followerSetup := by
  have hosts : Parser.hosts [2, 1] = some [1, 2] :=
    Parser.hosts_of_perm (Nat.le_refl 2) (.swap 1 2 [])
  have lines : followerFiles.dependencies.mapM
      (ConfigParser.parseDependency (Vector.replicate maxProcesses 0)) =
      some followerSetup.deps := rfl
  have sorted : followerSetup.deps.mergeSort (fun a b => a.process ≤ b.process) =
      followerSetup.deps := List.mergeSort_of_pairwise (by decide)
  rw [Input.read, ConfigParser.parse, lines]
  show (Parser.hosts [2, 1] >>= fun hosts => some (⟨hosts, 1, _⟩ : Setup)) = _
  rw [hosts, sorted]
  rfl

theorem followerFiles_ok : followerFiles.WellFormed where
  two_le := Nat.le_refl 2
  le_max := by decide
  hosts := .swap 1 2 []
  processes := by decide
  depends := by decide

theorem followerSetup_sound : followerSetup.Sound := by
  obtain ⟨setup, read, sound, -⟩ := followerFiles_ok.exists_read (Vector.replicate maxProcesses 0)
  obtain rfl := Option.some.inj (read.symm.trans followerFiles_read)
  exact sound

/-- The two run to the end: the first delivers the second's message, and every index is in range. -/
theorem index_safety_of_follower : ∃ (setup : Setup) (w : SystemWorld),
    followerFiles.read (Vector.replicate maxProcesses 0) = some setup ∧ setup.Safe w ∧
    (w.nodes 0).client.lcb.currentClock 1 = 1 := by
  obtain ⟨setup, read, sound, -, -, safe⟩ :=
    index_safety followerFiles_ok (Vector.replicate maxProcesses 0)
  obtain rfl := Option.some.inj (read.symm.trans followerFiles_read)
  let done : SystemWorld → Bool := fun w => (w.nodes 0).client.lcb.currentClock 1 = 1
  have ran : ((system (followerSetup.config followerSetup_sound)).execute
      (system (followerSetup.config followerSetup_sound)).start followerSchedule).any done := by
    decide +kernel
  obtain ⟨w, reach, checked⟩ := Machine.exists_reachable ran
  exact ⟨_, w, read, safe w reach, of_decide_eq_true checked⟩

end CausalBroadcast
