import CausalBroadcast.Async.Record
import CausalBroadcast.Link.Provenance

/-!
# Link sequence numbers

The messages one process sends to one peer are numbered `0, 1, 2, …`, and the receiver's `delivered`
set is exactly the numbers it has handed over. While fewer than 2^63 messages are sent to a peer,
a number therefore names one message, and no syn is taken for an ack. What is handed over under a
number has the payload of the message that was passed to `PerfectLink::send` for it, which a record
of the calls keeps.
-/

namespace CausalBroadcast

open Async

variable {σ κ ε : Type}

/-- The messages sent to `q`, as `PerfectLink::send` has numbered and signed them, in order. -/
def sends (q : Nat) (es : List (Event ε)) : List Message :=
  es.filterMap fun
    | .send receiver msg => if receiver = q then some msg else none
    | _ => none

/-- The messages from `p` the link handed to the observer, in order. -/
def received (p : Nat) (es : List (Event ε)) : List Message :=
  es.filterMap fun
    | .deliver msg => if msg.sender = p then some msg else none
    | _ => none

@[simp] theorem sends_nil (q : Nat) : sends q ([] : List (Event ε)) = [] := rfl

@[simp] theorem received_nil (p : Nat) : received p ([] : List (Event ε)) = [] := rfl

@[simp] theorem sends_append (q : Nat) (es es' : List (Event ε)) :
    sends q (es ++ es') = sends q es ++ sends q es' := List.filterMap_append

@[simp] theorem received_append (p : Nat) (es es' : List (Event ε)) :
    received p (es ++ es') = received p es ++ received p es' := List.filterMap_append

@[simp] theorem mem_sends {q : Nat} {msg : Message} {es : List (Event ε)} :
    msg ∈ sends q es ↔ Event.send q msg ∈ es := by
  unfold sends
  rw [mem_reading (g := Event.send q) (k := id)]
  · simp
  · intro e
    cases e with
    | deliver | client => simp
    | send receiver copy =>
      by_cases same : receiver = q
      · simp [same, eq_comm]
      · simp [same, Ne.symm same]

@[simp] theorem mem_received {p : Nat} {msg : Message} {es : List (Event ε)} :
    msg ∈ received p es ↔ Event.deliver msg ∈ es ∧ msg.sender = p := by
  unfold received
  rw [List.mem_filterMap]
  constructor
  · intro found
    obtain ⟨e, mem, same⟩ := found
    cases e with
    | send | client => cases same
    | deliver copy =>
      obtain ⟨sender, rfl⟩ : copy.sender = p ∧ copy = msg := by simpa using same
      exact ⟨mem, sender⟩
  · intro came
    exact ⟨.deliver msg, came.1, by simp [came.2]⟩

/-! ## What one step does to the numbers -/

/-- A worker never touches what the main thread keeps of its peer. -/
theorem Peer.Works.frame {p q : Nat} {peer peer' : Peer} {sent : List Datagram}
    (works : peer.Works p q peer' sent) :
    peer'.nextSeqNum = peer.nextSeqNum ∧ peer'.delivered = peer.delivered := by
  cases works <;> exact ⟨rfl, rfl⟩

/-- A step sends nothing to `q` and leaves its counter, or sends one message with the next number. -/
theorem Peer.Steps.numbers {p q : Nat} {stack : List (Frame κ)} {peer peer' : Peer}
    {es : List (Event ε)} (steps : peer.Steps p q stack es peer') :
    (sends q es = [] ∧ peer'.nextSeqNum = peer.nextSeqNum) ∨
    ∃ msg, sends q es = [msg] ∧ msg.linkSeqNum = peer.nextSeqNum ∧
      peer'.nextSeqNum = succ64 peer.nextSeqNum := by
  cases steps with
  | quiet none =>
    refine .inl ⟨List.eq_nil_iff_forall_not_mem.mpr fun msg mem => ?_, rfl⟩
    exact none msg (mem_sends.mp mem)
  | @self msg same => exact .inr ⟨peer.stamp p msg, by simp [sends], rfl, rfl⟩
  | @send msg other => exact .inr ⟨peer.stamp p msg, by simp [sends], rfl, rfl⟩
  | ack | take => exact .inl ⟨rfl, rfl⟩
  | work works => exact .inl ⟨rfl, works.frame.1⟩

/-- A step hands over nothing from `q` and leaves its filter, or hands over one message that the
filter lacked and now has. -/
theorem Peer.Steps.filters {p q : Nat} {stack : List (Frame κ)} {peer peer' : Peer}
    {es : List (Event ε)} (steps : peer.Steps p q stack es peer') (other : q ≠ p) :
    (received q es = [] ∧ peer'.delivered = peer.delivered) ∨
    ∃ msg, received q es = [msg] ∧ peer.delivered.contains (seqNum msg) = false ∧
      peer'.delivered = peer.delivered.insert (seqNum msg) := by
  cases steps with
  | quiet _ none =>
    refine .inl ⟨List.eq_nil_iff_forall_not_mem.mpr fun msg mem => ?_, rfl⟩
    obtain ⟨handed, sender⟩ := mem_received.mp mem
    exact none msg handed sender
  | self same => exact absurd same other
  | send | ack => exact .inl ⟨rfl, rfl⟩
  | @take msg _ sender syn fresh => exact .inr ⟨msg, by simp [received, sender], fresh, rfl⟩
  | work works => exact .inl ⟨rfl, works.frame.2⟩

/-! ## Numbers over a run -/

variable {n : Nat} {client : Client σ κ ε}
  {w : World Nat (Process σ κ) (Event ε) Message}

/-- The messages to each peer are numbered consecutively, in 64 bits. -/
theorem numbered (reach : (linkMachine n client).Reachable w) (p q : Nat) :
    ((w.nodes p).peers q).nextSeqNum = (sends q (eventsOf p w.history)).length % 2 ^ 64 ∧
    ∀ k msg, (sends q (eventsOf p w.history))[k]? = some msg → msg.linkSeqNum = k % 2 ^ 64 := by
  refine Machine.Reachable.locally
    (P := fun _ s es => ∀ q, (s.peers q).nextSeqNum = (sends q es).length % 2 ^ 64 ∧
      ∀ k msg, (sends q es)[k]? = some msg → msg.linkSeqNum = k % 2 ^ 64)
    (fun _ _ => ⟨rfl, fun k msg got => by simp at got⟩) ?_ (fun _ _ ih => ih) reach p q
  intro w p act r _ ih stepped q
  obtain ⟨count, numbers⟩ := ih q
  obtain ⟨none, same⟩ | ⟨msg, one, number, next⟩ :=
    ((linkMachine_step_cases stepped).2.peer q).numbers
  · rw [sends_append, none, List.append_nil, same]
    exact ⟨count, numbers⟩
  · rw [sends_append, one, next, count, List.length_append, List.length_singleton]
    refine ⟨by simp [succ64], fun k msg' got => ?_⟩
    rcases Nat.lt_trichotomy k (sends q (eventsOf p w.history)).length with old | here | beyond
    · rw [List.getElem?_append_left old] at got
      exact numbers k msg' got
    · rw [here, List.getElem?_concat_length, Option.some.injEq] at got
      rw [← got, number, count, here]
    · rw [List.getElem?_eq_none (by simp; omega)] at got
      cases got

/-- The duplicate filter for a peer holds the numbers handed over, and none was handed over twice. -/
theorem filtered (reach : (linkMachine n client).Reachable w) {q p : Nat} (other : p ≠ q) :
    (∀ k, ((w.nodes q).peers p).delivered.contains k ↔
      k ∈ (received p (eventsOf q w.history)).map seqNum) ∧
    ((received p (eventsOf q w.history)).map seqNum).Nodup := by
  refine Machine.Reachable.locally
    (P := fun q s es => ∀ p, p ≠ q → (∀ k, (s.peers p).delivered.contains k ↔
        k ∈ (received p es).map seqNum) ∧ ((received p es).map seqNum).Nodup)
    (fun _ _ _ => ⟨fun k => by simp [linkMachine], by simp⟩) ?_ (fun _ _ ih => ih) reach q p other
  intro w q act r _ ih stepped p other
  obtain ⟨holds, unique⟩ := ih p other
  obtain ⟨none, same⟩ | ⟨msg, one, fresh, added⟩ :=
    ((linkMachine_step_cases stepped).2.peer p).filters other
  · rw [received_append, none, List.append_nil, same]
    exact ⟨holds, unique⟩
  · rw [received_append, one, added, List.map_append, List.map_singleton]
    refine ⟨fun k => ?_, ?_⟩
    · rw [RollingBitset.contains_insert, holds, List.mem_append, List.mem_singleton]
      exact or_comm
    · refine List.nodup_append.mpr ⟨unique, List.nodup_singleton _, ?_⟩
      rintro k old k' new rfl
      rw [List.mem_singleton.mp new] at old
      exact absurd ((holds _).mpr old) (by simp [fresh])

/-- A message to itself is handed over in the step that sends it. -/
theorem received_self (reach : (linkMachine n client).Reachable w) (p : Nat) :
    received p (eventsOf p w.history) = sends p (eventsOf p w.history) := by
  refine Machine.Reachable.locally (P := fun p (_ : Process σ κ) es => received p es = sends p es)
    (fun _ => rfl) ?_ (fun _ _ ih => ih) reach p
  intro w p act r reach ih stepped
  rw [received_append, sends_append, ih]
  congr 1
  have frames := (((Provenance.carried n client).holds reach).1 p).stack
  have moved := (linkMachine_step_cases stepped).2.peer p
  generalize r.events = es at moved ⊢
  generalize r.state.peers p = peer' at moved
  cases moved with
  | quiet nothing none =>
    rw [List.eq_nil_iff_forall_not_mem.mpr fun msg mem => nothing msg (mem_sends.mp mem),
      List.eq_nil_iff_forall_not_mem.mpr fun msg mem =>
        none msg (mem_received.mp mem).1 (mem_received.mp mem).2]
  | self => simp [received, sends, Peer.stamp]
  | send other => exact absurd rfl other
  | @take msg came sender syn fresh => exact absurd sender (frames (.receive msg) came).1
  | ack | work => rfl

/-! ## Below 2^63 sends -/

/-- Fewer than 2^63 messages are sent by any process to any peer. -/
def FewSends (h : List (Nat × Event ε)) : Prop :=
  ∀ p q, (sends q (eventsOf p h)).length < 2 ^ 63

theorem FewSends.of_append {h h' : List (Nat × Event ε)} (few : FewSends (h ++ h')) :
    FewSends h := by
  intro p q
  have := few p q
  rw [eventsOf_append, sends_append, List.length_append] at this
  omega

theorem FewSends.of_length {h : List (Nat × Event ε)} (short : h.length < 2 ^ 63) :
    FewSends h := by
  intro p q
  have share : (eventsOf p h).length ≤ h.length := List.length_filterMap_le ..
  have sent : (sends q (eventsOf p h)).length ≤ (eventsOf p h).length :=
    List.length_filterMap_le ..
  omega

/-- A message sent is found at its own number, and that number is not an ack's. -/
theorem getElem_seqNum (reach : (linkMachine n client).Reachable w) (few : FewSends w.history)
    {p q : Nat} {msg : Message} (sent : SentTo w.history p q msg) :
    (sends q (eventsOf p w.history))[seqNum msg]? = some msg ∧ msg.linkSeqNum < 2 ^ 63 := by
  obtain ⟨k, got⟩ := List.mem_iff_getElem?.mp (mem_sends.mpr (mem_eventsOf.mpr sent))
  obtain ⟨bound, -⟩ := List.getElem?_eq_some_iff.mp got
  have limit := few p q
  have number : msg.linkSeqNum = k := by
    rw [(numbered reach p q).2 k msg got]
    exact Nat.mod_eq_of_lt (by omega)
  have small : msg.linkSeqNum < 2 ^ 63 := by omega
  exact ⟨by rw [seqNum_of_lt small, number, got], small⟩

theorem isSyn_of_sentTo (reach : (linkMachine n client).Reachable w) (few : FewSends w.history)
    {p q : Nat} {msg : Message} (sent : SentTo w.history p q msg) : isSyn msg :=
  isSyn_of_lt (getElem_seqNum reach few sent).2

/-- A number names one message to a peer. -/
theorem eq_of_seqNum (reach : (linkMachine n client).Reachable w) (few : FewSends w.history)
    {p q : Nat} {msg msg' : Message} (sent : SentTo w.history p q msg)
    (sent' : SentTo w.history p q msg') (same : seqNum msg = seqNum msg') : msg = msg' := by
  have got := (getElem_seqNum reach few sent).1
  rw [same, (getElem_seqNum reach few sent').1] at got
  exact (Option.some.inj got).symm

/-- The numbers handed over from a peer, itself included, are all different. -/
theorem received_nodup (reach : (linkMachine n client).Reachable w) (few : FewSends w.history)
    (p q : Nat) : ((received p (eventsOf q w.history)).map seqNum).Nodup := by
  by_cases other : p = q
  · subst other
    rw [received_self reach]
    refine List.nodup_iff_getElem?_ne_getElem?.mpr fun i j before bound same => ?_
    simp only [List.length_map] at bound
    rw [List.getElem?_map, List.getElem?_map] at same
    obtain ⟨m, hm⟩ : ∃ m, (sends p (eventsOf p w.history))[i]? = some m :=
      ⟨_, List.getElem?_eq_getElem (by omega)⟩
    obtain ⟨m', hm'⟩ : ∃ m, (sends p (eventsOf p w.history))[j]? = some m :=
      ⟨_, List.getElem?_eq_getElem bound⟩
    have number : ∀ {k : Nat} {msg : Message},
        (sends p (eventsOf p w.history))[k]? = some msg → seqNum msg = k := by
      intro k msg got
      have sent : SentTo w.history p p msg :=
        mem_eventsOf.mp (mem_sends.mp (List.mem_of_getElem? got))
      obtain ⟨bound, -⟩ := List.getElem?_eq_some_iff.mp got
      have limit := few p p
      rw [seqNum_of_lt (getElem_seqNum reach few sent).2, (numbered reach p p).2 k msg got]
      exact Nat.mod_eq_of_lt (by omega)
    rw [hm, hm', Option.map_some, Option.map_some, number hm, number hm'] at same
    exact absurd (Option.some.inj same) (Nat.ne_of_lt before)
  · exact (filtered reach other).2

/-! ## What was passed to the link -/

/-- The calls of `PerfectLink::send` that a step makes: whom for, and the message as it is passed. -/
def sendCalls (act : Act) (s : Process σ κ) : List (Nat × Message) :=
  match act, s.stack with
  | .main, .send receiver msg :: _ => [(receiver, msg)]
  | _, _ => []

/-- The messages passed to the link for `q`, in order. -/
def given (q : Nat) (calls : List (Nat × Message)) : List Message :=
  calls.filterMap fun call => if call.1 = q then some call.2 else none

@[simp] theorem given_append (q : Nat) (calls calls' : List (Nat × Message)) :
    given q (calls ++ calls') = given q calls ++ given q calls' := List.filterMap_append

/-- The topmost call sends what it passes to the link, with its payload. -/
theorem sends_run {p q : Nat} {s : Process σ κ} {frame : Frame κ} {stack : List (Frame κ)}
    (top : s.stack = frame :: stack) :
    (sends q (frame.run client p { s with stack }).events).map Message.payload =
      (given q (sendCalls .main s)).map Message.payload := by
  cases frame with
  | send receiver msg =>
    have calls : sendCalls .main s = [(receiver, msg)] := by simp only [sendCalls, top]
    have stamped : ∀ peer : Peer, (peer.stamp p msg).payload = msg.payload := fun _ => rfl
    rw [calls]
    simp only [Frame.run, PerfectLink.send]
    by_cases mine : receiver = q
    · split <;> simp [sends, given, mine, stamped]
    · split <;> simp [sends, given, mine]
  | transmit => simp [sendCalls, top, Frame.run, given]
  | receive =>
    simp only [Frame.run, PerfectLink.deliver]
    split
    · simp [sendCalls, top, given]
    · split <;> simp [sendCalls, top, given, sends]
  | client => simp [sendCalls, top, Frame.run, given, sends, List.filterMap_map]

/-- A step sends what is passed to the link in it, with its payload. -/
theorem sends_step {p : Nat} {act : Act} {s : Process σ κ} {r : ProcessReaction σ κ ε}
    (stepped : (linkMachine n client).step p act s = some r) (q : Nat) :
    (sends q r.events).map Message.payload = (given q (sendCalls act s)).map Message.payload := by
  simp only [linkMachine, Option.ite_none_right_eq_some] at stepped
  obtain ⟨-, stepped⟩ := stepped
  cases act with
  | work q' top now woken later =>
    obtain ⟨worked, -, rfl⟩ := Option.map_eq_some_iff.mp stepped
    rfl
  | stop =>
    simp only [Process.step, Option.ite_none_left_eq_some, Option.some.injEq] at stepped
    obtain ⟨-, rfl⟩ := stepped
    rfl
  | main =>
    simp only [Process.step, Option.ite_none_left_eq_some] at stepped
    obtain ⟨-, stepped⟩ := stepped
    unfold Process.main at stepped
    split at stepped
    next frame stack top =>
      obtain rfl := Option.some.inj stepped
      exact sends_run top
    next idle => split at stepped <;> cases stepped <;> simp [sendCalls, idle, given]

/-- The processes, each with a record of the messages it has passed to its link. The runs are those
of `linkMachine`, by `Machine.reachable_iff_recording`. -/
def recordingLink (n : Nat) (client : Client σ κ ε) :
    Machine Nat (Process σ κ × List (Nat × Message)) Act (Event ε) Message :=
  (linkMachine n client).recording sendCalls

/-- What is sent to a peer is, in order, what was passed to the link for it. -/
theorem sends_given {w : World Nat (Process σ κ × List (Nat × Message)) (Event ε) Message}
    (reach : (recordingLink n client).Reachable w) (p q : Nat) :
    (sends q (eventsOf p w.history)).map Message.payload =
      (given q (w.nodes p).2).map Message.payload := by
  refine Machine.Reachable.locally (m := recordingLink n client)
    (P := fun _ s es => ∀ q, (sends q es).map Message.payload = (given q s.2).map Message.payload)
    (fun _ _ => rfl) ?_ (fun _ _ ih => ih) reach p q
  intro w p act r _ ih stepped q
  obtain ⟨r, fired, rfl⟩ := Option.map_eq_some_iff.mp stepped
  have own : (sends q r.events).map Message.payload =
      (given q (sendCalls act (w.nodes p).1)).map Message.payload := sends_step fired q
  simp only [Reaction.record, sends_append, given_append, List.map_append, ih q, own]

theorem length_given {w : World Nat (Process σ κ × List (Nat × Message)) (Event ε) Message}
    (reach : (recordingLink n client).Reachable w) (p q : Nat) :
    (given q (w.nodes p).2).length = (sends q (eventsOf p w.history)).length := by
  have lengths := congrArg List.length (sends_given reach p q)
  simpa only [List.length_map] using lengths.symm

/-- Every message of a peer is the one the peer sent under its number. -/
theorem received_numbered (reach : (linkMachine n client).Reachable w) (few : FewSends w.history)
    {p q : Nat} {msg : Message} (mem : msg ∈ received p (eventsOf q w.history)) :
    (sends q (eventsOf p w.history))[msg.linkSeqNum]? = some msg ∧ seqNum msg = msg.linkSeqNum := by
  obtain ⟨handed, sender⟩ := mem_received.mp mem
  have sent : SentTo w.history p q msg := sender ▸ sentTo_of_handedTo reach (mem_eventsOf.mp handed)
  obtain ⟨got, small⟩ := getElem_seqNum reach few sent
  exact ⟨seqNum_of_lt small ▸ got, seqNum_of_lt small⟩

/-- **No duplication, no creation, integrity**: a process gets from a peer at most one message of
each link sequence number `k`, its `bcastSeqNum`, `originator` and `vectorClock` are those of the
message the peer passed to `PerfectLink::send` for it as number `k`, and what a process sends to
itself it has been given, once and in order, as soon as it is passed to the link. -/
theorem link_integrity
    {w : World Nat (Process σ κ × List (Nat × Message)) (Event ε) Message}
    (reach : (recordingLink n client).Reachable w)
    (few : ∀ p q, (given q (w.nodes p).2).length < 2 ^ 63) (p q : Nat) :
    (∀ k, ((received p (eventsOf q w.history)).map Message.linkSeqNum).count k ≤ 1) ∧
    (∀ msg ∈ received p (eventsOf q w.history), ∃ call,
      (given q (w.nodes p).2)[msg.linkSeqNum]? = some call ∧ msg.payload = call.payload) ∧
    (received p (eventsOf p w.history)).map Message.payload =
      (given p (w.nodes p).2).map Message.payload := by
  have plain : (linkMachine n client).Reachable w.forget :=
    Machine.reachable_iff_recording.mpr ⟨w, reach, rfl⟩
  have same := sends_given reach
  have short : FewSends w.forget.history := fun p q => length_given reach p q ▸ few p q
  refine ⟨?_, ?_, ?_⟩
  · intro k
    have number : ∀ msg ∈ received p (eventsOf q w.history), seqNum msg = msg.linkSeqNum :=
      fun msg mem => (received_numbered plain short mem).2
    rw [← List.map_congr_left number]
    exact List.nodup_iff_count_le_one.mp (received_nodup plain short p q) k
  · intro msg mem
    have payload := congrArg (·[msg.linkSeqNum]?) (same p q)
    have sent : (sends q (eventsOf p w.history))[msg.linkSeqNum]? = some msg :=
      (received_numbered plain short mem).1
    simp only [List.getElem?_map, sent, Option.map_some] at payload
    obtain ⟨call, passed, equal⟩ := Option.map_eq_some_iff.mp payload.symm
    exact ⟨call, passed, equal.symm⟩
  · have own : received p (eventsOf p w.history) = sends p (eventsOf p w.history) :=
      received_self plain p
    rw [own, same p p]

/-- Code that sends one message to the other of two processes and one to itself, and then only
receives: the call `true` sends, the call `false` takes a message. -/
def probe : Client Bool Bool Unit where
  init _ := false
  deliver _ := false
  run id call done :=
    { state := done
      calls := if call then [.send (1 - id) {}, .send id {}] else [] }
  loop done nonempty :=
    if nonempty then some (.receive done)
    else if done then none
    else some (.call true [true])
  stop := id

/-- The `i`-th message of process `id`, with some clock. -/
def letter (id i : Nat) : Message :=
  { bcastSeqNum := i, originator := id, vectorClock := [i + 3, id + 5] }

/-- Code that sends two different messages to the other of two processes and one to itself. -/
def letters : Client Bool Bool Unit :=
  { probe with
    run := fun id call done =>
      { state := done
        calls := if call then
            [.send (1 - id) (letter id 7), .send id (letter id 8), .send (1 - id) (letter id 9)]
          else [] } }

/-- The second message overtakes the first, and both arrive twice and are taken twice. -/
theorem link_integrity_letters : ∃ w, (recordingLink 2 letters).Reachable w ∧
    given 1 (w.nodes 0).2 = [letter 0 7, letter 0 9] ∧ (w.nodes 1).1.messageQueue = [] ∧
    received 0 (eventsOf 1 w.history) =
      [{ letter 0 9 with linkSeqNum := 1 }, { letter 0 7 with linkSeqNum := 0 }] ∧
    (∃ call, (given 1 (w.nodes 0).2)[1]? = some call ∧ (letter 0 9).payload = call.payload) ∧
    (received 0 (eventsOf 0 w.history)).map Message.payload = [(letter 0 8).payload] := by
  let first : Message := { letter 0 7 with linkSeqNum := 0 }
  let second : Message := { letter 0 9 with linkSeqNum := 1 }
  let ok : World Nat (Process Bool Bool × List (Nat × Message)) (Event Unit) Message → Bool :=
    fun w => w.history.length < 2 ^ 63 &&
      (w.nodes 0).2 = [(1, letter 0 7), (0, letter 0 8), (1, letter 0 9)] &&
      (w.nodes 1).1.messageQueue = [] &&
      received 0 (eventsOf 1 w.history) == [second, first]
  have ran : ((recordingLink 2 letters).execute (recordingLink 2 letters).start
      (List.replicate 8 (.act 0 .main) ++
        [.arrive 1 second, .arrive 1 first, .arrive 1 second, .arrive 1 first] ++
        List.replicate 14 (.act 1 .main))).any ok := by decide +kernel
  obtain ⟨w, reach, checked⟩ := Machine.exists_reachable ran
  simp only [ok, Bool.and_eq_true, decide_eq_true_eq, beq_iff_eq] at checked
  obtain ⟨⟨⟨short, passed⟩, drained⟩, got⟩ := checked
  have few : ∀ p q, (given q (w.nodes p).2).length < 2 ^ 63 := fun p q =>
    length_given reach p q ▸ FewSends.of_length short p q
  obtain ⟨-, payloads, -⟩ := link_integrity reach few 0 1
  obtain ⟨-, -, own⟩ := link_integrity reach few 0 0
  refine ⟨w, reach, by rw [passed]; rfl, drained, got,
    payloads second (got ▸ List.mem_cons_self), ?_⟩
  rw [own, passed]
  rfl

end CausalBroadcast
