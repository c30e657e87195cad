import CausalBroadcast.Broadcast.MainLoop

/-!
# Every copy is of a message that was broadcast

A message is copied from layer to layer and from process to process, and the link writes its own
fields in every copy. Its originator, number and vector clock stay those of a broadcast that its
originator made, and a broadcast is determined by its originator and number.
-/

namespace CausalBroadcast

open Async

/-- The message a request passes on. -/
def Request.copied : Request Call → Option Message
  | .send _ msg | .call (.bebSend msg) | .call (.urbDeliver msg) | .call (.urbTryDeliver msg)
  | .call (.lcbDeliver msg) => some msg
  | .call (.lcbSend _) | .call (.urbSend ..) | .call (.lcbScan _) | .call (.logBroadcast _) => none

/-- The message an event passes on. -/
def Event.copied : Event Notice → Option Message
  | .send _ msg | .deliver msg | .client (.urbSend msg) | .client (.bebSend msg)
  | .client (.urbDeliver msg) => some msg
  | .client (.lcbDeliver _) | .client (.logBroadcast _) => none

/-- A call other than `UniformReliableBroadcast::send` passes on the message it was given. -/
theorem Node.Runs.copied {cfg : Config} {id : Nat} {c : Call} {s : Node}
    {out : Outcome Node Call Notice} (runs : s.Runs cfg id c out)
    (other : ∀ k msg, c ≠ .urbSend k msg) :
    (∀ r ∈ out.calls, ∀ msg, r.copied = some msg → (Request.call c).copied = some msg) ∧
    ∀ e ∈ out.events, ∀ msg, (Event.client e).copied = some msg →
      (Request.call c).copied = some msg := by
  cases runs with
  | urbSend => exact absurd rfl (other _ _)
  | bebSend =>
    refine ⟨fun r mem m copied => ?_, List.forall_mem_singleton.mpr fun m copied => copied⟩
    rcases List.mem_append.mp mem with near | self
    · obtain ⟨q, -, rfl⟩ := List.mem_map.mp near
      exact copied
    · cases List.mem_singleton.mp self
      exact copied
  | ignore | wait | finish => exact ⟨List.forall_mem_nil _, List.forall_mem_nil _⟩
  | @first msg =>
    refine ⟨fun r mem m copied => ?_, List.forall_mem_nil _⟩
    obtain rfl | rfl : r = .call (.bebSend msg) ∨ r = .call (.urbTryDeliver msg) := by
      simpa using mem
    all_goals exact copied
  | count => exact ⟨List.forall_mem_singleton.mpr fun m copied => copied, List.forall_mem_nil _⟩
  | quorum =>
    exact ⟨List.forall_mem_singleton.mpr fun m copied => copied,
      List.forall_mem_singleton.mpr fun m copied => copied⟩
  | lcbSend | hold | skip =>
    exact ⟨List.forall_mem_singleton.mpr (by simp [Request.copied]), List.forall_mem_nil _⟩
  | deliver =>
    exact ⟨List.forall_mem_singleton.mpr (by simp [Request.copied]),
      List.forall_mem_singleton.mpr (by simp [Event.copied])⟩
  | logBroadcast =>
    exact ⟨List.forall_mem_nil _, List.forall_mem_singleton.mpr (by simp [Event.copied])⟩

/-! ## What messages carry along -/

/-- A property of a message at a process that its copies keep: a broadcast has it at the process
that makes it, and where it is sent to it has it too. -/
structure Spreads (Q : SystemHistory → Nat → Message → Prop) : Prop where
  append : ∀ {h : SystemHistory} {p : Nat} {msg : Message} (h' : SystemHistory), Q h p msg →
    Q (h ++ h') p msg
  copy : ∀ {h : SystemHistory} {p : Nat} {msg copy : Message}, Q h p msg →
    copy.payload = msg.payload → Q h p copy
  broadcast : ∀ {h : SystemHistory} {p : Nat} {msg : Message}, msg.originator = p →
    (p, .client (.urbSend msg)) ∈ h → Q h p msg
  travel : ∀ {h : SystemHistory} {p : Nat} {msg : Message}, Q h msg.sender msg →
    msg.sender ≠ p → SentTo h msg.sender p msg → Q h p msg

/-- Whatever a process passes on, or is about to, has the property. -/
structure Carries (Q : SystemHistory → Nat → Message → Prop) (h : SystemHistory) (p : Nat)
    (v : View Node Call) : Prop where
  requests : ∀ r ∈ v.requests, ∀ msg, r.copied = some msg → Q h p msg
  events : ∀ e, (p, e) ∈ h → ∀ msg, e.copied = some msg → Q h p msg

/-- A process passes on nothing new but copies of what it had, and of what reached it. -/
private theorem Carries.extend {Q : SystemHistory → Nat → Message → Prop} (spreads : Spreads Q)
    {h : SystemHistory} {p : Nat} {v v' : View Node Call} {es : List (Event Notice)}
    (ok : Carries Q h p v)
    (requests : ∀ r ∈ v'.requests, r ∈ v.requests ∨
      ∀ msg, r.copied = some msg → Q (h ++ es.map (Prod.mk p)) p msg)
    (events : ∀ e ∈ es, ∀ msg, e.copied = some msg → Q (h ++ es.map (Prod.mk p)) p msg) :
    Carries Q (h ++ es.map (Prod.mk p)) p v' where
  requests r mem msg copied := (requests r mem).elim
    (fun old => spreads.append _ (ok.requests r old msg copied)) fun new => new msg copied
  events e mem msg copied := (mem_append_own.mp mem).elim
    (fun old => spreads.append _ (ok.events e old msg copied)) fun new => events e new msg copied

theorem Spreads.carries {Q : SystemHistory → Nat → Message → Prop} (spreads : Spreads Q)
    {cfg : Config} {w : SystemWorld} (reach : (system cfg).Reachable w) (p : Nat) :
    Carries Q w.history p (w.nodes p).view := by
  refine view_globally (L := Carries Q) ?_ ?_ ?_ reach p
  · intro i
    exact ⟨nofun, nofun⟩
  · intro h i j v es other ok
    exact {
      requests := fun r mem msg copied => spreads.append _ (ok.requests r mem msg copied)
      events := fun e mem msg copied =>
        spreads.append _ (ok.events e ((mem_append_other other).mp mem) msg copied) }
  · intro w i v es reach _ moves all
    have ok := all i
    generalize (w.nodes i).view = before at moves ok
    cases moves with
    | silent | stop => exact ok.extend spreads (fun r mem => .inl mem) nofun
    | poll turn => exact ok.extend spreads nofun nofun
    | call turn =>
      obtain ⟨-, -, rfl⟩ := Node.loop_call turn
      apply ok.extend spreads
      · intro r mem
        simp only [List.map_cons, List.map_nil, List.mem_cons, List.not_mem_nil, or_false] at mem
        right
        intro m copied
        obtain rfl | rfl := mem <;> cases copied
      · intro e mem
        cases mem
    | @sendSelf a msg copy rest same signed =>
      have carried := spreads.append ([Event.send i copy, Event.deliver copy].map (Prod.mk i))
        (spreads.copy (ok.requests _ List.mem_cons_self msg rfl) same)
      apply ok.extend spreads
      · intro r mem
        rcases List.mem_cons.mp mem with rfl | old
        · exact .inr fun m copied => Option.some.inj copied ▸ carried
        · exact .inl (List.mem_cons_of_mem _ old)
      · intro e mem m copied
        simp only [List.mem_cons, List.not_mem_nil, or_false] at mem
        obtain rfl | rfl := mem <;> exact Option.some.inj copied ▸ carried
    | @sendPeer a receiver msg copy rest other same signed =>
      have carried := spreads.append ([Event.send receiver copy].map (Prod.mk i))
        (spreads.copy (ok.requests _ List.mem_cons_self msg rfl) same)
      apply ok.extend spreads
      · intro r mem
        exact .inl (List.mem_cons_of_mem _ mem)
      · intro e mem m copied
        obtain rfl := List.mem_singleton.mp mem
        exact Option.some.inj copied ▸ carried
    | @take a msg other sent =>
      have carried := spreads.append ([Event.deliver msg].map (Prod.mk i))
        (spreads.travel ((all msg.sender).events _ sent msg rfl) other sent)
      apply ok.extend spreads
      · intro r mem
        obtain rfl := List.mem_singleton.mp mem
        exact .inr fun m copied => Option.some.inj copied ▸ carried
      · intro e mem m copied
        obtain rfl := List.mem_singleton.mp mem
        exact Option.some.inj copied ▸ carried
    | @run s c rest =>
      by_cases send : ∃ k msg, c = .urbSend k msg
      · obtain ⟨k, msg, rfl⟩ := send
        -- the broadcast itself: the event is its own witness
        have made := fun {msg : Message} (own : msg.originator = i) =>
          spreads.broadcast (h := w.history ++ [.client (.urbSend msg)].map (Prod.mk i)) own
            (mem_append_own.mpr (.inr List.mem_cons_self))
        apply ok.extend spreads
        · intro r mem
          rcases List.mem_append.mp mem with new | old
          · obtain rfl := List.mem_singleton.mp new
            exact .inr fun m copied => Option.some.inj copied ▸ made rfl
          · exact .inl (List.mem_cons_of_mem _ old)
        · intro e mem m copied
          obtain rfl := List.mem_singleton.mp mem
          exact Option.some.inj copied ▸ made rfl
      · obtain ⟨calls, events⟩ :=
          (Node.run_cases cfg i c s).copied fun k msg same => send ⟨k, msg, same⟩
        apply ok.extend spreads
        · intro r mem
          rcases List.mem_append.mp mem with new | old
          · exact .inr fun m copied =>
              spreads.append _ (ok.requests _ List.mem_cons_self m (calls r new m copied))
          · exact .inl (List.mem_cons_of_mem _ old)
        · intro e mem m copied
          obtain ⟨notice, made, rfl⟩ := List.mem_map.mp mem
          exact spreads.append _ (ok.requests _ List.mem_cons_self m (events notice made m copied))

/-! ## Genuine copies -/

/-- `msg` is a copy of a message its originator broadcast. -/
def Genuine (h : SystemHistory) (msg : Message) : Prop :=
  ∃ original : Message, original.payload = msg.payload ∧
    (msg.originator, .client (.urbSend original)) ∈ h

theorem Genuine.spreads : Spreads fun h _ msg => Genuine h msg where
  append h' genuine := by
    obtain ⟨original, same, sent⟩ := genuine
    exact ⟨original, same, List.mem_append_left _ sent⟩
  copy genuine same := by
    obtain ⟨original, from_, sent⟩ := genuine
    exact ⟨original, from_.trans same.symm, Message.originator_eq_of_payload same ▸ sent⟩
  broadcast own sent := ⟨_, rfl, own ▸ sent⟩
  travel genuine _ _ := genuine

variable {cfg : Config} {w : SystemWorld}

/-- Whatever is passed on is genuine. -/
theorem genuine_of_event (reach : (system cfg).Reachable w) {p : Nat} {e : Event Notice}
    {msg : Message} (mem : (p, e) ∈ w.history) (copied : e.copied = some msg) :
    Genuine w.history msg :=
  (Genuine.spreads.carries reach p).events e mem msg copied

/-- Whatever is about to be passed on is genuine. -/
theorem genuine_of_request (reach : (system cfg).Reachable w) {p : Nat} {r : Request Call}
    {msg : Message} (mem : r ∈ (w.nodes p).view.requests) (copied : r.copied = some msg) :
    Genuine w.history msg :=
  (Genuine.spreads.carries reach p).requests r mem msg copied

/-! ## What a genuine copy tells of the broadcast -/

/-- Only processes of the system do anything. -/
theorem lt_of_mem_history (reach : (system cfg).Reachable w) {p : Nat} {e : Event Notice}
    (mem : (p, e) ∈ w.history) : p < cfg.numProcesses := by
  refine view_locally (P := fun i _ es => ∀ e, e ∈ es → i < cfg.numProcesses) ?_ ?_ reach p e
    (mem_eventsOf.mpr mem)
  · intro i e mem
    cases mem
  · intro w i v es _ inside _ _ e _
    exact inside

/-- A process broadcasts at most one message of a number. -/
theorem eq_of_urbSends (reach : (system cfg).Reachable w) {p : Nat} {msg msg' : Message}
    (sent : (p, .client (.urbSend msg)) ∈ w.history)
    (sent' : (p, .client (.urbSend msg')) ∈ w.history)
    (same : msg.bcastSeqNum = msg'.bcastSeqNum) : msg = msg' := by
  have distinct : ((urbSends (eventsOf p w.history)).map Message.bcastSeqNum).Nodup :=
    (main_ok reach p).numbers ▸ List.nodup_range
  exact List.inj_on_of_nodup_map distinct (by simpa using sent) (by simpa using sent') same

/-- A broadcast carries the id of the process that makes it. -/
theorem originator_of_urbSend (reach : (system cfg).Reachable w) {p : Nat} {msg : Message}
    (sent : (p, .client (.urbSend msg)) ∈ w.history) : msg.originator = p :=
  (main_ok reach p).originators msg (mem_urbSends.mpr (mem_eventsOf.mpr sent))

/-- A process that made `n` broadcasts made one of every number below `n`. -/
theorem exists_urbSend_of_lt_length (reach : (system cfg).Reachable w) {p k : Nat}
    (below : k < (urbSends (eventsOf p w.history)).length) :
    ∃ msg, (p, .client (.urbSend msg)) ∈ w.history ∧ msg.key = (p, k) := by
  rw [← List.mem_range, ← (main_ok reach p).numbers] at below
  obtain ⟨msg, made, rfl⟩ := List.mem_map.mp below
  have sent := mem_eventsOf.mp (mem_urbSends.mp made)
  exact ⟨msg, sent, Prod.ext (originator_of_urbSend reach sent) rfl⟩

/-- No copy of a message is around before its originator broadcasts it. -/
theorem Genuine.bcastSeqNum_lt_length (reach : (system cfg).Reachable w) {msg : Message}
    (genuine : Genuine w.history msg) :
    msg.bcastSeqNum < (urbSends (eventsOf msg.originator w.history)).length := by
  obtain ⟨original, same, sent⟩ := genuine
  rw [← List.mem_range, ← (main_ok reach msg.originator).numbers,
    ← Message.bcastSeqNum_eq_of_payload same]
  exact List.mem_map_of_mem (mem_urbSends.mpr (mem_eventsOf.mpr sent))

/-- At most `numMessages` messages are broadcast. -/
theorem MainOk.length_le {p : Nat} {v : View Node Call} {es : List (Event Notice)}
    (ok : MainOk cfg p v es) : (urbSends es).length ≤ cfg.numMessages := by
  have bound := ok.bound
  cases ok.phase with
  | between _ count => omega
  | starting _ count | stamped _ count | sending _ count => omega

theorem Genuine.originator_lt (reach : (system cfg).Reachable w) {msg : Message}
    (genuine : Genuine w.history msg) : msg.originator < cfg.numProcesses := by
  obtain ⟨original, -, sent⟩ := genuine
  exact lt_of_mem_history reach sent

theorem Genuine.bcastSeqNum_lt (reach : (system cfg).Reachable w) {msg : Message}
    (genuine : Genuine w.history msg) : msg.bcastSeqNum < cfg.numMessages :=
  Nat.lt_of_lt_of_le (genuine.bcastSeqNum_lt_length reach) (main_ok reach msg.originator).length_le

/-- Copies of one broadcast carry the same vector clock. -/
theorem Genuine.payload_eq (reach : (system cfg).Reachable w) {msg msg' : Message}
    (genuine : Genuine w.history msg) (genuine' : Genuine w.history msg')
    (same : msg.key = msg'.key) : msg.payload = msg'.payload := by
  obtain ⟨original, from_, sent⟩ := genuine
  obtain ⟨original', from_', sent'⟩ := genuine'
  have originator : msg.originator = msg'.originator := congrArg Prod.fst same
  have number : original.bcastSeqNum = original'.bcastSeqNum := by
    calc original.bcastSeqNum = msg.bcastSeqNum := Message.bcastSeqNum_eq_of_payload from_
      _ = msg'.bcastSeqNum := congrArg Prod.snd same
      _ = original'.bcastSeqNum := (Message.bcastSeqNum_eq_of_payload from_').symm
  rw [originator] at sent
  rw [← from_, eq_of_urbSends reach sent sent' number, from_']

end CausalBroadcast
