import CausalBroadcast.Link.Numbering

/-!
# A message is kept until it has been handed over

The sender forgets a message only on an ack, and an ack exists only once the receiver has handed the
message to its observer. The invariant follows the ack from the receiver's stack over the network
and the sender's queues into the worker's `acknowledged` set, where it retires the entry.

All of it is relative to `FewSends`: past 2^63 sends a syn would look like an ack.
-/

namespace CausalBroadcast

open Async

variable {σ κ ε : Type}

/-- The link handed number `k` of `p` to the observer of `q`. -/
def Acked (h : List (Nat × Event ε)) (p q k : Nat) : Prop :=
  ∃ msg, HandedTo h q msg ∧ msg.sender = p ∧ seqNum msg = k

theorem Acked.append {h : List (Nat × Event ε)} {p q k : Nat} (acked : Acked h p q k)
    (h' : List (Nat × Event ε)) : Acked (h ++ h') p q k := by
  obtain ⟨msg, handed, rest⟩ := acked
  exact ⟨msg, handed.append h', rest⟩

section
variable {n : Nat} {client : Client σ κ ε} {w : World Nat (Process σ κ) (Event ε) Message}

/-- A number that was acknowledged is that of the message sent with it. -/
theorem handedTo_of_acked (reach : (linkMachine n client).Reachable w) (few : FewSends w.history)
    {p q : Nat} {msg : Message} (sent : SentTo w.history p q msg)
    (acked : Acked w.history p q (seqNum msg)) : HandedTo w.history q msg := by
  obtain ⟨msg', handed, sender, same⟩ := acked
  have sent' : SentTo w.history p q msg' := sender ▸ sentTo_of_handedTo reach handed
  exact eq_of_seqNum reach few sent' sent same ▸ handed

/-- What the duplicate filter holds was handed over. -/
theorem acked_of_delivered (reach : (linkMachine n client).Reachable w) {p q k : Nat}
    (other : q ≠ p) (seen : ((w.nodes p).peers q).delivered.contains k) :
    Acked w.history q p k := by
  obtain ⟨msg, mem, rfl⟩ := List.mem_map.mp (((filtered reach other).1 k).mp seen)
  obtain ⟨handed, sender⟩ := mem_received.mp mem
  exact ⟨msg, mem_eventsOf.mp handed, sender, rfl⟩

end

namespace Retention

/-- A message on its way to `p`: if it is an ack, its sender has handed over that number. -/
def Packet (h : List (Nat × Event ε)) (p : Nat) (msg : Message) : Prop :=
  isSyn msg = false → Acked h p msg.sender (seqNum msg)

/-- Somewhere between `PerfectLink::send` and the observer of `q`. -/
def Kept (h : List (Nat × Event ε)) (q : Nat) (peer : Peer) (msg : Message) : Prop :=
  msg ∈ peer.incoming ∨ (∃ e ∈ peer.scheduled, e.msg = msg) ∨ HandedTo h q msg

/-- What `p` knows of `q`: only real acks, and every message not handed over yet. -/
structure PeerOk (h : List (Nat × Event ε)) (p q : Nat) (peer : Peer) : Prop where
  incoming : ∀ msg ∈ peer.incoming, isSyn msg = false → Acked h p q (seqNum msg)
  acknowledged : ∀ k ∈ peer.acknowledged, Acked h p q k
  kept : q ≠ p → ∀ msg, SentTo h p q msg → Kept h q peer msg

def FrameOk (h : List (Nat × Event ε)) (p : Nat) : Frame κ → Prop
  | .transmit q msg => isSyn msg = false → Acked h q p (seqNum msg)
  | .receive msg => Packet h p msg
  | .send .. | .client .. => True

structure ProcessOk (h : List (Nat × Event ε)) (p : Nat) (s : Process σ κ) : Prop where
  peers : ∀ q, PeerOk h p q (s.peers q)
  queue : ∀ msg ∈ s.messageQueue, Packet h p msg
  stack : ∀ f ∈ s.stack, FrameOk h p f

theorem Packet.append {h : List (Nat × Event ε)} {p : Nat} {msg : Message} (ok : Packet h p msg)
    (h' : List (Nat × Event ε)) : Packet (h ++ h') p msg :=
  fun ack => (ok ack).append h'

theorem Kept.append {h : List (Nat × Event ε)} {q : Nat} {peer : Peer} {msg : Message}
    (kept : Kept h q peer msg) (h' : List (Nat × Event ε)) : Kept (h ++ h') q peer msg :=
  kept.imp_right fun rest => rest.imp_right fun handed => handed.append h'

theorem FrameOk.append {h : List (Nat × Event ε)} {p : Nat} {f : Frame κ} (ok : FrameOk h p f)
    (h' : List (Nat × Event ε)) : FrameOk (h ++ h') p f := by
  cases f with
  | transmit q msg => exact fun ack => (ok ack).append h'
  | receive msg => exact Packet.append ok h'
  | send | client => trivial

/-- A longer history keeps what is known of a peer, if it has no new message for it. -/
theorem PeerOk.append {h h' : List (Nat × Event ε)} {p q : Nat} {peer : Peer}
    (ok : PeerOk h p q peer) (old : ∀ msg, SentTo (h ++ h') p q msg → SentTo h p q msg) :
    PeerOk (h ++ h') p q peer where
  incoming msg mem ack := (ok.incoming msg mem ack).append h'
  acknowledged k mem := (ok.acknowledged k mem).append h'
  kept other msg sent := (ok.kept other msg (old msg sent)).append h'

/-- A worker drops an entry only for an ack, and what was acknowledged was handed over. -/
private theorem PeerOk.works {h : List (Nat × Event ε)} {p q : Nat} {peer peer' : Peer}
    {sent : List Datagram} (ok : PeerOk h p q peer) (own : Provenance.PeerOk h p q peer)
    (works : peer.Works p q peer' sent) (signed : ∀ msg, SentTo h p q msg → msg.sender = p)
    (syns : ∀ msg, SentTo h p q msg → isSyn msg)
    (acked : ∀ msg, SentTo h p q msg → Acked h p q (seqNum msg) → HandedTo h q msg) :
    PeerOk h p q peer' ∧ ∀ d ∈ sent, Packet h d.1 d.2 := by
  cases works with
  | idle empty => exact ⟨ok, fun _ mem => nomatch mem⟩
  | @schedule msg rest backoff head syn =>
    refine ⟨⟨fun m mem => ok.incoming m (head ▸ List.mem_cons_of_mem _ mem), ok.acknowledged,
      fun other m sent => ?_⟩, fun _ mem => nomatch mem⟩
    rcases ok.kept other m sent with queued | ⟨e, mem, same⟩ | handed
    · rcases List.mem_cons.mp (head ▸ queued) with rfl | queued
      · exact .inr (.inl ⟨_, List.mem_cons_self, rfl⟩)
      · exact .inl queued
    · exact .inr (.inl ⟨e, List.mem_cons_of_mem _ mem, same⟩)
    · exact .inr (.inr handed)
  | @acknowledge msg rest head ack =>
    refine ⟨⟨fun m mem => ok.incoming m (head ▸ List.mem_cons_of_mem _ mem), fun k mem => ?_,
      fun other m sent => ?_⟩, fun _ mem => nomatch mem⟩
    · rcases Finset.mem_insert.mp mem with rfl | old
      · exact ok.incoming msg (head ▸ List.mem_cons_self) (Bool.not_eq_true _ ▸ ack)
      · exact ok.acknowledged k old
    · rcases ok.kept other m sent with queued | kept
      · rcases List.mem_cons.mp (head ▸ queued) with rfl | queued
        · exact absurd (syns m sent) ack
        · exact .inl queued
      · exact .inr kept
  | @retire next mem known =>
    refine ⟨⟨ok.incoming, fun k left => ok.acknowledged k (Finset.mem_of_mem_erase left),
      fun other m sent => ?_⟩, fun _ mem => nomatch mem⟩
    rcases ok.kept other m sent with queued | ⟨e, scheduled, rfl⟩ | handed
    · exact .inl queued
    · by_cases same : e = next
      · subst same
        exact .inr (.inr (acked e.msg sent (ok.acknowledged _ known)))
      · exact .inr (.inl ⟨e, (List.mem_erase_of_ne same).mpr scheduled, rfl⟩)
    · exact .inr (.inr handed)
  | @retry next later mem unknown =>
    have sentNext := own.scheduled next mem
    have same := resigned (signed next.msg sentNext)
    refine ⟨⟨ok.incoming, ok.acknowledged, fun other m sent => ?_⟩, fun d mem => ?_⟩
    · rcases ok.kept other m sent with queued | ⟨e, scheduled, rfl⟩ | handed
      · exact .inl queued
      · by_cases eq : e = next
        · subst eq
          exact .inr (.inl ⟨_, List.mem_cons_self, same⟩)
        · exact .inr (.inl ⟨e, List.mem_cons_of_mem _ ((List.mem_erase_of_ne eq).mpr scheduled),
            rfl⟩)
      · exact .inr (.inr handed)
    · obtain rfl := List.mem_singleton.mp mem
      simp only [FairLossLink.send, same]
      exact fun ack => absurd (syns next.msg sentNext) (by simp [ack])

/-- An entry leaves the schedule only once its number was acknowledged. -/
theorem PeerOk.acked_of_removed {h : List (Nat × Event ε)} {p q : Nat} {stack : List (Frame κ)}
    {peer peer' : Peer} {es : List (Event ε)} (ok : PeerOk h p q peer)
    (steps : peer.Steps p q stack es peer') {e : Entry} (signed : e.msg.sender = p)
    (mem : e ∈ peer.scheduled) (gone : ∀ e' ∈ peer'.scheduled, e'.msg ≠ e.msg) :
    Acked h p q (seqNum e.msg) := by
  cases steps with
  | quiet | self | send | ack | take => exact absurd rfl (gone e mem)
  | work works =>
    cases works with
    | idle | acknowledge => exact absurd rfl (gone e mem)
    | schedule => exact absurd rfl (gone e (List.mem_cons_of_mem _ mem))
    | @retire next _ known =>
      by_cases same : e = next
      · subst same
        exact ok.acknowledged _ known
      · exact absurd rfl (gone e ((List.mem_erase_of_ne same).mpr mem))
    | @retry next later _ unknown =>
      by_cases same : e = next
      · subst same
        exact absurd (resigned signed) (gone _ List.mem_cons_self)
      · exact absurd rfl (gone e (List.mem_cons_of_mem _ ((List.mem_erase_of_ne same).mpr mem)))

/-- What a step does to a peer keeps it in order. -/
private theorem PeerOk.steps {h : List (Nat × Event ε)} {p q : Nat} {stack : List (Frame κ)}
    {peer peer' : Peer} {es : List (Event ε)} (ok : PeerOk h p q peer)
    (own : Provenance.PeerOk h p q peer) (frames : ∀ f ∈ stack, FrameOk h p f)
    (signed : ∀ msg, SentTo h p q msg → msg.sender = p)
    (syns : ∀ msg, SentTo (h ++ es.map (Prod.mk p)) p q msg → isSyn msg)
    (acked : ∀ msg, SentTo h p q msg → Acked h p q (seqNum msg) → HandedTo h q msg)
    (steps : peer.Steps p q stack es peer') : PeerOk (h ++ es.map (Prod.mk p)) p q peer' := by
  have kept : (∀ msg, Event.send q msg ∉ es) → PeerOk (h ++ es.map (Prod.mk p)) p q peer :=
    fun none => ok.append fun msg sent => (mem_append_own.mp sent).resolve_right (none msg)
  cases steps with
  | quiet none => exact kept none
  | self same =>
    exact ⟨fun m mem ack => (ok.incoming m mem ack).append _,
      fun k mem => (ok.acknowledged k mem).append _, fun other => absurd same other⟩
  | @send msg other =>
    have syn := syns _ (mem_append_own.mpr (.inr List.mem_cons_self))
    refine ⟨?_, fun k mem => (ok.acknowledged k mem).append _, ?_⟩
    · intro m mem ack
      rcases List.mem_append.mp mem with old | new
      · exact (ok.incoming m old ack).append _
      · obtain rfl := List.mem_singleton.mp new
        exact absurd syn (by simp [ack])
    · intro _ m sent
      rcases mem_append_own.mp sent with old | new
      · obtain queued | kept := (ok.kept other m old).append _
        · exact .inl (List.mem_append_left _ queued)
        · exact .inr kept
      · obtain rfl : m = peer.stamp p msg := by simpa using new
        exact .inl (List.mem_append_right _ List.mem_cons_self)
  | @ack msg received sender ack =>
    have got : Packet h p msg := frames (.receive msg) received
    have kept := kept (by simp)
    refine ⟨?_, kept.acknowledged, ?_⟩
    · intro m mem ack
      rcases List.mem_append.mp mem with old | new
      · exact kept.incoming m old ack
      · obtain rfl := List.mem_singleton.mp new
        exact (sender ▸ got ack).append _
    · intro other m sent
      obtain queued | rest := kept.kept other m sent
      · exact .inl (List.mem_append_left _ queued)
      · exact .inr rest
  | take =>
    have kept := kept (by simp)
    exact ⟨kept.incoming, kept.acknowledged, kept.kept⟩
  | work works =>
    have worked := (ok.works own works signed (fun m sent => syns m (sent.append _)) acked).1
    exact worked.append fun m sent => (mem_append_own.mp sent).resolve_right (by simp)

/-- What a step puts on the stack is in order. -/
private theorem ProcessOk.pushed {h : List (Nat × Event ε)} {p : Nat} {s : Process σ κ}
    {es : List (Event ε)} {f : Frame κ} (ok : ProcessOk h p s) (own : Provenance.ProcessOk h p s)
    (syns : ∀ q msg, SentTo (h ++ es.map (Prod.mk p)) p q msg → isSyn msg)
    (filter : ∀ q, q ≠ p → ∀ k, (s.peers q).delivered.contains k → Acked h q p k)
    (pushed : s.Pushed p es f) : FrameOk (h ++ es.map (Prod.mk p)) p f := by
  cases pushed with
  | old mem => exact (ok.stack _ mem).append _
  | arrival mem => exact (ok.queue _ mem).append _
  | request call => cases call <;> trivial
  | copy other sent =>
    have syn := syns _ _ (mem_append_own.mpr (.inr sent))
    exact fun ack => absurd syn (by simp [ack])
  | @ack msg received seen =>
    intro _
    rw [seqNum_setAck]
    rcases seen with handed | seen
    · exact ⟨msg, mem_append_own.mpr (.inr handed), rfl, rfl⟩
    · exact (filter msg.sender (own.stack (.receive msg) received).1 _ seen).append _

/-- A step sends only packets that are in order. -/
private theorem ProcessOk.packets {client : Client σ κ ε} {h : List (Nat × Event ε)} {p : Nat}
    {s : Process σ κ} {r : ProcessReaction σ κ ε} (ok : ProcessOk h p s)
    (own : Provenance.ProcessOk h p s) (syns : ∀ q msg, SentTo h p q msg → isSyn msg)
    (acked : ∀ q msg, SentTo h p q msg → Acked h p q (seqNum msg) → HandedTo h q msg)
    (steps : s.Steps client p r) : ∀ d ∈ r.sent, Packet h d.1 d.2 := by
  intro d mem
  rcases steps.sent mem with ⟨receiver, msg, top, rfl⟩ | ⟨q, peer, sent, works, mem⟩
  · have known : FrameOk h p (.transmit receiver msg : Frame κ) := ok.stack _ top
    exact known
  · exact ((ok.peers q).works (own.peers q) works (own.signed q) (syns q) (acked q)).2 d mem

/-- While few messages are sent, every process and every packet is in order. -/
theorem carried (n : Nat) (client : Client σ κ ε) :
    Machine.Carried (linkMachine n client) (fun h p s => FewSends h → ProcessOk h p s)
      (fun h p msg => FewSends h → Packet h p msg) where
  init _ _ := {
    peers := fun _ => ⟨List.forall_mem_nil _, fun _ mem => by simp [linkMachine] at mem,
      fun _ _ sent => absurd sent List.not_mem_nil⟩
    queue := List.forall_mem_nil _
    stack := List.forall_mem_nil _ }
  act {w p a r} reach ok stepped := by
    have steps := (linkMachine_step_cases stepped).2
    have own := ((Provenance.carried n client).holds reach).1 p
    constructor
    · intro few
      have old := ok p few.of_append
      have syns : ∀ q msg, SentTo (w.react p r).history p q msg → isSyn msg :=
        fun q msg sent => isSyn_of_sentTo (reach.act stepped) few sent
      exact {
        peers := fun q => (old.peers q).steps (own.peers q) old.stack (own.signed q) (syns q)
          (fun _ => handedTo_of_acked reach few.of_append) (steps.peer q)
        queue := fun msg mem => (old.queue msg (steps.messageQueue mem)).append _
        stack := fun f mem => old.pushed own syns
          (fun q other k => acked_of_delivered reach other) (steps.pushed mem) }
    · intro d mem few
      have packet := (ok p few.of_append).packets own
        (fun q msg => isSyn_of_sentTo reach few.of_append)
        (fun q msg => handedTo_of_acked reach few.of_append) steps d mem
      exact packet.append _
  arrive ok packet few := { ok few with
    queue := fun msg mem => (List.mem_append.mp mem).elim ((ok few).queue msg)
      fun new => List.mem_singleton.mp new ▸ packet few }
  later _ other ok few := {
    peers := fun q => ((ok few.of_append).peers q).append
      fun _ sent => (mem_append_other other).mp sent
    queue := fun msg mem => ((ok few.of_append).queue msg mem).append _
    stack := fun f mem => ((ok few.of_append).stack f mem).append _ }
  laterPacket es ok few := (ok few.of_append).append es

end Retention

variable {n : Nat} {client : Client σ κ ε} {w : World Nat (Process σ κ) (Event ε) Message}

/-- **A message is never given up**: it is queued or scheduled at its sender until its receiver's
observer has it. -/
theorem kept_of_sentTo (reach : (linkMachine n client).Reachable w) (few : FewSends w.history)
    {p q : Nat} (other : q ≠ p) {msg : Message} (sent : SentTo w.history p q msg) :
    msg ∈ ((w.nodes p).peers q).incoming ∨ (∃ e ∈ ((w.nodes p).peers q).scheduled, e.msg = msg) ∨
      HandedTo w.history q msg :=
  ((((Retention.carried n client).holds reach).1 p few).peers q).kept other msg sent

/-- An entry leaves a schedule only once its receiver's observer has the message. -/
theorem handedTo_of_removed (reach : (linkMachine n client).Reachable w) (few : FewSends w.history)
    {p q : Nat} {act : Act} {r : ProcessReaction σ κ ε}
    (stepped : (linkMachine n client).step p act (w.nodes p) = some r) {e : Entry}
    (mem : e ∈ ((w.nodes p).peers q).scheduled)
    (gone : ∀ e' ∈ (r.state.peers q).scheduled, e'.msg ≠ e.msg) :
    HandedTo w.history q e.msg := by
  have sent : SentTo w.history p q e.msg :=
    ((((Provenance.carried n client).holds reach).1 p).peers q).scheduled e mem
  have acked := ((((Retention.carried n client).holds reach).1 p few).peers q).acked_of_removed
    ((linkMachine_step_cases stepped).2.peer q) (sender_of_sentTo reach sent) mem gone
  exact handedTo_of_acked reach few sent acked

end CausalBroadcast
