import CausalBroadcast.Link.Process

/-!
# Where a message on the link comes from

Nothing is created on the link: a syn, wherever it is found (queued, scheduled, in flight, waiting
in a queue of the receiver or on its stack), is exactly a message its sender sent to that receiver,
as `PerfectLink::send` numbered and signed it. No bound on the number of sends is needed for this.
-/

namespace CausalBroadcast

open Async

variable {σ κ ε : Type}

/-- Process `p` sent `msg` to `q`, as `PerfectLink::send` numbered and signed it. -/
def SentTo (h : List (Nat × Event ε)) (p q : Nat) (msg : Message) : Prop :=
  (p, Event.send q msg) ∈ h

/-- The link handed `msg` to the observer of `q`. -/
def HandedTo (h : List (Nat × Event ε)) (q : Nat) (msg : Message) : Prop :=
  (q, Event.deliver msg) ∈ h

theorem SentTo.append {h : List (Nat × Event ε)} {p q : Nat} {msg : Message}
    (sent : SentTo h p q msg) (h' : List (Nat × Event ε)) : SentTo (h ++ h') p q msg :=
  List.mem_append_left _ sent

theorem HandedTo.append {h : List (Nat × Event ε)} {q : Nat} {msg : Message}
    (handed : HandedTo h q msg) (h' : List (Nat × Event ε)) : HandedTo (h ++ h') q msg :=
  List.mem_append_left _ handed

namespace Provenance

/-- A message on its way to `p`: from somebody else, and if it is a syn, one that was sent. -/
def Packet (h : List (Nat × Event ε)) (p : Nat) (msg : Message) : Prop :=
  msg.sender ≠ p ∧ (isSyn msg → SentTo h msg.sender p msg)

/-- What `p` keeps for `q`: nothing if that is `p` itself, and only messages it sent to `q`. -/
structure PeerOk (h : List (Nat × Event ε)) (p q : Nat) (peer : Peer) : Prop where
  own : q = p → peer.incoming = [] ∧ peer.scheduled = []
  incoming : ∀ msg ∈ peer.incoming, isSyn msg → SentTo h p q msg
  scheduled : ∀ e ∈ peer.scheduled, SentTo h p q e.msg

/-- A call of the link on the stack of `p`. -/
def FrameOk (h : List (Nat × Event ε)) (p : Nat) : Frame κ → Prop
  | .transmit q msg => q ≠ p ∧ (isSyn msg → SentTo h p q msg)
  | .receive msg => Packet h p msg
  | .send .. | .client .. => True

/-- Everything process `p` holds. -/
structure ProcessOk (h : List (Nat × Event ε)) (p : Nat) (s : Process σ κ) : Prop where
  signed : ∀ q msg, SentTo h p q msg → msg.sender = p
  handed : ∀ msg, HandedTo h p msg → SentTo h msg.sender p msg
  peers : ∀ q, PeerOk h p q (s.peers q)
  queue : ∀ msg ∈ s.messageQueue, Packet h p msg
  stack : ∀ f ∈ s.stack, FrameOk h p f

theorem Packet.append {h : List (Nat × Event ε)} {p : Nat} {msg : Message}
    (ok : Packet h p msg) (h' : List (Nat × Event ε)) : Packet (h ++ h') p msg :=
  ⟨ok.1, fun syn => (ok.2 syn).append h'⟩

theorem PeerOk.append {h : List (Nat × Event ε)} {p q : Nat} {peer : Peer}
    (ok : PeerOk h p q peer) (h' : List (Nat × Event ε)) : PeerOk (h ++ h') p q peer :=
  ⟨ok.own, fun msg mem syn => (ok.incoming msg mem syn).append h',
    fun e mem => (ok.scheduled e mem).append h'⟩

theorem FrameOk.append {h : List (Nat × Event ε)} {p : Nat} {f : Frame κ}
    (ok : FrameOk h p f) (h' : List (Nat × Event ε)) : FrameOk (h ++ h') p f := by
  cases f with
  | transmit q msg => exact ⟨ok.1, fun syn => (ok.2 syn).append h'⟩
  | receive msg => exact Packet.append ok h'
  | send | client => trivial

/-- A worker keeps what it schedules among the messages that were sent. -/
private theorem PeerOk.works {h : List (Nat × Event ε)} {p q : Nat}
    {peer peer' : Peer} {sent : List Datagram} (ok : PeerOk h p q peer)
    (signed : ∀ q msg, SentTo h p q msg → msg.sender = p)
    (works : peer.Works p q peer' sent) :
    PeerOk h p q peer' ∧ ∀ d ∈ sent, Packet h d.1 d.2 := by
  cases works with
  | idle empty => exact ⟨ok, fun _ mem => nomatch mem⟩
  | @schedule msg rest backoff head syn =>
    have other : q ≠ p := fun self => absurd (ok.own self).1 (by simp [head])
    refine ⟨⟨fun self => absurd self other,
      fun m mem => ok.incoming m (head ▸ List.mem_cons_of_mem _ mem), fun e mem => ?_⟩,
      fun _ mem => nomatch mem⟩
    rcases List.mem_cons.mp mem with rfl | old
    · exact ok.incoming msg (head ▸ List.mem_cons_self) syn
    · exact ok.scheduled e old
  | acknowledge head ack =>
    have other : q ≠ p := fun self => absurd (ok.own self).1 (by simp [head])
    exact ⟨⟨fun self => absurd self other,
      fun m mem => ok.incoming m (head ▸ List.mem_cons_of_mem _ mem), ok.scheduled⟩,
      fun _ mem => nomatch mem⟩
  | retire mem acked =>
    exact ⟨⟨fun self => ⟨(ok.own self).1, by simp [(ok.own self).2]⟩, ok.incoming,
      fun e left => ok.scheduled e (List.mem_of_mem_erase left)⟩, fun _ mem => nomatch mem⟩
  | @retry next later mem unacked =>
    have other : q ≠ p := fun self => by simp [(ok.own self).2] at mem
    have sentNext := ok.scheduled next mem
    have same := resigned (signed q next.msg sentNext)
    refine ⟨⟨fun self => absurd self other, ok.incoming, fun e left => ?_⟩, fun d mem => ?_⟩
    · rcases List.mem_cons.mp left with rfl | old
      · simpa only [same] using sentNext
      · exact ok.scheduled e (List.mem_of_mem_erase old)
    · obtain rfl := List.mem_singleton.mp mem
      simp only [FairLossLink.send, same]
      exact ⟨signed q next.msg sentNext ▸ other.symm, fun _ => signed q next.msg sentNext ▸ sentNext⟩

/-- What a step does to a peer keeps it accounted for. -/
private theorem PeerOk.steps {h : List (Nat × Event ε)} {p q : Nat} {stack : List (Frame κ)}
    {peer peer' : Peer} {es : List (Event ε)} (ok : PeerOk h p q peer)
    (signed : ∀ q msg, SentTo h p q msg → msg.sender = p)
    (frames : ∀ f ∈ stack, FrameOk h p f) (steps : peer.Steps p q stack es peer') :
    PeerOk (h ++ es.map (Prod.mk p)) p q peer' := by
  have kept := ok.append (es.map (Prod.mk p))
  cases steps with
  | quiet => exact kept
  | self | take => exact ⟨kept.own, kept.incoming, kept.scheduled⟩
  | send other =>
    refine ⟨fun self => absurd self other, fun m mem syn => ?_, kept.scheduled⟩
    rcases List.mem_append.mp mem with old | new
    · exact kept.incoming m old syn
    · obtain rfl := List.mem_singleton.mp new
      exact mem_append_own.mpr (.inr List.mem_cons_self)
  | @ack msg received sender ack =>
    have got : Packet h p msg := frames (.receive msg) received
    refine ⟨fun self => absurd (sender.trans self) got.1, fun m mem syn => ?_, kept.scheduled⟩
    rcases List.mem_append.mp mem with old | new
    · exact kept.incoming m old syn
    · obtain rfl := List.mem_singleton.mp new
      exact absurd syn (by simp [ack])
  | work works => exact (ok.works signed works).1.append _

/-- What a step puts on the stack is accounted for. -/
private theorem ProcessOk.pushed {h : List (Nat × Event ε)} {p : Nat} {s : Process σ κ}
    {es : List (Event ε)} {f : Frame κ} (ok : ProcessOk h p s) (pushed : s.Pushed p es f) :
    FrameOk (h ++ es.map (Prod.mk p)) p f := by
  cases pushed with
  | old mem => exact (ok.stack _ mem).append _
  | arrival mem => exact (ok.queue _ mem).append _
  | request call => cases call <;> trivial
  | copy other sent => exact ⟨other, fun _ => mem_append_own.mpr (.inr sent)⟩
  | @ack msg received seen =>
    have got : Packet h p msg := ok.stack (.receive msg) received
    exact ⟨got.1, fun ack => absurd ack (by simp [not_isSyn_setAck])⟩

/-- A step sends only packets that are accounted for. -/
private theorem ProcessOk.packets {client : Client σ κ ε} {h : List (Nat × Event ε)} {p : Nat}
    {s : Process σ κ} {r : ProcessReaction σ κ ε} (ok : ProcessOk h p s)
    (steps : s.Steps client p r) : ∀ d ∈ r.sent, Packet h d.1 d.2 := by
  intro d mem
  rcases steps.sent mem with ⟨receiver, msg, top, rfl⟩ | ⟨q, peer, sent, works, mem⟩
  · have from_ : FrameOk h p (.transmit receiver msg : Frame κ) := ok.stack _ top
    refine ⟨from_.1.symm, fun syn => ?_⟩
    have sent : SentTo h p receiver msg := from_.2 syn
    show SentTo h p receiver { msg with sender := p }
    rw [resigned (ok.signed _ _ sent)]
    exact sent
  · exact ((ok.peers q).works ok.signed works).2 d mem

/-- A step signs what it passes to the link. -/
private theorem signed_of_steps {client : Client σ κ ε} {p q : Nat} {s : Process σ κ}
    {r : ProcessReaction σ κ ε} {msg : Message} (steps : s.Steps client p r)
    (sent : .send q msg ∈ r.events) : msg.sender = p := by
  have moved := steps.peer q
  generalize r.events = es at sent moved
  generalize r.state.peers q = peer' at moved
  cases moved with
  | quiet none => exact absurd sent (none msg)
  | self same =>
    obtain rfl : msg = _ := by simpa using sent
    rfl
  | send other =>
    obtain rfl : msg = _ := by simpa using sent
    rfl
  | ack | work => cases sent
  | take => simp at sent

/-- A step hands over only messages that were sent. -/
private theorem ProcessOk.hands {client : Client σ κ ε} {h : List (Nat × Event ε)} {p : Nat}
    {s : Process σ κ} {r : ProcessReaction σ κ ε} {msg : Message} (ok : ProcessOk h p s)
    (steps : s.Steps client p r) (handed : .deliver msg ∈ r.events) :
    SentTo (h ++ r.events.map (Prod.mk p)) msg.sender p msg := by
  have moved := steps.peer msg.sender
  generalize r.events = es at handed moved ⊢
  generalize r.state.peers msg.sender = peer' at moved
  generalize from_ : msg.sender = q at moved ⊢
  cases moved with
  | quiet _ none => exact absurd from_ (none msg handed)
  | self same =>
    subst same
    obtain rfl : msg = _ := by simpa using handed
    exact mem_append_own.mpr (.inr List.mem_cons_self)
  | send => simp at handed
  | ack | work => cases handed
  | @take m received sender syn =>
    obtain rfl : msg = m := by simpa using handed
    have got : Packet h p msg := ok.stack (.receive msg) received
    exact (from_ ▸ got.2 syn).append _

/-- Every step keeps what its process holds accounted for. -/
private theorem ProcessOk.steps {client : Client σ κ ε} {h : List (Nat × Event ε)} {p : Nat}
    {s : Process σ κ} {r : ProcessReaction σ κ ε} (ok : ProcessOk h p s)
    (steps : s.Steps client p r) : ProcessOk (h ++ r.events.map (Prod.mk p)) p r.state where
  signed q msg sent := (mem_append_own.mp sent).elim (ok.signed q msg) (signed_of_steps steps)
  handed msg got := (mem_append_own.mp got).elim (fun old => (ok.handed msg old).append _)
    (ok.hands steps)
  peers q := (ok.peers q).steps ok.signed ok.stack (steps.peer q)
  queue msg mem := (ok.queue msg (steps.messageQueue mem)).append _
  stack _ mem := ok.pushed (steps.pushed mem)

theorem carried (n : Nat) (client : Client σ κ ε) :
    Machine.Carried (linkMachine n client) ProcessOk Packet where
  init _ := {
    signed := fun _ _ mem => nomatch mem
    handed := fun _ mem => nomatch mem
    peers := fun _ => ⟨fun _ => ⟨rfl, rfl⟩, fun _ mem => (nomatch mem), fun _ mem => (nomatch mem)⟩
    queue := fun _ mem => nomatch mem
    stack := fun _ mem => nomatch mem }
  act _ ok stepped :=
    have steps := (linkMachine_step_cases stepped).2
    ⟨(ok _).steps steps, fun d mem => ((ok _).packets steps d mem).append _⟩
  arrive ok packet := { ok with
    queue := fun msg mem => (List.mem_append.mp mem).elim (ok.queue msg)
      fun new => List.mem_singleton.mp new ▸ packet }
  later _ other ok := {
    signed := fun q msg sent => ok.signed q msg ((mem_append_other other).mp sent)
    handed := fun msg got => (ok.handed msg ((mem_append_other other).mp got)).append _
    peers := fun q => (ok.peers q).append _
    queue := fun msg mem => (ok.queue msg mem).append _
    stack := fun f mem => (ok.stack f mem).append _ }
  laterPacket es ok := ok.append es

end Provenance

variable {n : Nat} {client : Client σ κ ε}
  {w : World Nat (Process σ κ) (Event ε) Message}

/-- **No creation**: whatever the link hands over was sent by the process it names. -/
theorem sentTo_of_handedTo (reach : (linkMachine n client).Reachable w) {q : Nat}
    {msg : Message} (handed : HandedTo w.history q msg) : SentTo w.history msg.sender q msg :=
  (((Provenance.carried n client).holds reach).1 q).handed msg handed

/-- A message sent is signed by its sender. -/
theorem sender_of_sentTo (reach : (linkMachine n client).Reachable w) {p q : Nat}
    {msg : Message} (sent : SentTo w.history p q msg) : msg.sender = p :=
  (((Provenance.carried n client).holds reach).1 p).signed q msg sent

end CausalBroadcast
