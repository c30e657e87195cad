import CausalBroadcast.Link.Provenance

/-!
# Everything on the network is a message or its ack

What one process sends another is a message it passed to `PerfectLink::send` for it, or the ack of a
message the other passed to `PerfectLink::send`. So whatever arrives is from a process of the system
that signed it, whatever arrived is acknowledged to such a process, and the fields of an ack are
those of a message.
-/

namespace CausalBroadcast

open Async

variable {σ κ ε : Type}

/-- `msg` is the ack, signed by `q`, of a message that `p` sent to `q`. -/
def AckOf (h : List (Nat × Event ε)) (p q : Nat) (msg : Message) : Prop :=
  ∃ syn, SentTo h p q syn ∧ { setAck syn with sender := q } = msg

/-- A message to be transmitted after a step was to be before it, is one just sent, or is the ack of a
syn that the step took. -/
theorem Process.Steps.transmits {client : Client σ κ ε} {id : Nat} {s : Process σ κ}
    {r : ProcessReaction σ κ ε} (steps : s.Steps client id r) {q : Nat} {msg : Message}
    (mem : .transmit q msg ∈ r.state.stack) : .transmit q msg ∈ s.stack ∨ .send q msg ∈ r.events ∨
      ∃ syn, .receive syn ∈ s.stack ∧ isSyn syn ∧ syn.sender = q ∧ setAck syn = msg := by
  have unrequested : ∀ calls : List (Request κ), .transmit q msg ∉ calls.map Request.frame := by
    intro calls mem
    obtain ⟨call, -, same⟩ := List.mem_map.mp mem
    cases call <;> cases same
  have below : ∀ {top : Frame κ} {stack : List (Frame κ)}, s.stack = top :: stack →
      .transmit q msg ∈ stack → .transmit q msg ∈ s.stack :=
    fun split mem => split ▸ List.mem_cons_of_mem _ mem
  cases steps with
  | work | stop => exact .inl mem
  | poll => simp at mem
  | call => simp at mem
  | sendSelf running top =>
    refine .inl (below top ((List.mem_cons.mp mem).resolve_left fun same => ?_))
    cases same
  | sendPeer running other top =>
    rcases List.mem_cons.mp mem with same | old
    · cases same
      exact .inr (.inl List.mem_cons_self)
    · exact .inl (below top old)
  | transmit running top => exact .inl (below top mem)
  | takeAck running top ack => exact .inl (below top mem)
  | @takeNew syn stack running top isSyn fresh =>
    simp only [push_stack, List.cons_append, List.nil_append, List.mem_cons] at mem
    rcases mem with same | same | old
    · cases same
    · cases same
      exact .inr (.inr ⟨syn, top ▸ List.mem_cons_self, isSyn, rfl, rfl⟩)
    · exact .inl (below top old)
  | @takeOld syn stack running top isSyn seen =>
    rcases List.mem_cons.mp mem with same | old
    · cases same
      exact .inr (.inr ⟨syn, top ▸ List.mem_cons_self, isSyn, rfl, rfl⟩)
    · exact .inl (below top old)
  | client running top =>
    exact .inl (below top ((List.mem_append.mp mem).resolve_left (unrequested _)))

theorem AckOf.append {h : List (Nat × Event ε)} {p q : Nat} {msg : Message}
    (acks : AckOf h p q msg) (h' : List (Nat × Event ε)) : AckOf (h ++ h') p q msg := by
  obtain ⟨syn, sent, same⟩ := acks
  exact ⟨syn, sent.append h', same⟩

namespace Acks

variable {h : List (Nat × Event ε)} {n p q : Nat} {msg : Message}

/-- A message on its way to `p`, from one of `n` processes. -/
def Packet (n : Nat) (h : List (Nat × Event ε)) (p : Nat) (msg : Message) : Prop :=
  msg.sender < n ∧ (SentTo h msg.sender p msg ∨ AckOf h p msg.sender msg)

/-- A call of the link on the stack of `p`. -/
def FrameOk (n : Nat) (h : List (Nat × Event ε)) (p : Nat) : Frame κ → Prop
  | .transmit q msg => SentTo h p q msg ∨ ∃ syn, SentTo h q p syn ∧ setAck syn = msg
  | .receive msg => Packet n h p msg
  | .send .. | .client .. => True

/-- Everything process `p` got, or is about to put on the network. -/
structure ProcessOk (n : Nat) (h : List (Nat × Event ε)) (p : Nat) (s : Process σ κ) : Prop where
  queue : ∀ msg ∈ s.messageQueue, Packet n h p msg
  stack : ∀ f ∈ s.stack, FrameOk n h p f

theorem Packet.append (ok : Packet n h p msg) (h' : List (Nat × Event ε)) :
    Packet n (h ++ h') p msg :=
  ⟨ok.1, ok.2.imp (·.append h') (·.append h')⟩

theorem FrameOk.append {f : Frame κ} (ok : FrameOk n h p f) (h' : List (Nat × Event ε)) :
    FrameOk n (h ++ h') p f := by
  cases f with
  | transmit q msg =>
    refine Or.imp (·.append h') (fun acks => ?_) ok
    obtain ⟨syn, sent, same⟩ := acks
    exact ⟨syn, sent.append h', same⟩
  | receive msg => exact Packet.append ok h'
  | send | client => trivial

theorem ProcessOk.append {s : Process σ κ} (ok : ProcessOk n h p s) (h' : List (Nat × Event ε)) :
    ProcessOk n (h ++ h') p s :=
  ⟨fun msg mem => (ok.queue msg mem).append h', fun f mem => (ok.stack f mem).append h'⟩

/-- What a step leaves on the stack. -/
private theorem ProcessOk.frames {client : Client σ κ ε} {s : Process σ κ}
    {r : ProcessReaction σ κ ε} (ok : ProcessOk n h p s) (known : Provenance.ProcessOk h p s)
    (steps : s.Steps client p r) :
    ∀ f ∈ r.state.stack, FrameOk n (h ++ r.events.map (Prod.mk p)) p f := by
  intro f mem
  cases f with
  | send | client => trivial
  | receive msg =>
    generalize is : (Frame.receive msg : Frame κ) = f at mem
    cases steps.pushed mem with
    | old before =>
      subst is
      exact (ok.stack _ before).append _
    | arrival waits =>
      cases is
      exact (ok.queue _ waits).append _
    | request call => cases call <;> cases is
    | copy | ack => cases is
  | transmit q msg =>
    rcases steps.transmits mem with old | sent | ⟨syn, received, isSyn, rfl, rfl⟩
    · exact (ok.stack _ old).append _
    · exact .inl (mem_append_own.mpr (.inr sent))
    · have packet : Provenance.Packet h p syn := known.stack (.receive syn) received
      exact .inr ⟨syn, (packet.2 isSyn).append _, rfl⟩

/-- What a step puts on the network. -/
private theorem ProcessOk.packets {client : Client σ κ ε} {s : Process σ κ}
    {r : ProcessReaction σ κ ε} (ok : ProcessOk n h p s) (known : Provenance.ProcessOk h p s)
    (inside : p < n) (steps : s.Steps client p r) : ∀ d ∈ r.sent, Packet n h d.1 d.2 := by
  intro d mem
  rcases steps.sent mem with ⟨q, msg, top, rfl⟩ | ⟨q, peer, sent, works, mem⟩
  · have from_ : FrameOk n h p (.transmit q msg : Frame κ) := ok.stack _ top
    rcases from_ with sent | ⟨syn, sent, rfl⟩
    · refine ⟨inside, .inl ?_⟩
      show SentTo h p q { msg with sender := p }
      rw [resigned (known.signed _ _ sent)]
      exact sent
    · exact ⟨inside, .inr ⟨syn, sent, rfl⟩⟩
  · cases works with
    | idle | schedule | acknowledge | retire => cases mem
    | @retry next later scheduled unacked =>
      obtain rfl := List.mem_singleton.mp mem
      refine ⟨inside, .inl ?_⟩
      have sent : SentTo h p q next.msg := (known.peers q).scheduled next scheduled
      show SentTo h p q { next.msg with sender := p }
      rw [resigned (known.signed _ _ sent)]
      exact sent

theorem carried (n : Nat) (client : Client σ κ ε) :
    Machine.Carried (linkMachine n client) (ProcessOk n) (Packet n) where
  init _ := ⟨List.forall_mem_nil _, List.forall_mem_nil _⟩
  act {_ i _ _} reach ok stepped :=
    have ⟨inside, steps⟩ := linkMachine_step_cases stepped
    have known := ((Provenance.carried n client).holds reach).1 i
    ⟨⟨fun msg mem => ((ok i).queue msg (steps.messageQueue mem)).append _,
      (ok i).frames known steps⟩,
      fun d mem => ((ok i).packets known inside steps d mem).append _⟩
  arrive ok packet := { ok with
    queue := fun msg mem => (List.mem_append.mp mem).elim (ok.queue msg)
      fun new => List.mem_singleton.mp new ▸ packet }
  later _ _ ok := ok.append _
  laterPacket es ok := ok.append es

end Acks

variable {n : Nat} {client : Client σ κ ε}
  {w : World Nat (Process σ κ) (Event ε) Message}

/-- Every datagram is a message its sender passed to the link for its receiver, or the ack of one that
came the other way. -/
theorem sentTo_or_ackOf (reach : (linkMachine n client).Reachable w) {p : Nat} {msg : Message}
    (mem : (p, msg) ∈ w.sent) :
    msg.sender < n ∧ (SentTo w.history msg.sender p msg ∨ AckOf w.history p msg.sender msg) :=
  ((Acks.carried n client).holds reach).2 _ mem

end CausalBroadcast
