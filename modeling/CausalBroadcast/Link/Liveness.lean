import CausalBroadcast.Link.Backoff
import CausalBroadcast.Link.Retention

/-!
# What is sent arrives

Over a network that loses no datagram for ever that is sent again and again, the link hands over
whatever is sent to a process that is not stopped. The worker takes the message out of its queue,
makes an entry of it, and sends it again until it is acknowledged; and it is acknowledged only when it
was handed over.

The threads are scheduled fairly, and the workers go on in time.
-/

namespace CausalBroadcast

open Async Filter

variable {σ κ ε : Type}

/-- The other threads of a process went on. -/
structure Process.Meanwhile (s s' : Process σ κ) : Prop extends s.Others s' where
  delivered : ∀ q, (s'.peers q).delivered = (s.peers q).delivered
  queue : s.messageQueue <+: s'.messageQueue

theorem Process.Meanwhile.refl (s : Process σ κ) : s.Meanwhile s :=
  ⟨⟨rfl, rfl, rfl⟩, fun _ => rfl, List.prefix_rfl⟩

theorem Process.Meanwhile.trans {s s' s'' : Process σ κ} (first : s.Meanwhile s')
    (next : s'.Meanwhile s'') : s.Meanwhile s'' :=
  ⟨⟨next.client.trans first.client, next.stack.trans first.stack, next.stopped.trans first.stopped⟩,
    fun q => (next.delivered q).trans (first.delivered q), first.queue.trans next.queue⟩

/-! ## Fair runs -/

section
variable {n : Nat} {client : Client σ κ ε}

/-- The main thread takes from the queue of the receiver thread, if there is something. -/
def Polls (run : Run (linkMachine n client)) (p k : Nat) : Prop :=
  ∀ msg rest, (run.node k p).messageQueue = msg :: rest →
    (run.node (k + 1) p).messageQueue = rest ∧ (run.node (k + 1) p).stack = [.receive msg]

/-- The processes outside `F` are not stopped, their threads go on, and the network is fair to them.
Of those in `F` nothing is known: they may crash, or be slow, or cut off. -/
structure Fair (run : Run (linkMachine n client)) (F : Finset Nat) : Prop where
  running : ∀ p < n, p ∉ F → ∀ k, (run.node k p).stopped = false
  main : ∀ p < n, p ∉ F → ∃ᶠ k in atTop, run.choice k = .act p .main ∨
    (linkMachine n client).step p .main (run.node k p) = none
  workers : ∀ p < n, p ∉ F → ∀ q < n, q ∉ F → q ≠ p → Timely run p q
  network : ∀ p < n, p ∉ F → run.FairLoss p

variable {run : Run (linkMachine n client)} {F : Finset Nat} {p q k : Nat} {msg : Message}

/-! ## From the queue to the schedule -/

/-- What a step leaves of the peer. -/
theorem peer_saw (run : Run (linkMachine n client)) (p q k : Nat) :
    (run.node (k + 1) p).peers q = (run.node k p).peers q ∨
      ∃ act r, run.choice k = .act p act ∧ (linkMachine n client).step p act (run.node k p) = some r ∧
        run.node (k + 1) p = r.state ∧
        ((run.node k p).peers q).Steps p q (run.node k p).stack r.events (r.state.peers q) := by
  have saw := run.saw k p
  generalize after : run.node (k + 1) p = s at saw
  cases saw with
  | act choice step =>
    exact .inr ⟨_, _, choice, step, rfl, (linkMachine_step_cases step).2.peer q⟩
  | arrive | other => exact .inl rfl

/-- Messages are put at the end of the worker's queue, and the worker makes entries of the syns it
takes from its front. -/
theorem incoming_saw (run : Run (linkMachine n client)) (p q k : Nat) :
    (∃ new, ((run.node (k + 1) p).peers q).incoming = ((run.node k p).peers q).incoming ++ new) ∨
      ∃ first rest, ((run.node k p).peers q).incoming = first :: rest ∧
        ((run.node (k + 1) p).peers q).incoming = rest ∧
        (isSyn first → ∃ e ∈ ((run.node (k + 1) p).peers q).scheduled, e.msg = first) := by
  rcases peer_saw run p q k with same | ⟨act, r, -, -, after, steps⟩
  · exact .inl ⟨[], by rw [same, List.append_nil]⟩
  rw [after]
  generalize (run.node k p).peers q = peer at steps
  generalize r.state.peers q = peer' at steps
  generalize r.events = es at steps
  cases steps with
  | quiet | self | take => exact .inl ⟨[], (List.append_nil _).symm⟩
  | send | ack => exact .inl ⟨_, rfl⟩
  | work works =>
    cases works with
    | idle | retire | retry => exact .inl ⟨[], (List.append_nil _).symm⟩
    | schedule incoming =>
      exact .inr ⟨_, _, incoming, rfl, fun _ => ⟨_, List.mem_cons_self, rfl⟩⟩
    | acknowledge incoming ack => exact .inr ⟨_, _, incoming, rfl, fun syn => absurd syn ack⟩

/-- A syn in the worker's queue becomes an entry. -/
theorem exists_scheduled (attends : Attends run p q)
    (mem : msg ∈ ((run.node k p).peers q).incoming) (syn : isSyn msg) :
    ∃ j ≥ k, ∃ e ∈ ((run.node j p).peers q).scheduled, e.msg = msg := by
  refine exists_of_frequently (I := fun j => msg ∈ ((run.node j p).peers q).incoming)
    (G := fun j => ∃ e ∈ ((run.node j p).peers q).scheduled, e.msg = msg) attends
    (fun j => ((run.node j p).peers q).incoming.idxOf msg) mem fun j _ waits => ?_
  rcases incoming_saw run p q j with ⟨new, incoming⟩ | ⟨first, rest, before, incoming, made⟩
  · refine .inr ⟨incoming ▸ List.mem_append_left new waits, ?_, fun ⟨now, later, works, quiet⟩ => ?_⟩
    · rw [incoming, List.idxOf_append_of_mem waits]
    · obtain ⟨top, woken, peer', sent, worked, after, -⟩ := worked_of_works works
      cases before : ((run.node j p).peers q).incoming with
      | nil =>
        rw [before] at waits
        cases waits
      | cons first rest =>
        have taken := Peer.work_quiet worked quiet before
        rw [after, taken, before] at incoming
        exact absurd (congrArg List.length incoming) (by simp; omega)
  · by_cases same : first = msg
    · subst same
      exact .inl (made syn)
    · rw [before] at waits
      have waits := List.mem_of_ne_of_mem (Ne.symm same) waits
      refine .inr ⟨incoming ▸ waits, ?_, fun _ => ?_⟩
      · rw [incoming, before, List.idxOf_cons_ne _ same]
        exact Nat.le_succ _
      · rw [incoming, before, List.idxOf_cons_ne _ same]
        exact Nat.lt_succ_self _

/-! ## From the schedule to the network -/


section
variable (few : ∀ j, FewSends (run.world j).history)
include few

/-- An entry stays until its message is sent again, or was handed over. -/
theorem entry_saw {e : Entry} (mem : e ∈ ((run.node k p).peers q).scheduled) :
    run.Transmits (q, e.msg) k ∨ HandedTo (run.world k).history q e.msg ∨
      e ∈ ((run.node (k + 1) p).peers q).scheduled := by
  rcases scheduled_saw run p q k with ⟨now, later, works⟩ | same
  case inr => exact .inr (.inr (same ▸ mem))
  obtain ⟨top, woken, peer', sent, worked, after, transmits⟩ := worked_of_works works
  have reach := run.reachable k
  have sentTo : SentTo (run.world k).history p q e.msg :=
    ((((Provenance.carried n client).holds reach).1 p).peers q).scheduled e mem
  rw [after]
  cases Peer.work_cases worked with
  | idle | acknowledge => exact .inr (.inr mem)
  | schedule => exact .inr (.inr (List.mem_cons_of_mem _ mem))
  | @retire next _ known =>
    by_cases same : e = next
    · subst same
      have acked := ((((Retention.carried n client).holds reach).1 p (few k)).peers q).acknowledged
        _ known
      exact .inr (.inl (handedTo_of_acked reach (few k) sentTo acked))
    · exact .inr (.inr ((List.mem_erase_of_ne same).mpr mem))
  | @retry next later' _ _ =>
    by_cases same : e = next
    · subst same
      have sent := transmits _ List.mem_cons_self
      rw [FairLossLink.send, resigned (sender_of_sentTo reach sentTo)] at sent
      exact .inl sent
    · exact .inr (.inr (List.mem_cons_of_mem _ ((List.mem_erase_of_ne same).mpr mem)))

/-- What is scheduled is sent again, or was handed over. -/
theorem exists_transmits (timely : Timely run p q)
    {e : Entry} (mem : e ∈ ((run.node k p).peers q).scheduled) :
    ∃ j ≥ k, run.Transmits (q, e.msg) j ∨ HandedTo (run.world j).history q e.msg := by
  by_contra never
  push Not at never
  have stays : ∀ j ≥ k, e ∈ ((run.node j p).peers q).scheduled := by
    intro j after
    induction j, after using Nat.le_induction with
    | base => exact mem
    | succ j after ih =>
      obtain ⟨quiet, away⟩ := never j after
      exact ((entry_saw few ih).resolve_left quiet).resolve_left away
  obtain ⟨j, later⟩ := eventually_atTop.mp (eventually_retryAt_gt timely e.backoff.retryAt)
  exact Nat.lt_irrefl _ (later (max k j) (le_max_right k j) e (stays _ (le_max_left k j)))

end

/-! ## The main thread -/

/-- A process that is stopped stays so. -/
theorem stopped_mono (run : Run (linkMachine n client)) (p : Nat) {i j : Nat} (le : i ≤ j)
    (stopped : (run.node i p).stopped) : (run.node j p).stopped := by
  induction j, le using Nat.le_induction with
  | base => exact stopped
  | succ j _ ih =>
    have saw := run.saw j p
    generalize run.node (j + 1) p = s at saw
    cases saw with
    | arrive | other => exact ih
    | act choice step =>
      have steps := (linkMachine_step_cases step).2
      cases steps with
      | work => exact ih
      | stop | poll | call | sendSelf | sendPeer | transmit | takeAck | takeNew | takeOld | client =>
        simp_all

section
variable (running : ∀ k, (run.node k p).stopped = false)
include running

theorem meanwhile_saw (k : Nat) :
    run.choice k = .act p .main ∨ (run.node k p).Meanwhile (run.node (k + 1) p) := by
  have goes := running (k + 1)
  have saw := run.saw k p
  generalize run.node (k + 1) p = s at goes saw
  cases saw with
  | other => exact .inr (.refl _)
  | arrive => exact .inr ⟨Process.others_of_arrive _, fun _ => rfl, List.prefix_append _ _⟩
  | @act act r choice step =>
    have step := step_of_linkMachine step
    cases act with
    | main => exact .inl choice
    | stop =>
      simp only [Process.step, running k] at step
      cases step
      cases goes
    | work q top now woken later =>
      have others := Process.others_of_work step
      obtain ⟨⟨peer, sent⟩, worked, rfl⟩ := Option.map_eq_some_iff.mp step
      refine .inr ⟨others, fun q' => ?_, List.prefix_rfl⟩
      refine Process.setPeer_elim (P := fun peer' =>
        peer'.delivered = ((run.node k p).peers q').delivered) (fun same => ?_) fun _ => rfl
      rw [same]
      exact (Peer.work_cases worked).frame.2

section
variable (often : ∃ᶠ k in atTop, run.choice k = .act p .main ∨
  (linkMachine n client).step p .main (run.node k p) = none)
include often

/-- The main thread goes on where the others leave it something to do. -/
theorem exists_main (enabled : ∀ j ≥ k, (run.node k p).Meanwhile (run.node j p) →
    (linkMachine n client).step p .main (run.node j p) ≠ none) :
    ∃ j ≥ k, run.choice j = .act p .main ∧ (run.node k p).Meanwhile (run.node j p) := by
  obtain ⟨-, -, there⟩ := exists_of_frequently
    (I := fun j => k ≤ j ∧ (run.node k p).Meanwhile (run.node j p))
    (G := fun _ => ∃ j ≥ k, run.choice j = .act p .main ∧ (run.node k p).Meanwhile (run.node j p))
    often (fun _ => 0) ⟨le_rfl, .refl _⟩ fun j after meanwhile => by
      by_cases main : run.choice j = .act p .main
      · exact .inl ⟨j, after, main, meanwhile.2⟩
      · have next := (meanwhile_saw running j).resolve_left main
        refine .inr ⟨⟨Nat.le_succ_of_le after, meanwhile.2.trans next⟩, le_rfl, fun taken => ?_⟩
        exact absurd (taken.resolve_left main) (enabled j after meanwhile.2)
  exact there

/-- What is inevitable for the main thread comes to pass. -/
theorem exists_of_inevitable (inside : p < n) {goal : Process σ κ → Prop}
    (inevitable : Inevitable client p goal (run.node k p)) : ∃ j ≥ k, goal (run.node j p) := by
  generalize here : run.node k p = s at inevitable
  induction inevitable generalizing k with
  | now there => exact ⟨k, le_rfl, here ▸ there⟩
  | @later s goes _ ih =>
    subst here
    obtain ⟨j, after, main, meanwhile⟩ := exists_main running often fun j after meanwhile => by
      obtain ⟨r, step⟩ := Option.isSome_iff_exists.mp (goes _ meanwhile.toOthers)
      rw [linkMachine_step_eq inside, step]
      exact Option.some_ne_none r
    obtain ⟨r, step, world⟩ := Run.act main
    rw [linkMachine_step_eq inside] at step
    have became : run.node (j + 1) p = r.state := by rw [Run.node, world, World.react_self]
    obtain ⟨i, later, there⟩ := ih _ r meanwhile.toOthers step became
    exact ⟨i, by omega, there⟩

end

end

/-! ## From the network to the observer -/

/-- Messages are put at the end of the receiver thread's queue, and the main loop takes from its
front. -/
theorem messageQueue_saw (run : Run (linkMachine n client)) (p k : Nat) :
    (∃ new, (run.node (k + 1) p).messageQueue = (run.node k p).messageQueue ++ new) ∨
      ∃ first rest, (run.node k p).messageQueue = first :: rest ∧
        (run.node (k + 1) p).messageQueue = rest ∧ (run.node (k + 1) p).stack = [.receive first] := by
  have saw := run.saw k p
  generalize run.node (k + 1) p = s at saw
  cases saw with
  | other => exact .inl ⟨[], (List.append_nil _).symm⟩
  | arrive => exact .inl ⟨_, rfl⟩
  | act choice step =>
    have steps := (linkMachine_step_cases step).2
    cases steps with
    | poll running idle queue => exact .inr ⟨_, _, queue, rfl, rfl⟩
    | call | sendSelf | sendPeer | transmit | takeAck | takeNew | takeOld | client | work | stop =>
      exact .inl ⟨[], (List.append_nil _).symm⟩

/-- What waits in the receiver thread's queue is received. -/
theorem exists_receive (polls : ∃ᶠ k in atTop, Polls run p k)
    (mem : msg ∈ (run.node k p).messageQueue) :
    ∃ j ≥ k, (run.node j p).stack = [.receive msg] := by
  refine exists_of_frequently (I := fun j => msg ∈ (run.node j p).messageQueue)
    (G := fun j => (run.node j p).stack = [.receive msg]) polls
    (fun j => (run.node j p).messageQueue.idxOf msg) mem fun j _ waits => ?_
  rcases messageQueue_saw run p j with ⟨new, queue⟩ | ⟨first, rest, before, queue, stack⟩
  · refine .inr ⟨queue ▸ List.mem_append_left new waits, ?_, fun polled => ?_⟩
    · rw [queue, List.idxOf_append_of_mem waits]
    · cases before : (run.node j p).messageQueue with
      | nil =>
        rw [before] at waits
        cases waits
      | cons first rest =>
        rw [(polled first rest before).1, before] at queue
        exact absurd (congrArg List.length queue) (by simp; omega)
  · by_cases same : first = msg
    · exact .inl (same ▸ stack)
    · rw [before] at waits
      have waits := List.mem_of_ne_of_mem (Ne.symm same) waits
      refine .inr ⟨queue ▸ waits, ?_, fun _ => ?_⟩
      · rw [queue, before, List.idxOf_cons_ne _ same]
        exact Nat.le_succ _
      · rw [queue, before, List.idxOf_cons_ne _ same]
        exact Nat.lt_succ_self _

/-- A syn that is received is handed over, or was before. -/
theorem exists_handedTo (inside : q < n) (running : ∀ k, (run.node k q).stopped = false)
    (often : ∃ᶠ k in atTop, run.choice k = .act q .main ∨
      (linkMachine n client).step q .main (run.node k q) = none)
    (few : ∀ j, FewSends (run.world j).history) (other : q ≠ p)
    (sent : SentTo (run.world k).history p q msg) (stack : (run.node k q).stack = [.receive msg]) :
    ∃ j ≥ k, HandedTo (run.world j).history q msg := by
  have received : ∀ {s : Process σ κ}, (run.node k q).Meanwhile s → s.step client q .main =
      some (PerfectLink.deliver client msg { s with stack := [] }) := by
    intro s meanwhile
    have stack := meanwhile.stack.trans stack
    have goes := meanwhile.stopped.trans (running k)
    simp [Process.step, Process.main, stack, goes, Frame.run]
  obtain ⟨j, after, main, meanwhile⟩ := exists_main running often fun j _ meanwhile => by
    rw [linkMachine_step_eq inside, received meanwhile]
    exact Option.some_ne_none _
  obtain ⟨r, step, world⟩ := Run.act main
  rw [linkMachine_step_eq inside, received meanwhile, Option.some.injEq] at step
  have sent' : SentTo (run.world j).history p q msg := run.mem_history sent after
  have syn := isSyn_of_sentTo (run.reachable j) (few j) sent'
  have sender := sender_of_sentTo (run.reachable j) sent'
  by_cases seen : ((run.node j q).peers msg.sender).delivered.contains (seqNum msg)
  · have acked := acked_of_delivered (run.reachable j) (sender ▸ other.symm) seen
    exact ⟨j, after, handedTo_of_acked (run.reachable j) (few j) sent' (sender ▸ acked)⟩
  · refine ⟨j + 1, Nat.le_succ_of_le after, ?_⟩
    have events : r.events = [.deliver msg] := by
      rw [← step]
      simp [PerfectLink.deliver, syn, seen]
    rw [HandedTo, world, World.react_history, events]
    exact List.mem_append_right _ (List.mem_singleton_self _)

/-- **Reliable delivery**: in a fair run, what a process that is not stopped sends to another one is
handed over there, however much the network loses. -/
theorem link_delivers (fair : Fair run F) (few : ∀ j, FewSends (run.world j).history)
    (insideP : p < n) (leftP : p ∉ F) (insideQ : q < n) (leftQ : q ∉ F) (other : q ≠ p)
    (polls : ∃ᶠ k in atTop, Polls run q k) (sent : SentTo (run.world k).history p q msg) :
    ∃ j ≥ k, HandedTo (run.world j).history q msg := by
  by_contra never
  push Not at never
  have timely := fair.workers p insideP leftP q insideQ leftQ other
  have known : ∀ j ≥ k, SentTo (run.world j).history p q msg := fun j after =>
    run.mem_history sent after
  -- while it was not handed over, it is sent again and again
  have again : ∃ᶠ j in atTop, run.Transmits (q, msg) j := by
    refine frequently_atTop.mpr fun start => ?_
    have later : k ≤ max k start := le_max_left k start
    have reach := run.reachable (max k start)
    have syn := isSyn_of_sentTo reach (few _) (known _ later)
    have scheduled : ∃ j ≥ max k start, ∃ e ∈ ((run.node j p).peers q).scheduled, e.msg = msg := by
      rcases kept_of_sentTo reach (few _) other (known _ later) with queued | entry | handed
      · exact exists_scheduled (attends_of_timely timely) queued syn
      · exact ⟨_, le_rfl, entry⟩
      · exact absurd handed (never _ later)
    obtain ⟨j, after, e, mem, rfl⟩ := scheduled
    obtain ⟨i, after', transmits | handed⟩ := exists_transmits few timely mem
    · exact ⟨i, by omega, transmits⟩
    · exact absurd handed (never i (by omega))
  obtain ⟨j, after, arrives⟩ := frequently_atTop.mp (fair.network q insideQ leftQ msg again) k
  have queued : msg ∈ (run.node (j + 1) q).messageQueue := by
    rw [Run.node, (Run.arrive arrives).2, World.replace_self]
    exact List.mem_append_right _ (List.mem_singleton_self msg)
  obtain ⟨i, after', stack⟩ := exists_receive polls queued
  obtain ⟨last, after'', handed⟩ := exists_handedTo insideQ (fair.running q insideQ leftQ)
    (fair.main q insideQ leftQ) few other (known i (by omega)) stack
  exact never last (by omega) handed

end

end CausalBroadcast
