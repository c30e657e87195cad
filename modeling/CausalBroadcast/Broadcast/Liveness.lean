import Mathlib.Order.Filter.Finite
import CausalBroadcast.Broadcast.MainThread
import CausalBroadcast.Broadcast.Uniform
import CausalBroadcast.Broadcast.Volume
import CausalBroadcast.Link.Liveness

/-!
# Every broadcast is delivered

In a fair run the main threads come to the end of their broadcasts, from then on they take from the
queues of the receiver threads, and so the link delivers. It delivers only finitely much, and after
that nothing more is observed of the processes left: each of them is at rest, but for copies and acks
of what it knows. What holds of the processes at rest then holds of the run.
-/

namespace CausalBroadcast

open Async Filter

variable {cfg : Config} {run : Run (system cfg)} {F : Finset Nat} {p q k i j : Nat} {msg : Message}

/-! ## The broadcasts are made -/

theorem nextMsg_mono (run : Run (system cfg)) (p : Nat) (le : i ≤ j) :
    (run.node i p).client.nextMsg ≤ (run.node j p).client.nextMsg := by
  have counted : ∀ k, (run.node k p).client.nextMsg =
      (loggedBroadcasts (eventsOf p (run.world k).history)).length := fun k => by
    rw [(main_ok (run.reachable k) p).logged, List.length_range]
    rfl
  rw [counted i, counted j]
  exact ((run.events_prefix p le).filterMap _).length_le

/-- From some time on, everything is broadcast. -/
theorem exists_finished (fair : Fair run F) (inside : p < cfg.numProcesses) (left : p ∉ F) :
    ∃ start, ∀ k ≥ start, (run.node k p).client.nextMsg = cfg.numMessages := by
  have running := fair.running p inside left
  have inevitable : Inevitable (Node.client cfg) p (Process.Finished cfg) (run.node 0 p) :=
    (inevitable_idle (run.reachable 0) (running 0)).bind fun _ => inevitable_of_idle
  obtain ⟨start, -, finished⟩ :=
    exists_of_inevitable running (fair.main p inside left) inside inevitable
  refine ⟨start, fun k after => le_antisymm (main_ok (run.reachable k) p).bound ?_⟩
  exact finished.all.symm.le.trans (nextMsg_mono run p after)

/-- The main thread comes back to its loop. -/
theorem exists_idle (fair : Fair run F) (inside : p < cfg.numProcesses) (left : p ∉ F) (k : Nat) :
    ∃ j ≥ k, (run.node j p).stack = [] := by
  have running := fair.running p inside left
  obtain ⟨j, after, idle⟩ := exists_of_inevitable running (fair.main p inside left) inside
    (inevitable_idle (run.reachable k) (running k))
  exact ⟨j, after, idle.stack⟩

/-- When everything is broadcast, the main loop takes what is in front of the queue. -/
theorem exists_poll {s : Process Node Call} {rest : List Message} (idle : s.stack = [])
    (running : s.stopped = false) (all : s.client.nextMsg = cfg.numMessages)
    (queue : s.messageQueue = msg :: rest) : ∃ r, s.step (Node.client cfg) p .main = some r ∧
      r.state.messageQueue = rest ∧ r.state.stack = [.receive msg] := by
  have takes : (Node.client cfg).loop s.client true = some (.receive s.client) := by
    show Node.loop cfg s.client true = _
    simp [Node.loop, all]
  simp [Process.step, Process.main, idle, running, queue, takes]

/-- The main loop takes from the queue, again and again. -/
theorem frequently_polls (fair : Fair run F) (inside : p < cfg.numProcesses) (left : p ∉ F) :
    ∃ᶠ k in atTop, Polls run p k := by
  have running := fair.running p inside left
  obtain ⟨start, finished⟩ := exists_finished fair inside left
  refine frequently_atTop.mpr fun k => ?_
  obtain ⟨i, after, idle⟩ := exists_idle fair inside left (max k start)
  cases queue : (run.node i p).messageQueue with
  | nil =>
    refine ⟨i, (le_max_left k start).trans after, fun msg rest some_ => ?_⟩
    cases queue.symm.trans some_
  | cons first rest =>
    have polled : ∀ j ≥ i, (run.node i p).Meanwhile (run.node j p) → ∃ next r,
        (run.node j p).messageQueue = first :: next ∧
        (run.node j p).step (Node.client cfg) p .main = some r ∧
        r.state.messageQueue = next ∧ r.state.stack = [.receive first] := by
      intro j later meanwhile
      obtain ⟨new, same⟩ := meanwhile.queue
      have queue' : (run.node j p).messageQueue = first :: (rest ++ new) := by
        rw [← List.cons_append, ← queue]
        exact same.symm
      obtain ⟨r, polls⟩ := exists_poll (meanwhile.stack.trans idle) (running j)
        (finished j ((le_max_right k start).trans (after.trans later))) queue'
      exact ⟨_, r, queue', polls⟩
    obtain ⟨j, later, main, meanwhile⟩ := exists_main running (fair.main p inside left)
      fun j later meanwhile => by
        obtain ⟨next, r, -, step, -⟩ := polled j later meanwhile
        rw [linkMachine_step_eq inside]
        exact fun blocked => by cases blocked.symm.trans step
    obtain ⟨next, r, before, step, after', stack⟩ := polled j later meanwhile
    obtain ⟨r', step', world⟩ := Run.act main
    obtain rfl := Option.some.inj (step.symm.trans (step_of_linkMachine step'))
    refine ⟨j, (le_max_left k start).trans (after.trans later), fun msg rest' some_ => ?_⟩
    obtain ⟨rfl, rfl⟩ := List.cons.inj (before.symm.trans some_)
    have became : run.node (j + 1) p = r.state := by rw [Run.node, world, World.react_self]
    exact ⟨became ▸ after', became ▸ stack⟩

/-- The link delivers in the system. -/
theorem exists_handed (fair : Fair run F) (insideP : p < cfg.numProcesses) (leftP : p ∉ F)
    (insideQ : q < cfg.numProcesses) (leftQ : q ∉ F) (sent : SentTo (run.world k).history p q msg) :
    ∃ j, HandedTo (run.world j).history q msg := by
  by_cases self : q = p
  · subst self
    have both := received_self (run.reachable k) q
    have listed : msg ∈ received q (eventsOf q (run.world k).history) := by
      rw [both, mem_sends]
      exact mem_eventsOf.mpr sent
    exact ⟨k, mem_eventsOf.mp (mem_received.mp listed).1⟩
  · obtain ⟨j, -, handed⟩ := link_delivers fair (fun j => fewSends (run.reachable j)) insideP leftP
      insideQ leftQ self (frequently_polls fair insideQ leftQ) sent
    exact ⟨j, handed⟩

/-! ## The end of all events -/

theorem length_received_le (run : Run (system cfg)) (q p k : Nat) :
    (received q (eventsOf p (run.world k).history)).length ≤ 2 ^ 63 := by
  have once := received_nodup (run.reachable k) (fewSends (run.reachable k)) q p
  have small : (received q (eventsOf p (run.world k).history)).map seqNum ⊆ List.range (2 ^ 63) := by
    intro num mem
    obtain ⟨msg, -, rfl⟩ := List.mem_map.mp mem
    rw [List.mem_range, seqNum_eq_mod]
    exact Nat.mod_lt _ (Nat.two_pow_pos 63)
  have few := (List.subperm_of_subset once small).length_le
  rwa [List.length_map, List.length_range] at few

/-- The link hands over only finitely many messages. -/
theorem eventually_not_deliver (run : Run (system cfg)) (p : Nat) : ∀ᶠ k in atTop, ∀ act r msg,
    run.choice k = .act p act → (system cfg).step p act (run.node k p) = some r →
      r.events ≠ [.deliver msg] := by
  let handed (k : Nat) : Nat :=
    ∑ q ∈ Finset.range cfg.numProcesses, (received q (eventsOf p (run.world k).history)).length
  have mono : Monotone handed := fun i j le =>
    Finset.sum_le_sum fun q _ => ((run.events_prefix p le).filterMap _).length_le
  have bounded : ∀ k, handed k ≤ cfg.numProcesses * 2 ^ 63 := fun k => by
    have each := Finset.sum_le_card_nsmul (Finset.range cfg.numProcesses) _ (2 ^ 63)
      fun q _ => length_received_le run q p k
    rwa [Finset.card_range] at each
  filter_upwards [eventually_succ_eq mono bounded] with k same act r msg choice step events
  obtain ⟨r', step', world⟩ := Run.act choice
  obtain rfl := Option.some.inj (step.symm.trans step')
  have grown : eventsOf p (run.world (k + 1)).history =
      eventsOf p (run.world k).history ++ [.deliver msg] := by
    rw [world, World.react_history, eventsOf_append_own, events]
  have reach := run.reachable (k + 1)
  have handed_ : HandedTo (run.world (k + 1)).history p msg := by
    rw [HandedTo, ← mem_eventsOf, grown]
    simp
  have inside := lt_of_mem_history reach (sentTo_of_handedTo reach handed_)
  refine same.not_gt (Finset.sum_lt_sum (fun q _ => ?_)
    ⟨msg.sender, Finset.mem_range.mpr inside, ?_⟩)
  · rw [grown, received_append, List.length_append]
    exact Nat.le_add_right _ _
  · rw [grown, received_append, List.length_append]
    simp [received]

/-- At its loop, or at a copy or an ack that goes no further. -/
def Resting (stack : List (Frame Call)) : Prop :=
  stack = [] ∨ (∃ msg, stack = [.receive msg]) ∨ ∃ receiver msg, stack = [.transmit receiver msg]

theorem Resting.of_cons {frame : Frame Call} {stack : List (Frame Call)}
    (resting : Resting (frame :: stack)) : stack = [] ∧
      ((∃ msg, frame = .receive msg) ∨ ∃ receiver msg, frame = .transmit receiver msg) := by
  rcases resting with none_ | ⟨msg, same⟩ | ⟨receiver, msg, same⟩
  · cases none_
  · cases same
    exact ⟨rfl, .inl ⟨msg, rfl⟩⟩
  · cases same
    exact ⟨rfl, .inr ⟨receiver, msg, rfl⟩⟩

/-- A process at rest stays there until the link hands something over. -/
theorem Resting.step {s : Process Node Call} {r : ProcessReaction Node Call Notice}
    (resting : Resting s.stack) (all : s.client.nextMsg = cfg.numMessages)
    (steps : s.Steps (Node.client cfg) p r) (none_ : ∀ msg, r.events ≠ [.deliver msg]) :
    Resting r.state.stack ∧ r.events = [] := by
  cases steps with
  | poll => exact ⟨.inr (.inl ⟨_, rfl⟩), rfl⟩
  | @call state calls nonempty running idle turn =>
    have turn : Node.loop cfg s.client nonempty = some (.call state calls) := turn
    rw [Node.loop, if_neg all.not_lt] at turn
    split at turn <;> cases turn
  | sendSelf running stack | sendPeer running other stack | client running stack =>
    rw [stack] at resting
    rcases resting.of_cons.2 with ⟨msg, same⟩ | ⟨receiver, msg, same⟩ <;> cases same
  | transmit running stack | takeAck running stack =>
    rw [stack] at resting
    exact ⟨.inl resting.of_cons.1, rfl⟩
  | takeNew => exact absurd rfl (none_ _)
  | @takeOld msg rest running stack =>
    rw [stack] at resting
    refine ⟨.inr (.inr ⟨msg.sender, setAck msg, ?_⟩), rfl⟩
    rw [Process.push, resting.of_cons.1]
    rfl
  | work | stop => exact ⟨resting, rfl⟩

/-- From some time on, a process left is at rest and observes nothing. -/
theorem exists_resting (fair : Fair run F) (inside : p < cfg.numProcesses) (left : p ∉ F) :
    ∃ start, ∀ k ≥ start, Resting (run.node k p).stack ∧ ∀ act r, run.choice k = .act p act →
      (system cfg).step p act (run.node k p) = some r → r.events = [] := by
  obtain ⟨finished, all⟩ := exists_finished fair inside left
  obtain ⟨last, none_⟩ := eventually_atTop.mp (eventually_not_deliver run p)
  obtain ⟨start, after, idle⟩ := exists_idle fair inside left (max finished last)
  have steps : ∀ k ≥ start, Resting (run.node k p).stack → ∀ act r, run.choice k = .act p act →
      (system cfg).step p act (run.node k p) = some r → Resting r.state.stack ∧ r.events = [] := by
    intro k later resting act r choice step
    exact resting.step (all k ((le_max_left finished last).trans (after.trans later)))
      (linkMachine_step_cases step).2
      fun msg => none_ k ((le_max_right finished last).trans (after.trans later)) act r msg choice
        step
  have rests : ∀ k ≥ start, Resting (run.node k p).stack := by
    intro k later
    induction k, later using Nat.le_induction with
    | base => exact .inl idle
    | succ k later ih =>
      have saw := run.saw k p
      generalize run.node (k + 1) p = s at saw
      cases saw with
      | act choice step => exact (steps k later ih _ _ choice step).1
      | arrive | other => exact ih
  exact ⟨start, fun k later =>
    ⟨rests k later, fun act r choice step => (steps k later (rests k later) act r choice step).2⟩⟩

/-! ## The world at rest -/

section
variable {w : SystemWorld} (reach : (system cfg).Reachable w) (inside : p < cfg.numProcesses)
  (running : (w.nodes p).stopped = false)
include reach inside running

theorem exists_idle_of_transmit {receiver : Nat}
    (stack : (w.nodes p).stack = [.transmit receiver msg]) : ∃ w', (system cfg).Reachable w' ∧
      w'.history = w.history ∧ (w'.nodes p).stack = [] ∧
      (w'.nodes p).stopped = false ∧ ∀ q ≠ p, w'.nodes q = w.nodes q := by
  have step : (system cfg).step p .main (w.nodes p) = some
      ((Frame.transmit receiver msg).run (Node.client cfg) p { w.nodes p with stack := [] }) := by
    rw [system, linkMachine_step_eq inside]
    simp [Process.step, Process.main, running, stack]
  refine ⟨_, reach.act step, ?_, ?_, ?_, fun q other => World.react_other _ other _⟩
  · simp [Frame.run]
  · rw [World.react_self]
    rfl
  · rw [World.react_self]
    exact running

/-- What a process at rest is at comes to its end, and nobody sees it. -/
theorem Resting.exists_idle (resting : Resting (w.nodes p).stack)
    (known : ∀ msg, (w.nodes p).stack = [.receive msg] → isSyn msg →
      ((w.nodes p).peers msg.sender).delivered.contains (seqNum msg)) :
    ∃ w', (system cfg).Reachable w' ∧ w'.history = w.history ∧ (w'.nodes p).stack = [] ∧
      (w'.nodes p).stopped = false ∧ ∀ q ≠ p, w'.nodes q = w.nodes q := by
  rcases resting with idle | ⟨msg, stack⟩ | ⟨receiver, msg, stack⟩
  · exact ⟨w, reach, rfl, idle, running, fun _ _ => rfl⟩
  · have step : (system cfg).step p .main (w.nodes p) =
        some (PerfectLink.deliver (Node.client cfg) msg { w.nodes p with stack := [] }) := by
      rw [system, linkMachine_step_eq inside]
      simp [Process.step, Process.main, running, stack, Frame.run]
    by_cases syn : isSyn msg
    · have old := known msg stack syn
      have after : PerfectLink.deliver (Node.client cfg) msg { w.nodes p with stack := [] } =
          { state := { w.nodes p with stack := [.transmit msg.sender (setAck msg)] } } := by
        simp [PerfectLink.deliver, syn, old, Process.push]
      rw [after] at step
      obtain ⟨w', reach', history, idle, running', others⟩ := exists_idle_of_transmit
        (reach.act step) inside (by rw [World.react_self]; exact running) (by rw [World.react_self])
      refine ⟨w', reach', ?_, idle, running', fun q other => ?_⟩
      · rw [history, World.react_history, List.map_nil, List.append_nil]
      · rw [others q other, World.react_other _ other]
    · refine ⟨_, reach.act step, ?_, ?_, ?_, fun q other => World.react_other _ other _⟩
      · simp [PerfectLink.deliver, syn]
      · rw [World.react_self]
        simp [PerfectLink.deliver, syn, Process.setPeer]
      · rw [World.react_self]
        simp [PerfectLink.deliver, syn, Process.setPeer, running]
  · exact exists_idle_of_transmit reach inside running stack

end

/-- All that were at rest are idle, in a world with the same history. -/
theorem exists_quiescent {w : SystemWorld} (reach : (system cfg).Reachable w)
    (running : ∀ p < cfg.numProcesses, p ∉ F → (w.nodes p).stopped = false)
    (resting : ∀ p < cfg.numProcesses, p ∉ F → Resting (w.nodes p).stack)
    (known : ∀ p < cfg.numProcesses, p ∉ F → ∀ msg, (w.nodes p).stack = [.receive msg] →
      isSyn msg → ((w.nodes p).peers msg.sender).delivered.contains (seqNum msg))
    (handed : ∀ p < cfg.numProcesses, p ∉ F → ∀ q < cfg.numProcesses, q ∉ F → ∀ msg,
      SentTo w.history p q msg → HandedTo w.history q msg) :
    ∃ w', (system cfg).Reachable w' ∧ w'.history = w.history ∧ Quiescent cfg w' F := by
  have upTo : ∀ m ≤ cfg.numProcesses, ∃ w', (system cfg).Reachable w' ∧ w'.history = w.history ∧
      (∀ p < m, p ∉ F → (w'.nodes p).stack = [] ∧ (w'.nodes p).stopped = false) ∧
      ∀ p ≥ m, w'.nodes p = w.nodes p := by
    intro m
    induction m with
    | zero =>
      exact fun _ => ⟨w, reach, rfl, fun p low => absurd low (Nat.not_lt_zero p), fun _ _ => rfl⟩
    | succ m ih =>
      intro inside
      obtain ⟨w₁, reach₁, history₁, idle₁, others₁⟩ := ih (Nat.le_of_succ_le inside)
      by_cases left : m ∈ F
      · refine ⟨w₁, reach₁, history₁, fun p low left' => idle₁ p ?_ left', fun p high =>
          others₁ p (Nat.le_of_succ_le high)⟩
        exact lt_of_le_of_ne (Nat.le_of_lt_succ low) fun same => left' (same ▸ left)
      · have same := others₁ m le_rfl
        obtain ⟨w₂, reach₂, history₂, idle, running₂, others₂⟩ := Resting.exists_idle reach₁ inside
          (same ▸ running m inside left) (same ▸ resting m inside left) (same ▸ known m inside left)
        refine ⟨w₂, reach₂, history₂.trans history₁, fun p low left' => ?_, fun p high => ?_⟩
        · by_cases last : p = m
          · exact last ▸ ⟨idle, running₂⟩
          · rw [others₂ p last]
            exact idle₁ p (lt_of_le_of_ne (Nat.le_of_lt_succ low) last) left'
        · rw [others₂ p (by omega), others₁ p (Nat.le_of_succ_le high)]
  obtain ⟨w', reach', history, idle, -⟩ := upTo cfg.numProcesses le_rfl
  refine ⟨w', reach', history, ⟨fun p inside left => (idle p inside left).2,
    fun p inside left => (idle p inside left).1, ?_⟩⟩
  rw [history]
  exact handed

/-- A syn seen for the first time is handed over. -/
theorem exists_take {s : Process Node Call} (running : s.stopped = false)
    (stack : s.stack = [.receive msg]) (syn : isSyn msg)
    (new : ¬ (s.peers msg.sender).delivered.contains (seqNum msg)) :
    ∃ r, s.step (Node.client cfg) p .main = some r ∧ r.events = [.deliver msg] := by
  simp [Process.step, Process.main, running, stack, Frame.run, PerfectLink.deliver, syn, new]

/-- A message that would be handed over does not wait at a process at rest. -/
theorem eventually_resting (fair : Fair run F) (inside : p < cfg.numProcesses) (left : p ∉ F) :
    ∀ᶠ k in atTop, Resting (run.node k p).stack ∧
      (∀ j ≥ k, eventsOf p (run.world j).history = eventsOf p (run.world k).history) ∧
      ∀ msg, (run.node k p).stack = [.receive msg] → isSyn msg →
        ((run.node k p).peers msg.sender).delivered.contains (seqNum msg) := by
  have running := fair.running p inside left
  obtain ⟨start, rests⟩ := exists_resting fair inside left
  refine eventually_atTop.mpr ⟨start, fun k after => ⟨(rests k after).1, fun j later => ?_, ?_⟩⟩
  · exact Run.eventsOf_of_silent later fun i between act r => (rests i (after.trans between)).2 act r
  · intro msg stack syn
    by_contra new
    have takes : ∀ j ≥ k, (run.node k p).Meanwhile (run.node j p) → ∃ r,
        (run.node j p).step (Node.client cfg) p .main = some r ∧ r.events = [.deliver msg] := by
      intro j _ meanwhile
      refine exists_take (running j) (meanwhile.stack.trans stack) syn fun old => new ?_
      rwa [← meanwhile.delivered msg.sender]
    obtain ⟨j, later, main, meanwhile⟩ := exists_main running (fair.main p inside left)
      fun j later meanwhile => by
        obtain ⟨r, step, -⟩ := takes j later meanwhile
        rw [linkMachine_step_eq inside]
        exact fun blocked => by cases blocked.symm.trans step
    obtain ⟨r, step, events⟩ := takes j later meanwhile
    obtain ⟨r', step', -⟩ := Run.act main
    obtain rfl := Option.some.inj (step.symm.trans (step_of_linkMachine step'))
    have silent := (rests j (after.trans later)).2 _ _ main step'
    rw [events] at silent
    cases silent

/-- What was sent so far is handed over. -/
theorem eventually_handed (fair : Fair run F) (k : Nat) :
    ∀ᶠ j in atTop, ∀ p < cfg.numProcesses, p ∉ F → ∀ q < cfg.numProcesses, q ∉ F → ∀ msg,
      SentTo (run.world k).history p q msg → HandedTo (run.world j).history q msg := by
  have each : ∀ᶠ j in atTop, ∀ e ∈ {e | e ∈ (run.world k).history}, ∀ p < cfg.numProcesses, p ∉ F →
      ∀ q < cfg.numProcesses, q ∉ F → ∀ msg, e = (p, .send q msg) →
        HandedTo (run.world j).history q msg := by
    refine (eventually_all_finite (List.finite_toSet _)).mpr fun e mem => ?_
    by_cases sends : ∃ p < cfg.numProcesses, p ∉ F ∧ ∃ q < cfg.numProcesses, q ∉ F ∧ ∃ msg,
        e = (p, .send q msg)
    · obtain ⟨p, insideP, leftP, q, insideQ, leftQ, msg, rfl⟩ := sends
      obtain ⟨i, handed⟩ := exists_handed fair insideP leftP insideQ leftQ mem
      filter_upwards [eventually_ge_atTop i] with j later p' _ _ q' _ _ msg' same
      cases same
      exact run.mem_history handed later
    · refine .of_forall fun j p insideP leftP q insideQ leftQ msg same => ?_
      exact absurd ⟨p, insideP, leftP, q, insideQ, leftQ, msg, same⟩ sends
  filter_upwards [each] with j each p insideP leftP q insideQ leftQ msg sent
  exact each _ sent p insideP leftP q insideQ leftQ msg rfl

/-- A fair run comes to rest. -/
theorem eventually_quiescent (fair : Fair run F) : ∀ᶠ k in atTop, ∃ w, (system cfg).Reachable w ∧
    w.history = (run.world k).history ∧ Quiescent cfg w F := by
  have all : ∀ᶠ k in atTop, ∀ p ∈ Finset.range cfg.numProcesses, p ∉ F →
      Resting (run.node k p).stack ∧
      (∀ j ≥ k, eventsOf p (run.world j).history = eventsOf p (run.world k).history) ∧
      ∀ msg, (run.node k p).stack = [.receive msg] → isSyn msg →
        ((run.node k p).peers msg.sender).delivered.contains (seqNum msg) := by
    refine (eventually_all_finset _).mpr fun p inside => ?_
    by_cases left : p ∈ F
    · exact .of_forall fun k away => absurd left away
    · exact (eventually_resting fair (Finset.mem_range.mp inside) left).mono fun _ rests _ => rests
  obtain ⟨start, all⟩ := eventually_atTop.mp all
  filter_upwards [eventually_handed fair start, eventually_ge_atTop start] with k handed after
  refine exists_quiescent (run.reachable k) (fun p inside left => fair.running p inside left k)
    (fun p inside left => (all k after p (Finset.mem_range.mpr inside) left).1)
    (fun p inside left => (all k after p (Finset.mem_range.mpr inside) left).2.2)
    fun p insideP leftP q insideQ leftQ msg sent => handed p insideP leftP q insideQ leftQ msg ?_
  rw [SentTo, ← mem_eventsOf]
  rw [← (all start le_rfl p (Finset.mem_range.mpr insideP) leftP).2.1 k after]
  exact mem_eventsOf.mpr sent

/-- **Every broadcast is delivered.** In a run that is fair to all but a minority of the processes,
and where each of these has a quorum of them in its neighbourhood, there is a time by which each of
them has delivered all the broadcasts of each of them; and whatever anybody at all delivers, each of
them delivers. -/
theorem broadcasts_delivered (fair : Fair run F) (minority : 2 * F.card < cfg.numProcesses)
    (covered : Covered cfg F) :
    (∃ k, ∀ p < cfg.numProcesses, p ∉ F → ∀ q < cfg.numProcesses, q ∉ F → ∀ num < cfg.numMessages,
      ∃ msg : Message, msg.key = (p, num) ∧ (q, .client (.lcbDeliver msg)) ∈ (run.world k).history) ∧
    ∀ k p msg, (p, .client (.lcbDeliver msg)) ∈ (run.world k).history →
      ∀ q < cfg.numProcesses, q ∉ F → ∃ j, ∃ copy : Message, copy.payload = msg.payload ∧
        (q, .client (.lcbDeliver copy)) ∈ (run.world j).history := by
  constructor
  · have finished : ∀ᶠ k in atTop, ∀ p ∈ Finset.range cfg.numProcesses, p ∉ F →
        (run.node k p).client.nextMsg = cfg.numMessages := by
      refine (eventually_all_finset _).mpr fun p inside => ?_
      by_cases left : p ∈ F
      · exact .of_forall fun k away => absurd left away
      · obtain ⟨start, all⟩ := exists_finished fair (Finset.mem_range.mp inside) left
        exact eventually_atTop.mpr ⟨start, fun k after _ => all k after⟩
    obtain ⟨k, all, w, reach, history, quiet⟩ := (finished.and (eventually_quiescent fair)).exists
    refine ⟨k, fun p insideP leftP q insideQ leftQ num low => ?_⟩
    have sends : (urbSends (eventsOf p w.history)).length = cfg.numMessages := by
      have ok := main_ok reach p
      have logged := (main_ok (run.reachable k) p).logged
      rw [← history, ok.logged] at logged
      have count := congrArg List.length logged
      rw [List.length_range, List.length_range] at count
      have phase := ok.phase
      have idle : (w.nodes p).view.requests = [] := by
        show requestsOf (w.nodes p).stack = []
        rw [quiet.idle p insideP leftP, requestsOf_nil]
      rw [idle] at phase
      exact phase.of_nil.trans (count.trans (all p (Finset.mem_range.mpr insideP) leftP))
    obtain ⟨msg, sent, key⟩ := exists_urbSend_of_lt_length reach (sends ▸ low)
    obtain ⟨copy, same, done⟩ :=
      lcbDeliver_of_own reach minority quiet covered insideQ leftQ leftP sent
    exact ⟨copy, (Message.key_eq_of_payload same).trans key, history ▸ done⟩
  · intro k p msg done q inside left
    obtain ⟨j, after, w, reach, history, quiet⟩ :=
      ((eventually_ge_atTop k).and (eventually_quiescent fair)).exists
    obtain ⟨copy, same, done'⟩ := lcbDeliver_of_mem reach minority quiet covered inside left
      (history ▸ run.mem_history done after)
    exact ⟨j, copy, same, history ▸ done'⟩

/-! ## A fair run -/

section
variable {n : Nat} {σ κ ε : Type} {client : Client σ κ ε}

theorem Peer.work_of_empty {peer : Peer} (incoming : peer.incoming = [])
    (scheduled : peer.scheduled = []) {now woken : Nat} (waited : now + milliseconds 500 ≤ woken)
    (id receiver later : Nat) :
    peer.work id receiver none now woken later = some (peer, []) := by
  have popped : tryPop peer.incoming none now woken = some (none, []) := by
    rw [incoming]
    exact if_pos waited
  have same : { peer with incoming := [] } = peer := by rw [← incoming]
  rw [Peer.work, if_pos (show peer.scheduled.IsTop none from scheduled), popped]
  exact congrArg (fun peer => some (peer, [])) same

/-- The workers of the first two processes for each other, in turn, with nothing to do. -/
def idleTurn (k : Nat) : Choice Nat Act Message :=
  .act (k % 2) (.work ((k + 1) % 2) none k (k + milliseconds 500) k)

variable {last : World Nat (Process σ κ) (Event ε) Message} {F : Finset Nat}
  (empty : ∀ p < 2, ∀ q < 2, ((last.nodes p).peers q).incoming = [] ∧
    ((last.nodes p).peers q).scheduled = [])
include empty

theorem step_idleTurn (two : 2 ≤ n) (k : Nat) : (linkMachine n client).step (k % 2)
    (.work ((k + 1) % 2) none k (k + milliseconds 500) k) (last.nodes (k % 2)) =
      some { state := last.nodes (k % 2) } := by
  have inside := Nat.mod_lt k Nat.two_pos
  obtain ⟨incoming, scheduled⟩ := empty (k % 2) inside ((k + 1) % 2) (Nat.mod_lt _ Nat.two_pos)
  rw [linkMachine_step_eq (inside.trans_le two)]
  simp [Process.step, Peer.work_of_empty incoming scheduled le_rfl, Process.setPeer]

theorem next_idleTurn (two : 2 ≤ n) (k : Nat) :
    (linkMachine n client).next last (idleTurn k) = some last := by
  rw [idleTurn, Machine.next, step_idleTurn empty two]
  simp [World.react]

/-- A run that comes to rest with nothing to do is fair. -/
theorem fair_of_idleTurn {run : Run (linkMachine n client)} {start : Nat} (two : 2 ≤ n)
    (tail : ∀ k ≥ start, run.world k = last ∧ run.choice k = idleTurn k)
    (left : ∀ p < n, p ∉ F → p < 2 ∧ (last.nodes p).stopped = false ∧
      (linkMachine n client).step p .main (last.nodes p) = none) : Fair run F where
  running p inside away k := by
    by_contra stopped
    have still : (run.node (max k start) p).stopped = true :=
      stopped_mono run p (le_max_left k start) (Bool.not_eq_false _ ▸ stopped)
    rw [Run.node, (tail _ (le_max_right k start)).1, (left p inside away).2.1] at still
    cases still
  main p inside away := by
    refine frequently_atTop.mpr fun k => ⟨max k start, le_max_left k start, .inr ?_⟩
    rw [Run.node, (tail _ (le_max_right k start)).1]
    exact (left p inside away).2.2
  workers p inside away q inside' away' other := by
    have low := (left p inside away).1
    have low' := (left q inside' away').1
    have chosen : ∀ k ≥ start, ∀ now later, Works run p q k now later → now = k ∧ later = k := by
      rintro k after now later ⟨top, woken, choice⟩
      rw [(tail k after).2, idleTurn] at choice
      cases choice
      exact ⟨rfl, rfl⟩
    refine ⟨frequently_atTop.mpr fun k => ?_, fun time => ?_, 0, ?_⟩
    · have first : (2 * max k start + p) % 2 = p := by omega
      have second : (2 * max k start + p + 1) % 2 = q := by omega
      have choice := (tail (2 * max k start + p) (by omega)).2
      rw [idleTurn, first, second] at choice
      exact ⟨2 * max k start + p, by omega, _, _, _, _, choice⟩
    · filter_upwards [eventually_ge_atTop start, eventually_gt_atTop time] with
        k after late now later works
      obtain ⟨rfl, rfl⟩ := chosen k after now later works
      exact ⟨late, le_rfl⟩
    · filter_upwards [eventually_ge_atTop start] with k after now later works busy
      refine absurd (fun e mem => ?_) busy
      rw [Run.node, (tail k after).1, (empty p low q low').2] at mem
      cases mem
  network p inside away msg again := by
    refine absurd again (not_frequently.mpr ?_)
    filter_upwards [eventually_ge_atTop start] with k after transmits
    obtain ⟨p', act, r, choice, step, mem⟩ := transmits
    rw [(tail k after).2, idleTurn] at choice
    cases choice
    rw [Run.node, (tail k after).1, step_idleTurn empty two] at step
    cases step
    cases mem

end

/-- The last of three processes delivers the first one's message and crashes before its own. What goes
to it is never acknowledged, and the other two go on without it. -/
theorem broadcasts_delivered_of_triangle : ∃ run : Run (system triangle), Fair run {2} ∧
    (∃ k, (run.node k 2).stopped) ∧
    ∃ k, ∀ p < 3, p ∉ ({2} : Finset Nat) → ∀ q < 3, q ∉ ({2} : Finset Nat) → ∀ num < 1,
      ∃ msg : Message, msg.key = (p, num) ∧
        (q, .client (.lcbDeliver msg)) ∈ (run.world k).history := by
  let second (sender : Nat) : Message := { linkSeqNum := 1, originator := 1, sender }
  let retry (msg : Message) : Entry := { msg, backoff := .start 0 }
  let retires (p q : Nat) : List (Choice Nat Act Message) :=
    .act p (.work q none 0 0 0) ::
      List.replicate 3 (.act p (.work q (some (retry (firstCopy p))) 0 0 0)) ++
      [.act p (.work q (some (retry (firstCopy p))) (milliseconds 100) 0 0),
        .act p (.work q (some (retry (second p))) (milliseconds 100) 0 0)]
  let acks (p q : Nat) : List (Choice Nat Act Message) :=
    .arrive p (setAck (firstCopy q)) :: .arrive p (setAck (second q)) :: mains p 4
  let schedule : List (Choice Nat Act Message) :=
    mains 0 12 ++ .arrive 2 (firstCopy 0) :: mains 2 13 ++ .act 2 .stop ::
      .arrive 1 (firstCopy 0) :: mains 1 31 ++ .arrive 0 (firstCopy 1) :: mains 0 11 ++
      .arrive 0 (second 1) :: mains 0 20 ++ .arrive 1 (second 0) :: mains 1 12 ++
      acks 0 1 ++ acks 1 0 ++ retires 0 1 ++ retires 1 0
  let ok : SystemWorld → Bool := fun w =>
    ((List.range 2).all fun p => !(w.nodes p).stopped &&
      ((system triangle).step p .main (w.nodes p)).isNone && (List.range 2).all fun q =>
        ((w.nodes p).peers q).incoming.isEmpty && ((w.nodes p).peers q).scheduled.isEmpty) &&
    (w.nodes 2).stopped
  have ran : ((system triangle).execute (system triangle).start schedule).any ok := by
    decide +kernel
  obtain ⟨last, final, checked⟩ := (Option.any_eq_true ..).mp ran
  simp only [ok, Bool.and_eq_true, Bool.not_eq_true', Option.isNone_iff_eq_none, List.all_eq_true,
    List.mem_range, List.isEmpty_iff] at checked
  obtain ⟨main, crashed⟩ := checked
  have empty : ∀ p < 2, ∀ q < 2, ((last.nodes p).peers q).incoming = [] ∧
    ((last.nodes p).peers q).scheduled = [] := fun p low => (main p low).2
  obtain ⟨run, tail⟩ := Run.exists_of_execute final (next_idleTurn empty (by decide))
  have fair : Fair run {2} := fair_of_idleTurn empty (by decide) tail fun p inside away => by
    have low : p < 2 := by
      have inside : p < 3 := inside
      have away : p ≠ 2 := fun same => away (Finset.mem_singleton.mpr same)
      omega
    exact ⟨low, (main p low).1⟩
  refine ⟨run, fair, ⟨schedule.length, ?_⟩, (broadcasts_delivered fair (by decide) (by decide)).1⟩
  rw [Run.node, (tail _ le_rfl).1]
  exact crashed

end CausalBroadcast
