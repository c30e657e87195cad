import CausalBroadcast.Broadcast.Relay
import CausalBroadcast.Broadcast.Logs

/-!
# The main thread gets through

Wherever in the layers the main thread is, and whatever the receiver thread and the workers do
meanwhile, it comes back to its loop, and from there to the end of its broadcasts.
-/

namespace CausalBroadcast

open Async

namespace Node

variable {cfg : Config} {p depth : Nat} {s : Node} {frames : List (Frame Call)}

/-! ## Every call ends -/

/-- The calls on a stack end, with at most two calls of `UniformReliableBroadcast::deliver` inside one
another. -/
abbrev Finishes (cfg : Config) (p : Nat) (frames : List (Frame Call)) (s : Node) : Prop :=
  Ends (client cfg) p Call.isDeliver 2 frames s fun _ => True

theorem Keeps.finishes {requests : List (Request Call)} {urb : UniformReliableBroadcast}
    (keeps : s.Keeps cfg p depth requests urb) (shallow : depth ≤ 2) :
    s.Finishes cfg p (requests.map Request.frame) :=
  Ends.mono keeps shallow fun _ _ => trivial

theorem Finishes.cons {frame : Frame Call} (first : s.Finishes cfg p [frame])
    (next : ∀ s' : Node, s'.Finishes cfg p frames) : s.Finishes cfg p (frame :: frames) :=
  Ends.append first fun s' _ => next s'

/-- `FairLossLink::send` calls nothing. -/
theorem finishes_transmit (receiver : Nat) (msg : Message) :
    s.Finishes cfg p [.transmit receiver msg] :=
  Ends.cons (fun _ => True) (show _ + 2 ≤ 2 by simp [Frame.weight]) (fun _ _ => .nil trivial)
    fun _ _ => .nil trivial

theorem finishes_send (receiver : Nat) (msg : Message) :
    s.Finishes cfg p [.send receiver msg] :=
  Ends.send (fun _ copy _ => (Keeps.urbDeliver cfg p copy s).finishes le_rfl) fun _ => trivial

theorem finishes_sends (msg : Message) (receivers : List Nat) :
    s.Finishes cfg p (receivers.map (.send · msg)) := by
  induction receivers generalizing s with
  | nil => exact .nil trivial
  | cons receiver receivers ih => exact (finishes_send receiver msg).cons fun _ => ih

theorem finishes_call (c : Call) (s : Node) : s.Finishes cfg p [.client c] := by
  cases c with
  | lcbSend seqNum =>
    refine Ends.call (show _ + 1 ≤ 2 by simp [Call.isDeliver]) ?_
    exact Ends.mono (Keeps.urbSend cfg p seqNum _ s) le_rfl fun _ _ => trivial
  | urbSend seqNum msg => exact (Keeps.urbSend cfg p seqNum msg s).finishes (by decide)
  | bebSend msg =>
    refine Ends.call (show _ + 2 ≤ 2 by simp [Call.isDeliver]) ?_
    have calls : ((client cfg).run p (.bebSend msg) s).calls.map Request.frame =
        (cfg.connections p ++ [p]).map (.send · msg) := by
      simp [client, run, BestEffortBroadcast.send, Function.comp_def, Request.frame]
    rw [calls]
    exact finishes_sends msg _
  | urbDeliver msg => exact (Keeps.urbDeliver cfg p msg s).finishes le_rfl
  | urbTryDeliver msg =>
    have keeps : s.Keeps cfg p 0 [.call (.urbTryDeliver msg)] s.urb := Keeps.urbTryDeliver rfl
    exact keeps.finishes (by decide)
  | lcbDeliver msg =>
    have keeps : s.Keeps cfg p 0 [.call (.lcbDeliver msg)] s.urb := Keeps.lcbDeliver rfl
    exact keeps.finishes (by decide)
  | lcbScan it =>
    have keeps : s.Keeps cfg p 0 [.call (.lcbScan it)] s.urb :=
      Keeps.lcbScan (o := { lcb := s.lcb }) rfl rfl
    exact keeps.finishes (by decide)
  | logBroadcast seqNum => exact Ends.call (show _ + 0 ≤ 2 by simp [Call.isDeliver]) (.nil trivial)

theorem finishes_receive (msg : Message) : s.Finishes cfg p [.receive msg] := by
  refine Ends.cons (fun _ => True) (show _ + 2 ≤ 2 by simp [Frame.weight]) (fun s' same => ?_)
    fun _ _ => .nil trivial
  simp only [Frame.calls, Frame.after, Frame.run, PerfectLink.deliver]
  split
  · exact .nil trivial
  · split
    · exact (finishes_call _ _).cons fun _ => finishes_transmit _ _
    · exact finishes_transmit _ _

/-- Whatever is on the stack ends. -/
theorem finishes (frames : List (Frame Call)) (s : Node) : s.Finishes cfg p frames := by
  induction frames generalizing s with
  | nil => exact .nil trivial
  | cons frame frames ih =>
    refine Finishes.cons ?_ ih
    cases frame with
    | send receiver msg => exact finishes_send receiver msg
    | transmit receiver msg => exact finishes_transmit receiver msg
    | receive msg => exact finishes_receive msg
    | client c => exact finishes_call c s

/-! ## The variables of the main loop -/

/-- Every call but `Logger::log_broadcast`, after which `main` counts. -/
def Uncounted (frame : Frame Call) : Prop := ∀ seqNum, frame ≠ .client (.logBroadcast seqNum)

/-- The variables of the main loop. -/
def turn (s : Node) : Nat × Nat := (s.nextMsg, s.subsequentRecvs)

theorem uncounted_calls {frame : Frame Call} (plain : Uncounted frame) (s : Process Node Call) :
    (∀ f ∈ frame.calls (client cfg) p s, Uncounted f) ∧
      (frame.after (client cfg) p s).turn = s.client.turn := by
  cases frame with
  | transmit receiver msg => exact ⟨fun f mem => (by cases mem), rfl⟩
  | send receiver msg =>
    simp only [Frame.calls, Frame.after, Frame.run, PerfectLink.send]
    split <;> refine ⟨List.forall_mem_singleton.mpr fun seqNum same => ?_, rfl⟩ <;> cases same
  | receive msg =>
    simp only [Frame.calls, Frame.after, Frame.run, PerfectLink.deliver]
    split
    · exact ⟨List.forall_mem_nil _, rfl⟩
    · split
      · refine ⟨List.forall_mem_cons.mpr ⟨fun seqNum same => ?_,
          List.forall_mem_singleton.mpr fun seqNum same => ?_⟩, rfl⟩
        · cases same
        · cases same
      · refine ⟨List.forall_mem_singleton.mpr fun seqNum same => ?_, rfl⟩
        cases same
  | client c =>
    rw [Frame.calls_client, Frame.after_client]
    have runs := client_run_cases cfg p c s.client
    generalize (client cfg).run p c s.client = out at runs ⊢
    cases runs with
    | logBroadcast => exact absurd rfl (plain _)
    | ignore | wait | finish => exact ⟨List.forall_mem_nil _, rfl⟩
    | lcbSend | urbSend | count | quorum | hold | deliver | skip =>
      refine ⟨List.forall_mem_singleton.mpr fun seqNum same => ?_, rfl⟩
      cases same
    | first =>
      refine ⟨List.forall_mem_cons.mpr ⟨fun seqNum same => ?_,
        List.forall_mem_singleton.mpr fun seqNum same => ?_⟩, rfl⟩
      · cases same
      · cases same
    | bebSend =>
      refine ⟨fun f mem seqNum same => ?_, rfl⟩
      obtain ⟨r, listed, rfl⟩ := List.mem_map.mp mem
      rcases List.mem_append.mp listed with near | self
      · obtain ⟨q, -, rfl⟩ := List.mem_map.mp near
        cases same
      · cases List.mem_singleton.mp self
        cases same

/-- Calls that are not counted leave the variables of the main loop as they are. -/
theorem ends_uncounted (plain : ∀ f ∈ frames, Uncounted f) (s : Node) :
    Ends (client cfg) p Call.isDeliver 2 frames s fun s' => s'.turn = s.turn :=
  (Ends.frame (finishes frames s) plain (rfl : s.turn = s.turn) fun _ s' plain same =>
    ⟨(uncounted_calls plain s').1, (uncounted_calls plain s').2.trans same⟩).mono le_rfl
    fun _ both => both.2

/-- A broadcast that is logged is counted. -/
theorem ends_counted {below : List (Frame Call)} {seqNum : Nat}
    (plain : ∀ f ∈ frames, Uncounted f) (plain' : ∀ f ∈ below, Uncounted f) (s : Node) :
    Ends (client cfg) p Call.isDeliver 2 (frames ++ .client (.logBroadcast seqNum) :: below) s
      fun s' => s'.turn = (succ32 s.nextMsg, s.subsequentRecvs) := by
  have logged : ∀ s₁ : Node, Ends (client cfg) p Call.isDeliver 2
      [.client (.logBroadcast seqNum)] s₁ fun s' =>
        s'.turn = (succ32 s₁.nextMsg, s₁.subsequentRecvs) := fun s₁ =>
    Ends.call (show _ + 0 ≤ 2 by simp [Call.isDeliver]) (.nil rfl)
  refine (ends_uncounted plain s).append fun s₁ same => ?_
  have turned := Prod.mk.inj same
  refine (logged s₁).append fun s₂ counted => ?_
  refine (ends_uncounted plain' s₂).mono le_rfl fun _ same => ?_
  rw [same, counted, turned.1, turned.2]

end Node

/-! ## The main loop -/

section
variable {cfg : Config} {p : Nat}

/-- The main thread is at its loop. -/
structure Process.Idle (cfg : Config) (s : Process Node Call) : Prop where
  stack : s.stack = []
  running : s.stopped = false
  bound : s.client.nextMsg ≤ cfg.numMessages

/-- Everything is broadcast. -/
structure Process.Finished (cfg : Config) (s : Process Node Call) : Prop extends s.Idle cfg where
  all : s.client.nextMsg = cfg.numMessages

/-- A turn of the loop while there is something to broadcast. -/
theorem Process.Idle.turn {s : Process Node Call} (idle : s.Idle cfg)
    (more : s.client.nextMsg < cfg.numMessages) : ∃ r, s.step (Node.client cfg) p .main = some r ∧
      r.state.stopped = false ∧
      ((∃ msg, r.state.stack = [.receive msg] ∧ 0 < s.client.subsequentRecvs ∧
        r.state.client.turn = (s.client.nextMsg, s.client.subsequentRecvs - 1)) ∨
      r.state.stack = [.client (.lcbSend s.client.nextMsg),
          .client (.logBroadcast s.client.nextMsg)] ∧
        r.state.client.turn = (s.client.nextMsg, cfg.numMessages)) := by
  have goes : (Node.client cfg).loop s.client (!s.messageQueue.isEmpty) =
      Node.loop cfg s.client (!s.messageQueue.isEmpty) := rfl
  simp only [Process.step, idle.running, Process.main, idle.stack, goes, Node.loop, if_pos more]
  cases queue : s.messageQueue with
  | nil => simp [Node.turn]
  | cons msg rest =>
    by_cases recvs : 0 < s.client.subsequentRecvs
    · simp [recvs, Node.turn]
    · simp [recvs, Node.turn]

/-- From its loop the main thread comes to the end of its broadcasts. -/
theorem inevitable_of_idle {s : Process Node Call} (idle : s.Idle cfg) :
    Inevitable (Node.client cfg) p (Process.Finished cfg) s := by
  induction left : cfg.numMessages - s.client.nextMsg using Nat.strongRecOn generalizing s with
  | ind k rounds =>
  induction recvs : s.client.subsequentRecvs using Nat.strongRecOn generalizing s with
  | ind j turns =>
  by_cases all : s.client.nextMsg = cfg.numMessages
  · exact .now { idle with all }
  have more : s.client.nextMsg < cfg.numMessages := lt_of_le_of_ne idle.bound all
  have idle' : ∀ s', s.Others s' → s'.Idle cfg ∧ s'.client.nextMsg < cfg.numMessages :=
    fun s' others => by
      rw [others.client]
      exact ⟨⟨others.stack.trans idle.stack, others.stopped.trans idle.running,
        others.client ▸ idle.bound⟩, more⟩
  refine .later (fun s' others => ?_) fun s' r others stepped => ?_
  · obtain ⟨r, stepped, -⟩ := @Process.Idle.turn cfg p s' (idle' s' others).1 (idle' s' others).2
    rw [stepped]
    rfl
  · obtain ⟨r', stepped', running, turned⟩ :=
      @Process.Idle.turn cfg p s' (idle' s' others).1 (idle' s' others).2
    obtain rfl := Option.some.inj (stepped.symm.trans stepped')
    rw [others.client] at turned
    rcases turned with ⟨msg, stack, some_, turn⟩ | ⟨stack, turn⟩
    · have ends := @Node.ends_uncounted cfg p [.receive msg]
        (List.forall_mem_singleton.mpr fun _ same => by cases same) r.state.client
      refine (ends.inevitable rfl running (stack.trans (List.append_nil _).symm)).bind ?_
      rintro s'' ⟨empty, same, running⟩
      obtain ⟨nextMsg, fewer⟩ := Prod.mk.inj (same.trans turn)
      exact turns _ (by omega) ⟨empty, running, by omega⟩ (by rw [nextMsg]; exact left) rfl
    · have ends := @Node.ends_counted cfg p [.client (.lcbSend s.client.nextMsg)] []
        s.client.nextMsg (List.forall_mem_singleton.mpr fun _ same => by cases same)
        (List.forall_mem_nil _) r.state.client
      refine (ends.inevitable rfl running (stack.trans (List.append_nil _).symm)).bind ?_
      rintro s'' ⟨empty, same, running⟩
      obtain ⟨nextMsg, -⟩ := Prod.mk.inj same
      rw [(Prod.mk.inj turn).1, succ32_of_lt more] at nextMsg
      exact rounds _ (by omega) ⟨empty, running, by omega⟩ rfl

/-- At most one broadcast is to be logged, at the bottom of the stack. -/
theorem Phase.logs {s : Node} {requests : List (Request Call)} {sent : Nat}
    (phase : Phase cfg p s requests sent) :
    (∀ k, .call (.logBroadcast k) ∉ requests) ∨
      ∃ front, requests = front ++ [.call (.logBroadcast s.nextMsg)] ∧
        (∀ k, .call (.logBroadcast k) ∉ front) ∧ s.nextMsg < cfg.numMessages := by
  cases phase with
  | between passive => exact .inl fun k mem => passive _ mem
  | starting more _ all => exact .inr ⟨[.call (.lcbSend s.nextMsg)], all, by simp, more⟩
  | @stamped msg more _ _ all => exact .inr ⟨[.call (.urbSend s.nextMsg msg)], all, by simp, more⟩
  | @sending rest more _ passive all => exact .inr ⟨rest, all, fun k mem => passive _ mem, more⟩

theorem uncounted_of_notMem {frames : List (Frame Call)}
    (none_ : ∀ k, .call (.logBroadcast k) ∉ requestsOf frames) : ∀ f ∈ frames, Node.Uncounted f := by
  rintro f mem k rfl
  exact none_ k (List.mem_filterMap.mpr ⟨_, mem, rfl⟩)

/-- From anywhere the main thread comes back to its loop. -/
theorem inevitable_idle {w : SystemWorld} (reach : (system cfg).Reachable w)
    (running : (w.nodes p).stopped = false) :
    Inevitable (Node.client cfg) p (Process.Idle cfg) (w.nodes p) := by
  have ok := main_ok reach p
  generalize w.nodes p = s at ok running
  have bound : s.client.nextMsg ≤ cfg.numMessages := ok.bound
  rcases ok.phase.logs with none_ | ⟨front, all, plain, more⟩
  · have ends := @Node.ends_uncounted cfg p s.stack (uncounted_of_notMem none_) s.client
    refine (ends.inevitable rfl running (List.append_nil _).symm).bind ?_
    rintro s' ⟨empty, same, running⟩
    exact .now ⟨empty, running, (Prod.mk.inj same).1.trans_le bound⟩
  · obtain ⟨above, rest, stack, first, last⟩ := List.filterMap_eq_append_iff.mp all
    obtain ⟨silent, frame, below, rfl, nothing, logs, none_⟩ := List.filterMap_eq_cons_iff.mp last
    obtain rfl : frame = .client (.logBroadcast s.client.nextMsg) := by
      cases frame with
      | send | transmit | receive => cases logs
      | client c =>
        cases logs
        rfl
    have quiet : ∀ k, .call (.logBroadcast k) ∉ requestsOf (above ++ silent) := by
      intro k mem
      rw [requestsOf, List.filterMap_append, first, List.filterMap_eq_nil_iff.mpr nothing,
        List.append_nil] at mem
      exact plain k mem
    have quiet' : ∀ k, .call (.logBroadcast k) ∉ requestsOf below := by
      intro k mem
      rw [requestsOf, none_] at mem
      cases mem
    have ends := @Node.ends_counted cfg p (above ++ silent) below s.client.nextMsg
      (uncounted_of_notMem quiet) (uncounted_of_notMem quiet') s.client
    have whole : s.stack = above ++ silent ++
        .client (.logBroadcast s.client.nextMsg) :: below ++ [] := by
      rw [stack]
      simp
    refine (ends.inevitable rfl running whole).bind ?_
    rintro s' ⟨empty, same, running⟩
    have counted : s'.client.nextMsg = s.client.nextMsg + 1 :=
      (Prod.mk.inj same).1.trans (succ32_of_lt more)
    have more : s.client.nextMsg < cfg.numMessages := more
    exact .now ⟨empty, running, by omega⟩

/-- **The main thread gets through.** From every moment of every run, whatever the other threads do
and the network brings, a main thread that is not stopped comes to the end of its broadcasts, and
there is back at its loop. -/
theorem broadcasts_inevitable {w : SystemWorld} (reach : (system cfg).Reachable w)
    (running : (w.nodes p).stopped = false) :
    Inevitable (Node.client cfg) p (Process.Finished cfg) (w.nodes p) :=
  (inevitable_idle reach running).bind fun _ => inevitable_of_idle

/-- The second process of `follower`, in the midst of a delivery. -/
theorem broadcasts_inevitable_of_follower : ∃ w : SystemWorld, (w.nodes 1).stack ≠ [] ∧
    Inevitable (Node.client follower) 1 (Process.Finished follower) (w.nodes 1) := by
  have ran : ((system follower).execute (system follower).start (mains 0 10 ++
      .arrive 1 (firstCopy 0) :: mains 1 20)).any
      fun w => !(w.nodes 1).stopped && !(w.nodes 1).stack.isEmpty := by
    decide +kernel
  obtain ⟨w, reach, checked⟩ := Machine.exists_reachable ran
  rw [Bool.and_eq_true, Bool.not_eq_true', Bool.not_eq_true', List.isEmpty_eq_false_iff] at checked
  exact ⟨w, checked.2, broadcasts_inevitable reach checked.1⟩

end

end CausalBroadcast
