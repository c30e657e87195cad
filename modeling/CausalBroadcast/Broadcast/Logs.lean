import CausalBroadcast.Broadcast.CausalOrder

/-!
# The logs

What the stream of a process's logger holds is read off its events: a line for every delivery and
every logged broadcast.

The main loop logs a broadcast only after it sent the message, and a signal may come in between.
`BetweenBroadcasts` keeps a signal out of that gap, and then no log has a delivery of a broadcast
that its originator did not log.
-/

namespace CausalBroadcast

open Async

variable {cfg : Config} {w : SystemWorld} {p i k s : Nat} {msg : Message}

/-- The line a notice puts in the log. -/
@[simp] def Notice.line : Notice → Option Line
  | .lcbDeliver msg => some (.deliver (msg.originator + 1) (succ32 msg.bcastSeqNum))
  | .logBroadcast seqNum => some (.broadcast (succ32 seqNum))
  | .urbSend _ | .bebSend _ | .urbDeliver _ => none

/-- The log of a process, in memory. -/
def logOf (w : SystemWorld) (p : Nat) : List Line := (w.nodes p).client.log.buffer

/-- The log holds the lines of all events so far. -/
theorem logOf_eq (reach : (system cfg).Reachable w) (p : Nat) :
    logOf w p = pick Notice.line (eventsOf p w.history) := by
  refine view_locally (P := fun _ v es => v.state.log.buffer = pick Notice.line es) ?_ ?_ reach p
  · intro i
    rfl
  · intro w i v es _ _ moves ok
    generalize (w.nodes i).view = before at moves ok
    generalize eventsOf i w.history = past at ok ⊢
    cases moves with
    | silent | stop | sendSelf | sendPeer | take => simpa [Node.client] using ok
    | poll turn =>
      obtain ⟨recvs, rfl⟩ := Node.loop_receive turn
      simpa using ok
    | call turn =>
      obtain ⟨-, rfl, rfl⟩ := Node.loop_call turn
      simpa using ok
    | @run s c rest =>
      have runs := Node.client_run_cases cfg i c s
      generalize (Node.client cfg).run i c s = out at runs ⊢
      rw [pick_append, ← ok]
      cases runs with
      | lcbSend | urbSend | bebSend | ignore | first | count | quorum | wait | hold | deliver | skip
      | finish | logBroadcast => simp

/-- The numbers of this run are those of the specification. -/
theorem succ32_of_lt (few : k < cfg.numMessages) : succ32 k = k + 1 :=
  Logger.succ32_eq_iff.mpr (Nat.lt_of_le_of_lt few cfg.numMessages_lt)

/-- A logged delivery is of a message that LCB delivered. -/
theorem exists_of_deliver_mem (reach : (system cfg).Reachable w)
    (line : .deliver (i + 1) s ∈ logOf w p) : ∃ msg : Message,
      (p, .client (.lcbDeliver msg)) ∈ w.history ∧ msg.originator = i ∧ s = msg.bcastSeqNum + 1 := by
  rw [logOf_eq reach, mem_pick] at line
  obtain ⟨e, mem, written⟩ := line
  cases e with
  | urbSend | bebSend | urbDeliver | logBroadcast => simp at written
  | lcbDeliver msg =>
    have mem := mem_eventsOf.mp mem
    have few := (genuine_of_lcbDeliver reach mem).bcastSeqNum_lt reach
    simp only [Notice.line, succ32_of_lt few, Option.some.injEq, Line.deliver.injEq,
      Nat.add_right_cancel_iff] at written
    exact ⟨msg, mem, written.1, written.2.symm⟩

/-- The main loop has logged every number below its next one. -/
theorem broadcast_mem_of_lt (reach : (system cfg).Reachable w)
    (logged : k < (w.nodes p).client.nextMsg) : .broadcast (k + 1) ∈ logOf w p := by
  have ok := main_ok reach p
  have few : k < cfg.numMessages := Nat.lt_of_lt_of_le logged ok.bound
  rw [logOf_eq reach, mem_pick]
  refine ⟨.logBroadcast k, ?_, by simp [succ32_of_lt few]⟩
  rw [← mem_loggedBroadcasts, ok.logged]
  exact List.mem_range.mpr logged

/-! ## Deliveries before the broadcast is logged -/

/-- Process `i` has handed its message `k` to the link for another process. -/
def Announced (h : SystemHistory) (i k : Nat) : Prop :=
  ∃ (q : Nat) (copy : Message), q ≠ i ∧ SentTo h i q copy ∧ copy.key = (i, k)

theorem Announced.append {h : SystemHistory} (announced : Announced h i k) (h' : SystemHistory) :
    Announced (h ++ h') i k := by
  obtain ⟨q, copy, other, sent, key⟩ := announced
  exact ⟨q, copy, other, List.mem_append_left _ sent, key⟩

/-- A message is found elsewhere only after its originator handed it to the link. -/
theorem Announced.spreads : Spreads fun h p msg =>
    msg.originator = p ∨ Announced h msg.originator msg.bcastSeqNum where
  append h' known := known.imp_right fun announced => announced.append h'
  copy known same := by
    rw [Message.originator_eq_of_payload same, Message.bcastSeqNum_eq_of_payload same]
    exact known
  broadcast own _ := .inl own
  travel := by
    intro h p msg known other sent
    right
    rcases known with own | announced
    · exact ⟨p, msg, fun same => other (own ▸ same.symm), own.symm ▸ sent, rfl⟩
    · exact announced

/-- What anybody delivers was handed to the link by its originator, for another process. -/
theorem announced_of_lcbDeliver (reach : (system cfg).Reachable w)
    (delivered : (p, .client (.lcbDeliver msg)) ∈ w.history) :
    Announced w.history msg.originator msg.bcastSeqNum := by
  obtain ⟨S, many, all⟩ := quorum_of_urbDeliver reach (urbDeliver_of_lcbDeliver reach delivered)
  have two := cfg.two_le
  obtain ⟨r, mem, other⟩ := Finset.exists_mem_ne (by omega : 1 < S.card) msg.originator
  obtain ⟨-, -, copy, sent, same⟩ := all r mem
  rw [← Message.originator_eq_of_payload same] at other ⊢
  rw [← Message.bcastSeqNum_eq_of_payload same]
  exact ((Announced.spreads.carries reach r).events _ sent copy rfl).resolve_left other.symm

theorem Announced.le_nextMsg (reach : (system cfg).Reachable w)
    (announced : Announced w.history i k) : k ≤ (w.nodes i).client.nextMsg ∧
      ((w.nodes i).stack = [] → k ≠ (w.nodes i).client.nextMsg) := by
  obtain ⟨q, copy, -, sent, key⟩ := announced
  obtain ⟨rfl, rfl⟩ := Prod.mk.inj key
  have below := (genuine_of_event reach sent rfl).bcastSeqNum_lt_length reach
  have phase : Phase cfg _ (w.nodes copy.originator).client
    (requestsOf (w.nodes copy.originator).stack) _ := (main_ok reach copy.originator).phase
  constructor
  · cases phase with
    | between _ count => omega
    | starting _ count | stamped _ count | sending _ count => omega
  · intro idle
    rw [idle] at phase
    exact Nat.ne_of_lt (phase.of_nil ▸ below)

/-- A signal stops a process only while the message it is going to log next has not been handed to
the link for another process. -/
def BetweenBroadcasts (w : SystemWorld) (i : Nat) (act : Act) : Prop :=
  act = .stop → ¬ Announced w.history i (w.nodes i).client.nextMsg

/-- Whatever a log says was delivered, its originator logged, unless it is still running and in the
middle of a call. -/
def Accounted (w : SystemWorld) : Prop :=
  ∀ i, (w.nodes i).stopped ∨ (w.nodes i).stack = [] → ∀ p s, .deliver (i + 1) s ∈ logOf w p →
    .broadcast s ∈ logOf w i

/-- A process stopped between broadcasts stays so. -/
theorem not_announced_of_stopped (run : (system cfg).ReachableBy BetweenBroadcasts w)
    (stopped : (w.nodes i).stopped) : ¬ Announced w.history i (w.nodes i).client.nextMsg := by
  induction run with
  | start => cases stopped
  | @act w j a r run allowed stepped ih =>
    by_cases same : i = j
    · subst same
      rw [World.react_self] at stopped ⊢
      obtain ⟨none, old | ⟨rfl, client⟩⟩ := linkMachine_step_stopped stepped stopped
      · rw [World.react_history, none, old.2]
        simpa using ih old.1
      · rw [World.react_history, none, client]
        simpa [Node.client] using allowed rfl
    · rw [World.react_other w same] at stopped ⊢
      rintro ⟨q, copy, other, sent, key⟩
      have sent : SentTo w.history i q copy := (mem_append_other (Ne.symm same)).mp sent
      exact ih stopped ⟨q, copy, other, sent, key⟩
  | @arrive w j msg run sent ih =>
    by_cases same : i = j
    · subst same
      rw [World.replace_self] at stopped ⊢
      exact ih stopped
    · rw [World.replace_other w same] at stopped ⊢
      exact ih stopped

/-- **No delivery without a logged broadcast**, as long as no signal comes between a broadcast and
its line in the log. -/
theorem accounted_of_betweenBroadcasts (run : (system cfg).ReachableBy BetweenBroadcasts w) :
    Accounted w := by
  intro i rest p s line
  have reach := run.reachable
  obtain ⟨msg, delivered, rfl, rfl⟩ := exists_of_deliver_mem reach line
  have announced := announced_of_lcbDeliver reach delivered
  have bound := announced.le_nextMsg reach
  have other : msg.bcastSeqNum ≠ (w.nodes msg.originator).client.nextMsg := by
    rcases rest with stopped | idle
    · intro same
      exact not_announced_of_stopped run stopped (same ▸ announced)
    · exact bound.2 idle
  exact broadcast_mem_of_lt reach (Nat.lt_of_le_of_ne bound.1 other)

/-- Both processes deliver everything, and then the first one is stopped. -/
theorem accounted_of_follower : ∃ w : SystemWorld,
    (system follower).ReachableBy BetweenBroadcasts w ∧ (w.nodes 0).stopped ∧
    .deliver 1 1 ∈ logOf w 1 ∧ Accounted w := by
  let ok : SystemWorld → Bool := fun w =>
    (w.nodes 0).client.nextMsg = 1 && !(w.nodes 0).stopped && .deliver 1 1 ∈ logOf w 1 &&
      w.history.all fun
        | (i, .send _ copy) => copy.key ≠ (i, 1)
        | _ => true
  have ran : ((system follower).execute (system follower).start followerSchedule).any ok := by
    decide +kernel
  obtain ⟨w, ran, checked⟩ := (Option.any_eq_true _ _).mp ran
  simp only [ok, Bool.and_eq_true, List.all_eq_true, decide_eq_true_eq, Bool.not_eq_true'] at checked
  obtain ⟨⟨⟨next, running⟩, delivered⟩, sends⟩ := checked
  have run : (system follower).ReachableBy BetweenBroadcasts w := by
    refine Machine.ReachableBy.start.execute (fun i a mem w stop => ?_) ran
    subst stop
    simp [followerSchedule, mains] at mem
  have allowed : BetweenBroadcasts w 0 .stop := by
    rintro - ⟨q, copy, -, sent, key⟩
    rw [next] at key
    exact of_decide_eq_true (sends _ sent) key
  have stepped : (system follower).step 0 .stop (w.nodes 0) = some
      { state := { w.nodes 0 with
          client := (Node.client follower).stop (w.nodes 0).client, stopped := true } } := by
    simp [system, linkMachine, Process.step, running, follower]
  have run' := run.act allowed stepped
  refine ⟨_, run', ?_, ?_, accounted_of_betweenBroadcasts run'⟩
  · rw [World.react_self]
  · rw [logOf, World.react_other w (by decide)]
    exact delivered

/-- The first process is stopped after it put its message on the network and before it logged it;
the second one delivers the message and logs that. -/
theorem accounted_fails : ∃ w : SystemWorld, (system follower).Reachable w ∧
    (∀ p < 2, (w.nodes p).stopped) ∧ .deliver 1 1 ∈ logOf w 1 ∧ ¬ Accounted w := by
  let ok : SystemWorld → Bool := fun w =>
    ((List.range 2).all fun p => (w.nodes p).stopped) && .deliver 1 1 ∈ logOf w 1 &&
      .broadcast 1 ∉ logOf w 0
  have ran : ((system follower).execute (system follower).start
      (mains 0 6 ++ .act 0 .stop :: .arrive 1 (firstCopy 0) :: mains 1 16 ++
        [.act 1 .stop])).any ok := by decide +kernel
  obtain ⟨w, reach, checked⟩ := Machine.exists_reachable ran
  simp only [ok, Bool.and_eq_true, List.all_eq_true, List.mem_range, decide_eq_true_eq] at checked
  obtain ⟨⟨stopped, delivered⟩, missing⟩ := checked
  exact ⟨w, reach, stopped, delivered,
    fun accounted => missing (accounted 0 (.inl (stopped 0 (by decide))) 1 1 delivered)⟩

end CausalBroadcast
