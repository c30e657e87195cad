import CausalBroadcast.Broadcast.Window
import CausalBroadcast.Validator.Fifo
import CausalBroadcast.Validator.Reading

/-!
# The validators accept what the processes write

From the steps of the processes to the answer of the validators, which read nothing but the log files.
The order of the lines comes from the accounts that each process keeps, and what the validator of
localized causal broadcast asks of a delivery comes from the vector clocks: the clock of a message
counts the deliveries logged before its broadcast, and whoever delivers the message has delivered as
many.

Two things are asked of a run: no signal comes between a broadcast and its line, and no log is so
long that a part of it is written twice.
-/

namespace CausalBroadcast

open Async LCausalBroadcastValidation

variable {cfg : Config} {w : SystemWorld} {p q o i k : Nat} {msg : Message}

/-! ## Lines and events -/

/-- The line of a delivery is written as LCB delivers, behind the lines of the events before. -/
theorem exists_of_deliver_split (reach : (system cfg).Reachable w) {s : Nat} {before after : List Line}
    (split : logOf w p = before ++ .deliver (i + 1) s :: after) :
    ∃ first msg last, eventsOf p w.history = first ++ .client (.lcbDeliver msg) :: last ∧
      pick Notice.line first = before ∧ msg.originator = i ∧ s = msg.bcastSeqNum + 1 := by
  rw [logOf_eq reach, pick, List.filterMap_eq_append_iff] at split
  obtain ⟨first, rest, cut, rfl, split⟩ := split
  obtain ⟨middle, e, last, rfl, quiet, line, -⟩ := List.filterMap_eq_cons_iff.mp split
  obtain ⟨msg, rfl, written⟩ : ∃ msg, e = .client (.lcbDeliver msg) ∧
      Notice.line (.lcbDeliver msg) = some (.deliver (i + 1) s) := by
    cases e with
    | send | deliver => cases line
    | client e =>
      cases e with
      | urbSend | bebSend | urbDeliver | logBroadcast => simp at line
      | lcbDeliver msg => exact ⟨msg, rfl, line⟩
  have mem : (p, .client (.lcbDeliver msg)) ∈ w.history := by
    rw [← mem_eventsOf, cut]
    simp
  have few := (genuine_of_lcbDeliver reach mem).bcastSeqNum_lt reach
  simp only [Notice.line, succ32_of_lt few, Option.some.injEq, Line.deliver.injEq,
    Nat.add_right_cancel_iff] at written
  refine ⟨first ++ middle, msg, last, by rw [cut, List.append_assoc], ?_, written.1, written.2.symm⟩
  have none : pick Notice.line middle = [] := List.filterMap_eq_nil_iff.mpr quiet
  rw [pick_append, none, List.append_nil]
  rfl

/-- The lines of some events, as a validator reads them. -/
def logLines (es : List (Event Notice)) : List LogLine := (pick Notice.line es).map Line.logLine

theorem broadcasts_logLines (es : List (Event Notice)) : (logLines es).filterMap LogLine.broadcast =
    (loggedBroadcasts es).map fun seqNum => (succ32 seqNum : Int) := by
  induction es with
  | nil => rfl
  | cons e es ih =>
    unfold logLines at ih ⊢
    cases e with
    | send | deliver => simpa using ih
    | client e => cases e <;> simpa [Line.logLine, List.filterMap_cons] using ih

theorem deliveries_logLines (o : Nat) (es : List (Event Notice)) :
    (logLines es).filterMap (LogLine.delivery ((o : Int) + 1)) =
      (fromProcess o (lcbDeliveries es)).map fun msg => (succ32 msg.bcastSeqNum : Int) := by
  induction es with
  | nil => rfl
  | cons e es ih =>
    unfold logLines at ih ⊢
    cases e with
    | send | deliver => simpa using ih
    | client e =>
      cases e with
      | urbSend | bebSend | urbDeliver | logBroadcast =>
        simpa [Line.logLine, List.filterMap_cons] using ih
      | lcbDeliver msg =>
        by_cases own : msg.originator = o
        · simpa [Line.logLine, List.filterMap_cons, fromProcess, own] using ih
        · have other : ¬ (msg.originator : Int) = o := by omega
          simpa [Line.logLine, List.filterMap_cons, fromProcess, own, other] using ih

/-- The numbers of the specification are those of the code, one higher. -/
theorem map_succ_eq_upTo {α : Type} {l : List α} {f : α → Nat} {n : Nat}
    (numbers : l.map f = List.range n) (few : ∀ a ∈ l, f a < cfg.numMessages) :
    l.map (fun a => (succ32 (f a) : Int)) = upTo n := by
  unfold upTo
  rw [← numbers, List.map_map]
  refine List.map_congr_left fun a mem => ?_
  rw [succ32_of_lt (few a mem)]
  rfl

/-- The deliveries from process `o` in the lines of a process's events up to some moment. -/
theorem deliveries_eq_upTo (reach : (system cfg).Reachable w) {es : List (Event Notice)}
    (upTo_ : es <+: eventsOf p w.history) (o : Nat) :
    (logLines es).filterMap (LogLine.delivery ((o : Int) + 1)) = upTo (delivered o es) := by
  obtain ⟨rest, split⟩ := upTo_
  have causal : Justified (Caused cfg p) es := Justified.of_append (split ▸ (lcb_ok reach p).causal)
  rw [deliveries_logLines]
  refine @map_succ_eq_upTo cfg _ _ _ _ (numbers_of_caused causal o) fun msg mem => ?_
  have listed := mem_lcbDeliveries.mp (mem_fromProcess.mp mem).1
  have happened : (p, .client (.lcbDeliver msg)) ∈ w.history := by
    rw [← mem_eventsOf, ← split]
    exact List.mem_append_left _ listed
  exact (genuine_of_lcbDeliver reach happened).bcastSeqNum_lt reach

theorem mem_logLines_iff (reach : (system cfg).Reachable w) {es : List (Event Notice)}
    (upTo_ : es <+: eventsOf p w.history) {s : Int} :
    .d ((o : Int) + 1) s ∈ logLines es ↔ 1 ≤ s ∧ s ≤ delivered o es := by
  rw [← mem_deliveries, deliveries_eq_upTo reach upTo_, mem_upTo]

/-! ## The order of the lines -/

/-- A sender that a log names is one more than a process. -/
theorem exists_of_d_mem {es : List (Event Notice)} {z s : Int} (mem : .d z s ∈ logLines es) :
    ∃ o : Nat, z = o + 1 := by
  obtain ⟨line, listed, same⟩ := List.mem_map.mp mem
  obtain ⟨e, -, written⟩ := (mem_pick _).mp listed
  cases e with
  | urbSend | bebSend | urbDeliver => cases written
  | logBroadcast => cases written; cases same
  | lcbDeliver msg =>
    cases written
    cases same
    exact ⟨msg.originator, rfl⟩

/-- The log of every process is in order. -/
theorem ordered_logLines (reach : (system cfg).Reachable w) (p : Nat) :
    Ordered (logLines (eventsOf p w.history)) where
  broadcasts := by
    have ok := main_ok reach p
    refine ⟨(w.nodes p).client.nextMsg, ?_⟩
    rw [broadcasts_logLines]
    refine @map_succ_eq_upTo cfg _ _ id _ (by rw [List.map_id, ok.logged]; rfl) fun k mem => ?_
    rw [ok.logged, List.mem_range] at mem
    exact Nat.lt_of_lt_of_le mem ok.bound
  deliveries z := by
    by_cases named : ∃ o : Nat, z = o + 1
    · obtain ⟨o, rfl⟩ := named
      exact ⟨_, deliveries_eq_upTo reach List.prefix_rfl o⟩
    · refine ⟨0, List.eq_nil_iff_forall_not_mem.mpr fun s mem => ?_⟩
      exact named (exists_of_d_mem (mem_deliveries.mp mem))

/-! ## What a delivery comes after -/

/-- Whatever is delivered its originator has logged, unless it is still running and in the middle of a
call. -/
theorem lt_nextMsg_of_lcbDeliver (run : (system cfg).ReachableBy BetweenBroadcasts w)
    (rest : (w.nodes msg.originator).stopped ∨ (w.nodes msg.originator).stack = [])
    (delivered : (p, .client (.lcbDeliver msg)) ∈ w.history) :
    msg.bcastSeqNum < (w.nodes msg.originator).client.nextMsg := by
  have announced := announced_of_lcbDeliver run.reachable delivered
  have bound := announced.le_nextMsg run.reachable
  refine Nat.lt_of_le_of_ne bound.1 ?_
  rcases rest with stopped | idle
  · exact fun same => not_announced_of_stopped run stopped (same ▸ announced)
  · exact bound.2 idle

/-- When the line of a broadcast is written, the process has delivered of its dependencies what the
vector clock of the message says. -/
theorem exists_of_logged (reach : (system cfg).Reachable w) (mem : .broadcast (k + 1) ∈ logOf w i) :
    ∃ (first last : List (Event Notice)) (msg : Message),
      eventsOf i w.history = first ++ .client (.logBroadcast k) :: last ∧
      succ32 k = k + 1 ∧ (i, .client (.urbSend msg)) ∈ w.history ∧ msg.bcastSeqNum = k ∧
      msg.vectorClock = (cfg.depends i).map (delivered · first) := by
  obtain ⟨past, after, split⟩ := List.append_of_mem mem
  obtain ⟨first, last, cut, -⟩ := exists_of_lines_split reach split
  obtain ⟨⟨msg, made, number, clock⟩, -⟩ := logged_ok reach i _ _ _ cut
  have sent : (i, .client (.urbSend msg)) ∈ w.history := by
    rw [← mem_eventsOf, cut]
    exact List.mem_append_left _ made
  have few := (genuine_of_event reach sent rfl).bcastSeqNum_lt reach
  exact ⟨first, last, msg, cut, succ32_of_lt (number ▸ few), sent, number, clock⟩

/-- A delivery in the log of one process comes after what its originator had delivered from its
dependencies when it logged the message. -/
theorem respects_logLines (run : (system cfg).ReachableBy BetweenBroadcasts w)
    (rest : (w.nodes i).stopped ∨ (w.nodes i).stack = []) {before : List LogLine} {s : Int}
    (upTo_ : before ++ [.d ((i : Int) + 1) s] <+: logLines (eventsOf p w.history)) :
    ∃ past, past ++ [.b s] <+: logLines (eventsOf i w.history) ∧
      ∀ d ∈ cfg.depends i, ∀ s', .d ((d : Int) + 1) s' ∈ past → .d ((d : Int) + 1) s' ∈ before := by
  have reach := run.reachable
  obtain ⟨tail, split⟩ := upTo_
  rw [List.append_assoc, List.singleton_append, eq_comm, logLines, List.map_eq_append_iff] at split
  obtain ⟨lines, others, cut, rfl, split⟩ := split
  obtain ⟨line, after, rfl, same, -⟩ := List.map_eq_cons_iff.mp split
  obtain ⟨num, rfl, rfl⟩ : ∃ num : Nat, line = .deliver (i + 1) num ∧ (num : Int) = s := by
    cases line with
    | broadcast num => cases same
    | deliver process num =>
      obtain ⟨process_, num_⟩ := LogLine.d.inj same
      exact ⟨num, by rw [show process = i + 1 by omega], num_⟩
  obtain ⟨first, msg, last, cut', rfl, rfl, rfl⟩ :=
    exists_of_deliver_split reach ((logOf_eq reach p).trans cut)
  have happened : (p, .client (.lcbDeliver msg)) ∈ w.history := by
    rw [← mem_eventsOf, cut']
    simp
  obtain ⟨past, last', msg', cut'', next, sent, number, clock⟩ := exists_of_logged reach
    (broadcast_mem_of_lt reach (lt_nextMsg_of_lcbDeliver run rest happened))
  refine ⟨logLines past, ⟨logLines last', ?_⟩, fun d dep s' mem => ?_⟩
  · rw [cut'']
    simp [logLines, next, Line.logLine]
  · -- the clock of the message counts the deliveries logged before its broadcast
    obtain ⟨original, same, made⟩ := genuine_of_lcbDeliver reach happened
    obtain rfl : msg' = original :=
      eq_of_urbSends reach sent made (number.trans (Message.bcastSeqNum_eq_of_payload same).symm)
    obtain ⟨-, waits⟩ := (lcb_ok reach p).causal _ _ _ cut'
    have counted := delivered_le_of_clock
      ((Message.vectorClock_eq_of_payload same).symm.trans clock) waits dep
    have early : past <+: eventsOf msg.originator w.history := by
      rw [cut'']
      exact List.prefix_append _ _
    have early' : first <+: eventsOf p w.history := by
      rw [cut']
      exact List.prefix_append _ _
    rw [mem_logLines_iff reach early] at mem
    show .d ((d : Int) + 1) s' ∈ logLines first
    rw [mem_logLines_iff reach early']
    omega

/-- A run of the system as a validator sees it: processes are numbered from 1, and so are their
dependencies. -/
def validation (cfg : Config) (logs : Int → List LogLine) : LCausalBroadcastValidation where
  processes := cfg.numProcesses
  dependencies x := (cfg.depends (x - 1).toNat).map fun d : Nat => (d : Int) + 1
  logs := logs

/-- What the processes logged is accepted. -/
theorem checkAll_logLines (run : (system cfg).ReachableBy BetweenBroadcasts w)
    (rest : ∀ p < cfg.numProcesses, (w.nodes p).stopped ∨ (w.nodes p).stack = [])
    {logs : Int → List LogLine}
    (read : ∀ p < cfg.numProcesses, logs ((p : Int) + 1) = logLines (eventsOf p w.history))
    (continueOnError : Bool) : (validation cfg logs).checkAll continueOnError = some true := by
  have named : ∀ {x}, x ∈ (validation cfg logs).pids →
      ∃ p < cfg.numProcesses, x = (p : Int) + 1 := fun {x} listed => by
    have bounds : 1 ≤ x ∧ x ≤ cfg.numProcesses := mem_upTo.mp listed
    exact ⟨(x - 1).toNat, by omega, by omega⟩
  rw [checkAll_eq_some_true_iff]
  refine ⟨fun q listed => ?_, fun x listed q listed' _ before s upTo_ => ?_⟩
  · obtain ⟨p, inside, rfl⟩ := named listed
    show Ordered (logs _)
    rw [read p inside]
    exact ordered_logLines run.reachable p
  · obtain ⟨i, inside, rfl⟩ := named listed
    obtain ⟨p, inside', rfl⟩ := named listed'
    have upTo_ : before ++ [.d ((i : Int) + 1) s] <+: logs ((p : Int) + 1) := upTo_
    rw [read p inside'] at upTo_
    obtain ⟨past, made, all⟩ := respects_logLines run (rest i inside) upTo_
    refine ⟨past, ?_, fun z dep s' mem => ?_⟩
    · show past ++ [.b s] <+: logs _
      rw [read i inside]
      exact made
    · have dep : z ∈ (cfg.depends ((i : Int) + 1 - 1).toNat).map fun d : Nat => (d : Int) + 1 := dep
      rw [show ((i : Int) + 1 - 1).toNat = i by omega] at dep
      obtain ⟨d, listed, rfl⟩ := List.mem_map.mp dep
      exact all d listed s' mem

/-! ## The files -/

/-- A log that is not long is not in the file before the last flush. -/
def Logger.Held (log : Logger) : Prop := log.tellp ≤ maxLen → log.file = []

namespace Logger.Held

variable {log : Logger}

theorem tellp_le {line : Line} {log' : Logger} (more : log'.buffer = log.buffer ++ [line]) :
    log.tellp ≤ log'.tellp := by
  unfold tellp str
  rw [more]
  simp [Line.texts]

theorem logBroadcast (held : log.Held) (seqNum : Nat) : (log.logBroadcast seqNum).Held := by
  intro short
  exact held ((tellp_le (buffer_logBroadcast seqNum log)).trans short)

theorem deliver (held : log.Held) (msg : Message) : (log.deliver msg).Held := by
  intro short
  have grown := tellp_le (buffer_deliver msg log)
  have flushed : (log.deliver msg).file = log.file := by
    unfold tellp str at short
    rw [buffer_deliver] at short
    exact (congrArg Logger.file (if_neg (Nat.not_lt.mpr short))).trans rfl
  rw [flushed]
  exact held (grown.trans short)

end Logger.Held

/-- A call leaves a short log out of the file. -/
theorem Node.Runs.held {id : Nat} {c : Call} {s : Node} {out : Outcome Node Call Notice}
    (runs : s.Runs cfg id c out) (held : s.log.Held) : out.state.log.Held := by
  cases runs with
  | lcbSend | urbSend | bebSend | ignore | first | count | quorum | wait | hold | skip | finish =>
    exact held
  | deliver => exact held.deliver _
  | logBroadcast => exact held.logBroadcast _

/-- A short log is in the file, once, from when its process is stopped. -/
theorem file_of_short (reach : (system cfg).Reachable w) (p : Nat) :
    ((w.nodes p).stopped = false → (w.nodes p).client.log.Held) ∧
    ((w.nodes p).stopped → (w.nodes p).client.log.tellp ≤ Logger.maxLen →
      (w.nodes p).client.log.file = (w.nodes p).client.log.str) := by
  refine reach.locally (P := fun _ s _ => (s.stopped = false → s.client.log.Held) ∧
    (s.stopped → s.client.log.tellp ≤ Logger.maxLen → s.client.log.file = s.client.log.str))
    ?_ ?_ ?_ p
  · intro i
    refine ⟨fun _ _ => rfl, fun stopped => ?_⟩
    cases stopped
  · intro w i a r _ ok stepped
    cases (linkMachine_step_cases stepped).2 with
    | poll running idle queue polled =>
      obtain ⟨recvs, rfl⟩ := Node.loop_receive polled
      exact ok
    | call running idle polled =>
      obtain ⟨-, rfl, -⟩ := Node.loop_call polled
      exact ok
    | sendSelf | sendPeer | transmit | takeAck | takeNew | takeOld | work => exact ok
    | @client c stack running top =>
      have runs := Node.client_run_cases cfg i c (w.nodes i).client
      refine ⟨fun _ => runs.held (ok.1 running), fun stopped => ?_⟩
      have stopped : (w.nodes i).stopped := stopped
      rw [running] at stopped
      cases stopped
    | stop running =>
      constructor
      · intro go
        cases go
      · intro _ short
        show (w.nodes i).client.log.file ++ (w.nodes i).client.log.str = _
        rw [ok.1 running short]
        rfl
  · intro w i msg _ _ ok
    exact ok

/-- **The validators accept what the processes write**: after a run that ends with every process
stopped, between two broadcasts and with no log longer than `MAX_LEN`, every file is read as a log,
and both validators accept these logs. -/
theorem files_accepted (run : (system cfg).ReachableBy BetweenBroadcasts w)
    (ended : ∀ p < cfg.numProcesses, (w.nodes p).stopped)
    (short : ∀ p < cfg.numProcesses, (w.nodes p).client.log.tellp ≤ Logger.maxLen) :
    ∃ logs : Int → List LogLine,
      (∀ p < cfg.numProcesses,
        LogLine.readLog (w.nodes p).client.log.file = .ok (logs ((p : Int) + 1))) ∧
      ∀ continueOnError, (validation cfg logs).checkAll continueOnError = some true ∧
        (validation cfg logs).fifo.checkAll continueOnError = true := by
  let logs : Int → List LogLine := fun q => logLines (eventsOf (q - 1).toNat w.history)
  have read : ∀ p < cfg.numProcesses, logs ((p : Int) + 1) = logLines (eventsOf p w.history) :=
    fun p _ => by
      show logLines (eventsOf ((p : Int) + 1 - 1).toNat w.history) = _
      rw [show ((p : Int) + 1 - 1).toNat = p by omega]
  refine ⟨logs, fun p inside => ?_, fun continueOnError => ?_⟩
  · have file := (file_of_short run.reachable p).2 (ended p inside) (short p inside)
    rw [file, Logger.str, Line.readLog_texts, read p inside]
    exact congrArg (Except.ok ∘ List.map Line.logLine) (logOf_eq run.reachable p)
  · have accepted := checkAll_logLines run (fun p inside => .inl (ended p inside)) read
      continueOnError
    refine ⟨accepted, ?_⟩
    rw [FifoBroadcastValidation.checkAll_eq_true_iff]
    exact ((checkAll_eq_some_true_iff _ _).mp accepted).1

/-- A process is stopped whose next message was not announced. -/
theorem exists_stop (run : (system cfg).ReachableBy BetweenBroadcasts w)
    (inside : p < cfg.numProcesses) (running : (w.nodes p).stopped = false)
    (none_ : ¬ Announced w.history p (w.nodes p).client.nextMsg) :
    ∃ w' : SystemWorld, (system cfg).ReachableBy BetweenBroadcasts w' ∧ w'.history = w.history ∧
      (w'.nodes p).stopped ∧ (w'.nodes p).client.log = (w.nodes p).client.log.flush ∧
      ∀ q ≠ p, w'.nodes q = w.nodes q := by
  have stepped : (system cfg).step p .stop (w.nodes p) = some
      { state := { w.nodes p with
          client := (Node.client cfg).stop (w.nodes p).client, stopped := true } } := by
    simp [system, linkMachine, Process.step, running, inside]
  refine ⟨_, run.act (fun _ => none_) stepped, ?_, ?_, ?_, fun q other => World.react_other w other _⟩
  · rw [World.react_history]
    exact List.append_nil _
  · rw [World.react_self]
  · rw [World.react_self]
    rfl

/-- The two processes are stopped at the end of their run. -/
theorem files_accepted_of_follower : ∃ (w : SystemWorld) (logs : Int → List LogLine),
    LogLine.readLog (w.nodes 1).client.log.file = .ok (logs 2) ∧ .d 1 1 ∈ logs 2 ∧
    (validation follower logs).checkAll true = some true := by
  let ok : SystemWorld → Bool := fun w =>
    ((List.range 2).all fun p => !(w.nodes p).stopped && (w.nodes p).client.nextMsg = 1 &&
      (w.nodes p).client.log.tellp ≤ Logger.maxLen) &&
      (w.history.all fun entry => entry.2.copied.map Message.key ≠ some (entry.1, 1)) &&
      (w.nodes 1).client.log.file = [] && .d 1 1 ∈ (w.nodes 1).client.log.buffer.map Line.logLine
  have ran : ((system follower).execute (system follower).start followerSchedule).any ok := by
    decide +kernel
  obtain ⟨w, ran, checked⟩ := (Option.any_eq_true _ _).mp ran
  simp only [ok, Bool.and_eq_true, List.all_eq_true, List.mem_range, decide_eq_true_eq,
    Bool.not_eq_true'] at checked
  obtain ⟨⟨⟨main, sends⟩, fresh⟩, delivered⟩ := checked
  have run : (system follower).ReachableBy BetweenBroadcasts w := by
    refine Machine.ReachableBy.start.execute (fun i a mem w stop => ?_) ran
    subst stop
    simp [followerSchedule, mains] at mem
  have none_ : ∀ p < 2, ¬ Announced w.history p (w.nodes p).client.nextMsg := by
    rintro p inside ⟨q, copy, -, sent, key⟩
    rw [(main p inside).1.2] at key
    exact sends _ sent (congrArg some key)
  obtain ⟨w', run', history, stopped, log, others⟩ :=
    exists_stop run (by decide : 0 < follower.numProcesses) (main 0 (by decide)).1.1
      (none_ 0 (by decide))
  have same := others 1 (by decide)
  obtain ⟨w'', run'', -, stopped', log', others'⟩ :=
    exists_stop run' (by decide : 1 < follower.numProcesses) (same ▸ (main 1 (by decide)).1.1)
      (history.symm ▸ same.symm ▸ none_ 1 (by decide))
  have first := others' 0 (by decide)
  rw [same] at log'
  have ended : ∀ p < 2, (w''.nodes p).stopped ∧
      (w''.nodes p).client.log = (w.nodes p).client.log.flush := by
    intro p inside
    obtain rfl | rfl : p = 0 ∨ p = 1 := by omega
    · rw [first]
      exact ⟨stopped, log⟩
    · exact ⟨stopped', log'⟩
  obtain ⟨logs, read, accepted⟩ := files_accepted run'' (fun p inside => (ended p inside).1)
    fun p inside => by
      rw [(ended p inside).2]
      exact (main p inside).2
  have second := read 1 (by decide)
  refine ⟨w'', logs, second, ?_, (accepted true).1⟩
  rw [log', Logger.flush, fresh, List.nil_append, Logger.str, Line.readLog_texts] at second
  have lines : (w.nodes 1).client.log.buffer.map Line.logLine = logs 2 := Except.ok.inj second
  exact lines ▸ delivered

end CausalBroadcast
