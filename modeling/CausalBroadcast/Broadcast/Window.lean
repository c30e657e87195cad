import CausalBroadcast.Broadcast.Logs

/-!
# The log and the clocks

The main loop logs a broadcast after `broadcast.send` has returned, and `send` hands the message to
the process itself, through every layer up to the logger. Nothing is delivered on the way: all that
runs meanwhile is about the new message, and the process itself is the only one that can have sent
a copy, which is no quorum. So the log has at the line of a broadcast the deliveries that its vector
clock counts.
-/

namespace CausalBroadcast

open Async

variable {cfg : Config} {w : SystemWorld} {p k : Nat} {msg : Message}

/-! ## While a message is sent -/

/-- A request that sends message `key`, or counts a copy of it. -/
def Request.About (key : BroadcastKey) : Request Call → Prop
  | .send _ msg | .call (.bebSend msg) | .call (.urbDeliver msg) | .call (.urbTryDeliver msg) =>
    msg.key = key
  | .call (.lcbSend _) | .call (.urbSend ..) | .call (.lcbDeliver _) | .call (.lcbScan _)
  | .call (.logBroadcast _) => False

/-- Process `p` is sending its message `k`: all it is about to do is about that message, no copy of
it has come from another process, and nothing was delivered since it was given its clock. -/
structure Sending (cfg : Config) (p k : Nat) (s : Node) (requests : List (Request Call))
    (es : List (Event Notice)) : Prop where
  about : ∀ r ∈ requests, r.About (p, k)
  alone : ∀ msg, .deliver msg ∈ es → msg.key = (p, k) → msg.sender = p
  fresh : ∀ msg, .client (.urbDeliver msg) ∈ es → msg.key ≠ (p, k)
  stamped : ∃ msg, .client (.urbSend msg) ∈ es ∧ msg.bcastSeqNum = k ∧
    msg.vectorClock = (cfg.depends p).map s.lcb.currentClock

/-- Between a broadcast and its line in the log the process is sending. -/
def SendingOk (cfg : Config) (p : Nat) (v : View Node Call) (es : List (Event Notice)) : Prop :=
  ∀ rest k, v.requests = rest ++ [.call (.logBroadcast k)] → (∀ r ∈ rest, r.Passive) →
    Sending cfg p k v.state rest es

theorem of_pair {r r' : Request Call} {rest : List (Request Call)}
    (split : [r, r'] = rest ++ [.call (.logBroadcast k)]) :
    rest = [r] ∧ r' = .call (.logBroadcast k) := by
  have split : [r] ++ [r'] = rest ++ [.call (.logBroadcast k)] := split
  obtain ⟨same, last⟩ := List.append_inj' split rfl
  exact ⟨same.symm, List.singleton_inj.mp last⟩

/-- Passive calls are made before the line is logged. -/
theorem exists_of_append_eq (calls below : List (Request Call)) {rest : List (Request Call)}
    (passive : ∀ r ∈ calls, r.Passive)
    (split : calls ++ below = rest ++ [.call (.logBroadcast k)]) :
    ∃ rest', below = rest' ++ [.call (.logBroadcast k)] ∧ rest = calls ++ rest' := by
  rcases List.eq_nil_or_concat below with rfl | ⟨rest', r, rfl⟩
  · have last : .call (.logBroadcast k) ∈ calls := by
      rw [List.append_nil] at split
      rw [split]
      simp
    exact (passive _ last).elim
  · rw [List.concat_eq_append, ← List.append_assoc] at split
    obtain ⟨same, last⟩ := List.append_inj' split rfl
    refine ⟨rest', ?_, same.symm⟩
    rw [List.concat_eq_append, last]

namespace Sending

variable {s s' : Node} {r : Request Call} {requests requests' : List (Request Call)}
  {es es' : List (Event Notice)}

/-- What neither receives nor delivers leaves the process sending. -/
theorem go (ok : Sending cfg p k s (r :: requests) es) (clocks : s'.lcb = s.lcb)
    (about : ∀ r ∈ requests', r.About (p, k))
    (alone : ∀ msg, .deliver msg ∈ es' → msg.sender = p)
    (quiet : ∀ msg, .client (.urbDeliver msg) ∉ es') :
    Sending cfg p k s' (requests' ++ requests) (es ++ es') where
  about r mem := (List.mem_append.mp mem).elim (about r) fun old =>
    ok.about r (List.mem_cons_of_mem _ old)
  alone msg mem key := (List.mem_append.mp mem).elim (fun old => ok.alone msg old key) (alone msg)
  fresh msg mem := (List.mem_append.mp mem).elim (ok.fresh msg) fun new => absurd new (quiet msg)
  stamped := by
    obtain ⟨msg, made, number, clock⟩ := ok.stamped
    exact ⟨msg, List.mem_append_left _ made, number, clocks ▸ clock⟩

/-- The process's own copy is no quorum. -/
theorem few_acks (ok : Sending cfg p k s requests es)
    (counted : ∀ r ∈ s.urb.acks (p, k), ∃ copy, .deliver copy ∈ es ∧ copy.sender = r ∧
      copy.key = (p, k)) : (s.urb.acks (p, k)).card ≤ cfg.numProcesses / 2 := by
  have only : s.urb.acks (p, k) ⊆ {p} := by
    intro r mem
    obtain ⟨copy, came, rfl, key⟩ := counted r mem
    exact Finset.mem_singleton.mpr (ok.alone copy came key)
  have one := Finset.card_le_card only
  have two := cfg.two_le
  rw [Finset.card_singleton] at one
  omega

end Sending

/-- What a call about a message does is about that message, as long as it has no quorum. -/
theorem Node.Runs.about {id : Nat} {c : Call} {s : Node} {out : Outcome Node Call Notice}
    {key : BroadcastKey} (runs : s.Runs cfg id c out) (about : (Request.call c).About key)
    (few : (s.urb.acks key).card ≤ cfg.numProcesses / 2) :
    (∀ r ∈ out.calls, r.About key) ∧ (∀ msg, .urbDeliver msg ∉ out.events) ∧
      out.state.lcb = s.lcb := by
  cases runs with
  | lcbSend | urbSend | hold | deliver | skip | finish | logBroadcast => exact about.elim
  | bebSend =>
    refine ⟨fun r mem => ?_, by simp, rfl⟩
    rcases List.mem_append.mp mem with near | self
    · obtain ⟨q, -, rfl⟩ := List.mem_map.mp near
      exact about
    · exact List.mem_singleton.mp self ▸ about
  | ignore | wait => exact ⟨List.forall_mem_nil _, fun _ => List.not_mem_nil, rfl⟩
  | @first msg =>
    refine ⟨fun r mem => ?_, fun _ => List.not_mem_nil, rfl⟩
    obtain rfl | rfl : r = .call (.bebSend msg) ∨ r = .call (.urbTryDeliver msg) := by
      simpa using mem
    all_goals exact about
  | count => exact ⟨List.forall_mem_singleton.mpr about, fun _ => List.not_mem_nil, rfl⟩
  | @quorum msg many =>
    obtain rfl : msg.key = key := about
    exact absurd few (Nat.not_le.mpr many)

theorem sending_ok (reach : (system cfg).Reachable w) (p : Nat) :
    SendingOk cfg p (w.nodes p).view (eventsOf p w.history) := by
  refine view_locally (P := SendingOk cfg) ?_ ?_ reach p
  · intro i rest k split
    simp at split
  · intro w i v es reach _ moves ok rest k split passive
    have phase := (main_ok reach i).phase
    have counted : ∀ key, ∀ r ∈ (w.nodes i).view.state.urb.acks key,
        ∃ copy, .deliver copy ∈ eventsOf i w.history ∧ copy.sender = r ∧ copy.key = key :=
      fun key r mem => mem_came.mp ((urb_ok reach i).counted key r mem)
    have older : ∀ e ∈ eventsOf i w.history, ∀ msg, e.copied = some msg →
        msg.key ≠ (i, (urbSends (eventsOf i w.history)).length) := by
      intro e mem msg copied key
      obtain ⟨rfl, number⟩ := Prod.mk.inj key
      have genuine := genuine_of_event reach (mem_eventsOf.mp mem) copied
      exact Nat.ne_of_lt (genuine.bcastSeqNum_lt_length reach) number
    generalize (w.nodes i).view = before at moves ok phase counted
    generalize eventsOf i w.history = past at ok counted older phase ⊢
    cases moves with
    | silent => simpa using ok rest k split passive
    | @stop a requests =>
      have old := ok rest k split passive
      exact ⟨old.about, by simpa using old.alone, by simpa using old.fresh,
        by simpa [Node.client] using old.stamped⟩
    | poll turn => simp at split
    | call turn =>
      obtain ⟨-, -, rfl⟩ := Node.loop_call turn
      obtain ⟨rfl, -⟩ := of_pair split
      exact (passive _ List.mem_cons_self).elim
    | @sendSelf a msg copy below same signed =>
      obtain ⟨rest, rfl, rfl⟩ := exists_of_append_eq [_] below (by simp) split
      have old := ok (.send i msg :: rest) k rfl (List.forall_mem_cons.mpr ⟨trivial,
        fun r mem => passive r (List.mem_cons_of_mem _ mem)⟩)
      have key : copy.key = (i, k) :=
        (Message.key_eq_of_payload same).trans (old.about _ List.mem_cons_self)
      exact old.go rfl (fun r mem => List.mem_singleton.mp mem ▸ key) (by simpa using signed)
        (by simp)
    | @sendPeer a receiver msg copy below other same signed =>
      obtain rfl : below = rest ++ [.call (.logBroadcast k)] := split
      have old := ok (.send receiver msg :: rest) k rfl
        (List.forall_mem_cons.mpr ⟨trivial, passive⟩)
      have about : ∀ r ∈ ([] : List (Request Call)), r.About (i, k) :=
        List.forall_mem_nil _
      exact old.go rfl about (by simp) (by simp)
    | take other sent =>
      obtain ⟨rest, none, -⟩ := exists_of_append_eq [_] [] (by simp) split
      simp at none
    | @run s c below =>
      have runs := Node.client_run_cases cfg i c s
      generalize (Node.client cfg).run i c s = out at runs split ⊢
      by_cases own : (Request.call c).Passive
      · obtain ⟨rest, rfl, rfl⟩ := exists_of_append_eq _ below (runs.passive own).calls split
        have old := ok (.call c :: rest) k rfl (List.forall_mem_cons.mpr ⟨own,
          fun r mem => passive r (List.mem_append_right _ mem)⟩)
        obtain ⟨about, quiet, clocks⟩ :=
          runs.about (old.about _ List.mem_cons_self) (old.few_acks (counted (i, k)))
        exact old.go clocks about (by simp) (by simpa using quiet)
      · cases runs with
        | bebSend | ignore | first | count | quorum | wait | hold | deliver | skip | finish =>
          exact absurd trivial own
        | @lcbSend seqNum =>
          have phase : Phase cfg i s (.call (.lcbSend seqNum) :: below) _ := phase
          obtain ⟨-, -, -, rfl⟩ := phase.of_lcbSend
          obtain ⟨rfl, -⟩ := of_pair split
          exact (passive _ List.mem_cons_self).elim
        | @logBroadcast seqNum =>
          have phase : Phase cfg i s (.call (.logBroadcast seqNum) :: below) _ := phase
          obtain ⟨-, -, -, rfl⟩ := phase.of_logBroadcast
          simp at split
        | @urbSend seqNum msg =>
          have phase : Phase cfg i s (.call (.urbSend seqNum msg) :: below) _ := phase
          obtain ⟨rfl, -, count, clock, rfl⟩ := phase.of_urbSend
          obtain ⟨rfl, last⟩ := of_pair split
          obtain rfl : s.nextMsg = k := by simpa using last
          -- no copy can have come of a message that is only now broadcast
          rw [count] at older
          exact {
            about := fun r mem => List.mem_singleton.mp mem ▸ rfl
            alone := fun copy mem key => (List.mem_append.mp mem).elim
              (fun old => absurd key (older _ old copy rfl)) (fun new => by simp at new)
            fresh := fun copy mem => (List.mem_append.mp mem).elim
              (fun old => older _ old copy rfl) (fun new => by simp at new)
            stamped := ⟨_, List.mem_append_right _ (List.mem_singleton_self _), rfl, clock⟩ }

/-! ## When a broadcast is logged -/

/-- When a broadcast is logged, its vector clock counts the deliveries so far, and its own process
has not delivered it. -/
def LoggedOk (cfg : Config) (p : Nat) (before : List (Event Notice)) : Event Notice → Prop
  | .client (.logBroadcast k) =>
    (∃ msg, .client (.urbSend msg) ∈ before ∧ msg.bcastSeqNum = k ∧
      msg.vectorClock = (cfg.depends p).map (delivered · before)) ∧
    delivered p before ≤ k
  | _ => True

theorem LoggedOk.of_ne {before : List (Event Notice)} {e : Event Notice}
    (other : ∀ k, e ≠ .client (.logBroadcast k)) : LoggedOk cfg p before e := by
  cases e with
  | send | deliver => trivial
  | client e =>
    cases e with
    | logBroadcast k => exact absurd rfl (other k)
    | urbSend | bebSend | urbDeliver | lcbDeliver => trivial

/-- The line of a broadcast is written while the process is still sending it. -/
theorem Sending.logged (reach : (system cfg).Reachable w)
    (sending : Sending cfg p k (w.nodes p).client [] (eventsOf p w.history)) :
    LoggedOk cfg p (eventsOf p w.history) (.client (.logBroadcast k)) := by
  have ok := lcb_ok reach p
  constructor
  · obtain ⟨msg, made, number, clock⟩ := sending.stamped
    exact ⟨msg, made, number, clock.trans (List.map_congr_left fun d _ => ok.clock_eq d)⟩
  · by_contra more
    obtain ⟨msg, done, key⟩ := exists_of_lt_delivered ok.causal (Nat.lt_of_not_le more)
    have urb := urbDeliver_of_lcbDeliver reach (mem_eventsOf.mp done)
    exact sending.fresh msg (mem_eventsOf.mpr urb) key

theorem logged_ok (reach : (system cfg).Reachable w) (p : Nat) :
    Justified (LoggedOk cfg p) (eventsOf p w.history) := by
  refine view_locally (P := fun i _ es => Justified (LoggedOk cfg i) es) ?_ ?_ reach p
  · intro i
    exact justified_nil _
  · intro w i v es reach _ moves ok
    have sending := sending_ok reach i
    have logged := @Sending.logged cfg w i
    have phase := (main_ok reach i).phase
    rw [← Process.view_state] at logged
    generalize (w.nodes i).view = before at moves sending phase logged
    cases moves with
    | silent | poll | call | stop => simpa using ok
    | sendSelf | sendPeer | take =>
      refine ok.append fun before e mem => .of_ne fun k same => ?_
      simp [same] at mem
    | @run s c below =>
      have runs := Node.client_run_cases cfg i c s
      generalize (Node.client cfg).run i c s = out at runs ⊢
      cases runs with
      | lcbSend | ignore | first | count | wait | hold | skip | finish => simpa using ok
      | urbSend | bebSend | quorum | deliver => exact justified_concat.mpr ⟨ok, trivial⟩
      | @logBroadcast seqNum =>
        have phase : Phase cfg i s (.call (.logBroadcast seqNum) :: below) _ := phase
        obtain ⟨rfl, -, -, rfl⟩ := phase.of_logBroadcast
        have last := logged reach (sending [] s.nextMsg rfl (List.forall_mem_nil _))
        exact justified_concat.mpr ⟨ok, last⟩

/-! ## The log -/

/-- How many deliveries of the messages of process `o` a log holds. -/
def deliveriesOf (o : Nat) (log : List Line) : Nat :=
  log.countP fun
    | .deliver process _ => process = o + 1
    | .broadcast _ => false

/-- The log counts the deliveries of the events. -/
theorem deliveriesOf_lines (o : Nat) (es : List (Event Notice)) :
    deliveriesOf o (pick Notice.line es) = delivered o es := by
  induction es with
  | nil => rfl
  | cons e es ih =>
    unfold deliveriesOf delivered at ih ⊢
    cases e with
    | send | deliver => simpa using ih
    | client e =>
      cases e with
      | urbSend | bebSend | urbDeliver | logBroadcast => simpa using ih
      | lcbDeliver msg =>
        by_cases own : msg.originator = o
        · simpa [fromProcess, own] using ih
        · simpa [fromProcess, own] using ih

/-- The lines before the line of a broadcast are those of the events before it was logged. -/
theorem exists_of_lines_split (reach : (system cfg).Reachable w) {before after : List Line}
    (split : logOf w p = before ++ .broadcast (k + 1) :: after) :
    ∃ first last, eventsOf p w.history = first ++ .client (.logBroadcast k) :: last ∧
      pick Notice.line first = before := by
  rw [logOf_eq reach, pick, List.filterMap_eq_append_iff] at split
  obtain ⟨first, rest, cut, rfl, split⟩ := split
  obtain ⟨middle, e, last, rfl, quiet, line, -⟩ := List.filterMap_eq_cons_iff.mp split
  obtain ⟨seqNum, rfl, written⟩ : ∃ seqNum, e = .client (.logBroadcast seqNum) ∧
      succ32 seqNum = k + 1 := by
    cases e with
    | send | deliver => cases line
    | client e => cases e <;> simp at line; exact ⟨_, rfl, line⟩
  have logged : seqNum ∈ loggedBroadcasts (eventsOf p w.history) := by
    rw [mem_loggedBroadcasts, cut]
    simp
  rw [(main_ok reach p).logged, List.mem_range] at logged
  have few : seqNum < cfg.numMessages := Nat.lt_of_lt_of_le logged (main_ok reach p).bound
  obtain rfl : seqNum = k := by
    rw [succ32_of_lt few] at written
    omega
  refine ⟨first ++ middle, last, by rw [cut, List.append_assoc], ?_⟩
  have none : pick Notice.line middle = [] := List.filterMap_eq_nil_iff.mpr quiet
  rw [pick_append, none, List.append_nil]
  rfl

theorem client_mem_of_call {c : Call} {stack : List (Frame Call)}
    (mem : .call c ∈ requestsOf stack) : .client c ∈ stack := by
  obtain ⟨frame, mem, same⟩ := List.mem_filterMap.mp mem
  cases frame <;> cases same
  exact mem

/-- A message that was broadcast is logged, or still being sent. -/
theorem logged_or_sending (reach : (system cfg).Reachable w)
    (sent : (p, .client (.urbSend msg)) ∈ w.history) :
    .broadcast (msg.bcastSeqNum + 1) ∈ logOf w p ∨
      .client (.logBroadcast msg.bcastSeqNum) ∈ (w.nodes p).stack := by
  have ok := main_ok reach p
  have own := originator_of_urbSend reach sent
  have below : msg.bcastSeqNum < (urbSends (eventsOf p w.history)).length := by
    have genuine := genuine_of_event reach sent rfl
    exact own ▸ genuine.bcastSeqNum_lt_length reach
  have phase : Phase cfg p (w.nodes p).client (requestsOf (w.nodes p).stack) _ := ok.phase
  by_cases logged : msg.bcastSeqNum < (w.nodes p).client.nextMsg
  · exact .inl (broadcast_mem_of_lt reach logged)
  · right
    cases phase with
    | between _ count => omega
    | starting _ count | stamped _ count => omega
    | sending _ count _ top =>
      have last : msg.bcastSeqNum = (w.nodes p).client.nextMsg := by omega
      apply client_mem_of_call
      rw [top, last]
      simp

/-- **The log reflects the clock that was sent**: a message that was broadcast is logged or still
being sent, and its vector clock counts the deliveries that are logged before it, none of which is
its own. -/
theorem log_reflects_clock (reach : (system cfg).Reachable w)
    (sent : (p, .client (.urbSend msg)) ∈ w.history) :
    (.broadcast (msg.bcastSeqNum + 1) ∈ logOf w p ∨
      .client (.logBroadcast msg.bcastSeqNum) ∈ (w.nodes p).stack) ∧
    ∀ before after, logOf w p = before ++ .broadcast (msg.bcastSeqNum + 1) :: after →
      msg.vectorClock = (cfg.depends p).map (deliveriesOf · before) ∧
      .deliver (p + 1) (msg.bcastSeqNum + 1) ∉ before := by
  refine ⟨logged_or_sending reach sent, fun before after split => ?_⟩
  obtain ⟨first, last, cut, rfl⟩ := exists_of_lines_split reach split
  obtain ⟨⟨msg', made, number, clock⟩, own⟩ := logged_ok reach p _ _ _ cut
  have made : (p, .client (.urbSend msg')) ∈ w.history := by
    rw [← mem_eventsOf, cut]
    exact List.mem_append_left _ made
  obtain rfl : msg' = msg := eq_of_urbSends reach made sent number
  constructor
  · rw [clock]
    exact List.map_congr_left fun d _ => (deliveriesOf_lines d first).symm
  · intro line
    obtain ⟨e, mem, written⟩ := (mem_pick _).mp line
    cases e with
    | urbSend | bebSend | urbDeliver | logBroadcast => simp at written
    | lcbDeliver copy =>
      have causal := (lcb_ok reach p).causal
      have happened : (p, .client (.lcbDeliver copy)) ∈ w.history := by
        rw [← mem_eventsOf, cut]
        exact List.mem_append_left _ mem
      have few := (genuine_of_lcbDeliver reach happened).bcastSeqNum_lt reach
      simp only [Notice.line, succ32_of_lt few, Option.some.injEq, Line.deliver.injEq,
        Nat.add_right_cancel_iff] at written
      rw [cut] at causal
      have counted := lt_delivered_of_mem causal.of_append mem
      rw [written.1, written.2] at counted
      omega

/-- The second process delivers the first one's message, broadcasts its own, and delivers that. -/
theorem log_reflects_clock_of_follower : ∃ w : SystemWorld, (system follower).Reachable w ∧
    logOf w 1 = [.deliver 1 1] ++ .broadcast 1 :: [.deliver 2 1] ∧
    [1] = (follower.depends 1).map (deliveriesOf · [.deliver 1 1]) ∧
    Line.deliver 2 1 ∉ [Line.deliver 1 1] := by
  let broadcast : Message := { originator := 1, vectorClock := [1] }
  let ok : SystemWorld → Bool := fun w =>
    (1, .client (.urbSend broadcast)) ∈ w.history &&
      logOf w 1 = [.deliver 1 1] ++ .broadcast 1 :: [.deliver 2 1]
  have ran : ((system follower).execute (system follower).start followerSchedule).any ok := by
    decide +kernel
  obtain ⟨w, reach, checked⟩ := Machine.exists_reachable ran
  simp only [ok, Bool.and_eq_true, decide_eq_true_eq] at checked
  obtain ⟨sent, log⟩ := checked
  exact ⟨w, reach, log, (log_reflects_clock reach sent).2 _ _ log⟩

end CausalBroadcast
