import CausalBroadcast.Broadcast.CausalOrder

/-!
# Nothing stays stuck

In a crash-free run that comes to rest, every heap is empty. A message could only wait for messages
that were broadcast before it, so the one that was broadcast first among those that wait waits for
none; this holds however the processes depend on each other.
-/

namespace CausalBroadcast

open Async

variable {cfg : Config} {w : SystemWorld} {p q : Nat} {msg : Message}

/-! ## The moment of a broadcast -/

/-- When a message is broadcast, its process has broadcast as many as its number says, and has
delivered of each dependency as many as its vector clock says. -/
theorem moment_of_urbSend (reach : (system cfg).Reachable w) {before after : SystemHistory}
    (split : w.history = before ++ (p, .client (.urbSend msg)) :: after) :
    ∃ past : SystemWorld, (system cfg).Reachable past ∧ past.history <+: before ∧
      msg.bcastSeqNum = (urbSends (eventsOf p past.history)).length ∧
      msg.vectorClock = (cfg.depends p).map (delivered · (eventsOf p past.history)) := by
  obtain ⟨past, act, r, reach', early, stepped, made⟩ := reach.moment split
  refine ⟨past, reach', early, ?_⟩
  have phase := (main_ok reach' p).phase
  have clocks : ∀ o, (past.nodes p).view.state.lcb.currentClock o =
      delivered o (eventsOf p past.history) := (lcb_ok reach' p).clock_eq
  have moves := (moves_of_step reach' stepped).2
  generalize (past.nodes p).view = v at phase clocks moves
  generalize r.events = es at made moves
  generalize r.state.view = v' at moves
  cases moves with
  | silent | poll | call | stop => cases made
  | sendSelf | sendPeer | take => simp at made
  | @run s c rest =>
    have runs := Node.client_run_cases cfg p c s
    generalize (Node.client cfg).run p c s = out at made runs
    cases runs with
    | @urbSend seqNum stamped =>
      have phase : Phase cfg p s (.call (.urbSend seqNum stamped) :: rest)
        (urbSends (eventsOf p past.history)).length := phase
      obtain ⟨rfl, -, count, clock, -⟩ := phase.of_urbSend
      obtain rfl : msg = { stamped with originator := p, bcastSeqNum := s.nextMsg } := by
        simpa using made
      exact ⟨count.symm, clock.trans (List.map_congr_left fun d _ => clocks d)⟩
    | lcbSend | ignore | first | count | wait | hold | skip | finish => cases made
    | bebSend | quorum | deliver | logBroadcast => simp at made

/-! ## A message that waits for nothing is delivered -/

theorem lcbDeliver_of_ready (reach : (system cfg).Reachable w) (idle : (w.nodes q).stack = [])
    (came : (q, .client (.urbDeliver msg)) ∈ w.history)
    (number : msg.bcastSeqNum ≤ delivered msg.originator (eventsOf q w.history))
    (clock : ∀ x ∈ msg.vectorClock.zip (cfg.depends msg.originator),
      x.1 ≤ delivered x.2 (eventsOf q w.history)) :
    (q, .client (.lcbDeliver msg)) ∈ w.history := by
  have ok := lcb_ok reach q
  rw [idle] at ok
  have once := urbDeliveries_nodup reach q
  have genuine := genuine_of_event reach came rfl
  have listed : msg ∈ fromProcess msg.originator (urbDeliveries (eventsOf q w.history)) :=
    mem_fromProcess.mpr ⟨mem_urbDeliveries.mpr (mem_eventsOf.mpr came), rfl⟩
  have waits := (ok.waiting msg.originator).mem_iff.mp listed
  simp only [requestsOf_nil, List.filterMap_nil, fromProcess_nil, List.append_nil,
    List.mem_append] at waits
  rcases waits with done | pending
  · exact mem_eventsOf.mp (mem_lcbDeliveries.mp (mem_fromProcess.mp done).1)
  · exfalso
    -- the top of its heap has its number, and so is a copy of it
    cases top : ((w.nodes q).client.lcb.pending msg.originator).top with
    | none =>
      rw [BroadcastMessageHeap.top_eq_none.mp top] at pending
      cases pending
    | some first =>
      have inHeap := BroadcastMessageHeap.mem_of_top top
      obtain ⟨urb, originator⟩ := ok.mem_urbDeliveries_of_pending inHeap
      have least := BroadcastMessageHeap.le_of_top top pending
      have new := ok.clock_le_of_pending once inHeap
      rw [ok.clock_eq] at new
      have same : first.key = msg.key := Prod.ext originator (by
        show first.bcastSeqNum = msg.bcastSeqNum
        omega)
      have copy : first.payload = msg.payload :=
        (genuine_of_event reach (mem_eventsOf.mp (mem_urbDeliveries.mp urb)) rfl).payload_eq reach
          genuine same
      have ready : (w.nodes q).client.lcb.canDeliver cfg first := by
        unfold LocalizedCausalBroadcast.canDeliver
        rw [originator, ok.clock_eq, if_neg (by omega), List.all_eq_true]
        intro x mem
        have same := Message.vectorClock_eq_of_payload copy
        simpa [ok.clock_eq] using clock x (same ▸ mem)
      obtain ⟨it, scans, -⟩ := ok.scanned msg.originator (genuine.originator_lt reach) first top
        ready
      cases scans

/-! ## Everything is delivered -/

/-- In a quiescent crash-free run every process delivers every broadcast, by induction on when it
was made. -/
theorem lcbDeliver_of_urbSend (reach : (system cfg).Reachable w) (quiet : Quiescent cfg w ∅)
    (inside : q < cfg.numProcesses) {before after : SystemHistory}
    (split : w.history = before ++ (p, .client (.urbSend msg)) :: after) :
    ∃ copy, (q, .client (.lcbDeliver copy)) ∈ w.history ∧ copy.key = msg.key := by
  induction size : before.length using Nat.strong_induction_on generalizing p msg before after with
  | _ size ih =>
    subst size
    have causal := (lcb_ok reach q).causal
    have sent : (p, .client (.urbSend msg)) ∈ w.history := split ▸ by simp
    obtain ⟨past, reach', ⟨later, rfl⟩, number, clock⟩ := moment_of_urbSend reach split
    -- what had been broadcast at that moment is delivered
    have earlier : ∀ o j, (∃ m, (o, .client (.urbSend m)) ∈ past.history ∧ m.key = (o, j)) →
        j < delivered o (eventsOf q w.history) := by
      rintro o j ⟨m, mem, key⟩
      obtain ⟨first, last, cut⟩ := List.append_of_mem mem
      rw [cut, List.append_assoc, List.append_assoc, List.cons_append] at split
      obtain ⟨copy, done, same⟩ := ih first.length (by simp [cut]) split rfl
      have counted := lt_delivered_of_mem causal (mem_eventsOf.mpr done)
      have copied : copy.originator = o ∧ copy.bcastSeqNum = j := Prod.mk.inj (same.trans key)
      rwa [copied.1, copied.2] at counted
    have own : msg.bcastSeqNum ≤ delivered p (eventsOf q w.history) := by
      by_contra low
      have made := exists_urbSend_of_lt_length reach' (number ▸ Nat.lt_of_not_le low)
      exact Nat.lt_irrefl _ (earlier p _ made)
    have clocks : ∀ x ∈ msg.vectorClock.zip (cfg.depends p),
        x.1 ≤ delivered x.2 (eventsOf q w.history) := by
      rw [clock, ← List.map_prod_right_eq_zip]
      intro x mem
      obtain ⟨d, -, rfl⟩ := List.mem_map.mp mem
      show delivered d (eventsOf p past.history) ≤ delivered d (eventsOf q w.history)
      by_contra low
      obtain ⟨m, done, key⟩ :=
        exists_of_lt_delivered (lcb_ok reach' p).causal (Nat.lt_of_not_le low)
      obtain ⟨original, same, made⟩ := genuine_of_lcbDeliver reach' (mem_eventsOf.mp done)
      have originator : m.originator = d := congrArg Prod.fst key
      have below := earlier d (delivered d (eventsOf q w.history))
        ⟨original, originator ▸ made, (Message.key_eq_of_payload same).trans key⟩
      omega
    have holds : Holds w p msg.key :=
      (urb_ok reach p).started _ (mem_started (mem_eventsOf.mpr sent))
    have covered : Covered cfg ∅ := fun r inside' _ => by
      rw [Finset.sdiff_empty]
      exact Config.half_lt_card_neighborhood inside'
    obtain ⟨copy, urb, same⟩ := covered.deliver reach quiet (lt_of_mem_history reach sent)
      (Finset.notMem_empty p) holds inside (Finset.notMem_empty q)
    have originator : copy.originator = p :=
      (congrArg Prod.fst same).trans (originator_of_urbSend reach sent)
    have sameClock : copy.vectorClock = msg.vectorClock :=
      Message.vectorClock_eq_of_payload ((genuine_of_event reach urb rfl).payload_eq reach
        (genuine_of_event reach sent rfl) same)
    have sameNumber : copy.bcastSeqNum = msg.bcastSeqNum := congrArg Prod.snd same
    refine ⟨copy, lcbDeliver_of_ready reach (quiet.idle q inside (Finset.notMem_empty q)) urb ?_ ?_,
      same⟩
    · rw [originator, sameNumber]
      exact own
    · rw [originator, sameClock]
      exact clocks

theorem lcbDeliver_of_genuine (reach : (system cfg).Reachable w) (quiet : Quiescent cfg w ∅)
    (inside : q < cfg.numProcesses) (genuine : Genuine w.history msg) :
    ∃ copy, (q, .client (.lcbDeliver copy)) ∈ w.history ∧ copy.key = msg.key := by
  obtain ⟨original, from_, sent⟩ := genuine
  obtain ⟨before, after, split⟩ := List.append_of_mem sent
  obtain ⟨copy, done, same⟩ := lcbDeliver_of_urbSend reach quiet inside split
  exact ⟨copy, done, same.trans (Message.key_eq_of_payload from_)⟩

/-- What is delivered is not in the heap any more. -/
theorem pending_eq_nil (reach : (system cfg).Reachable w) (quiet : Quiescent cfg w ∅)
    (inside : q < cfg.numProcesses) (o : Nat) : (w.nodes q).client.lcb.pending o = [] := by
  have ok := lcb_ok reach q
  rw [List.eq_nil_iff_forall_not_mem]
  intro msg pending
  obtain ⟨urb, rfl⟩ := ok.mem_urbDeliveries_of_pending pending
  have new := ok.clock_le_of_pending (urbDeliveries_nodup reach q) pending
  have genuine := genuine_of_event reach (mem_eventsOf.mp (mem_urbDeliveries.mp urb)) rfl
  obtain ⟨copy, done, same⟩ := lcbDeliver_of_genuine reach quiet inside genuine
  have counted := lt_delivered_of_mem ok.causal (mem_eventsOf.mpr done)
  obtain ⟨originator, number⟩ := Prod.mk.inj same
  rw [originator, number, ← ok.clock_eq] at counted
  omega

/-- Messages are different when those of each process are. -/
theorem nodup_keys {msgs : List Message}
    (each : ∀ o, ((fromProcess o msgs).map Message.bcastSeqNum).Nodup) :
    (msgs.map Message.key).Nodup := by
  induction msgs with
  | nil => exact List.nodup_nil
  | cons msg msgs ih =>
    rw [List.map_cons, List.nodup_cons]
    constructor
    · intro mem
      obtain ⟨other, mem, same⟩ := List.mem_map.mp mem
      have own := each msg.originator
      rw [fromProcess_cons_own, List.map_cons, List.nodup_cons] at own
      have listed := mem_fromProcess.mpr ⟨mem, congrArg Prod.fst same⟩
      exact own.1 (List.mem_map.mpr ⟨other, listed, congrArg Prod.snd same⟩)
    · refine ih fun o => (each o).sublist ?_
      exact ((List.sublist_cons_self msg msgs).filter _).map _

/-- **Nothing stays stuck**: when a crash-free run in which everything was broadcast has come to
rest, every process has delivered every message once, and its heaps are empty. -/
theorem all_delivered (reach : (system cfg).Reachable w) (quiet : Quiescent cfg w ∅)
    (broadcast : ∀ p < cfg.numProcesses,
      (urbSends (eventsOf p w.history)).length = cfg.numMessages)
    (inside : q < cfg.numProcesses) :
    ((lcbDeliveries (eventsOf q w.history)).map Message.key).Perm
      (List.range cfg.numProcesses ×ˢ List.range cfg.numMessages) ∧
    ∀ o, (w.nodes q).client.lcb.pending o = [] := by
  have ok := lcb_ok reach q
  constructor
  · have once : ((lcbDeliveries (eventsOf q w.history)).map Message.key).Nodup := by
      refine nodup_keys fun o => ?_
      rw [ok.numbers]
      exact List.nodup_range
    refine (List.perm_ext_iff_of_nodup once (List.nodup_range.product List.nodup_range)).mpr ?_
    rintro ⟨o, k⟩
    have pairs : (o, k) ∈ List.range cfg.numProcesses ×ˢ List.range cfg.numMessages ↔
        o < cfg.numProcesses ∧ k < cfg.numMessages :=
      List.pair_mem_product.trans (and_congr List.mem_range List.mem_range)
    rw [pairs, List.mem_map]
    constructor
    · rintro ⟨msg, mem, key⟩
      have genuine := genuine_of_lcbDeliver reach (mem_eventsOf.mp (mem_lcbDeliveries.mp mem))
      obtain ⟨rfl, rfl⟩ := Prod.mk.inj key
      exact ⟨genuine.originator_lt reach, genuine.bcastSeqNum_lt reach⟩
    · rintro ⟨process, number⟩
      obtain ⟨msg, sent, key⟩ :=
        exists_urbSend_of_lt_length reach ((broadcast o process).symm ▸ number)
      have genuine := genuine_of_event reach sent rfl
      obtain ⟨copy, done, same⟩ := lcbDeliver_of_genuine reach quiet inside genuine
      exact ⟨copy, mem_lcbDeliveries.mpr (mem_eventsOf.mpr done), same.trans key⟩
  · exact pending_eq_nil reach quiet inside

/-- The run of the two, one of which depends on the other, ends with everything delivered. -/
theorem all_delivered_of_follower : ∃ w : SystemWorld, (system follower).Reachable w ∧
    Quiescent follower w ∅ ∧
    ((lcbDeliveries (eventsOf 0 w.history)).map Message.key).Perm [(0, 0), (1, 0)] ∧
    ∀ o, (w.nodes 0).client.lcb.pending o = [] := by
  let ok : SystemWorld → Bool := fun w =>
    ((List.range 2).all fun p => !(w.nodes p).stopped && (w.nodes p).stack.isEmpty &&
      (urbSends (eventsOf p w.history)).length = 1) && w.history.all (handedIn w.history ∅)
  have ran : ((system follower).execute (system follower).start followerSchedule).any ok := by
    decide +kernel
  obtain ⟨w, reach, checked⟩ := Machine.exists_reachable ran
  simp only [ok, Bool.and_eq_true, List.all_eq_true, List.mem_range, decide_eq_true_eq] at checked
  obtain ⟨main, sends⟩ := checked
  have quiet : Quiescent follower w ∅ := by
    refine quiescent_of_check (fun p inside _ => ?_) sends
    have := main p inside
    simp_all
  have all := all_delivered reach quiet (fun p inside => (main p inside).2)
    (by decide : 0 < follower.numProcesses)
  exact ⟨w, reach, quiet, all⟩

end CausalBroadcast
