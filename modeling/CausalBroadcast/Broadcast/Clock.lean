import CausalBroadcast.Broadcast.Quorum

/-!
# Clocks and heaps

Every process keeps an account of its localized causal broadcast. What URB delivered is delivered,
in a heap, or about to be put in one; a clock is the number of messages delivered from a process,
and these came in the order of their numbers; and no heap holds a message that could be delivered
unless the loop of `LocalizedCausalBroadcast::deliver` is still to look at it.

`Caused` reads off the clocks what every event of a process has behind it.
-/

namespace CausalBroadcast

open Async

/-- The messages of one originator. -/
def fromProcess (o : Nat) (msgs : List Message) : List Message :=
  msgs.filter fun msg => msg.originator = o

section
variable {o : Nat} {msg : Message} {msgs msgs' : List Message}

@[simp] theorem fromProcess_nil : fromProcess o [] = [] := rfl

@[simp] theorem fromProcess_append :
    fromProcess o (msgs ++ msgs') = fromProcess o msgs ++ fromProcess o msgs' :=
  List.filter_append ..

@[simp] theorem mem_fromProcess : msg ∈ fromProcess o msgs ↔ msg ∈ msgs ∧ msg.originator = o := by
  simp [fromProcess]

theorem fromProcess_cons_own : fromProcess msg.originator (msg :: msgs) =
    msg :: fromProcess msg.originator msgs := by
  simp [fromProcess]

theorem fromProcess_singleton_own : fromProcess msg.originator [msg] = [msg] := by
  simp [fromProcess]

theorem fromProcess_singleton_other (other : o ≠ msg.originator) : fromProcess o [msg] = [] := by
  simp [fromProcess, other.symm]

theorem fromProcess_cons_other (other : o ≠ msg.originator) :
    fromProcess o (msg :: msgs) = fromProcess o msgs := by
  simp [fromProcess, other.symm]

end

/-- Where no broadcast came twice, no two of a process have one number. -/
theorem nodup_bcastSeqNum {o : Nat} {came : List Message} (once : (came.map Message.key).Nodup) :
    ((fromProcess o came).map Message.bcastSeqNum).Nodup := by
  have keys : ((fromProcess o came).map Message.key).Nodup :=
    once.sublist (List.filter_sublist.map _)
  have tagged : (fromProcess o came).map Message.key =
      ((fromProcess o came).map Message.bcastSeqNum).map (Prod.mk o) := by
    rw [List.map_map]
    exact List.map_congr_left fun m mem => by rw [← (mem_fromProcess.mp mem).2]; rfl
  exact List.Nodup.of_map (Prod.mk o) (tagged ▸ keys)

/-- Where the first `n` numbers are those of `first`, in order, and no number comes twice, the others are
later ones. -/
theorem le_bcastSeqNum_of_nodup {n : Nat} {msg : Message} {first others : List Message}
    (different : ((first ++ others).map Message.bcastSeqNum).Nodup)
    (numbers : first.map Message.bcastSeqNum = List.range n) (mem : msg ∈ others) :
    n ≤ msg.bcastSeqNum := by
  rw [List.map_append, numbers, List.nodup_append] at different
  by_contra low
  exact different.2.2 _ (List.mem_range.mpr (Nat.lt_of_not_le low)) _
    (List.mem_map_of_mem mem) rfl

/-- Where no broadcast came twice, and those of `o` are the first `n`, in order, and others, the others
are later ones. -/
theorem le_bcastSeqNum_of_perm {o n : Nat} {msg : Message} {came first others : List Message}
    (once : (came.map Message.key).Nodup) (split : (fromProcess o came).Perm (first ++ others))
    (numbers : first.map Message.bcastSeqNum = List.range n) (mem : msg ∈ others) :
    n ≤ msg.bcastSeqNum :=
  le_bcastSeqNum_of_nodup ((split.map _).nodup_iff.mp (nodup_bcastSeqNum once)) numbers mem

/-- How many messages of process `o` were LCB-delivered. -/
def delivered (o : Nat) (es : List (Event Notice)) : Nat :=
  (fromProcess o (lcbDeliveries es)).length

/-- What an event of process `p` has behind it: a broadcast carries the number of deliveries from
each dependency, and a delivery comes after all of its originator's earlier messages and as many of
each dependency's as its vector clock says. -/
def Caused (cfg : Config) (p : Nat) (before : List (Event Notice)) : Event Notice → Prop
  | .client (.urbSend msg) => msg.vectorClock = (cfg.depends p).map (delivered · before)
  | .client (.lcbDeliver msg) => msg.bcastSeqNum = delivered msg.originator before ∧
      ∀ x ∈ msg.vectorClock.zip (cfg.depends msg.originator), x.1 ≤ delivered x.2 before
  | _ => True

/-- The account of localized causal broadcast in process `p`: `due` is to be put in heaps, and the
loop is at each of `scans`. -/
structure LcbOk (cfg : Config) (p : Nat) (lcb : LocalizedCausalBroadcast) (due : List Message)
    (scans : List Nat) (es : List (Event Notice)) : Prop where
  waiting : ∀ o, (fromProcess o (urbDeliveries es)).Perm
    (fromProcess o (lcbDeliveries es) ++ lcb.pending o ++ fromProcess o due)
  numbers : ∀ o, (fromProcess o (lcbDeliveries es)).map Message.bcastSeqNum =
    List.range (lcb.currentClock o)
  causal : Justified (Caused cfg p) es
  scanned : ∀ o < cfg.numProcesses, ∀ msg, (lcb.pending o).top = some msg →
    lcb.canDeliver cfg msg → ∃ it ∈ scans, it ≤ o

namespace LcbOk

variable {cfg : Config} {p it : Nat} {lcb : LocalizedCausalBroadcast} {due : List Message}
  {scans : List Nat} {es : List (Event Notice)} {msg : Message}

theorem init (cfg : Config) (p : Nat) : LcbOk cfg p {} [] [] [] where
  waiting _ := .refl _
  numbers _ := rfl
  causal := justified_nil _
  scanned o _ msg top := by cases top

/-- A clock counts the deliveries from its process. -/
theorem clock_eq (ok : LcbOk cfg p lcb due scans es) (o : Nat) :
    lcb.currentClock o = delivered o es := by
  have sizes := congrArg List.length (ok.numbers o)
  rw [List.length_map, List.length_range] at sizes
  exact sizes.symm

/-- Events of other layers change nothing. -/
theorem quiet (ok : LcbOk cfg p lcb due scans es) (es' : List (Event Notice))
    (urb : urbDeliveries es' = []) (lcbs : lcbDeliveries es' = [])
    (sends : urbSends es' = []) : LcbOk cfg p lcb due scans (es ++ es') where
  waiting o := by simpa [urb, lcbs] using ok.waiting o
  numbers o := by simpa [lcbs] using ok.numbers o
  causal := by
    refine ok.causal.append fun before e mem => ?_
    cases e with
    | send | deliver => trivial
    | client e =>
      cases e with
      | urbSend msg =>
        rw [← mem_urbSends, sends] at mem
        cases mem
      | lcbDeliver msg =>
        rw [← mem_lcbDeliveries, lcbs] at mem
        cases mem
      | bebSend | urbDeliver | logBroadcast => trivial
  scanned := ok.scanned

/-- A broadcast takes the clocks along. -/
theorem broadcast (ok : LcbOk cfg p lcb due scans es)
    (stamped : msg.vectorClock = (cfg.depends p).map lcb.currentClock) :
    LcbOk cfg p lcb due scans (es ++ [.client (.urbSend msg)]) where
  waiting o := by simpa using ok.waiting o
  numbers o := by simpa using ok.numbers o
  causal := by
    refine justified_concat.mpr ⟨ok.causal, stamped.trans ?_⟩
    exact List.map_congr_left fun d _ => ok.clock_eq d
  scanned := ok.scanned

/-- URB delivers a message. -/
theorem hand (ok : LcbOk cfg p lcb due scans es) (msg : Message) :
    LcbOk cfg p lcb (msg :: due) scans (es ++ [.client (.urbDeliver msg)]) where
  waiting o := by
    have urbs : urbDeliveries (es ++ [.client (.urbDeliver msg)]) = urbDeliveries es ++ [msg] := by
      simp
    have lcbs : lcbDeliveries (es ++ [.client (.urbDeliver msg)]) = lcbDeliveries es := by simp
    rw [urbs, lcbs, fromProcess_append]
    by_cases own : o = msg.originator
    · subst own
      rw [fromProcess_singleton_own, fromProcess_cons_own]
      refine ((ok.waiting msg.originator).append_right [msg]).trans ?_
      exact (List.perm_append_singleton msg _).trans List.perm_middle.symm
    · rw [fromProcess_singleton_other own, fromProcess_cons_other own, List.append_nil]
      exact ok.waiting o
  numbers o := by simpa using ok.numbers o
  causal := justified_concat.mpr ⟨ok.causal, trivial⟩
  scanned := ok.scanned

/-- A message is put in its heap, and the loop starts at the first heap. -/
theorem receive (ok : LcbOk cfg p lcb (msg :: due) scans es) :
    LcbOk cfg p { lcb with
        pending := Function.update lcb.pending msg.originator
          ((lcb.pending msg.originator).push msg) } due (0 :: scans) es where
  waiting o := by
    have before := ok.waiting o
    by_cases own : o = msg.originator
    · subst own
      rw [fromProcess_cons_own, List.append_assoc] at before
      simp only [Function.update_self, List.append_assoc]
      exact before.trans (List.perm_middle.append_left _)
    · rw [fromProcess_cons_other own] at before
      simpa [own] using before
  numbers := ok.numbers
  causal := ok.causal
  scanned o _ _ _ _ := ⟨0, List.mem_cons_self, Nat.zero_le o⟩

/-- The loop passes a heap whose top has to wait, or that is empty. -/
theorem skip (ok : LcbOk cfg p lcb due (it :: scans) es)
    (wait : ∀ msg, (lcb.pending it).top = some msg → lcb.canDeliver cfg msg = false) :
    LcbOk cfg p lcb due ((it + 1) :: scans) es where
  waiting := ok.waiting
  numbers := ok.numbers
  causal := ok.causal
  scanned o inside msg top ready := by
    obtain ⟨it', mem, before⟩ := ok.scanned o inside msg top ready
    rcases List.mem_cons.mp mem with rfl | old
    · have other : o ≠ it' := by
        rintro rfl
        simp [wait msg top] at ready
      exact ⟨it' + 1, List.mem_cons_self, by omega⟩
    · exact ⟨it', List.mem_cons_of_mem _ old, before⟩

/-- The loop ends after the last heap. -/
theorem finish (ok : LcbOk cfg p lcb due (it :: scans) es) (last : cfg.numProcesses ≤ it) :
    LcbOk cfg p lcb due scans es where
  waiting := ok.waiting
  numbers := ok.numbers
  causal := ok.causal
  scanned o inside msg top ready := by
    obtain ⟨it', mem, before⟩ := ok.scanned o inside msg top ready
    rcases List.mem_cons.mp mem with rfl | old
    · omega
    · exact ⟨it', old, before⟩

theorem mem_urbDeliveries_of_pending (ok : LcbOk cfg p lcb due scans es)
    (mem : msg ∈ lcb.pending it) : msg ∈ urbDeliveries es ∧ msg.originator = it := by
  have waits : msg ∈ fromProcess it (urbDeliveries es) := (ok.waiting it).mem_iff.mpr
    (List.mem_append_left _ (List.mem_append_right _ mem))
  exact mem_fromProcess.mp waits

/-- A message in a heap has a number not delivered yet, when no broadcast is URB-delivered twice. -/
theorem clock_le_of_pending (ok : LcbOk cfg p lcb due scans es)
    (once : ((urbDeliveries es).map Message.key).Nodup) (mem : msg ∈ lcb.pending it) :
    lcb.currentClock it ≤ msg.bcastSeqNum := by
  have split := ok.waiting it
  rw [List.append_assoc] at split
  exact le_bcastSeqNum_of_perm once split (ok.numbers it) (List.mem_append_left _ mem)

/-- The loop delivers the top of a heap. -/
theorem deliver (ok : LcbOk cfg p lcb due (it :: scans) es)
    (once : ((urbDeliveries es).map Message.key).Nodup)
    (small : ∀ msg ∈ urbDeliveries es, msg.bcastSeqNum + 1 < 2 ^ 32)
    (top : (lcb.pending it).top = some msg) (ready : lcb.canDeliver cfg msg) :
    LcbOk cfg p
      { pending := Function.update lcb.pending it (lcb.pending it).pop
        currentClock := Function.update lcb.currentClock msg.originator
          (succ32 (lcb.currentClock msg.originator)) }
      due (0 :: scans) (es ++ [.client (.lcbDeliver msg)]) := by
  obtain ⟨urb, rfl⟩ := ok.mem_urbDeliveries_of_pending (BroadcastMessageHeap.mem_of_top top)
  have low := ok.clock_le_of_pending once (BroadcastMessageHeap.mem_of_top top)
  unfold LocalizedCausalBroadcast.canDeliver at ready
  split at ready
  next => cases ready
  next high =>
  have number : msg.bcastSeqNum = lcb.currentClock msg.originator := by omega
  have next : succ32 (lcb.currentClock msg.originator) = lcb.currentClock msg.originator + 1 := by
    rw [← number]
    exact Nat.mod_eq_of_lt (small msg urb)
  have urbs : urbDeliveries (es ++ [.client (.lcbDeliver msg)]) = urbDeliveries es := by simp
  have lcbs : lcbDeliveries (es ++ [.client (.lcbDeliver msg)]) = lcbDeliveries es ++ [msg] := by
    simp
  exact {
    waiting := fun o => by
      rw [urbs, lcbs, fromProcess_append]
      refine (ok.waiting o).trans ?_
      by_cases same : o = msg.originator
      · subst same
        simp only [Function.update_self, BroadcastMessageHeap.pop_of_top top]
        rw [fromProcess_singleton_own]
        have split := List.perm_cons_erase (BroadcastMessageHeap.mem_of_top top)
        simpa using (split.append_left (fromProcess msg.originator (lcbDeliveries es))).append_right
          (fromProcess msg.originator due)
      · rw [fromProcess_singleton_other same, List.append_nil]
        simp [same]
    numbers := fun o => by
      rw [lcbs, fromProcess_append, List.map_append, ok.numbers]
      by_cases same : o = msg.originator
      · subst same
        simp only [Function.update_self, next, List.range_succ]
        rw [fromProcess_singleton_own, ← number]
        rfl
      · simp [fromProcess_singleton_other same, same]
    causal := by
      refine justified_concat.mpr ⟨ok.causal, ?_, fun x mem => ?_⟩
      · rw [number, ok.clock_eq]
      · rw [← ok.clock_eq]
        exact of_decide_eq_true (List.all_eq_true.mp ready x mem)
    scanned := fun o _ _ _ _ => ⟨0, List.mem_cons_self, Nat.zero_le o⟩ }

end LcbOk

/-! ## Reading the account off a process -/

/-- The message to be handed to `LocalizedCausalBroadcast::deliver`. -/
@[simp] def Request.due : Request Call → Option Message
  | .call (.lcbDeliver msg) => some msg
  | .send .. | .call _ => none

/-- The heap the loop of `LocalizedCausalBroadcast::deliver` is at. -/
@[simp] def Request.scan : Request Call → Option Nat
  | .call (.lcbScan it) => some it
  | .send .. | .call _ => none

variable {cfg : Config} {w : SystemWorld}

/-- Every process keeps its account. -/
theorem lcb_ok (reach : (system cfg).Reachable w) (p : Nat) :
    LcbOk cfg p (w.nodes p).client.lcb ((requestsOf (w.nodes p).stack).filterMap Request.due)
      ((requestsOf (w.nodes p).stack).filterMap Request.scan) (eventsOf p w.history) := by
  refine view_locally (P := fun p v es => LcbOk cfg p v.state.lcb
    (v.requests.filterMap Request.due) (v.requests.filterMap Request.scan) es) ?_ ?_ reach p
  · intro i
    exact LcbOk.init cfg i
  · intro w i v es reach _ moves ok
    have once := urbDeliveries_nodup reach i
    have small : ∀ msg ∈ urbDeliveries (eventsOf i w.history), msg.bcastSeqNum + 1 < 2 ^ 32 := by
      intro msg mem
      have event := mem_eventsOf.mp (mem_urbDeliveries.mp mem)
      have below := (genuine_of_event reach event rfl).bcastSeqNum_lt reach
      have bound := cfg.numMessages_lt
      omega
    have phase := (main_ok reach i).phase
    generalize (w.nodes i).view = before at moves ok phase
    generalize eventsOf i w.history = past at ok once small phase ⊢
    cases moves with
    | silent => simpa using ok
    | stop => simpa [Node.client] using ok
    | poll turn =>
      obtain ⟨recvs, rfl⟩ := Node.loop_receive turn
      simpa using ok
    | call turn =>
      obtain ⟨-, rfl, rfl⟩ := Node.loop_call turn
      simpa [List.filterMap_cons] using ok
    | sendSelf same signed => exact ok.quiet [_, _] rfl rfl rfl
    | sendPeer other same signed => exact ok.quiet [_] rfl rfl rfl
    | take other sent => exact ok.quiet [_] rfl rfl rfl
    | @run s c rest =>
      have runs := Node.client_run_cases cfg i c s
      generalize (Node.client cfg).run i c s = out at runs ⊢
      cases runs with
      | lcbSend => exact ok.quiet [] rfl rfl rfl
      | urbSend => exact ok.broadcast phase.of_urbSend.2.2.2.1
      | @bebSend msg =>
        have quiet := ok.quiet [.client (.bebSend msg)] rfl rfl rfl
        simpa [List.filterMap_cons, List.filterMap_map, Function.comp_def] using quiet
      | ignore | first | count | wait => simpa [List.filterMap_cons] using ok
      | @quorum msg => exact ok.hand msg
      | @hold msg =>
        have due : LcbOk cfg i s.lcb (msg :: rest.filterMap Request.due)
          (rest.filterMap Request.scan) past := ok
        simpa [List.filterMap_cons] using due.receive
      | @deliver it msg top ready =>
        have due : LcbOk cfg i s.lcb (rest.filterMap Request.due)
          (it :: rest.filterMap Request.scan) past := ok
        exact due.deliver once small top ready
      | @skip it waits =>
        have due : LcbOk cfg i s.lcb (rest.filterMap Request.due)
          (it :: rest.filterMap Request.scan) past := ok
        simpa [List.filterMap_cons] using due.skip waits
      | @finish it last =>
        have due : LcbOk cfg i s.lcb (rest.filterMap Request.due)
          (it :: rest.filterMap Request.scan) past := ok
        simpa using due.finish last
      | @logBroadcast k => exact ok.quiet [.client (.logBroadcast k)] rfl rfl rfl

end CausalBroadcast
