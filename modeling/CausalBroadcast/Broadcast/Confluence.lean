import Mathlib.Algebra.Order.BigOperators.Group.Finset
import CausalBroadcast.Broadcast.Clock

/-!
# Causal delivery does not depend on the order of arrival

`LocalizedCausalBroadcast` alone, as a function of the calls of `deliver` made on it. What a message
waits for never stops being so, and no message that could be delivered is left when a call returns;
so what is delivered is the least set of messages closed under what the clocks allow, whatever the
order of the calls.
-/

namespace CausalBroadcast

open Async

namespace LocalizedCausalBroadcast

/-- A localized causal broadcast, and what it handed to its observer. -/
structure Observed where
  lcb : LocalizedCausalBroadcast := {}
  handed : List Message := []

/-- The messages in the heaps that the loop looks at. -/
def waiting (cfg : Config) (lcb : LocalizedCausalBroadcast) : Nat :=
  ∑ o ∈ Finset.range cfg.numProcesses, (lcb.pending o).length

/-- What the loop makes of a message on top of the heap of process `it` that can be delivered. -/
def Observed.hand (s : Observed) (it : Nat) (msg : Message) : Observed where
  lcb :=
    { pending := Function.update s.lcb.pending it (s.lcb.pending it).pop
      currentClock := Function.update s.lcb.currentClock msg.originator
        (succ32 (s.lcb.currentClock msg.originator)) }
  handed := s.handed ++ [msg]

theorem waiting_hand {cfg : Config} {s : Observed} {it : Nat} {msg : Message}
    (inside : it < cfg.numProcesses) (top : (s.lcb.pending it).top = some msg) :
    (s.hand it msg).lcb.waiting cfg < s.lcb.waiting cfg := by
  have popped : ((s.lcb.pending it).pop).length < (s.lcb.pending it).length := by
    have mem := BroadcastMessageHeap.mem_of_top top
    rw [BroadcastMessageHeap.pop_of_top top, List.length_erase_of_mem mem]
    exact Nat.sub_lt (List.length_pos_of_mem mem) Nat.one_pos
  refine Finset.sum_lt_sum (fun o _ => ?_) ⟨it, Finset.mem_range.mpr inside, ?_⟩
  · by_cases same : o = it
    · subst same
      simpa [Observed.hand] using popped.le
    · simp [Observed.hand, same]
  · simpa [Observed.hand] using popped

/-- The loop of `LocalizedCausalBroadcast::deliver`, from the heap of process `it` on. -/
def drain (cfg : Config) (it : Nat) (s : Observed) : Observed :=
  if it < cfg.numProcesses then
    match top : (s.lcb.pending it).top with
    | some msg =>
      if s.lcb.canDeliver cfg msg then drain cfg 0 (s.hand it msg) else drain cfg (it + 1) s
    | none => drain cfg (it + 1) s
  else s
termination_by (s.lcb.waiting cfg, cfg.numProcesses - it)
decreasing_by
  · exact .left _ _ (waiting_hand ‹_› top)
  · exact .right _ (by omega)
  · exact .right _ (by omega)

/-- `LocalizedCausalBroadcast::deliver`. -/
def call (cfg : Config) (s : Observed) (msg : Message) : Observed :=
  drain cfg 0 { s with lcb := (s.lcb.deliver msg).state }

/-- What a sequence of calls leaves. -/
def calls (cfg : Config) (msgs : List Message) : Observed := msgs.foldl (call cfg) {}

theorem calls_concat (cfg : Config) (msgs : List Message) (msg : Message) :
    calls cfg (msgs ++ [msg]) = call cfg (calls cfg msgs) msg := by
  simp [calls]

/-- The loop run round by round, as the processes of the system run it, is `drain`. -/
theorem drain_scan (cfg : Config) (it : Nat) (s : Observed) (log : Logger) :
    let out := s.lcb.scan cfg it log
    let after : Observed :=
      { lcb := out.state.1, handed := s.handed ++ out.events.filterMap Notice.lcbDelivered }
    (out.calls = [] → drain cfg it s = after) ∧
      ∀ next, out.calls = [.call (.lcbScan next)] → drain cfg it s = drain cfg next after := by
  rw [drain]
  unfold scan
  split
  · split
    next msg top =>
      rw [top]
      dsimp only
      split
      · refine ⟨(fun stop => by cases stop), fun next again => ?_⟩
        obtain rfl : 0 = next := by simpa using again
        rfl
      · refine ⟨(fun stop => by cases stop), fun next again => ?_⟩
        obtain rfl : it + 1 = next := by simpa using again
        simp
    next top =>
      rw [top]
      refine ⟨(fun stop => by cases stop), fun next again => ?_⟩
      obtain rfl : it + 1 = next := by simpa using again
      simp
  · exact ⟨fun _ => by simp, fun next again => by cases again⟩

/-! ## What the loop keeps -/

/-- Everything that `msg` waits for is in `S`: its originator's earlier messages, and as many of each
dependency's as its vector clock says. -/
def Enabled (cfg : Config) (S : Set Message) (msg : Message) : Prop :=
  (∀ k < msg.bcastSeqNum, ∃ m ∈ S, m.key = (msg.originator, k)) ∧
  ∀ x ∈ msg.vectorClock.zip (cfg.depends msg.originator), ∀ k < x.1, ∃ m ∈ S, m.key = (x.2, k)

/-- What a message waits for never becomes undelivered. -/
theorem Enabled.mono {cfg : Config} {S T : Set Message} {msg : Message} (more : S ⊆ T)
    (enabled : Enabled cfg S msg) : Enabled cfg T msg := by
  refine ⟨fun k below => ?_, fun x mem k below => ?_⟩
  · obtain ⟨m, mem, key⟩ := enabled.1 k below
    exact ⟨m, more mem, key⟩
  · obtain ⟨m, mem, key⟩ := enabled.2 x mem k below
    exact ⟨m, more mem, key⟩

/-- How many messages of process `o` were handed on. -/
def Observed.count (s : Observed) (o : Nat) : Nat := (fromProcess o s.handed).length

/-- What holds of a state in which the messages `came` were put: they are handed on or in their heaps,
those of each process were handed on in the order of their numbers, a clock counts them in 32 bits,
and each had what it waits for before it. -/
structure Accounts (cfg : Config) (came : List Message) (s : Observed) : Prop where
  split : ∀ o, (fromProcess o came).Perm (fromProcess o s.handed ++ s.lcb.pending o)
  numbers : ∀ o, (fromProcess o s.handed).map Message.bcastSeqNum = List.range (s.count o)
  clock : ∀ o, s.lcb.currentClock o = s.count o % 2 ^ 32
  justified : Justified (fun before msg => Enabled cfg {m | m ∈ before} msg) s.handed

namespace Accounts

variable {cfg : Config} {came : List Message} {s : Observed} {it o k : Nat} {msg : Message}

theorem init (cfg : Config) : Accounts cfg [] {} where
  split _ := .refl _
  numbers _ := rfl
  clock _ := rfl
  justified := justified_nil _

/-- The messages handed on of a process are the first ones, by their numbers. -/
theorem exists_handed_iff (ok : Accounts cfg came s) :
    (∃ m ∈ s.handed, m.key = (o, k)) ↔ k < s.count o := by
  rw [← List.mem_range, ← ok.numbers o, List.mem_map]
  constructor
  · rintro ⟨m, mem, key⟩
    exact ⟨m, mem_fromProcess.mpr ⟨mem, congrArg Prod.fst key⟩, congrArg Prod.snd key⟩
  · rintro ⟨m, mem, number⟩
    have ⟨mem, own⟩ := mem_fromProcess.mp mem
    exact ⟨m, mem, Prod.ext own number⟩

theorem came_of_pending (ok : Accounts cfg came s) (mem : msg ∈ s.lcb.pending o) :
    msg ∈ came ∧ msg.originator = o :=
  mem_fromProcess.mp ((ok.split o).mem_iff.mpr (List.mem_append_right _ mem))

theorem came_of_handed (ok : Accounts cfg came s) (mem : msg ∈ s.handed) : msg ∈ came := by
  have own : msg ∈ fromProcess msg.originator s.handed := mem_fromProcess.mpr ⟨mem, rfl⟩
  exact (mem_fromProcess.mp ((ok.split _).mem_iff.mpr (List.mem_append_left _ own))).1

theorem handed_or_pending (ok : Accounts cfg came s) (mem : msg ∈ came) :
    msg ∈ s.handed ∨ msg ∈ s.lcb.pending msg.originator := by
  have own : msg ∈ fromProcess msg.originator came := mem_fromProcess.mpr ⟨mem, rfl⟩
  exact (List.mem_append.mp ((ok.split _).mem_iff.mp own)).imp_left fun mem =>
    (mem_fromProcess.mp mem).1

/-- What waits has a number not handed on yet. -/
theorem count_le (ok : Accounts cfg came s) (once : (came.map Message.key).Nodup)
    (mem : msg ∈ s.lcb.pending o) : s.count o ≤ msg.bcastSeqNum :=
  le_bcastSeqNum_of_perm once (ok.split o) (ok.numbers o) mem

theorem clock_le (ok : Accounts cfg came s) (o : Nat) : s.lcb.currentClock o ≤ s.count o :=
  ok.clock o ▸ Nat.mod_le _ _

/-- What `can_deliver` lets pass has what it waits for. -/
theorem enabled (ok : Accounts cfg came s) (ready : s.lcb.canDeliver cfg msg) :
    Enabled cfg {m | m ∈ s.handed} msg := by
  unfold canDeliver at ready
  split at ready
  · cases ready
  next low =>
  refine ⟨fun k below => ?_, fun x mem k below => ?_⟩
  · have clock := ok.clock_le msg.originator
    exact ok.exists_handed_iff.mpr (by omega)
  · have clock := ok.clock_le x.2
    have low : x.1 ≤ s.lcb.currentClock x.2 := of_decide_eq_true (List.all_eq_true.mp ready x mem)
    exact ok.exists_handed_iff.mpr (by omega)

/-- A call puts its message in a heap. -/
theorem push (ok : Accounts cfg came s) (msg : Message) :
    Accounts cfg (came ++ [msg]) { s with lcb := (s.lcb.deliver msg).state } where
  split o := by
    rw [fromProcess_append]
    by_cases own : o = msg.originator
    · subst own
      rw [fromProcess_singleton_own]
      simp only [deliver, Function.update_self]
      refine ((ok.split _).append_right [msg]).trans ?_
      rw [List.append_assoc]
      exact (List.perm_append_singleton msg _).append_left _
    · rw [fromProcess_singleton_other own, List.append_nil]
      simpa [deliver, own] using ok.split o
  numbers := ok.numbers
  clock := ok.clock
  justified := ok.justified

/-- The top of a heap is handed on. -/
theorem hand (ok : Accounts cfg came s) (once : (came.map Message.key).Nodup)
    (top : (s.lcb.pending it).top = some msg) (ready : s.lcb.canDeliver cfg msg) :
    Accounts cfg came (s.hand it msg) := by
  have mem := BroadcastMessageHeap.mem_of_top top
  obtain ⟨-, rfl⟩ := ok.came_of_pending mem
  have late := ok.count_le once mem
  have early := ok.clock_le msg.originator
  have enabled := ok.enabled ready
  unfold canDeliver at ready
  split at ready
  · cases ready
  next low =>
  have number : msg.bcastSeqNum = s.count msg.originator := by omega
  have counts : ∀ o, (s.hand msg.originator msg).count o =
      if o = msg.originator then s.count o + 1 else s.count o := by
    intro o
    unfold Observed.count
    simp only [Observed.hand, fromProcess_append, List.length_append]
    split
    next same =>
      rw [same, fromProcess_singleton_own]
      rfl
    next other => rw [fromProcess_singleton_other other, List.length_nil, Nat.add_zero]
  exact {
    split := fun o => by
      refine (ok.split o).trans ?_
      simp only [Observed.hand, fromProcess_append]
      by_cases same : o = msg.originator
      · subst same
        rw [Function.update_self, BroadcastMessageHeap.pop_of_top top, fromProcess_singleton_own,
          List.append_assoc]
        exact (List.perm_cons_erase mem).append_left _
      · rw [Function.update_of_ne same, fromProcess_singleton_other same, List.append_nil]
    numbers := fun o => by
      rw [counts]
      simp only [Observed.hand, fromProcess_append, List.map_append, ok.numbers]
      split
      next same =>
        rw [same, fromProcess_singleton_own, List.map_singleton, number, List.range_succ]
      next other => rw [fromProcess_singleton_other other, List.map_nil, List.append_nil]
    clock := fun o => by
      rw [counts]
      simp only [Observed.hand]
      split
      next same =>
        rw [same, Function.update_self, succ32, ok.clock, Nat.mod_add_mod]
      next other => rw [Function.update_of_ne other, ok.clock]
    justified := justified_concat.mpr ⟨ok.justified, enabled⟩ }

end Accounts

/-- No heap before that of process `it` has a top that can be delivered. -/
def Observed.Blocked (cfg : Config) (s : Observed) (it : Nat) : Prop :=
  ∀ o < it, ∀ msg, (s.lcb.pending o).top = some msg → s.lcb.canDeliver cfg msg = false

section
variable {cfg : Config} {came msgs msgs' : List Message} {s : Observed} {it : Nat} {msg : Message}

theorem Observed.Blocked.next (blocked : s.Blocked cfg it)
    (here : ∀ msg, (s.lcb.pending it).top = some msg → s.lcb.canDeliver cfg msg = false) :
    s.Blocked cfg (it + 1) := by
  intro o below
  rcases Nat.lt_succ_iff_lt_or_eq.mp below with before | rfl
  · exact blocked o before
  · exact here

/-- The loop keeps the accounts, and ends when it is blocked at every heap. -/
theorem Accounts.drain (ok : Accounts cfg came s) (once : (came.map Message.key).Nodup)
    (it : Nat) (blocked : s.Blocked cfg it) :
    Accounts cfg came (drain cfg it s) ∧ (drain cfg it s).Blocked cfg cfg.numProcesses ∧
      s.handed <+: (drain cfg it s).handed := by
  fun_induction LocalizedCausalBroadcast.drain cfg it s with
  | case1 it s inside msg top ready ih =>
    obtain ⟨kept, stuck, more⟩ := ih (ok.hand once top ready) fun o below => absurd below (by omega)
    exact ⟨kept, stuck, (List.prefix_append s.handed [msg]).trans more⟩
  | case2 it s inside msg top waits ih =>
    refine ih ok (blocked.next fun msg' top' => ?_)
    obtain rfl := Option.some.inj (top.symm.trans top')
    exact Bool.not_eq_true _ ▸ waits
  | case3 it s inside top ih =>
    exact ih ok (blocked.next fun msg' top' => by simp [top] at top')
  | case4 it s outside =>
    exact ⟨ok, fun o below => blocked o (by omega), List.prefix_rfl⟩

/-- Where every heap is blocked the loop does nothing. -/
theorem drain_of_blocked (blocked : s.Blocked cfg cfg.numProcesses) (it : Nat) :
    drain cfg it s = s := by
  fun_induction LocalizedCausalBroadcast.drain cfg it s with
  | case1 it s inside msg top ready ih =>
    rw [blocked it inside msg top] at ready
    cases ready
  | case2 it s inside msg top waits ih => exact ih blocked
  | case3 it s inside top ih => exact ih blocked
  | case4 it s outside => rfl

/-- Between calls the accounts are kept, and every heap is blocked. -/
theorem calls_ok (cfg : Config) (once : (msgs.map Message.key).Nodup) :
    Accounts cfg msgs (calls cfg msgs) ∧ (calls cfg msgs).Blocked cfg cfg.numProcesses := by
  induction msgs using List.reverseRecOn with
  | nil => exact ⟨.init cfg, fun o _ msg top => by cases top⟩
  | append_singleton msgs msg ih =>
    rw [calls_concat]
    have before := ih (once.sublist ((List.sublist_append_left msgs [msg]).map _))
    have after := (before.1.push msg).drain once 0 fun o below => absurd below (by omega)
    exact ⟨after.1, after.2.1⟩

/-- What was handed on stays handed on. -/
theorem handed_grows (once : ((msgs ++ msgs').map Message.key).Nodup) :
    (calls cfg msgs).handed <+: (calls cfg (msgs ++ msgs')).handed := by
  induction msgs' using List.reverseRecOn with
  | nil => rw [List.append_nil]
  | append_singleton msgs' msg ih =>
    rw [← List.append_assoc] at once ⊢
    rw [calls_concat]
    have once' := once.sublist ((List.sublist_append_left (msgs ++ msgs') [msg]).map _)
    have after := ((calls_ok cfg once').1.push msg).drain once 0
      fun o below => absurd below (by omega)
    exact (ih once').trans after.2.2

/-- Where no top can be delivered, nothing in the heaps can. -/
theorem canDeliver_eq_false (ok : Accounts cfg came s) (once : (came.map Message.key).Nodup)
    (blocked : s.Blocked cfg cfg.numProcesses) (inside : it < cfg.numProcesses)
    (mem : msg ∈ s.lcb.pending it) : s.lcb.canDeliver cfg msg = false := by
  cases top : (s.lcb.pending it).top with
  | none =>
    rw [BroadcastMessageHeap.top_eq_none.mp top] at mem
    cases mem
  | some first =>
    have stuck := blocked it inside first top
    obtain ⟨came_, own⟩ := ok.came_of_pending mem
    obtain ⟨came', own'⟩ := ok.came_of_pending (BroadcastMessageHeap.mem_of_top top)
    have least := BroadcastMessageHeap.le_of_top top mem
    have new := ok.count_le once (BroadcastMessageHeap.mem_of_top top)
    have clock := ok.clock_le it
    by_cases early : msg.bcastSeqNum > s.lcb.currentClock it
    · unfold canDeliver
      rw [own, if_pos early]
    · -- only the next message of its process has a number that low, and it is the top
      have key : msg.key = first.key := by
        refine Prod.ext (own.trans own'.symm) ?_
        show msg.bcastSeqNum = first.bcastSeqNum
        omega
      rw [List.inj_on_of_nodup_map once came_ came' key]
      exact stuck

/-- Everything that could be delivered after what was delivered is delivered, as long as the clocks
do not wrap. -/
theorem handed_of_enabled (ok : Accounts cfg came s) (once : (came.map Message.key).Nodup)
    (blocked : s.Blocked cfg cfg.numProcesses) (low : ∀ o, s.count o < 2 ^ 32)
    (mem : msg ∈ came) (inside : msg.originator < cfg.numProcesses)
    (enabled : Enabled cfg {m | m ∈ s.handed} msg) : msg ∈ s.handed := by
  refine (ok.handed_or_pending mem).resolve_right fun waits => ?_
  have stuck := canDeliver_eq_false ok once blocked inside waits
  have clock : ∀ o, s.lcb.currentClock o = s.count o := fun o =>
    (ok.clock o).trans (Nat.mod_eq_of_lt (low o))
  have reached : ∀ {o x}, (∀ k < x, ∃ m ∈ s.handed, m.key = (o, k)) → x ≤ s.lcb.currentClock o := by
    intro o x all
    rw [clock]
    by_contra beyond
    exact Nat.lt_irrefl _ (ok.exists_handed_iff.mp (all _ (Nat.lt_of_not_le beyond)))
  have ready : s.lcb.canDeliver cfg msg = true := by
    unfold canDeliver
    have first := reached enabled.1
    rw [if_neg (by omega), List.all_eq_true]
    exact fun x mem => decide_eq_true (reached (enabled.2 x mem))
  rw [stuck] at ready
  cases ready

/-- Two orders of the same calls: what one leaves handed on, the other does too. -/
theorem handed_subset (once : (msgs.map Message.key).Nodup)
    (inside : ∀ msg ∈ msgs, msg.originator < cfg.numProcesses) (perm : msgs.Perm msgs')
    (low : ∀ o, (calls cfg msgs').count o < 2 ^ 32) :
    ∀ msg ∈ (calls cfg msgs).handed, msg ∈ (calls cfg msgs').handed := by
  have once' : (msgs'.map Message.key).Nodup := (perm.map _).nodup_iff.mp once
  have ⟨ok, _⟩ := calls_ok cfg once
  have ⟨ok', blocked'⟩ := calls_ok cfg once'
  apply @Justified.mem_of_closed _ (Enabled cfg) Enabled.mono _ {m | m ∈ (calls cfg msgs').handed}
    ok.justified
  intro msg mem enabled
  have came := ok.came_of_handed mem
  exact handed_of_enabled ok' once' blocked' low (perm.mem_iff.mp came) (inside msg came) enabled

/-- **Causal delivery is maximal and confluent**: when a call returns, nothing in the heaps can be
delivered; and the clocks, the messages handed on and those left in the heaps do not depend on the
order of the calls, unless all `2 ^ 32` messages of some process came. -/
theorem calls_confluent (cfg : Config) (once : (msgs.map Message.key).Nodup)
    (inside : ∀ msg ∈ msgs, msg.originator < cfg.numProcesses) :
    (∀ before, before <+: msgs → ∀ o < cfg.numProcesses,
      ∀ msg ∈ (calls cfg before).lcb.pending o,
        (calls cfg before).lcb.canDeliver cfg msg = false) ∧
    ∀ msgs', msgs.Perm msgs' → (∀ o, ∃ k < 2 ^ 32, ∀ msg ∈ msgs, msg.key ≠ (o, k)) →
      (calls cfg msgs).lcb.currentClock = (calls cfg msgs').lcb.currentClock ∧
      (∀ msg, msg ∈ (calls cfg msgs).handed ↔ msg ∈ (calls cfg msgs').handed) ∧
      ∀ o, ((calls cfg msgs).lcb.pending o).Perm ((calls cfg msgs').lcb.pending o) := by
  constructor
  · intro before upTo o below msg mem
    have once' := once.sublist (upTo.sublist.map _)
    have ⟨ok, blocked⟩ := calls_ok cfg once'
    exact canDeliver_eq_false ok once' blocked below mem
  intro msgs' perm missing
  have once' : (msgs'.map Message.key).Nodup := (perm.map _).nodup_iff.mp once
  have inside' : ∀ msg ∈ msgs', msg.originator < cfg.numProcesses := fun msg mem =>
    inside msg (perm.mem_iff.mpr mem)
  have ⟨ok, _⟩ := calls_ok cfg once
  have ⟨ok', _⟩ := calls_ok cfg once'
  have low : ∀ o, (calls cfg msgs).count o < 2 ^ 32 ∧ (calls cfg msgs').count o < 2 ^ 32 := by
    intro o
    obtain ⟨k, small, absent⟩ := missing o
    constructor
    · by_contra wrapped
      obtain ⟨m, mem, key⟩ := (ok.exists_handed_iff (o := o) (k := k)).mpr (by omega)
      exact absent m (ok.came_of_handed mem) key
    · by_contra wrapped
      obtain ⟨m, mem, key⟩ := (ok'.exists_handed_iff (o := o) (k := k)).mpr (by omega)
      exact absent m (perm.mem_iff.mpr (ok'.came_of_handed mem)) key
  have same : ∀ msg, msg ∈ (calls cfg msgs).handed ↔ msg ∈ (calls cfg msgs').handed := fun msg =>
    ⟨handed_subset once inside perm (fun o => (low o).2) msg,
      handed_subset once' inside' perm.symm (fun o => (low o).1) msg⟩
  have numbers : ∀ {s : Observed} {came}, Accounts cfg came s → ∀ o, (fromProcess o s.handed).Nodup :=
    fun ok o => .of_map _ (ok.numbers o ▸ List.nodup_range)
  have handed : ∀ o, (fromProcess o (calls cfg msgs).handed).Perm
      (fromProcess o (calls cfg msgs').handed) := fun o =>
    (List.perm_ext_iff_of_nodup (numbers ok o) (numbers ok' o)).mpr fun msg => by
      simp [same]
  refine ⟨funext fun o => ?_, same, fun o => ?_⟩
  · rw [ok.clock, ok'.clock]
    exact congrArg (· % 2 ^ 32) (handed o).length_eq
  · have all := ((ok.split o).symm.trans (perm.filter _)).trans (ok'.split o)
    exact (List.perm_append_left_iff _).mp (all.trans ((handed o).symm.append_right _))

end

/-- The second process's message, before and after the one it depends on. -/
theorem calls_confluent_of_follower :
    (calls follower [firstCopy 0, secondCopy 1]).lcb.currentClock =
      (calls follower [secondCopy 1, firstCopy 0]).lcb.currentClock := by
  have once : ([firstCopy 0, secondCopy 1].map Message.key).Nodup := by decide
  have confluent := (calls_confluent follower once (by decide)).2 [secondCopy 1, firstCopy 0]
    (.swap _ _ _)
  refine (confluent fun o => ⟨1, by decide, ?_⟩).1
  intro msg mem same
  simp only [List.mem_cons, List.not_mem_nil, or_false] at mem
  have number := congrArg Prod.snd same
  rcases mem with rfl | rfl <;> cases number

/-! ## A clock that wraps -/

/-- The messages of the first process numbered from `k` on, without vector clocks. -/
def stream (k n : Nat) : List Message := (List.range' k n).map fun k => { bcastSeqNum := k }

/-- A message of the second process that waits for one of the first. -/
def follows : Message := { originator := 1, vectorClock := [1] }

section
variable {n : Nat} {msg : Message}

theorem mem_stream {k : Nat} : msg ∈ stream k n ↔
    ∃ i, (k ≤ i ∧ i < k + n) ∧ ({ bcastSeqNum := i } : Message) = msg := by
  simp [stream]

theorem stream_once (n : Nat) : ((stream 0 n).map Message.key).Nodup := by
  unfold stream
  rw [List.map_map]
  refine List.Nodup.map (fun i j same => congrArg Prod.snd same) ?_
  exact List.nodup_range'

theorem stream_follows_once (n : Nat) : ((stream 0 n ++ [follows]).map Message.key).Nodup := by
  rw [List.map_append]
  refine List.nodup_append.mpr ⟨stream_once n, by decide, fun key mem key' mem' same => ?_⟩
  obtain ⟨m, listed, rfl⟩ := List.mem_map.mp mem
  obtain ⟨i, -, rfl⟩ := mem_stream.mp listed
  obtain rfl : key' = (1, 0) := by simpa [follows, Message.key] using mem'
  cases congrArg Prod.fst same

/-- All messages of the stream are handed on. -/
theorem count_stream (small : n ≤ 2 ^ 32) : (calls follower (stream 0 n)).count 0 = n := by
  have once := stream_once n
  have ⟨ok, blocked⟩ := calls_ok follower once
  apply Nat.le_antisymm
  · by_contra more
    obtain ⟨m, mem, key⟩ := (ok.exists_handed_iff (o := 0) (k := n)).mpr (Nat.lt_of_not_le more)
    obtain ⟨i, bound, rfl⟩ := mem_stream.mp (ok.came_of_handed mem)
    have number : i = n := congrArg Prod.snd key
    omega
  · by_contra fewer
    -- the next message of the stream could be delivered
    generalize (calls follower (stream 0 n)) = s at ok blocked fewer
    have came : ({ bcastSeqNum := s.count 0 } : Message) ∈ stream 0 n :=
      mem_stream.mpr ⟨_, ⟨Nat.zero_le _, by omega⟩, rfl⟩
    rcases ok.handed_or_pending came with handed | waits
    · exact Nat.lt_irrefl _ (ok.exists_handed_iff.mp ⟨_, handed, rfl⟩)
    · have stuck := canDeliver_eq_false ok once blocked Nat.two_pos waits
      have clock : s.lcb.currentClock 0 = s.count 0 :=
        (ok.clock 0).trans (Nat.mod_eq_of_lt (by omega))
      unfold canDeliver at stuck
      simp [clock] at stuck

/-- After `2 ^ 32` messages the clock is back at 0, and the message that waits for the first of them
is never handed on. -/
theorem not_handed_follows (wraps : n = 2 ^ 32) :
    follows ∉ (calls follower (stream 0 n ++ [follows])).handed := by
  have once := stream_once n
  have ⟨ok, blocked⟩ := calls_ok follower once
  have count := count_stream wraps.le
  rw [calls_concat]
  generalize (calls follower (stream 0 n)) = s at ok blocked count
  have clock : s.lcb.currentClock 0 = 0 := by
    rw [ok.clock, count, wraps, Nat.mod_self]
  have others : s.lcb.pending 1 = [] := by
    rw [List.eq_nil_iff_forall_not_mem]
    intro m mem
    obtain ⟨came, own⟩ := ok.came_of_pending mem
    obtain ⟨i, -, rfl⟩ := mem_stream.mp came
    cases own
  have stays : Observed.Blocked follower { s with lcb := (s.lcb.deliver follows).state } 2 := by
    intro o below msg top
    obtain rfl | rfl : o = 0 ∨ o = 1 := by omega
    · have top : (s.lcb.pending 0).top = some msg := top
      exact blocked 0 (by decide) msg top
    · have alone : (s.lcb.deliver follows).state.pending 1 = [follows] := by
        simp [deliver, follows, others, BroadcastMessageHeap.push]
      rw [alone] at top
      obtain rfl : follows = msg := by simpa [BroadcastMessageHeap.top] using top
      have waits : follows.vectorClock.zip (follower.depends 1) = [(1, 0)] := rfl
      unfold canDeliver
      split
      · rfl
      · show (follows.vectorClock.zip (follower.depends 1)).all _ = false
        rw [waits]
        simp [deliver, clock]
  rw [call, drain_of_blocked stays]
  intro mem
  obtain ⟨i, -, same⟩ := mem_stream.mp (ok.came_of_handed mem)
  cases congrArg Message.originator same

/-- Right after the first message of the stream it is handed on. -/
theorem handed_follows : follows ∈ (calls follower [{}, follows]).handed := by
  have once : (([{}, follows] : List Message).map Message.key).Nodup := by decide
  obtain ⟨ok, blocked⟩ := calls_ok follower once
  have low : ∀ o, (calls follower [{}, follows]).count o < 2 ^ 32 := by
    intro o
    have total := (ok.split o).length_eq
    have few := List.length_filter_le (fun m : Message => m.originator = o) [{}, follows]
    simp only [List.length_append, fromProcess, Observed.count, List.length_cons, List.length_nil]
      at total few ⊢
    omega
  have first : ({} : Message) ∈ (calls follower [{}, follows]).handed := by
    refine handed_of_enabled ok once blocked low (by decide) Nat.two_pos ⟨?_, ?_⟩
    · exact fun k below => absurd below (Nat.not_lt_zero k)
    · exact fun x mem => absurd mem List.not_mem_nil
  refine handed_of_enabled ok once blocked low (by decide) Nat.one_lt_two ⟨?_, ?_⟩
  · exact fun k below => absurd below (Nat.not_lt_zero k)
  intro x mem k below
  obtain rfl : x = (1, 0) := List.mem_singleton.mp mem
  exact ⟨_, first, Prod.ext rfl (Nat.lt_one_iff.mp below).symm⟩

/-- With all `2 ^ 32` messages of a process among them, the order of the calls matters. -/
theorem not_confluent : ∃ msgs msgs' : List Message, msgs.Perm msgs' ∧
    (msgs.map Message.key).Nodup ∧
    (∀ msg ∈ msgs, msg.originator < follower.numProcesses ∧ msg.bcastSeqNum < 2 ^ 32 ∧
      msg.vectorClock.length ≤ (follower.depends msg.originator).length) ∧
    ∃ msg, msg ∈ (calls follower msgs).handed ∧ msg ∉ (calls follower msgs').handed := by
  obtain ⟨n, size⟩ : ∃ n, n + 1 = 2 ^ 32 := ⟨2 ^ 32 - 1, Nat.sub_add_cancel (by decide)⟩
  have perm : ({} :: follows :: stream 1 n).Perm (stream 0 (n + 1) ++ [follows]) := by
    show List.Perm _ ({} :: (stream 1 n ++ [follows]))
    exact ((List.perm_append_singleton follows (stream 1 n)).symm).cons _
  have once := (perm.map Message.key).nodup_iff.mpr (stream_follows_once (n + 1))
  refine ⟨_, _, perm, once, fun msg mem => ?_, follows, ?_, not_handed_follows size⟩
  · rcases List.mem_append.mp (perm.mem_iff.mp mem) with mem | mem
    · obtain ⟨i, bound, rfl⟩ := mem_stream.mp mem
      exact ⟨Nat.two_pos, by show i < 2 ^ 32; omega, Nat.zero_le _⟩
    · obtain rfl := List.mem_singleton.mp mem
      decide
  · exact (handed_grows once).subset handed_follows

end

end LocalizedCausalBroadcast

end CausalBroadcast
