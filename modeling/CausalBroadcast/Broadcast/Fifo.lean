import CausalBroadcast.Broadcast.Confluence
import CausalBroadcast.MonotonicQueue

/-!
# FIFO broadcast

`FifoBroadcast` as a function of the calls of `deliver` made on it. Each call hands on the messages of
its originator up to the first number missing, and so does localized causal broadcast where no process
depends on another. A call that leaves nothing in the queue has asked an empty queue for its top.
-/

namespace CausalBroadcast

open Async

/-- Of each process, what was handed on are the messages that came up to its first missing number, in
order. -/
structure GapFree (came handed : List Message) : Prop where
  among : ∀ msg ∈ handed, msg ∈ came
  numbers : ∀ o, (fromProcess o handed).map Message.bcastSeqNum =
    List.range (fromProcess o handed).length
  missing : ∀ o, ∀ msg ∈ came, msg.key ≠ (o, (fromProcess o handed).length)

/-- Something of process `o` came before something with a lower number. -/
def Gapped (came : List Message) (o : Nat) : Prop :=
  ∃ m ∈ came, m.originator = o ∧ ∃ k < m.bcastSeqNum, ∀ m' ∈ came, m'.key ≠ (o, k)

section
variable {o o' : Nat} {msgs items : List Message}

theorem fromProcess_append_own (own : ∀ m ∈ items, m.originator = o) :
    fromProcess o (msgs ++ items) = fromProcess o msgs ++ items := by
  have all : fromProcess o items = items := List.filter_eq_self.mpr fun m mem => by
    simp [own m mem]
  rw [fromProcess_append, all]

theorem fromProcess_append_other (own : ∀ m ∈ items, m.originator = o) (other : o' ≠ o) :
    fromProcess o' (msgs ++ items) = fromProcess o' msgs := by
  have none_ : fromProcess o' items = [] := List.filter_eq_nil_iff.mpr fun m mem => by
    simp [own m mem, other.symm]
  rw [fromProcess_append, none_, List.append_nil]

end

/-- What was handed on has a number below what is next. -/
theorem bcastSeqNum_lt_length {msg : Message} {handed : List Message}
    (numbers : handed.map Message.bcastSeqNum = List.range handed.length) (mem : msg ∈ handed) :
    msg.bcastSeqNum < handed.length := by
  have listed : msg.bcastSeqNum ∈ handed.map Message.bcastSeqNum := List.mem_map_of_mem mem
  rwa [numbers, List.mem_range] at listed

namespace GapFree

variable {came handed handed' : List Message} {o : Nat}

/-- Numbers that were handed on came. -/
theorem exists_came (gapFree : GapFree came handed) {k : Nat}
    (low : k < (fromProcess o handed).length) : ∃ msg ∈ came, msg.key = (o, k) := by
  rw [← List.mem_range, ← gapFree.numbers o, List.mem_map] at low
  obtain ⟨msg, mem, number⟩ := low
  obtain ⟨mem, own⟩ := mem_fromProcess.mp mem
  exact ⟨msg, gapFree.among msg mem, Prod.ext own number⟩

theorem length_le (gapFree : GapFree came handed) (gapFree' : GapFree came handed') :
    (fromProcess o handed').length ≤ (fromProcess o handed).length := by
  by_contra more
  obtain ⟨msg, mem, key⟩ := gapFree'.exists_came (Nat.lt_of_not_le more)
  exact gapFree.missing o msg mem key

/-- What was handed on of a process follows from what came. -/
theorem unique (once : (came.map Message.key).Nodup) (gapFree : GapFree came handed)
    (gapFree' : GapFree came handed') : fromProcess o handed = fromProcess o handed' := by
  have length : (fromProcess o handed).length = (fromProcess o handed').length :=
    Nat.le_antisymm (gapFree'.length_le gapFree) (gapFree.length_le gapFree')
  have numbers : (fromProcess o handed).map Message.bcastSeqNum =
      (fromProcess o handed').map Message.bcastSeqNum := by
    rw [gapFree.numbers, gapFree'.numbers, length]
  refine List.ext_getElem length fun i inside inside' => ?_
  obtain ⟨mem, own⟩ := mem_fromProcess.mp (List.getElem_mem inside)
  obtain ⟨mem', own'⟩ := mem_fromProcess.mp (List.getElem_mem inside')
  refine List.inj_on_of_nodup_map once (gapFree.among _ mem) (gapFree'.among _ mem') ?_
  refine Prod.ext (own.trans own'.symm) ?_
  have same := congrArg (·[i]?) numbers
  simpa [inside, inside', Message.key] using same

end GapFree

namespace FifoBroadcast

/-- A `FifoBroadcast`, and what it handed to its observer. -/
structure Observed where
  ordered : Nat → MonotonicQueue Message := fun _ => {}
  handed : List Message := []

/-- `FifoBroadcast::deliver`. -/
def call (ofEmpty : Option Bool) (s : Observed) (msg : Message) : Option Observed := do
  let queue := (s.ordered msg.originator).add msg msg.bcastSeqNum
  let (last, items) ← queue.drain ofEmpty
  return {
    ordered := Function.update s.ordered msg.originator last
    handed := s.handed ++ items }

/-- What a sequence of calls leaves. -/
def calls (ofEmpty : Option Bool) (msgs : List Message) : Option Observed :=
  msgs.foldlM (call ofEmpty) {}

/-- What holds of one process's queue, of the messages that `came` and were `handed` on: each message
that came is handed on or in the queue, the first ones are handed on in the order of their numbers,
and the next one is not in the queue. -/
structure Orders (came handed : List Message) (queue : MonotonicQueue Message) : Prop where
  split : came.Perm (handed ++ queue.queue.map MonotonicQueue.Entry.val)
  ids : ∀ entry ∈ queue.queue, entry.id = entry.val.bcastSeqNum
  next : queue.expectedNext = handed.length % 2 ^ 32
  numbers : handed.map Message.bcastSeqNum = List.range handed.length
  missing : ∀ entry ∈ queue.queue, entry.id ≠ handed.length

namespace Orders

variable {came handed : List Message} {queue : MonotonicQueue Message} {msg : Message}

theorem number_ne (orders : Orders came handed queue) (mem : msg ∈ came) :
    msg.bcastSeqNum ≠ handed.length := by
  intro number
  rcases List.mem_append.mp (orders.split.mem_iff.mp mem) with first | waits
  · have low := bcastSeqNum_lt_length orders.numbers first
    omega
  · obtain ⟨entry, listed, rfl⟩ := List.mem_map.mp waits
    exact orders.missing entry listed ((orders.ids entry listed).trans number)

/-- What waits has a higher number than what is next. -/
theorem length_lt (orders : Orders came handed queue)
    (different : (came.map Message.bcastSeqNum).Nodup) {entry : MonotonicQueue.Entry Message}
    (mem : entry ∈ queue.queue) : handed.length < entry.val.bcastSeqNum := by
  have low := le_bcastSeqNum_of_nodup ((orders.split.map _).nodup_iff.mp different) orders.numbers
    (List.mem_map_of_mem mem)
  have other := orders.missing entry mem
  rw [orders.ids entry mem] at other
  omega

/-- The queue when a call's loop starts. -/
theorem counts_add (orders : Orders came handed queue)
    (different : ((came ++ [msg]).map Message.bcastSeqNum).Nodup)
    (small : ∀ m ∈ came ++ [msg], m.bcastSeqNum < 2 ^ 32) :
    let added := queue.add msg msg.bcastSeqNum
    (came ++ [msg]).Perm (handed ++ added.queue.map MonotonicQueue.Entry.val) ∧
    (∀ entry ∈ added.queue, entry.id = entry.val.bcastSeqNum) ∧ added.Counts handed.length := by
  intro added
  have split : (came ++ [msg]).Perm
      (handed ++ added.queue.map MonotonicQueue.Entry.val) := by
    refine (orders.split.append_right [msg]).trans ?_
    rw [List.append_assoc]
    exact (List.perm_append_singleton msg _).append_left _
  have ids : ∀ entry ∈ added.queue, entry.id = entry.val.bcastSeqNum := by
    intro entry mem
    rcases List.mem_cons.mp mem with rfl | old
    · rfl
    · exact orders.ids entry old
  rw [(split.map _).nodup_iff] at different
  refine ⟨split, ids, orders.next, ?_, fun entry mem => ?_, fun entry mem => ?_⟩
  · rw [List.map_congr_left ids]
    rw [List.map_append, List.map_map] at different
    exact (List.nodup_append.mp different).2.1
  · rw [ids entry mem]
    exact le_bcastSeqNum_of_nodup different orders.numbers (List.mem_map_of_mem mem)
  · rw [ids entry mem]
    exact small _ (split.mem_iff.mpr (List.mem_append_right _ (List.mem_map_of_mem mem)))

/-- The loop of a call hands on the messages up to the first one missing. -/
theorem drain (orders : Orders came handed queue)
    (different : ((came ++ [msg]).map Message.bcastSeqNum).Nodup)
    (small : ∀ m ∈ came ++ [msg], m.bcastSeqNum < 2 ^ 32) :
    ∃ last items, Orders (came ++ [msg]) (handed ++ items) last ∧
      (queue.add msg msg.bcastSeqNum).drain (some false) = some (last, items) ∧
      (queue.add msg msg.bcastSeqNum).drain none =
        if last.queue.isEmpty then none else some (last, items) := by
  obtain ⟨split, ids, counts⟩ := orders.counts_add different small
  obtain ⟨last, entries, drained, answered, unanswered⟩ := counts.drain
  generalize queue.add msg msg.bcastSeqNum = added at *
  refine ⟨last, entries.map MonotonicQueue.Entry.val, ?_, answered, unanswered⟩
  have length : (handed ++ entries.map MonotonicQueue.Entry.val).length =
      handed.length + entries.length := by
    rw [List.length_append, List.length_map]
  exact {
    split := by
      have parts := drained.split.map MonotonicQueue.Entry.val
      rw [List.map_append] at parts
      rw [List.append_assoc]
      exact split.trans (parts.append_left handed)
    ids := fun entry mem => ids entry (drained.split.mem_iff.mpr (List.mem_append_right _ mem))
    next := length ▸ drained.counts.next
    numbers := by
      have new : (entries.map MonotonicQueue.Entry.val).map Message.bcastSeqNum =
          List.range' handed.length entries.length := by
        rw [← drained.numbers, List.map_map]
        exact (List.map_congr_left fun entry mem =>
          ids entry (drained.split.mem_iff.mpr (List.mem_append_left _ mem))).symm
      rw [length, List.map_append, orders.numbers, new, List.range_eq_range',
        List.range_eq_range']
      simpa using List.range'_append_1 (s := 0) (m := handed.length) (n := entries.length)
    missing := length ▸ drained.missing }

end Orders

/-- What holds between calls. -/
def Accounts (came : List Message) (s : Observed) : Prop :=
  ∀ o, Orders (fromProcess o came) (fromProcess o s.handed) (s.ordered o)

section
variable {came msgs : List Message} {s s' : Observed} {msg : Message} {o : Nat}

namespace Accounts

theorem init : Accounts [] {} := fun _ =>
  ⟨.refl _, List.forall_mem_nil _, rfl, rfl, List.forall_mem_nil _⟩

theorem gapFree (ok : Accounts came s) : GapFree came s.handed where
  among m mem := by
    have own : m ∈ fromProcess m.originator s.handed := mem_fromProcess.mpr ⟨mem, rfl⟩
    exact (mem_fromProcess.mp ((ok _).split.mem_iff.mpr (List.mem_append_left _ own))).1
  numbers o := (ok o).numbers
  missing o m mem key := (ok o).number_ne (mem_fromProcess.mpr ⟨mem, congrArg Prod.fst key⟩)
    (congrArg Prod.snd key)

/-- A queue is empty unless something came before something with a lower number. -/
theorem queue_ne_nil_iff (ok : Accounts came s) (once : (came.map Message.key).Nodup) :
    (s.ordered o).queue ≠ [] ↔ Gapped came o := by
  constructor
  · intro some_
    obtain ⟨entry, mem⟩ := List.exists_mem_of_ne_nil _ some_
    have came_ : entry.val ∈ fromProcess o came :=
      (ok o).split.mem_iff.mpr (List.mem_append_right _ (List.mem_map_of_mem mem))
    obtain ⟨came_, own⟩ := mem_fromProcess.mp came_
    exact ⟨entry.val, came_, own, _, (ok o).length_lt (nodup_bcastSeqNum once) mem,
      ok.gapFree.missing o⟩
  · rintro ⟨m, mem, own, k, low, absent⟩ empty
    have handed : m ∈ fromProcess o s.handed := by
      simpa [empty] using (ok o).split.mem_iff.mp (mem_fromProcess.mpr ⟨mem, own⟩)
    have number := bcastSeqNum_lt_length (ok o).numbers handed
    obtain ⟨m', mem', key⟩ := ok.gapFree.exists_came (o := o) (Nat.lt_trans low number)
    exact absent m' mem' key

/-- **A call hands on messages of its originator** up to the first one missing, and asks an empty
queue for its top unless one is left. -/
theorem call (ok : Accounts came s) (once : ((came ++ [msg]).map Message.key).Nodup)
    (small : ∀ m ∈ came ++ [msg], m.bcastSeqNum < 2 ^ 32) :
    ∃ s' items, call (some false) s msg = some s' ∧ Accounts (came ++ [msg]) s' ∧
      s'.handed = s.handed ++ items ∧ (∀ m ∈ items, m.originator = msg.originator) ∧
      call none s msg = if (s'.ordered msg.originator).queue.isEmpty then none else some s' := by
  have last_ : ∀ m ∈ [msg], m.originator = msg.originator := by simp
  have came_ : fromProcess msg.originator (came ++ [msg]) =
      fromProcess msg.originator came ++ [msg] := fromProcess_append_own last_
  obtain ⟨last, items, orders, answered, unanswered⟩ := (ok msg.originator).drain
    (came_ ▸ nodup_bcastSeqNum once)
    (fun m mem => small m (mem_fromProcess.mp (came_ ▸ mem)).1)
  rw [← came_] at orders
  have own : ∀ m ∈ items, m.originator = msg.originator := fun m mem =>
    (mem_fromProcess.mp (orders.split.mem_iff.mpr
      (List.mem_append_left _ (List.mem_append_right _ mem)))).2
  refine ⟨⟨Function.update s.ordered msg.originator last, s.handed ++ items⟩, items, ?_, ?_, rfl,
    own, ?_⟩
  · simp [FifoBroadcast.call, answered]
  · intro o
    by_cases same : o = msg.originator
    · subst same
      simpa [fromProcess_append_own own] using orders
    · simp only [Function.update_of_ne same, fromProcess_append_other own same,
        fromProcess_append_other last_ same]
      exact ok o
  · simp only [FifoBroadcast.call, unanswered, Function.update_self]
    split <;> rfl

end Accounts

theorem calls_concat (ofEmpty : Option Bool) (msgs : List Message) (msg : Message) :
    calls ofEmpty (msgs ++ [msg]) = (calls ofEmpty msgs).bind (FifoBroadcast.call ofEmpty · msg) := by
  simp [calls]

/-- After every call, something of its originator waits for something with a lower number. -/
def Waits (msgs : List Message) : Prop :=
  ∀ past msg, past ++ [msg] <+: msgs → Gapped (past ++ [msg]) msg.originator

theorem waits_concat : Waits (msgs ++ [msg]) ↔
    Waits msgs ∧ Gapped (msgs ++ [msg]) msg.originator := by
  unfold Waits
  constructor
  · exact fun all => ⟨fun past last upTo => all past last (upTo.trans (List.prefix_append _ _)),
      all msgs msg List.prefix_rfl⟩
  · rintro ⟨old, new⟩ past last upTo
    rcases concat_prefix_concat.mp upTo with ⟨rfl, rfl⟩ | upTo
    · exact new
    · exact old past last upTo

/-- Between calls the accounts are kept, and no empty queue has been asked for its top if each call
left something in its queue. -/
theorem calls_ok (once : (msgs.map Message.key).Nodup)
    (small : ∀ msg ∈ msgs, msg.bcastSeqNum < 2 ^ 32) :
    ∃ s, calls (some false) msgs = some s ∧ Accounts msgs s ∧
      (Waits msgs → calls none msgs = some s) ∧ (¬ Waits msgs → calls none msgs = none) := by
  induction msgs using List.reverseRecOn with
  | nil =>
    have waits : Waits [] := fun past msg upTo => by simp at upTo
    exact ⟨{}, rfl, .init, fun _ => rfl, fun not => absurd waits not⟩
  | append_singleton msgs msg ih =>
    obtain ⟨s, run, ok, answered, unanswered⟩ := ih
      (once.sublist ((List.sublist_append_left msgs [msg]).map _))
      (fun m mem => small m (List.mem_append_left _ mem))
    obtain ⟨s', items, called, ok', -, -, strict⟩ := ok.call once small
    have left := ok'.queue_ne_nil_iff once (o := msg.originator)
    refine ⟨s', by rw [calls_concat, run]; exact called, ok', fun waits => ?_, fun stuck => ?_⟩
    · obtain ⟨old, gap⟩ := waits_concat.mp waits
      rw [calls_concat, answered old]
      simpa [left.mpr gap] using strict
    · by_cases old : Waits msgs
      · have dry := mt left.mp fun gap => stuck (waits_concat.mpr ⟨old, gap⟩)
        rw [calls_concat, answered old]
        simpa [not_not.mp dry] using strict
      · rw [calls_concat, unanswered old]
        rfl

/-- **An empty queue is never asked for its top exactly if every call leaves something waiting.** -/
theorem calls_isSome_iff (once : (msgs.map Message.key).Nodup)
    (small : ∀ msg ∈ msgs, msg.bcastSeqNum < 2 ^ 32) :
    (calls none msgs).isSome ↔ ∀ past msg, past ++ [msg] <+: msgs →
      ∃ m ∈ past ++ [msg], m.originator = msg.originator ∧
        ∃ k < m.bcastSeqNum, ∀ m' ∈ past ++ [msg], m'.key ≠ (msg.originator, k) := by
  obtain ⟨s, -, -, answered, unanswered⟩ := calls_ok once small
  constructor
  · intro some_
    by_contra stuck
    rw [unanswered stuck] at some_
    cases some_
  · intro waits
    rw [answered waits]
    rfl

end

/-- The third message of a process comes before the first, and waits for the second when the first
has been handed on. -/
theorem calls_isSome_of_third : (calls none [{ bcastSeqNum := 2 }, {}]).isSome := by
  refine (calls_isSome_iff (by decide) (by simp)).mpr fun past msg upTo => ?_
  have upTo : past ++ [msg] <+: [{ bcastSeqNum := 2 }] ++ [({} : Message)] := upTo
  have third : ({ bcastSeqNum := 2 } : Message) ∈ past ++ [msg] ∧ msg.originator = 0 ∧
      ∀ m ∈ past ++ [msg], m.bcastSeqNum = 2 ∨ m.bcastSeqNum = 0 := by
    rcases concat_prefix_concat.mp upTo with ⟨rfl, rfl⟩ | upTo
    · simp
    · obtain rfl : past = [] := by simpa using upTo.length_le
      obtain rfl : msg = { bcastSeqNum := 2 } := by simpa using upTo
      simp
  obtain ⟨mem, originator, numbers⟩ := third
  refine ⟨_, mem, originator.symm, 1, Nat.one_lt_two, fun m' mem' key => ?_⟩
  have one := congrArg Prod.snd key
  rcases numbers m' mem' with two | zero
  · exact absurd (two.symm.trans one) (Nat.succ_ne_self 1)
  · exact absurd (zero.symm.trans one) Nat.zero_ne_one

/-- The first message of a process is handed on, and the queue it leaves empty asked for its top. -/
theorem calls_first : calls none [{}] = none := by
  obtain ⟨s, -, -, -, unanswered⟩ := @calls_ok [{}] (by decide) (by simp)
  refine unanswered fun waits => ?_
  obtain ⟨m, mem, -, k, low, -⟩ := waits [] {} List.prefix_rfl
  obtain rfl := List.mem_singleton.mp mem
  cases low

end FifoBroadcast

/-! ## Localized causal broadcast without dependencies -/

namespace LocalizedCausalBroadcast

variable {cfg : Config} {came msgs : List Message} {s : Observed} {it o : Nat} {msg : Message}

theorem canDeliver_iff (alone : ∀ i, cfg.depends i = []) (lcb : LocalizedCausalBroadcast) :
    lcb.canDeliver cfg msg ↔ msg.bcastSeqNum ≤ lcb.currentClock msg.originator := by
  simp [canDeliver, alone]

/-- Where only messages of process `o` can be delivered, only these are handed on. -/
theorem drain_own (alone : ∀ i, cfg.depends i = []) (once : (came.map Message.key).Nodup)
    (ok : Accounts cfg came s) (it : Nat)
    (others : ∀ o' ≠ o, ∀ m, (s.lcb.pending o').top = some m → ¬ s.lcb.canDeliver cfg m) :
    ∃ items, (drain cfg it s).handed = s.handed ++ items ∧ ∀ m ∈ items, m.originator = o := by
  fun_induction LocalizedCausalBroadcast.drain cfg it s with
  | case1 it s inside msg top ready ih =>
    obtain rfl : it = o := by
      by_contra other
      exact others it other msg top ready
    have own := (ok.came_of_pending (BroadcastMessageHeap.mem_of_top top)).2
    obtain ⟨items, handed, all⟩ := ih (ok.hand once top ready) fun o' other m top' => by
      -- neither the heap nor the clock of another process changed
      have top' : (s.lcb.pending o').top = some m := by
        simpa [Observed.hand, Function.update_of_ne other] using top'
      have own' := (ok.came_of_pending (BroadcastMessageHeap.mem_of_top top')).2
      have stuck := others o' other m top'
      rw [canDeliver_iff alone, own'] at stuck ⊢
      simpa [Observed.hand, own, Function.update_of_ne other] using stuck
    refine ⟨msg :: items, ?_, List.forall_mem_cons.mpr ⟨own, all⟩⟩
    rw [handed]
    simp [Observed.hand]
  | case2 it s inside msg top waits ih => exact ih ok others
  | case3 it s inside top ih => exact ih ok others
  | case4 it s outside => exact ⟨[], (List.append_nil _).symm, List.forall_mem_nil _⟩

/-- A call hands on messages of its originator. -/
theorem call_own (alone : ∀ i, cfg.depends i = [])
    (once : ((msgs ++ [msg]).map Message.key).Nodup)
    (inside : ∀ m ∈ msgs, m.originator < cfg.numProcesses) :
    ∃ items, (calls cfg (msgs ++ [msg])).handed = (calls cfg msgs).handed ++ items ∧
      ∀ m ∈ items, m.originator = msg.originator := by
  obtain ⟨ok, blocked⟩ := calls_ok cfg (once.sublist ((List.sublist_append_left msgs [msg]).map _))
  rw [calls_concat]
  refine drain_own alone once (ok.push msg) 0 fun o' other m top ready => ?_
  have top : ((calls cfg msgs).lcb.pending o').top = some m := by
    simpa [deliver, Function.update_of_ne other] using top
  obtain ⟨mem, own⟩ := ok.came_of_pending (BroadcastMessageHeap.mem_of_top top)
  have stuck := blocked o' (own ▸ inside m mem) m top
  have low := (canDeliver_iff alone _).mp ready
  have ready : (calls cfg msgs).lcb.canDeliver cfg m := (canDeliver_iff alone _).mpr low
  rw [stuck] at ready
  cases ready

/-- Where no process depends on another, what is next of a process did not come. -/
theorem Accounts.gapFree (alone : ∀ i, cfg.depends i = []) (ok : Accounts cfg came s)
    (once : (came.map Message.key).Nodup) (blocked : s.Blocked cfg cfg.numProcesses)
    (inside : ∀ m ∈ came, m.originator < cfg.numProcesses)
    (small : ∀ m ∈ came, m.bcastSeqNum < 2 ^ 32) : GapFree came s.handed where
  among m mem := ok.came_of_handed mem
  numbers := ok.numbers
  missing o m mem key := by
    have own : m.originator = o := congrArg Prod.fst key
    have number : m.bcastSeqNum = s.count o := congrArg Prod.snd key
    rcases ok.handed_or_pending mem with handed | waits
    · have low := ok.exists_handed_iff.mp ⟨m, handed, key⟩
      exact Nat.lt_irrefl _ low
    · have stuck := canDeliver_eq_false ok once blocked (inside m mem) waits
      have clock : s.lcb.currentClock o = m.bcastSeqNum := by
        rw [ok.clock, ← number, Nat.mod_eq_of_lt (small m mem)]
      have ready : s.lcb.canDeliver cfg m := (canDeliver_iff alone _).mpr (own ▸ clock.ge)
      rw [stuck] at ready
      cases ready

end LocalizedCausalBroadcast

/-! ## The two agree -/

/-- A message that URB delivers where no process depends on another. -/
structure Plain (cfg : Config) (msg : Message) : Prop where
  inside : msg.originator < cfg.numProcesses
  small : msg.bcastSeqNum < 2 ^ 32
  unstamped : msg.vectorClock = []

section
variable {cfg : Config} {msgs : List Message}

theorem calls_agree (alone : ∀ i, cfg.depends i = []) (once : (msgs.map Message.key).Nodup)
    (plain : ∀ msg ∈ msgs, Plain cfg msg) :
    ∃ s, FifoBroadcast.calls (some false) msgs = some s ∧ FifoBroadcast.Accounts msgs s ∧
      s.handed = (LocalizedCausalBroadcast.calls cfg msgs).handed := by
  induction msgs using List.reverseRecOn with
  | nil => exact ⟨{}, rfl, .init, rfl⟩
  | append_singleton msgs msg ih =>
    have plain' : ∀ m ∈ msgs, Plain cfg m := fun m mem => plain m (List.mem_append_left _ mem)
    obtain ⟨s, run, ok, same⟩ := ih
      (once.sublist ((List.sublist_append_left msgs [msg]).map _)) plain'
    obtain ⟨s', items, called, ok', handed, own, -⟩ := ok.call once fun m mem => (plain m mem).small
    obtain ⟨items', handed', own'⟩ := LocalizedCausalBroadcast.call_own alone once
      fun m mem => (plain' m mem).inside
    obtain ⟨accounts, blocked⟩ := LocalizedCausalBroadcast.calls_ok cfg once
    have gapFree := accounts.gapFree alone once blocked (fun m mem => (plain m mem).inside)
      fun m mem => (plain m mem).small
    -- both hand on the same messages of the originator
    have items_eq : items = items' := by
      have unique := GapFree.unique once ok'.gapFree gapFree (o := msg.originator)
      rw [handed, handed', same, fromProcess_append_own own, fromProcess_append_own own'] at unique
      exact List.append_cancel_left unique
    refine ⟨s', ?_, ok', by rw [handed, handed', same, items_eq]⟩
    rw [FifoBroadcast.calls_concat, run]
    exact called

/-- **FIFO broadcast is causal broadcast without dependencies**: after every call both have handed on
the same messages in the same order, of each process those that came up to the first one missing. -/
theorem fifo_eq_causal (alone : ∀ i, cfg.depends i = []) (once : (msgs.map Message.key).Nodup)
    (plain : ∀ msg ∈ msgs, Plain cfg msg) :
    ∀ before, before <+: msgs → ∃ s, FifoBroadcast.calls (some false) before = some s ∧
      s.handed = (LocalizedCausalBroadcast.calls cfg before).handed ∧
      ∀ o, ∃ n, (fromProcess o s.handed).map Message.bcastSeqNum = List.range n ∧
        (∀ msg ∈ s.handed, msg ∈ before) ∧ ∀ msg ∈ before, msg.key ≠ (o, n) := by
  intro before upTo
  obtain ⟨s, run, ok, same⟩ := calls_agree alone (once.sublist (upTo.sublist.map _))
    fun m mem => plain m (upTo.subset mem)
  exact ⟨s, run, same, fun o =>
    ⟨_, ok.gapFree.numbers o, ok.gapFree.among, ok.gapFree.missing o⟩⟩

end

/-- Two messages of a process that come in the wrong order. -/
theorem fifo_eq_causal_of_swap : ∃ s,
    FifoBroadcast.calls (some false) [{ bcastSeqNum := 1 }, {}] = some s ∧
      s.handed = (LocalizedCausalBroadcast.calls triangle [{ bcastSeqNum := 1 }, {}]).handed := by
  have plain : ∀ msg ∈ [({ bcastSeqNum := 1 } : Message), {}], Plain triangle msg := by
    intro msg mem
    rcases List.mem_pair.mp mem with rfl | rfl <;>
      exact ⟨by decide, by decide, rfl⟩
  obtain ⟨s, run, same, -⟩ := fifo_eq_causal (fun _ => rfl) (by decide) plain _ List.prefix_rfl
  exact ⟨s, run, same⟩

end CausalBroadcast
