import Mathlib.Data.Int.Notation
import Mathlib.Data.List.AList
import Mathlib.Logic.Function.Basic
import CausalBroadcast.Async.History

/-!
# The validator of localized causal broadcast

`LCausalBroadcastValidation`, over log files whose lines are already taken apart. A check of a process
reads its log once, for the order of its lines and what each broadcast depends on, and then the log
of every other process, for what came before the deliveries of these broadcasts.
-/

namespace CausalBroadcast

open Async

/-- `range(1, n + 1)`. -/
def upTo (n : Nat) : List Int := (List.range n).map fun i : Nat => (i : Int) + 1

/-- A line of a log file. -/
inductive LogLine where
  /-- `b msg` -/
  | b (msg : Int)
  /-- `d sender msg` -/
  | d (sender msg : Int)
  deriving DecidableEq

namespace LogLine

/-- The message a line says is broadcast, if it does. -/
@[simp] def broadcast : LogLine → Option Int
  | .b msg => some msg
  | .d .. => none

/-- The message of `sender` a line says is delivered, if it does. -/
@[simp] def delivery (sender : Int) : LogLine → Option Int
  | .b _ => none
  | .d sender' msg => if sender' = sender then some msg else none

end LogLine

/-- A `dict` with numbers for keys. -/
abbrev Dict (V : Type) := AList fun _ : Int => V

/-- A validation: the number of processes, the dependencies of each, and its log. -/
structure LCausalBroadcastValidation where
  processes : Nat
  /-- a `defaultdict(list)` -/
  dependencies : Int → List Int
  logs : Int → List LogLine

namespace LCausalBroadcastValidation

/-- The variables of `createMessageDependencies`. The two `defaultdict`s are functions. -/
structure Scan where
  i : Int := 1
  nextMessage : Int → Int := fun _ => 1
  messageDeps : Dict (Dict Int) := ∅
  vectorClock : Dict Int := ∅

/-- One line in `createMessageDependencies`: `none` where it returns `False`. -/
def Scan.line (myDependencies : List Int) (s : Scan) : LogLine → Option Scan
  | .b msg =>
    if msg ≠ s.i then none
    else some { s with messageDeps := s.messageDeps.insert msg s.vectorClock, i := s.i + 1 }
  | .d sender msg =>
    if msg ≠ s.nextMessage sender then none
    else some { s with
      nextMessage := Function.update s.nextMessage sender (s.nextMessage sender + 1)
      vectorClock :=
        if sender ∈ myDependencies then s.vectorClock.insert sender msg else s.vectorClock }

/-- `createMessageDependencies`: `none` where it returns `False`. -/
def createMessageDependencies (v : LCausalBroadcastValidation) (pid : Int) :
    Option (Dict (Dict Int)) :=
  ((v.logs pid).foldlM (Scan.line (v.dependencies pid)) {}).map Scan.messageDeps

/-- How `checkProcess` ends without returning `True`. -/
inductive Stop where
  /-- it returns `False` -/
  | refused
  /-- `deps[msg]` raises a `KeyError` -/
  | raised
  deriving DecidableEq

/-- One line of another process's log in `checkProcess`. -/
def checkLine (deps : Dict (Dict Int)) (pid : Int) (received : Int → Int) :
    LogLine → Except Stop (Int → Int)
  | .b _ => .ok received
  | .d sender msg =>
    if sender = pid then
      match deps.lookup msg with
      | none => .error .raised
      | some clock =>
        if clock.entries.any fun ⟨p, num⟩ => num > received p then .error .refused
        else .ok (Function.update received sender msg)
    else .ok (Function.update received sender msg)

/-- The log of one other process in `checkProcess`. -/
def checkLog (deps : Dict (Dict Int)) (pid : Int) (log : List LogLine) :
    Except Stop (Int → Int) :=
  log.foldlM (checkLine deps pid) fun _ => 0

/-- `range(1, self.processes + 1)`. -/
def pids (v : LCausalBroadcastValidation) : List Int := upTo v.processes

/-- `checkProcess`. -/
def checkProcess (v : LCausalBroadcastValidation) (pid : Int) : Except Stop Unit :=
  match v.createMessageDependencies pid with
  | none => .error .refused
  | some deps => v.pids.forM fun process =>
    if process = pid then .ok () else (checkLog deps pid (v.logs process)).map fun _ => ()

/-- The loop of `checkAll`: `none` where an exception is raised. -/
def checkPids (v : LCausalBroadcastValidation) (continueOnError ok : Bool) :
    List Int → Option Bool
  | [] => some ok
  | pid :: pids =>
    match v.checkProcess pid with
    | .ok _ => checkPids v continueOnError ok pids
    | .error .refused => if continueOnError then checkPids v continueOnError false pids else some false
    | .error .raised => none

/-- `checkAll`. -/
def checkAll (v : LCausalBroadcastValidation) (continueOnError : Bool) : Option Bool :=
  v.checkPids continueOnError true v.pids

/-! ## What an accepted log is like -/

section
variable {n : Nat} {k : Int} {l l' : List Int}

theorem upTo_succ (n : Nat) : upTo (n + 1) = upTo n ++ [(n : Int) + 1] := by
  rw [upTo, List.range_succ, List.map_append]
  rfl

@[simp] theorem length_upTo (n : Nat) : (upTo n).length = n := by simp [upTo]

theorem mem_upTo : k ∈ upTo n ↔ 1 ≤ k ∧ k ≤ n := by
  unfold upTo
  rw [List.mem_map]
  constructor
  · rintro ⟨i, below, rfl⟩
    have := List.mem_range.mp below
    omega
  · rintro ⟨low, high⟩
    exact ⟨(k - 1).toNat, List.mem_range.mpr (by omega), by omega⟩

theorem nodup_upTo (n : Nat) : (upTo n).Nodup :=
  List.nodup_range.map fun i j same => by
    have same : (i : Int) + 1 = j + 1 := same
    omega

/-- The beginning of such a list is one. -/
theorem eq_upTo_of_append (parts : l ++ l' = upTo n) : l = upTo l.length := by
  have size : l.length ≤ n := by
    have := congrArg List.length parts
    rw [List.length_append, length_upTo] at this
    omega
  have first := congrArg (List.take l.length) parts
  rw [List.take_left, upTo, ← List.map_take, List.take_range, Nat.min_eq_left size] at first
  exact first

end

section
variable {sender msg : Int} {log : List LogLine}

theorem mem_broadcasts : msg ∈ log.filterMap LogLine.broadcast ↔ .b msg ∈ log := by
  rw [List.mem_filterMap]
  constructor
  · rintro ⟨line, mem, read⟩
    cases line with
    | b k => cases read; exact mem
    | d z k => cases read
  · exact fun mem => ⟨_, mem, rfl⟩

theorem mem_deliveries : msg ∈ log.filterMap (LogLine.delivery sender) ↔ .d sender msg ∈ log := by
  rw [List.mem_filterMap]
  constructor
  · rintro ⟨line, mem, read⟩
    cases line with
    | b k => cases read
    | d z k =>
      obtain ⟨rfl, rfl⟩ : z = sender ∧ k = msg := by simpa using read
      exact mem
  · exact fun mem => ⟨_, mem, by simp⟩

end

/-- The broadcasts of a log are numbered from 1, and so are the deliveries from each sender. -/
structure Ordered (log : List LogLine) : Prop where
  broadcasts : ∃ n, log.filterMap LogLine.broadcast = upTo n
  deliveries : ∀ sender, ∃ n, log.filterMap (LogLine.delivery sender) = upTo n

namespace Ordered

variable {log before before' : List LogLine} {sender msg num : Int}

theorem of_prefix (ordered : Ordered log) (upTo_ : before <+: log) : Ordered before := by
  obtain ⟨rest, rfl⟩ := upTo_
  constructor
  · obtain ⟨n, all⟩ := ordered.broadcasts
    rw [List.filterMap_append] at all
    exact ⟨_, eq_upTo_of_append all⟩
  · intro sender
    obtain ⟨n, all⟩ := ordered.deliveries sender
    rw [List.filterMap_append] at all
    exact ⟨_, eq_upTo_of_append all⟩

/-- Before a delivery come those of lower numbers. -/
theorem mem_of_le (ordered : Ordered log) (mem : .d sender msg ∈ log) (low : 1 ≤ num)
    (high : num ≤ msg) : .d sender num ∈ log := by
  obtain ⟨n, all⟩ := ordered.deliveries sender
  rw [← mem_deliveries, all, mem_upTo] at mem ⊢
  omega

theorem one_le (ordered : Ordered log) (mem : .d sender msg ∈ log) : 1 ≤ msg := by
  obtain ⟨n, all⟩ := ordered.deliveries sender
  rw [← mem_deliveries, all, mem_upTo] at mem
  exact mem.1

/-- A broadcast is at one place. -/
theorem eq_of_prefix (ordered : Ordered log) (one : before ++ [.b msg] <+: log)
    (other : before' ++ [.b msg] <+: log) : before = before' := by
  have first : ∀ {l}, l ++ [.b msg] <+: log → .b msg ∉ l := by
    intro l upTo_ mem
    obtain ⟨n, all⟩ := (ordered.of_prefix upTo_).broadcasts
    rw [List.filterMap_append] at all
    have once := all ▸ nodup_upTo n
    exact (List.nodup_append.mp once).2.2 msg (mem_broadcasts.mpr mem) msg
      (by simp) rfl
  rcases List.prefix_or_prefix_of_prefix one other with within | within
  · rcases concat_prefix_concat.mp within with ⟨same, -⟩ | within
    · exact same
    · exact absurd (within.subset (by simp)) (first other)
  · rcases concat_prefix_concat.mp within with ⟨same, -⟩ | within
    · exact same.symm
    · exact absurd (within.subset (by simp)) (first one)

end Ordered

/-- A clock has as high a number as every delivery so far from a dependency. -/
def Covers (myDependencies : List Int) (past : List LogLine) (clock : Dict Int) : Prop :=
  ∀ z ∈ myDependencies, ∀ num, .d z num ∈ past → ∃ last, clock.lookup z = some last ∧ num ≤ last

/-- What `createMessageDependencies` has after the lines of `past`. -/
structure Scanned (myDependencies : List Int) (past : List LogLine) (s : Scan) : Prop where
  broadcasts : ∃ n : Nat, past.filterMap LogLine.broadcast = upTo n ∧ s.i = n + 1
  deliveries : ∀ sender, ∃ n : Nat,
    past.filterMap (LogLine.delivery sender) = upTo n ∧ s.nextMessage sender = n + 1
  clock : Covers myDependencies past s.vectorClock
  snapshots : ∀ before k, before ++ [.b k] <+: past →
    ∃ clock, s.messageDeps.lookup k = some clock ∧ Covers myDependencies before clock

namespace Scanned

variable {myDependencies : List Int} {past : List LogLine} {s s' : Scan} {line : LogLine}

theorem init (myDependencies : List Int) : Scanned myDependencies [] {} where
  broadcasts := ⟨0, rfl, rfl⟩
  deliveries _ := ⟨0, rfl, rfl⟩
  clock _ _ _ mem := by cases mem
  snapshots before k upTo_ := by simp at upTo_

/-- A broadcast has the next number, and depends on what was delivered so far. -/
theorem broadcast (scanned : Scanned myDependencies past s) {msg : Int}
    (read : s.line myDependencies (.b msg) = some s') :
    Scanned myDependencies (past ++ [.b msg]) s' := by
  obtain ⟨next, read⟩ := Option.ite_none_left_eq_some.mp read
  rw [not_not] at next
  obtain rfl := Option.some.inj read
  obtain ⟨n, all, i⟩ := scanned.broadcasts
  exact {
    broadcasts := ⟨n + 1, by simp [List.filterMap_append, all, upTo_succ, next, i], by simp [i]⟩
    deliveries := fun sender => by simpa [List.filterMap_cons] using scanned.deliveries sender
    clock := fun z dep num mem => scanned.clock z dep num (by simpa using mem)
    snapshots := fun before k upTo_ => by
      rcases concat_prefix_concat.mp upTo_ with ⟨rfl, same⟩ | old
      · obtain rfl := LogLine.b.inj same
        exact ⟨s.vectorClock, AList.lookup_insert _, scanned.clock⟩
      · have mem : k ∈ past.filterMap LogLine.broadcast :=
          mem_broadcasts.mpr (old.subset (by simp))
        rw [all, mem_upTo] at mem
        rw [AList.lookup_insert_ne (by omega)]
        exact scanned.snapshots before k old }

/-- A delivery has the next number of its sender, which is the highest so far. -/
theorem delivery (scanned : Scanned myDependencies past s) {sender msg : Int}
    (read : s.line myDependencies (.d sender msg) = some s') :
    Scanned myDependencies (past ++ [.d sender msg]) s' := by
  obtain ⟨next, read⟩ := Option.ite_none_left_eq_some.mp read
  rw [not_not] at next
  obtain rfl := Option.some.inj read
  obtain ⟨n, all, count⟩ := scanned.deliveries sender
  exact {
    broadcasts := by simpa [List.filterMap_cons] using scanned.broadcasts
    deliveries := fun z => by
      by_cases same : z = sender
      · subst same
        exact ⟨n + 1, by simp [List.filterMap_append, all, upTo_succ, next, count], by
          simp [count]⟩
      · simpa [Function.update_of_ne same, Ne.symm same] using scanned.deliveries z
    clock := fun z dep num mem => by
      have listed : .d z num ∈ past ∨ z = sender ∧ num = msg := by simpa using mem
      by_cases same : z = sender
      · subst same
        refine ⟨msg, by simp [dep], ?_⟩
        rcases listed with old | ⟨-, rfl⟩
        · rw [← mem_deliveries, all, mem_upTo] at old
          omega
        · exact Int.le_refl _
      · obtain ⟨last, found, high⟩ := scanned.clock z dep num
          (listed.resolve_right fun new => same new.1)
        refine ⟨last, ?_, high⟩
        dsimp only
        split
        · rwa [AList.lookup_insert_ne same]
        · exact found
    snapshots := fun before k upTo_ => by
      rcases concat_prefix_concat.mp upTo_ with ⟨-, same⟩ | old
      · cases same
      · exact scanned.snapshots before k old }

theorem step (scanned : Scanned myDependencies past s)
    (read : s.line myDependencies line = some s') :
    Scanned myDependencies (past ++ [line]) s' := by
  cases line with
  | b msg => exact scanned.broadcast read
  | d sender msg => exact scanned.delivery read

theorem foldlM {log : List LogLine} (read : log.foldlM (Scan.line myDependencies) {} = some s) :
    Scanned myDependencies log s := by
  induction log using List.reverseRecOn generalizing s with
  | nil =>
    obtain rfl := Option.some.inj read
    exact init myDependencies
  | append_singleton log e ih =>
    rw [List.foldlM_append] at read
    obtain ⟨before, first, last⟩ := Option.bind_eq_some_iff.mp read
    exact (ih first).step (by simpa using last)

theorem ordered (scanned : Scanned myDependencies past s) : Ordered past where
  broadcasts := scanned.broadcasts.imp fun _ => And.left
  deliveries sender := (scanned.deliveries sender).imp fun _ => And.left

end Scanned

/-- What `createMessageDependencies` finds. -/
structure Found (v : LCausalBroadcastValidation) (pid : Int) (deps : Dict (Dict Int)) : Prop where
  ordered : Ordered (v.logs pid)
  snapshots : ∀ before k, before ++ [.b k] <+: v.logs pid →
    ∃ clock, deps.lookup k = some clock ∧ Covers (v.dependencies pid) before clock

variable {v : LCausalBroadcastValidation} {pid : Int} {deps : Dict (Dict Int)}

theorem found_of_createMessageDependencies
    (created : v.createMessageDependencies pid = some deps) : Found v pid deps := by
  obtain ⟨s, read, rfl⟩ := Option.map_eq_some_iff.mp created
  have scanned := Scanned.foldlM read
  exact ⟨scanned.ordered, scanned.snapshots⟩

/-! ## What the other logs are like -/

/-- What `checkProcess` has after the lines of `past`, in a log where deliveries are in order: `received`
has the last number of each sender, and a broadcast of `pid` came after what it depends on. -/
structure Checked (deps : Dict (Dict Int)) (pid : Int) (past : List LogLine) (received : Int → Int) :
    Prop where
  received : ∀ z num, 1 ≤ num → num ≤ received z → .d z num ∈ past
  respected : ∀ before msg, before ++ [.d pid msg] <+: past → ∃ clock,
    deps.lookup msg = some clock ∧ ∀ z last, clock.lookup z = some last →
      ∀ num, 1 ≤ num → num ≤ last → .d z num ∈ before

namespace Checked

variable {past log : List LogLine} {received received' : Int → Int} {e : LogLine}

theorem init (deps : Dict (Dict Int)) (pid : Int) : Checked deps pid [] fun _ => 0 where
  received z num low high := by omega
  respected before msg upTo_ := by simp at upTo_

/-- After a delivery its number is the last one. -/
theorem deliver (checked : Checked deps pid past received) {sender msg : Int}
    (ordered : Ordered (past ++ [.d sender msg]))
    (respected : sender = pid → ∃ clock, deps.lookup msg = some clock ∧
      ∀ z last, clock.lookup z = some last → last ≤ received z) :
    Checked deps pid (past ++ [.d sender msg]) (Function.update received sender msg) where
  received z num low high := by
    by_cases same : z = sender
    · subst same
      rw [Function.update_self] at high
      exact ordered.mem_of_le (List.mem_append_right _ (List.mem_singleton_self _)) low high
    · rw [Function.update_of_ne same] at high
      exact List.mem_append_left _ (checked.received z num low high)
  respected before k upTo_ := by
    rcases concat_prefix_concat.mp upTo_ with ⟨rfl, same⟩ | old
    · obtain ⟨rfl, rfl⟩ := LogLine.d.inj same
      obtain ⟨clock, found, low⟩ := respected rfl
      exact ⟨clock, found, fun z last at_ num one high =>
        checked.received z num one (Int.le_trans high (low z last at_))⟩
    · exact checked.respected before k old

theorem step (checked : Checked deps pid past received) (ordered : Ordered (past ++ [e]))
    (passed : checkLine deps pid received e = .ok received') :
    Checked deps pid (past ++ [e]) received' := by
  cases e with
  | b msg =>
    obtain rfl := Except.ok.inj passed
    refine ⟨fun z num low high => List.mem_append_left _ (checked.received z num low high),
      fun before k upTo_ => ?_⟩
    rcases concat_prefix_concat.mp upTo_ with ⟨-, same⟩ | old
    · cases same
    · exact checked.respected before k old
  | d sender msg =>
    simp only [checkLine] at passed
    split at passed
    next own =>
      split at passed
      · cases passed
      next clock found =>
        split at passed
        · cases passed
        next fine =>
          obtain rfl := Except.ok.inj passed
          refine checked.deliver ordered fun _ => ⟨clock, found, fun z last at_ => ?_⟩
          by_contra high
          refine fine (List.any_eq_true.mpr ⟨⟨z, last⟩, AList.mem_lookup_iff.mp at_, ?_⟩)
          exact decide_eq_true (Int.not_le.mp high)
    next other =>
      obtain rfl := Except.ok.inj passed
      exact checked.deliver ordered fun own => absurd own other

theorem of_checkLog (ordered : Ordered log) (passed : checkLog deps pid log = .ok received) :
    Checked deps pid log received := by
  induction log using List.reverseRecOn generalizing received with
  | nil =>
    obtain rfl := Except.ok.inj passed
    exact init deps pid
  | append_singleton log e ih =>
    unfold checkLog at passed
    rw [List.foldlM_append] at passed
    cases first : log.foldlM (checkLine deps pid) fun _ => 0 with
    | error stop =>
      rw [first] at passed
      cases passed
    | ok before =>
      rw [first] at passed
      have passed : checkLine deps pid before e >>= pure = .ok received := passed
      rw [bind_pure] at passed
      exact (ih (ordered.of_prefix (List.prefix_append _ _)) first).step ordered passed

end Checked

/-! ## What an accepted run is like -/

theorem forM_ok {f : Int → Except Stop Unit} {l : List Int} (passed : l.forM f = .ok ()) :
    ∀ x ∈ l, f x = .ok () := by
  induction l with
  | nil => exact List.forall_mem_nil _
  | cons x l ih =>
    have passed : (f x >>= fun _ => l.forM f) = .ok () := passed
    cases first : f x with
    | error stop =>
      rw [first] at passed
      cases passed
    | ok =>
      rw [first] at passed
      exact List.forall_mem_cons.mpr ⟨first, ih passed⟩

/-- A process passes if its own log is in order, and every other log respects what its broadcasts
depend on. -/
theorem exists_of_checkProcess (passed : v.checkProcess pid = .ok ()) : ∃ deps, Found v pid deps ∧
    ∀ process ∈ v.pids, process ≠ pid → ∃ received,
      checkLog deps pid (v.logs process) = .ok received := by
  unfold checkProcess at passed
  split at passed
  · cases passed
  next deps created =>
    refine ⟨deps, found_of_createMessageDependencies created, fun process mem other => ?_⟩
    have one := forM_ok passed process mem
    rw [if_neg other] at one
    cases result : checkLog deps pid (v.logs process) with
    | error stop =>
      rw [result] at one
      cases one
    | ok received => exact ⟨received, rfl⟩

theorem checkProcess_of_checkPids {continueOnError ok : Bool} {pids : List Int}
    (accepted : v.checkPids continueOnError ok pids = some true) :
    ok = true ∧ ∀ pid ∈ pids, v.checkProcess pid = .ok () := by
  induction pids generalizing ok with
  | nil => exact ⟨Option.some.inj accepted, List.forall_mem_nil _⟩
  | cons pid pids ih =>
    unfold checkPids at accepted
    split at accepted
    next passed =>
      obtain ⟨fine, others⟩ := ih accepted
      exact ⟨fine, List.forall_mem_cons.mpr ⟨passed, others⟩⟩
    next refused =>
      split at accepted
      · cases (ih accepted).1
      · cases accepted
    next raised => cases accepted

/-- `e` is at a place before `e'` in a log. -/
def Precedes (log : List LogLine) (e e' : LogLine) : Prop :=
  ∃ before, before ++ [e'] <+: log ∧ e ∈ before

/-- **The validator is sound**: in a run it accepts, the lines of every log are in order; and each
delivery of a message of process `x` comes after the deliveries that `x` made from its dependencies
before it broadcast the message, unless it is in the log of `x` itself, before the broadcast. -/
theorem sound (v : LCausalBroadcastValidation) (continueOnError : Bool)
    (accepted : v.checkAll continueOnError = some true) :
    (∀ q ∈ v.pids, ∀ x ∈ v.pids, ∀ k before, before ++ [.d x k] <+: v.logs q →
      (q = x → .b k ∈ v.logs x → .b k ∈ before) →
      ∀ z ∈ v.dependencies x, ∀ s, Precedes (v.logs x) (.d z s) (.b k) → .d z s ∈ before) ∧
    ∀ q ∈ v.pids, (∃ n, (v.logs q).filterMap LogLine.broadcast = upTo n) ∧
      ∀ sender, ∃ n, (v.logs q).filterMap (LogLine.delivery sender) = upTo n := by
  have passed := (checkProcess_of_checkPids accepted).2
  have ordered : ∀ q ∈ v.pids, Ordered (v.logs q) := fun q listed =>
    let ⟨_, found, _⟩ := exists_of_checkProcess (passed q listed)
    found.ordered
  refine ⟨?_, fun q listed => ⟨(ordered q listed).broadcasts, (ordered q listed).deliveries⟩⟩
  intro q listed x listed' k before delivered own z dep s ⟨past, broadcast, mem⟩
  obtain ⟨deps, found, others⟩ := exists_of_checkProcess (passed x listed')
  by_cases same : q = x
  · subst same
    -- the broadcast comes first, and at one place
    have first := own rfl (broadcast.subset (by simp))
    obtain ⟨past', rest, parts⟩ := List.append_of_mem first
    have upTo_ : past' ++ [.b k] <+: v.logs q := by
      refine List.IsPrefix.trans ?_ delivered
      rw [parts]
      exact ⟨rest ++ [.d q k], by simp⟩
    rw [found.ordered.eq_of_prefix broadcast upTo_] at mem
    rw [parts]
    exact List.mem_append_left _ mem
  · obtain ⟨received, log⟩ := others q listed same
    obtain ⟨clock, at_, all⟩ := (Checked.of_checkLog (ordered q listed) log).respected _ _ delivered
    obtain ⟨clock', at', covers⟩ := found.snapshots past k broadcast
    obtain rfl := Option.some.inj (at_.symm.trans at')
    obtain ⟨last, recorded, high⟩ := covers z dep s mem
    have delivered' : .d z s ∈ v.logs x :=
      broadcast.subset (List.mem_append_left _ mem)
    exact all z last recorded s (found.ordered.one_le delivered') high

/-- Two processes, the first of which depends on the second. -/
def pair (first second : List LogLine) : LCausalBroadcastValidation where
  processes := 2
  dependencies x := if x = 1 then [2] else []
  logs q := if q = 1 then first else second

/-- In an accepted run the second process delivers its own message before that of the first, which
depends on it. -/
theorem sound_of_pair :
    let v := pair [.d 2 1, .b 1, .d 1 1] [.b 1, .d 2 1, .d 1 1]
    v.checkAll true = some true ∧ Precedes (v.logs 1) (.d 2 1) (.b 1) ∧
      ∀ before, before ++ [.d 1 1] <+: v.logs 2 → .d 2 1 ∈ before := by
  intro v
  have accepted : v.checkAll true = some true := by decide
  have depends : Precedes (v.logs 1) (.d 2 1) (.b 1) := ⟨[.d 2 1], by decide, by decide⟩
  refine ⟨accepted, depends, fun before delivered => ?_⟩
  exact (sound v true accepted).1 2 (by decide) 1 (by decide) 1 before delivered
    (fun same => absurd same (by decide)) 2 (by decide) 1 depends

/-- A log in which a process delivers its message before it broadcasts it is accepted. -/
theorem not_sound_of_own : (pair [.d 1 1, .d 2 1, .b 1] [.b 1, .d 2 1, .d 1 1]).checkAll true =
      some true ∧
    ¬ ∀ q ∈ upTo 2, ∀ x ∈ upTo 2, ∀ k before,
      let v := pair [.d 1 1, .d 2 1, .b 1] [.b 1, .d 2 1, .d 1 1]
      before ++ [.d x k] <+: v.logs q → ∀ z ∈ v.dependencies x, ∀ s,
        Precedes (v.logs x) (.d z s) (.b k) → .d z s ∈ before := by
  refine ⟨by decide, fun all => ?_⟩
  have before := all 1 (by decide) 1 (by decide) 1 [] (by decide) 2 (by decide) 1
    ⟨[.d 1 1, .d 2 1], by decide, by decide⟩
  cases before

end LCausalBroadcastValidation

end CausalBroadcast
