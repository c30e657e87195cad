import CausalBroadcast.Validator

/-!
# What the validator accepts

The other direction of soundness: a run whose logs are in order, and in which each process delivers a
message after the deliveries its originator made from its dependencies before it broadcast the
message, is accepted. So the validator decides this property, and it raises an exception only on a
message that was delivered and is not in the log of its originator.
-/

namespace CausalBroadcast

open Async

namespace LCausalBroadcastValidation

/-! ## What the first scan records -/

/-- A clock has no more than the last deliveries from dependencies. -/
def Records (myDependencies : List Int) (past : List LogLine) (clock : Dict Int) : Prop :=
  ∀ z last, clock.lookup z = some last → z ∈ myDependencies ∧ .d z last ∈ past

theorem Records.append {myDependencies : List Int} {past : List LogLine} {clock : Dict Int}
    (records : Records myDependencies past clock) (more : List LogLine) :
    Records myDependencies (past ++ more) clock := fun z last found =>
  (records z last found).imp_right (List.mem_append_left _)

/-- What `createMessageDependencies` has after the lines of `past` comes from these lines. -/
structure Recorded (myDependencies : List Int) (past : List LogLine) (s : Scan) : Prop where
  clock : Records myDependencies past s.vectorClock
  snapshots : ∀ k clock, s.messageDeps.lookup k = some clock →
    ∃ before, before ++ [.b k] <+: past ∧ Records myDependencies before clock

namespace Recorded

variable {myDependencies : List Int} {past log : List LogLine} {s s' : Scan} {line : LogLine}

theorem step (recorded : Recorded myDependencies past s)
    (read : s.line myDependencies line = some s') :
    Recorded myDependencies (past ++ [line]) s' := by
  cases line with
  | b msg =>
    obtain ⟨-, read⟩ := Option.ite_none_left_eq_some.mp read
    obtain rfl := Option.some.inj read
    refine ⟨recorded.clock.append _, fun k clock found => ?_⟩
    by_cases same : k = msg
    · subst same
      rw [AList.lookup_insert, Option.some.injEq] at found
      exact ⟨past, List.prefix_rfl, found ▸ recorded.clock⟩
    · rw [AList.lookup_insert_ne same] at found
      obtain ⟨before, upTo_, records⟩ := recorded.snapshots k clock found
      exact ⟨before, upTo_.trans (List.prefix_append _ _), records⟩
  | d sender msg =>
    obtain ⟨-, read⟩ := Option.ite_none_left_eq_some.mp read
    obtain rfl := Option.some.inj read
    refine ⟨fun z last found => ?_, fun k clock found => ?_⟩
    · have old := recorded.clock.append [.d sender msg] z last
      dsimp only at found
      split at found
      next dep =>
        by_cases same : z = sender
        · subst same
          rw [AList.lookup_insert, Option.some.injEq] at found
          exact ⟨dep, found ▸ List.mem_append_right _ (List.mem_singleton_self _)⟩
        · exact old (by rwa [AList.lookup_insert_ne same] at found)
      next => exact old found
    · obtain ⟨before, upTo_, records⟩ := recorded.snapshots k clock found
      exact ⟨before, upTo_.trans (List.prefix_append _ _), records⟩

theorem foldlM (read : log.foldlM (Scan.line myDependencies) {} = some s) :
    Recorded myDependencies log s := by
  induction log using List.reverseRecOn generalizing s with
  | nil =>
    obtain rfl := Option.some.inj read
    constructor
    · intro z last found
      cases found
    · intro k clock found
      cases found
  | append_singleton log e ih =>
    rw [List.foldlM_append] at read
    obtain ⟨before, first, last⟩ := Option.bind_eq_some_iff.mp read
    exact (ih first).step (by simpa using last)

end Recorded

/-- One number more of such a list is the next one. -/
theorem eq_of_append_eq_upTo {n m : Nat} {k : Int} (parts : upTo n ++ [k] = upTo m) : k = n + 1 := by
  have size := congrArg List.length parts
  rw [List.length_append, length_upTo, length_upTo, List.length_singleton] at size
  rw [← size, upTo_succ] at parts
  exact List.singleton_inj.mp (List.append_cancel_left parts)

/-- The scan of a log in order does not stop. -/
theorem Ordered.exists_foldlM {log : List LogLine} (ordered : Ordered log)
    (myDependencies : List Int) : ∃ s, log.foldlM (Scan.line myDependencies) {} = some s := by
  induction log using List.reverseRecOn with
  | nil => exact ⟨_, rfl⟩
  | append_singleton log e ih =>
    obtain ⟨s, read⟩ := ih (ordered.of_prefix (List.prefix_append _ _))
    have scanned := Scanned.foldlM read
    obtain ⟨s', next⟩ : ∃ s', s.line myDependencies e = some s' := by
      cases e with
      | b msg =>
        obtain ⟨n, all, i⟩ := scanned.broadcasts
        obtain ⟨m, more⟩ := ordered.broadcasts
        rw [List.filterMap_append, all] at more
        have last : msg = s.i := (eq_of_append_eq_upTo more).trans i.symm
        exact ⟨_, if_neg (not_not.mpr last)⟩
      | d sender msg =>
        obtain ⟨n, all, count⟩ := scanned.deliveries sender
        obtain ⟨m, more⟩ := ordered.deliveries sender
        rw [List.filterMap_append, all, List.filterMap_cons_some (b := msg) (by simp)] at more
        have last : msg = s.nextMessage sender := (eq_of_append_eq_upTo more).trans count.symm
        exact ⟨_, if_neg (not_not.mpr last)⟩
    exact ⟨s', by simp [List.foldlM_append, read, next]⟩

/-! ## The other logs -/

/-- Each delivery of a message of `x` in the log of `q` comes after the deliveries that `x` made from
its dependencies before it broadcast the message. -/
def Respects (v : LCausalBroadcastValidation) (x q : Int) : Prop :=
  ∀ before k, before ++ [.d x k] <+: v.logs q → ∃ past, past ++ [.b k] <+: v.logs x ∧
    ∀ z ∈ v.dependencies x, ∀ s, .d z s ∈ past → .d z s ∈ before

variable {v : LCausalBroadcastValidation} {x q : Int} {deps : Dict (Dict Int)}

/-- A log in which the deliveries of `pid` come after what `deps` says of them passes, and what
`checkProcess` has at its end is above everything delivered. -/
theorem exists_checkLog {log : List LogLine} {pid : Int} (ordered : Ordered log)
    (respected : ∀ before k, before ++ [.d pid k] <+: log → ∃ clock,
      deps.lookup k = some clock ∧ ∀ z last, clock.lookup z = some last → .d z last ∈ before) :
    ∃ received, checkLog deps pid log = .ok received ∧
      ∀ z num, .d z num ∈ log → num ≤ received z := by
  induction log using List.reverseRecOn with
  | nil => exact ⟨_, rfl, fun z num mem => by cases mem⟩
  | append_singleton log e ih =>
    obtain ⟨received, passed, above⟩ := ih (ordered.of_prefix (List.prefix_append _ _))
      fun before k upTo_ => respected before k (upTo_.trans (List.prefix_append _ _))
    have next : ∀ received', checkLine deps pid received e = .ok received' →
        checkLog deps pid (log ++ [e]) = .ok received' := by
      intro received' line
      unfold checkLog at passed ⊢
      rw [List.foldlM_append, passed]
      show checkLine deps pid received e >>= pure = .ok received'
      rw [line]
      rfl
    cases e with
    | b msg =>
      refine ⟨received, next received rfl, fun z num mem => above z num ?_⟩
      simpa using mem
    | d sender msg =>
      refine ⟨Function.update received sender msg, next _ ?_, fun z num mem => ?_⟩
      · simp only [checkLine]
        split
        next own =>
          subst own
          obtain ⟨clock, found, past⟩ := respected log msg List.prefix_rfl
          have fine : ∀ entry ∈ clock.entries, entry.2 ≤ received entry.1 := fun entry listed =>
            above _ _ (past _ _ (AList.mem_lookup_iff.mpr listed))
          rw [found]
          refine if_neg fun high => ?_
          obtain ⟨entry, listed, high⟩ := List.any_eq_true.mp high
          exact absurd (of_decide_eq_true high) (Int.not_lt.mpr (fine entry listed))
        next other => rfl
      · by_cases same : z = sender
        · subst same
          -- a number delivered so far is at most the last one, as the deliveries are in order
          rw [Function.update_self]
          by_contra high
          obtain ⟨m, all⟩ := ordered.deliveries z
          rw [List.filterMap_append, List.filterMap_cons_some (b := msg) (by simp)] at all
          have earlier : num ∈ log.filterMap (LogLine.delivery z) := by
            rw [mem_deliveries]
            have listed : .d z num ∈ log ∨ num = msg := by simpa using mem
            exact listed.resolve_right fun same => high (Int.le_of_eq same)
          have first := eq_upTo_of_append all
          have last := eq_of_append_eq_upTo (first ▸ all)
          rw [first, mem_upTo] at earlier
          omega
        · rw [Function.update_of_ne same]
          have listed : .d z num ∈ log ∨ z = sender ∧ num = msg := by simpa using mem
          exact above z num (listed.resolve_right fun new => same new.1)

/-- An exception is raised on a delivery of `pid` that `deps` does not know. -/
theorem exists_of_raised {log : List LogLine} {pid : Int}
    (raised : checkLog deps pid log = .error .raised) :
    ∃ k, .d pid k ∈ log ∧ deps.lookup k = none := by
  induction log using List.reverseRecOn with
  | nil => cases raised
  | append_singleton log e ih =>
    unfold checkLog at raised
    rw [List.foldlM_append] at raised
    cases first : log.foldlM (checkLine deps pid) fun _ => 0 with
    | error stop =>
      rw [first] at raised
      obtain rfl := Except.error.inj raised
      obtain ⟨k, mem, missing⟩ := ih first
      exact ⟨k, List.mem_append_left _ mem, missing⟩
    | ok received =>
      rw [first] at raised
      have last : checkLine deps pid received e >>= pure = .error .raised := raised
      rw [bind_pure] at last
      cases e with
      | b msg => cases last
      | d sender msg =>
        simp only [checkLine] at last
        split at last
        next own =>
          subst own
          split at last
          next missing => exact ⟨msg, by simp, missing⟩
          next clock found => split at last <;> cases last
        next => cases last

/-! ## The whole run -/

theorem forM_of_ok {f : Int → Except Stop Unit} {l : List Int} (all : ∀ x ∈ l, f x = .ok ()) :
    l.forM f = .ok () := by
  induction l with
  | nil => rfl
  | cons x l ih =>
    obtain ⟨first, others⟩ := List.forall_mem_cons.mp all
    show (f x >>= fun _ => l.forM f) = .ok ()
    rw [first]
    exact ih others

/-- What stops such a loop is one of the calls. -/
theorem exists_of_forM_error {f : Int → Except Stop Unit} {l : List Int} {stop : Stop}
    (stopped : l.forM f = .error stop) : ∃ x ∈ l, f x = .error stop := by
  induction l with
  | nil => cases stopped
  | cons x l ih =>
    have stopped : (f x >>= fun _ => l.forM f) = .error stop := stopped
    cases first : f x with
    | error stop' =>
      rw [first] at stopped
      obtain rfl := Except.error.inj stopped
      exact ⟨x, List.mem_cons_self, first⟩
    | ok =>
      rw [first] at stopped
      obtain ⟨y, mem, last⟩ := ih stopped
      exact ⟨y, List.mem_cons_of_mem _ mem, last⟩

/-- A process passes whose log is in order, and whose messages are delivered as they ought to be. -/
theorem checkProcess_of_respects (ordered : ∀ q ∈ v.pids, Ordered (v.logs q)) (listed : x ∈ v.pids)
    (respects : ∀ q ∈ v.pids, q ≠ x → Respects v x q) : v.checkProcess x = .ok () := by
  obtain ⟨s, read⟩ := (ordered x listed).exists_foldlM (v.dependencies x)
  have created : v.createMessageDependencies x = some s.messageDeps :=
    Option.map_eq_some_iff.mpr ⟨s, read, rfl⟩
  have scanned := Scanned.foldlM read
  have recorded := Recorded.foldlM read
  simp only [checkProcess, created]
  refine forM_of_ok fun q mem => ?_
  split
  · rfl
  next other =>
    obtain ⟨received, passed, -⟩ := @exists_checkLog s.messageDeps _ x
      (ordered q mem) fun before k upTo_ => by
        obtain ⟨past, made, all⟩ := respects q mem other before k upTo_
        obtain ⟨clock, found, -⟩ := scanned.snapshots past k made
        refine ⟨clock, found, fun z last at_ => ?_⟩
        obtain ⟨past', made', records⟩ := recorded.snapshots k clock found
        -- the broadcast is at one place of the log
        rw [Ordered.eq_of_prefix (ordered x listed) made' made] at records
        exact all z (records z last at_).1 last (records z last at_).2
    rw [passed]
    rfl

/-- A process that passes was respected by every other log. -/
theorem respects_of_checkProcess (ordered : ∀ q ∈ v.pids, Ordered (v.logs q)) (listed : x ∈ v.pids)
    (passed : v.checkProcess x = .ok ()) : ∀ q ∈ v.pids, q ≠ x → Respects v x q := by
  intro q mem other before k upTo_
  unfold checkProcess at passed
  split at passed
  · cases passed
  next deps created =>
    have one := forM_ok passed q mem
    rw [if_neg other] at one
    cases result : checkLog deps x (v.logs q) with
    | error stop =>
      rw [result] at one
      cases one
    | ok received =>
      obtain ⟨clock, found, all⟩ := (Checked.of_checkLog (ordered q mem) result).respected _ _ upTo_
      obtain ⟨s, read, rfl⟩ := Option.map_eq_some_iff.mp created
      obtain ⟨past, made, -⟩ := (Recorded.foldlM read).snapshots k clock found
      obtain ⟨clock', found', covers⟩ := (Scanned.foldlM read).snapshots past k made
      obtain rfl := Option.some.inj (found.symm.trans found')
      refine ⟨past, made, fun z dep num delivered => ?_⟩
      obtain ⟨last, recorded, high⟩ := covers z dep num delivered
      have earlier := Ordered.of_prefix (ordered x listed) ((List.prefix_append _ _).trans made)
      have low := earlier.one_le delivered
      exact all z last recorded num low high

theorem checkPids_of_ok {continueOnError : Bool} {pids : List Int}
    (passed : ∀ pid ∈ pids, v.checkProcess pid = .ok ()) :
    v.checkPids continueOnError true pids = some true := by
  induction pids with
  | nil => rfl
  | cons pid pids ih =>
    obtain ⟨first, others⟩ := List.forall_mem_cons.mp passed
    simp only [checkPids, first]
    exact ih others

theorem exists_of_checkPids_none {continueOnError ok : Bool} {pids : List Int}
    (raised : v.checkPids continueOnError ok pids = none) :
    ∃ pid ∈ pids, v.checkProcess pid = .error .raised := by
  induction pids generalizing ok with
  | nil => cases raised
  | cons pid pids ih =>
    unfold checkPids at raised
    split at raised
    next =>
      obtain ⟨pid', mem, stopped⟩ := ih raised
      exact ⟨pid', List.mem_cons_of_mem _ mem, stopped⟩
    next =>
      split at raised
      · obtain ⟨pid', mem, stopped⟩ := ih raised
        exact ⟨pid', List.mem_cons_of_mem _ mem, stopped⟩
      · cases raised
    next stopped => exact ⟨pid, List.mem_cons_self, stopped⟩

/-- A run is accepted if its logs are in order and respect each other's dependencies. -/
theorem checkAll_eq_some_true_iff (v : LCausalBroadcastValidation) (continueOnError : Bool) :
    v.checkAll continueOnError = some true ↔ (∀ q ∈ v.pids, Ordered (v.logs q)) ∧
      ∀ x ∈ v.pids, ∀ q ∈ v.pids, q ≠ x → Respects v x q := by
  constructor
  · intro accepted
    have passed := (checkProcess_of_checkPids accepted).2
    have ordered : ∀ q ∈ v.pids, Ordered (v.logs q) := fun q listed => by
      obtain ⟨_, found, _⟩ := exists_of_checkProcess (passed q listed)
      exact found.ordered
    exact ⟨ordered, fun x listed => respects_of_checkProcess ordered listed (passed x listed)⟩
  · rintro ⟨ordered, respects⟩
    exact checkPids_of_ok fun x listed => checkProcess_of_respects ordered listed (respects x listed)

/-- What raises an exception is a delivery of a message that its originator did not log. -/
theorem exists_of_checkAll_none {continueOnError : Bool} (raised : v.checkAll continueOnError = none) :
    ∃ x ∈ v.pids, ∃ q ∈ v.pids, q ≠ x ∧ ∃ k, .d x k ∈ v.logs q ∧ .b k ∉ v.logs x := by
  obtain ⟨x, listed, stopped⟩ := exists_of_checkPids_none raised
  unfold checkProcess at stopped
  split at stopped
  · cases stopped
  next deps created =>
    obtain ⟨q, mem, one⟩ := exists_of_forM_error stopped
    split at one
    · cases one
    next other =>
      cases result : checkLog deps x (v.logs q) with
      | ok received =>
        rw [result] at one
        cases one
      | error stop =>
        rw [result] at one
        obtain rfl : stop = .raised := Except.error.inj one
        obtain ⟨k, delivered, missing⟩ := exists_of_raised result
        refine ⟨x, listed, q, mem, other, k, delivered, fun made => ?_⟩
        obtain ⟨past, rest, parts⟩ := List.append_of_mem made
        have upTo_ : past ++ [.b k] <+: v.logs x := ⟨rest, by rw [parts]; simp⟩
        obtain ⟨clock, found, -⟩ :=
          (found_of_createMessageDependencies created).snapshots past k upTo_
        rw [missing] at found
        cases found

/-- **What the validator decides**: it accepts exactly the runs whose logs are all in order, and in
which each process delivers the messages of every other process as their dependencies ask. It raises
an exception only where a process delivered a message that its originator did not log. -/
theorem checkAll_decides (v : LCausalBroadcastValidation) (continueOnError : Bool) :
    (v.checkAll continueOnError = some true ↔ (∀ q ∈ v.pids, Ordered (v.logs q)) ∧
      ∀ x ∈ v.pids, ∀ q ∈ v.pids, q ≠ x → ∀ before k, before ++ [.d x k] <+: v.logs q →
        ∃ past, past ++ [.b k] <+: v.logs x ∧
          ∀ z ∈ v.dependencies x, ∀ s, .d z s ∈ past → .d z s ∈ before) ∧
    (v.checkAll continueOnError = none → ∃ x ∈ v.pids, ∃ q ∈ v.pids, q ≠ x ∧
      ∃ k, .d x k ∈ v.logs q ∧ .b k ∉ v.logs x) :=
  ⟨checkAll_eq_some_true_iff v continueOnError, exists_of_checkAll_none⟩

end LCausalBroadcastValidation

end CausalBroadcast
