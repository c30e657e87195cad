import Mathlib.Data.List.Perm.Basic
import CausalBroadcast.Link.Process

/-!
# When the worker sends again

A worker runs its loop body over and over while other threads push into `incoming`. The clock never
goes back: a loop body reads it in `try_pop` (`now`), when the wait ends (`woken`), and where it makes
or renews an entry (`later`); what it puts on the network it puts there at some time in between.
-/

namespace CausalBroadcast

/-! ## Growing gaps -/

/-- From each time to the next, the `j`-th gap at least. -/
def Spaced (gap : Nat → Nat) (times : List Nat) : Prop :=
  ∀ j a b, times[j]? = some a → times[j + 1]? = some b → a + gap j ≤ b

theorem spaced_singleton (gap : Nat → Nat) (a : Nat) : Spaced gap [a] := by
  intro j a b _ second
  simp at second

theorem Spaced.concat {gap : Nat → Nat} {a x : Nat} {times : List Nat}
    (spaced : Spaced gap (a :: times))
    (late : (a :: times).getLast (List.cons_ne_nil a times) + gap times.length ≤ x) :
    Spaced gap (a :: (times ++ [x])) := by
  intro j b c first second
  rw [← List.cons_append] at first second
  by_cases inside : j + 1 < (a :: times).length
  · rw [List.getElem?_append_left (by omega)] at first
    rw [List.getElem?_append_left inside] at second
    exact spaced j b c first second
  · have last : j = times.length := by
      have bound := (List.getElem?_eq_some_iff.mp second).1
      simp only [List.length_append, List.length_cons, List.length_nil] at bound inside
      omega
    subst last
    rw [List.getElem?_append_left (by simp), List.getElem?_eq_getElem (by simp)] at first
    rw [List.getElem?_append_right (by simp)] at second
    obtain rfl : x = c := by simpa using second
    obtain rfl := Option.some.inj first
    rw [List.getLast_eq_getElem] at late
    exact late

/-! ## What is seen of a worker -/

/-- What a loop body can be seen to do. -/
inductive WorkEvent where
  /-- It takes a syn out of the queue and makes an entry of it. -/
  | schedule (num time : Nat)
  /-- It takes an ack out of the queue. -/
  | acknowledge (num : Nat)
  | retransmit (num time : Nat)
  deriving DecidableEq

/-- What a loop body that puts `sent` on the network, at `sentAt`, is seen to do. -/
def Peer.seen (peer : Peer) (top : Option Entry) (now woken sentAt later : Nat)
    (sent : List Datagram) : List WorkEvent :=
  (match tryPop peer.incoming top now woken with
    | some (some msg, _) =>
      [if isSyn msg then .schedule (seqNum msg) later else .acknowledge (seqNum msg)]
    | some (none, _) | none => []) ++
    sent.map fun datagram => .retransmit (seqNum datagram.2) sentAt

/-- The peer for `receiver` in process `id`, the last reading of the clock and what has been seen of
the worker, after any pushes and loop bodies. -/
inductive Worked (id receiver : Nat) : Peer → Nat → List WorkEvent → Prop
  | start (clock : Nat) : Worked id receiver {} clock []
  /-- `PerfectLink::send` numbers a message and pushes it. -/
  | send {peer : Peer} {clock : Nat} {trace : List WorkEvent} (msg : Message) :
      Worked id receiver peer clock trace → peer.nextSeqNum < 2 ^ 63 →
      Worked id receiver (peer.advance.enqueue (peer.stamp id msg)) clock trace
  /-- `PerfectLink::deliver` pushes an ack. -/
  | ack {peer : Peer} {clock : Nat} {trace : List WorkEvent} {msg : Message} :
      Worked id receiver peer clock trace → isSyn msg = false →
      Worked id receiver (peer.enqueue msg) clock trace
  | work {peer peer' : Peer} {clock now woken sentAt later : Nat} {trace : List WorkEvent}
      {top : Option Entry} {sent : List Datagram} :
      Worked id receiver peer clock trace →
      clock ≤ now → now ≤ woken → woken ≤ sentAt → sentAt ≤ later →
      peer.work id receiver top now woken later = some (peer', sent) →
      Worked id receiver peer' later
        (trace ++ peer.seen top now woken sentAt later sent)

/-- The times at which number `k` was sent again. -/
def retransmissions (k : Nat) (trace : List WorkEvent) : List Nat :=
  trace.filterMap fun
    | .retransmit num time => if num = k then some time else none
    | .schedule .. | .acknowledge _ => none

section
variable {k : Nat} {trace trace' : List WorkEvent}

@[simp] theorem retransmissions_append : retransmissions k (trace ++ trace') =
    retransmissions k trace ++ retransmissions k trace' := List.filterMap_append

@[simp] theorem retransmissions_schedule (num time : Nat) :
    retransmissions k [.schedule num time] = [] := rfl

@[simp] theorem retransmissions_acknowledge (num : Nat) :
    retransmissions k [.acknowledge num] = [] := rfl

theorem retransmissions_retransmit (num time : Nat) :
    retransmissions k [.retransmit num time] = if num = k then [time] else [] := by
  by_cases same : num = k <;> simp [retransmissions, same]

theorem mem_retransmissions {time : Nat} :
    time ∈ retransmissions k trace ↔ .retransmit k time ∈ trace := by
  unfold retransmissions
  rw [List.mem_filterMap]
  constructor
  · rintro ⟨e, mem, found⟩
    cases e with
    | retransmit num time' =>
      simp only [Option.ite_none_right_eq_some, Option.some.injEq] at found
      obtain ⟨rfl, rfl⟩ := found
      exact mem
    | schedule num time' => cases found
    | acknowledge num => cases found
  · intro mem
    exact ⟨_, mem, by simp⟩

end

/-! ## One loop body -/

/-- Everything a loop body can do, with what it is seen to do. -/
inductive Peer.Beats (id : Nat) (peer : Peer) (woken sentAt later : Nat) :
    Peer → List Datagram → List WorkEvent → Prop
  | idle : peer.Beats id woken sentAt later peer [] []
  | schedule {msg : Message} {rest : List Message} :
      peer.incoming = msg :: rest → isSyn msg →
      peer.Beats id woken sentAt later
        { peer with
          incoming := rest, scheduled := { msg, backoff := .start later } :: peer.scheduled }
        [] [.schedule (seqNum msg) later]
  | acknowledge {msg : Message} {rest : List Message} :
      peer.incoming = msg :: rest → isSyn msg = false →
      peer.Beats id woken sentAt later
        { peer with incoming := rest, acknowledged := insert (seqNum msg) peer.acknowledged }
        [] [.acknowledge (seqNum msg)]
  | retire {next : Entry} : next ∈ peer.scheduled → seqNum next.msg ∈ peer.acknowledged →
      peer.Beats id woken sentAt later
        { peer with
          scheduled := peer.scheduled.erase next
          acknowledged := peer.acknowledged.erase (seqNum next.msg) }
        [] []
  | retry {next : Entry} {datagram : Datagram} : peer.scheduled.IsTop (some next) →
      next.backoff.retryAt ≤ woken → seqNum next.msg ∉ peer.acknowledged →
      datagram.2 = { next.msg with sender := id } →
      peer.Beats id woken sentAt later
        { peer with
          scheduled :=
            { msg := { next.msg with sender := id }, backoff := next.backoff.retry later } ::
              peer.scheduled.erase next }
        [datagram] [.retransmit (seqNum next.msg) sentAt]

/-- `try_pop` returns nothing before the deadline of an entry only if there is none. -/
theorem retryAt_le_of_tryPop {queue rest : List Message} {next : Entry} {now woken : Nat}
    (forward : now ≤ woken) (popped : tryPop queue (some next) now woken = some (none, rest)) :
    next.backoff.retryAt ≤ woken := by
  unfold tryPop at popped
  dsimp only at popped
  split at popped
  next waits =>
    cases queue with
    | nil =>
      unfold tryPopUntil at popped
      simp only [Option.ite_none_right_eq_some] at popped
      exact popped.1
    | cons msg queue => cases popped
  next past => omega

theorem Peer.beats_of_work (sentAt : Nat) {id receiver now woken later : Nat} {top : Option Entry}
    {peer peer' : Peer} {sent : List Datagram} (forward : now ≤ woken)
    (worked : peer.work id receiver top now woken later = some (peer', sent)) :
    peer.Beats id woken sentAt later peer' sent (peer.seen top now woken sentAt later sent) := by
  unfold Peer.seen
  unfold Peer.work at worked
  split at worked
  · next isTop =>
    split at worked
    next => cases worked
    next incoming popped =>
      obtain ⟨-, rfl⟩ | ⟨msg, eq, -⟩ := tryPop_cases popped
      · cases top with
        | none =>
          obtain ⟨rfl, rfl⟩ := Prod.mk.inj (Option.some.inj worked)
          rw [popped]
          exact .idle
        | some next =>
          have passed := retryAt_le_of_tryPop forward popped
          rw [popped]
          unfold handleTimeout at worked
          dsimp only at worked
          split at worked
          next held =>
            obtain ⟨rfl, rfl⟩ := Prod.mk.inj (Option.some.inj worked)
            exact .retire isTop.1 held
          next missing =>
            obtain ⟨rfl, rfl⟩ := Prod.mk.inj (Option.some.inj worked)
            exact .retry isTop passed missing rfl
      · cases eq
    next msg incoming popped =>
      obtain ⟨eq, -⟩ | ⟨msg', eq, queue⟩ := tryPop_cases popped
      · cases eq
      cases eq
      rw [popped]
      split at worked
      next syn =>
        obtain ⟨rfl, rfl⟩ := Prod.mk.inj (Option.some.inj worked)
        simp only [if_pos syn]
        exact .schedule queue syn
      next notSyn =>
        obtain ⟨rfl, rfl⟩ := Prod.mk.inj (Option.some.inj worked)
        simp only [if_neg notSyn]
        exact .acknowledge queue (Bool.not_eq_true _ ▸ notSyn)
  · cases worked

/-! ## What is kept -/

/-- The numbers of the syns in the queue. -/
def Peer.queued (peer : Peer) : List Nat := (peer.incoming.filter isSyn).map seqNum

/-- The numbers that the worker has to see acknowledged: those in its schedule, and those queued. -/
def Peer.numbers (peer : Peer) : List Nat := peer.scheduled.map (fun e => seqNum e.msg) ++ peer.queued

/-- The worker has taken an ack of `k`, and the syn of `k` before it. -/
def AckTaken (k : Nat) (trace : List WorkEvent) : Prop :=
  ∃ before after, trace = before ++ .acknowledge k :: after ∧ ∃ s, .schedule k s ∈ before

/-- The `j`-th gap that an entry waits, its first wait being the gap 0. -/
def retryGap (j : Nat) : Nat := milliseconds 100 * 2 ^ j

/-- What holds of a worker at any moment. -/
structure Disciplined (peer : Peer) (trace : List WorkEvent) : Prop where
  /-- One entry, or one queued syn, for each number. -/
  once : peer.numbers.Nodup
  fresh : ∀ k ∈ peer.numbers, k < peer.nextSeqNum
  bound : peer.nextSeqNum ≤ 2 ^ 63
  taken : ∀ k s, .schedule k s ∈ trace → k < peer.nextSeqNum ∧ k ∉ peer.queued
  unique : ∀ k s s', .schedule k s ∈ trace → .schedule k s' ∈ trace → s = s'
  known : ∀ k t, .retransmit k t ∈ trace → ∃ s, .schedule k s ∈ trace
  /-- An entry waits for the gap after the last time its message was sent. -/
  entry : ∀ e ∈ peer.scheduled, ∃ s, .schedule (seqNum e.msg) s ∈ trace ∧
    e.backoff.timeout = retryGap (retransmissions (seqNum e.msg) trace).length ∧
    (s :: retransmissions (seqNum e.msg) trace).getLast (List.cons_ne_nil _ _) +
      e.backoff.timeout ≤ e.backoff.retryAt
  spaced : ∀ k s, .schedule k s ∈ trace → Spaced retryGap (s :: retransmissions k trace)
  /-- An acknowledged message is retired when its entry times out. -/
  held : ∀ k, AckTaken k trace → ∀ e ∈ peer.scheduled, seqNum e.msg = k → k ∈ peer.acknowledged
  silent : ∀ before k after s, trace = before ++ .acknowledge k :: after →
    .schedule k s ∈ before → ∀ t, .retransmit k t ∉ after

section
variable {k : Nat} {trace : List WorkEvent} {peer : Peer}

theorem ackTaken_concat {e : WorkEvent} :
    AckTaken k (trace ++ [e]) ↔ AckTaken k trace ∨ e = .acknowledge k ∧ ∃ s, .schedule k s ∈ trace := by
  constructor
  · rintro ⟨before, after, split, s, mem⟩
    rcases List.eq_nil_or_concat after with rfl | ⟨after, last, rfl⟩
    · obtain ⟨rfl, same⟩ := List.append_inj' split rfl
      exact .inr ⟨List.head_eq_of_cons_eq same, s, mem⟩
    · rw [List.concat_eq_append, ← List.cons_append, ← List.append_assoc] at split
      obtain ⟨rfl, -⟩ := List.append_inj' split rfl
      exact .inl ⟨before, after, rfl, s, mem⟩
  · rintro (⟨before, after, rfl, found⟩ | ⟨rfl, found⟩)
    · exact ⟨before, after ++ [e], by simp, found⟩
    · exact ⟨trace, [], rfl, found⟩

/-- Nothing but an ack is an ack taken. -/
theorem AckTaken.of_concat {e : WorkEvent} (acked : AckTaken k (trace ++ [e]))
    (other : e ≠ .acknowledge k) : AckTaken k trace :=
  (ackTaken_concat.mp acked).resolve_right fun is => other is.1

/-- A worker falls silent about a number by never sending it after its ack. -/
theorem silent_concat {e : WorkEvent}
    (silent : ∀ before k after s, trace = before ++ .acknowledge k :: after →
      .schedule k s ∈ before → ∀ t, .retransmit k t ∉ after)
    (quiet : ∀ k t, e = .retransmit k t → ¬ AckTaken k trace) :
    ∀ before k after s, trace ++ [e] = before ++ .acknowledge k :: after →
      .schedule k s ∈ before → ∀ t, .retransmit k t ∉ after := by
  intro before k after s split mem t
  rcases List.eq_nil_or_concat after with rfl | ⟨after, last, rfl⟩
  · exact List.not_mem_nil
  · rw [List.concat_eq_append, ← List.cons_append, ← List.append_assoc] at split
    obtain ⟨rfl, same⟩ := List.append_inj' split rfl
    obtain rfl := List.head_eq_of_cons_eq same
    rw [List.concat_eq_append, List.mem_append, List.mem_singleton]
    rintro (old | new)
    · exact silent before k after s rfl mem t old
    · exact quiet k t new.symm ⟨before, after, rfl, s, mem⟩

/-- The other entries are of other numbers. -/
theorem Disciplined.number_ne (kept : Disciplined peer trace) {next e : Entry}
    (mem : next ∈ peer.scheduled) (other : e ∈ peer.scheduled.erase next) :
    seqNum e.msg ≠ seqNum next.msg := by
  have numbers := (List.nodup_append.mp kept.once).1
  have first := ((List.perm_cons_erase mem).map fun e => seqNum e.msg).nodup_iff.mp numbers
  intro same
  exact (List.nodup_cons.mp first).1 (List.mem_map.mpr ⟨e, other, same⟩)

/-- A number has one entry. -/
theorem Disciplined.entry_unique (kept : Disciplined peer trace) {e e' : Entry}
    (mem : e ∈ peer.scheduled) (mem' : e' ∈ peer.scheduled)
    (same : seqNum e.msg = seqNum e'.msg) : e = e' := by
  by_contra differ
  exact kept.number_ne mem' ((List.mem_erase_of_ne differ).mpr mem) same

theorem Disciplined.start : Disciplined {} [] where
  once := List.nodup_nil
  fresh := List.forall_mem_nil _
  bound := Nat.zero_le _
  taken _ _ mem := absurd mem List.not_mem_nil
  unique _ _ _ mem := absurd mem List.not_mem_nil
  known _ _ mem := absurd mem List.not_mem_nil
  entry := List.forall_mem_nil _
  spaced _ _ mem := absurd mem List.not_mem_nil
  held _ _ := List.forall_mem_nil _
  silent before k after s split := by simp at split

/-! ### Pushes -/

theorem queued_enqueue_of_syn {msg : Message} (syn : isSyn msg) :
    (peer.enqueue msg).queued = peer.queued ++ [seqNum msg] := by
  simp [Peer.queued, Peer.enqueue, syn]

theorem queued_enqueue_of_ack {msg : Message} (ack : isSyn msg = false) :
    (peer.enqueue msg).queued = peer.queued := by
  simp [Peer.queued, Peer.enqueue, ack]

theorem Disciplined.ack {msg : Message} (kept : Disciplined peer trace)
    (ack : isSyn msg = false) : Disciplined (peer.enqueue msg) trace := by
  have same : (peer.enqueue msg).numbers = peer.numbers :=
    congrArg (_ ++ ·) (queued_enqueue_of_ack ack)
  exact
    { once := same ▸ kept.once
      fresh := same ▸ kept.fresh
      bound := kept.bound
      taken := fun k s mem => by
        rw [queued_enqueue_of_ack ack]
        exact kept.taken k s mem
      unique := kept.unique
      known := kept.known
      entry := kept.entry
      spaced := kept.spaced
      held := kept.held
      silent := kept.silent }

theorem Disciplined.send (kept : Disciplined peer trace) (id : Nat) (msg : Message)
    (small : peer.nextSeqNum < 2 ^ 63) :
    Disciplined (peer.advance.enqueue (peer.stamp id msg)) trace := by
  have number : seqNum (peer.stamp id msg) = peer.nextSeqNum := seqNum_of_lt small
  have queued : (peer.advance.enqueue (peer.stamp id msg)).queued =
      peer.queued ++ [seqNum (peer.stamp id msg)] := queued_enqueue_of_syn (isSyn_of_lt small)
  rw [number] at queued
  have next : (peer.advance.enqueue (peer.stamp id msg)).nextSeqNum = peer.nextSeqNum + 1 :=
    Nat.mod_eq_of_lt (by omega)
  have numbers : (peer.advance.enqueue (peer.stamp id msg)).numbers =
      peer.numbers ++ [peer.nextSeqNum] := by
    unfold Peer.numbers
    rw [queued, ← List.append_assoc]
    rfl
  have isNew : peer.nextSeqNum ∉ peer.numbers := fun mem => Nat.lt_irrefl _ (kept.fresh _ mem)
  exact
    { once := by
        rw [numbers, List.nodup_append_comm, List.singleton_append, List.nodup_cons]
        exact ⟨isNew, kept.once⟩
      fresh := fun k mem => by
        rw [numbers, List.mem_append, List.mem_singleton] at mem
        rw [next]
        rcases mem with old | rfl
        · exact Nat.lt_succ_of_lt (kept.fresh k old)
        · exact Nat.lt_succ_self _
      bound := by
        rw [next]
        exact small
      taken := fun k s mem => by
        have ⟨below, unqueued⟩ := kept.taken k s mem
        rw [next, queued, List.mem_append, List.mem_singleton]
        refine ⟨Nat.lt_succ_of_lt below, ?_⟩
        rintro (old | rfl)
        · exact unqueued old
        · exact Nat.lt_irrefl _ below
      unique := kept.unique
      known := kept.known
      entry := kept.entry
      spaced := kept.spaced
      held := kept.held
      silent := kept.silent }

/-! ### Loop bodies -/

theorem Disciplined.schedule (kept : Disciplined peer trace) {msg : Message} {rest : List Message}
    {later : Nat} (queue : peer.incoming = msg :: rest) (syn : isSyn msg) :
    Disciplined
      { peer with
        incoming := rest, scheduled := { msg, backoff := .start later } :: peer.scheduled }
      (trace ++ [.schedule (seqNum msg) later]) := by
  have queued : peer.queued = seqNum msg :: (rest.filter isSyn).map seqNum := by
    simp [Peer.queued, queue, syn]
  have perm : peer.numbers.Perm
      (seqNum msg :: (peer.scheduled.map (fun e => seqNum e.msg) ++
        (rest.filter isSyn).map seqNum)) := by
    unfold Peer.numbers
    rw [queued]
    exact List.perm_middle
  have unseen : ∀ s, .schedule (seqNum msg) s ∉ trace := fun s mem =>
    (kept.taken _ s mem).2 (queued ▸ List.mem_cons_self)
  have unsent : retransmissions (seqNum msg) trace = [] := by
    rw [List.eq_nil_iff_forall_not_mem]
    intro t mem
    obtain ⟨s, mem⟩ := kept.known _ t (mem_retransmissions.mp mem)
    exact unseen s mem
  have mem_concat : ∀ {k s}, .schedule k s ∈ trace ++ [.schedule (seqNum msg) later] ↔
      .schedule k s ∈ trace ∨ k = seqNum msg ∧ s = later := by
    simp
  have old : ∀ {k s}, .schedule k s ∈ trace → k ≠ seqNum msg := by
    rintro k s mem rfl
    exact unseen s mem
  exact
    { once := perm.nodup_iff.mp kept.once
      fresh := fun k mem => kept.fresh k (perm.mem_iff.mpr mem)
      bound := kept.bound
      taken := fun k s mem => by
        rcases mem_concat.mp mem with mem | ⟨rfl, rfl⟩
        · have ⟨below, unqueued⟩ := kept.taken k s mem
          exact ⟨below, fun there => unqueued (queued ▸ List.mem_cons_of_mem _ there)⟩
        · refine ⟨kept.fresh _ (perm.mem_iff.mpr List.mem_cons_self), fun there => ?_⟩
          have once := List.nodup_cons.mp (perm.nodup_iff.mp kept.once)
          exact once.1 (List.mem_append_right _ there)
      unique := fun k s s' mem mem' => by
        rcases mem_concat.mp mem with mem | ⟨rfl, rfl⟩
        · rcases mem_concat.mp mem' with mem' | ⟨same, -⟩
          · exact kept.unique k s s' mem mem'
          · exact absurd same (old mem)
        · rcases mem_concat.mp mem' with mem' | ⟨-, rfl⟩
          · exact absurd rfl (old mem')
          · rfl
      known := fun k t mem => by
        have ⟨s, known⟩ := kept.known k t (by simpa using mem)
        exact ⟨s, List.mem_append_left _ known⟩
      entry := fun e mem => by
        rcases List.mem_cons.mp mem with rfl | mem
        · refine ⟨later, List.mem_append_right _ List.mem_cons_self, ?_⟩
          rw [retransmissions_append, retransmissions_schedule, unsent]
          exact ⟨rfl, Nat.le_refl _⟩
        · obtain ⟨s, known, waits⟩ := kept.entry e mem
          refine ⟨s, List.mem_append_left _ known, ?_⟩
          simpa using waits
      spaced := fun k s mem => by
        rcases mem_concat.mp mem with mem | ⟨rfl, rfl⟩
        · simpa using kept.spaced k s mem
        · rw [retransmissions_append, retransmissions_schedule, unsent]
          exact spaced_singleton _ _
      held := fun k acked e mem number => by
        have acked := acked.of_concat fun is => by cases is
        rcases List.mem_cons.mp mem with rfl | mem
        · obtain ⟨before, after, rfl, s, known⟩ := acked
          exact absurd number.symm (old (List.mem_append_left _ known))
        · exact kept.held k acked e mem number
      silent := silent_concat kept.silent fun k t is => by cases is }

theorem Disciplined.acknowledge (kept : Disciplined peer trace) {msg : Message}
    {rest : List Message} (queue : peer.incoming = msg :: rest) (ack : isSyn msg = false) :
    Disciplined
      { peer with incoming := rest, acknowledged := insert (seqNum msg) peer.acknowledged }
      (trace ++ [.acknowledge (seqNum msg)]) := by
  have queued : peer.queued = (rest.filter isSyn).map seqNum := by
    simp [Peer.queued, queue, ack]
  have numbers : peer.numbers =
      peer.scheduled.map (fun e => seqNum e.msg) ++ (rest.filter isSyn).map seqNum := by
    rw [Peer.numbers, queued]
  exact
    { once := (congrArg List.Nodup numbers).mp kept.once
      fresh := fun k mem => kept.fresh k (numbers ▸ mem)
      bound := kept.bound
      taken := fun k s mem => by
        have ⟨below, unqueued⟩ := kept.taken k s (by simpa using mem)
        exact ⟨below, fun there => unqueued (queued ▸ there)⟩
      unique := fun k s s' mem mem' => kept.unique k s s' (by simpa using mem) (by simpa using mem')
      known := fun k t mem => by
        have ⟨s, known⟩ := kept.known k t (by simpa using mem)
        exact ⟨s, List.mem_append_left _ known⟩
      entry := fun e mem => by
        obtain ⟨s, known, waits⟩ := kept.entry e mem
        refine ⟨s, List.mem_append_left _ known, ?_⟩
        simpa using waits
      spaced := fun k s mem => by simpa using kept.spaced k s (by simpa using mem)
      held := fun k acked e mem number => by
        rcases ackTaken_concat.mp acked with acked | ⟨is, -⟩
        · exact Finset.mem_insert_of_mem (kept.held k acked e mem number)
        · cases is
          exact Finset.mem_insert_self ..
      silent := silent_concat kept.silent fun k t is => by cases is }

theorem Disciplined.retire (kept : Disciplined peer trace) {next : Entry}
    (mem : next ∈ peer.scheduled) :
    Disciplined
      { peer with
        scheduled := peer.scheduled.erase next
        acknowledged := peer.acknowledged.erase (seqNum next.msg) } trace := by
  have fewer : List.Sublist ((peer.scheduled.erase next).map (fun e => seqNum e.msg) ++ peer.queued)
      peer.numbers :=
    (List.erase_sublist.map _).append_right _
  exact
    { once := kept.once.sublist fewer
      fresh := fun k there => kept.fresh k (fewer.subset there)
      bound := kept.bound
      taken := kept.taken
      unique := kept.unique
      known := kept.known
      entry := fun e there => kept.entry e (List.mem_of_mem_erase there)
      spaced := kept.spaced
      held := fun k acked e there number => by
        refine Finset.mem_erase.mpr ⟨number ▸ kept.number_ne mem there, ?_⟩
        exact kept.held k acked e (List.mem_of_mem_erase there) number
      silent := kept.silent }

theorem Disciplined.retry (kept : Disciplined peer trace) {next : Entry}
    {id woken sentAt later : Nat} (mem : next ∈ peer.scheduled)
    (passed : next.backoff.retryAt ≤ woken) (sending : woken ≤ sentAt) (renewing : sentAt ≤ later)
    (missing : seqNum next.msg ∉ peer.acknowledged) :
    Disciplined
      { peer with
        scheduled :=
          { msg := { next.msg with sender := id }, backoff := next.backoff.retry later } ::
            peer.scheduled.erase next }
      (trace ++ [.retransmit (seqNum next.msg) sentAt]) := by
  obtain ⟨s, known, timeout, wait⟩ := kept.entry next mem
  have perm : ((peer.scheduled.map fun e => seqNum e.msg) ++ peer.queued).Perm
      (seqNum next.msg :: ((peer.scheduled.erase next).map (fun e => seqNum e.msg) ++ peer.queued)) :=
    ((List.perm_cons_erase mem).map fun e => seqNum e.msg).append_right _
  have mem_concat : ∀ {k s}, .schedule k s ∈ trace ++ [.retransmit (seqNum next.msg) sentAt] ↔
      .schedule k s ∈ trace := by
    simp
  exact
    { once := perm.nodup_iff.mp kept.once
      fresh := fun k there => kept.fresh k (perm.mem_iff.mpr there)
      bound := kept.bound
      taken := fun k s there => kept.taken k s (mem_concat.mp there)
      unique := fun k s s' there there' =>
        kept.unique k s s' (mem_concat.mp there) (mem_concat.mp there')
      known := fun k t there => by
        rw [List.mem_append, List.mem_singleton] at there
        rcases there with old | same
        · obtain ⟨s, known⟩ := kept.known k t old
          exact ⟨s, mem_concat.mpr known⟩
        · cases same
          exact ⟨s, mem_concat.mpr known⟩
      entry := fun e there => by
        rcases List.mem_cons.mp there with rfl | there
        · refine ⟨s, mem_concat.mpr known, ?_⟩
          have times : retransmissions (seqNum next.msg)
              (trace ++ [.retransmit (seqNum next.msg) sentAt]) =
              retransmissions (seqNum next.msg) trace ++ [sentAt] := by
            rw [retransmissions_append, retransmissions_retransmit, if_pos rfl]
          have twice : retryGap ((retransmissions (seqNum next.msg) trace).length + 1) =
              retryGap (retransmissions (seqNum next.msg) trace).length * 2 := by
            rw [retryGap, Nat.pow_succ, ← Nat.mul_assoc]
            rfl
          show next.backoff.timeout * 2 = retryGap (retransmissions (seqNum next.msg) _).length ∧
            (s :: retransmissions (seqNum next.msg) _).getLast _ + next.backoff.timeout * 2 ≤
              later + next.backoff.timeout * 2
          simp only [times, List.length_append, List.length_singleton, twice, timeout,
            ← List.cons_append, List.getLast_append_singleton]
          exact ⟨trivial, by omega⟩
        · obtain ⟨s, known, waits⟩ := kept.entry e (List.mem_of_mem_erase there)
          refine ⟨s, mem_concat.mpr known, ?_⟩
          have other := kept.number_ne mem there
          simpa [retransmissions_retransmit, Ne.symm other] using waits
      spaced := fun k s' there => by
        have there := mem_concat.mp there
        rw [retransmissions_append, retransmissions_retransmit]
        split
        next same =>
          subst same
          obtain rfl := kept.unique _ s' s there known
          exact (kept.spaced _ _ there).concat (timeout ▸ by omega)
        next => simpa using kept.spaced k s' there
      held := fun k acked e there number => by
        have acked := acked.of_concat fun is => by cases is
        rcases List.mem_cons.mp there with rfl | there
        · exact kept.held k acked next mem number
        · exact kept.held k acked e (List.mem_of_mem_erase there) number
      silent := silent_concat kept.silent fun k t is => by
        cases is
        exact fun acked => missing (kept.held _ acked next mem rfl) }

/-- What holds at any moment of a worker's life. -/
theorem disciplined {id receiver clock : Nat} (run : Worked id receiver peer clock trace) :
    Disciplined peer trace := by
  induction run with
  | start => exact .start
  | send msg run small ih => exact ih.send _ msg small
  | ack run isAck ih => exact ih.ack isAck
  | @work peer peer' clock now woken sentAt later trace top sent run _ forward sending renewing
      worked ih =>
    have beats := Peer.beats_of_work sentAt forward worked
    generalize peer.seen top now woken sentAt later sent = seen at beats
    cases beats with
    | idle => simpa using ih
    | schedule queue syn => exact ih.schedule queue syn
    | acknowledge queue isAck => exact ih.acknowledge queue isAck
    | retire mem held => simpa using ih.retire mem
    | retry top passed missing signed => exact ih.retry top.1 passed sending renewing missing

/-- **The worker's discipline**: it sends a message again only when the deadline of its one entry has
passed and no other entry has an earlier one; the gaps between the times it does so double, from
100 ms after the entry was made; and it never does so after it has taken an ack. -/
theorem retransmission_discipline {id receiver clock : Nat}
    (run : Worked id receiver peer clock trace) :
    (∀ now woken sentAt later top peer' sent, clock ≤ now → now ≤ woken → woken ≤ sentAt →
      sentAt ≤ later → peer.work id receiver top now woken later = some (peer', sent) →
      ∀ datagram ∈ sent, ∃ e ∈ peer.scheduled, seqNum datagram.2 = seqNum e.msg ∧
        e.backoff.retryAt ≤ sentAt ∧
        ∀ e' ∈ peer.scheduled, e.backoff.retryAt ≤ e'.backoff.retryAt ∧
          (seqNum e'.msg = seqNum e.msg → e' = e)) ∧
    (∀ k s first, .schedule k s ∈ trace → (retransmissions k trace)[0]? = some first →
      s + milliseconds 100 ≤ first) ∧
    (∀ k j this next, 1 ≤ j → (retransmissions k trace)[j - 1]? = some this →
      (retransmissions k trace)[j]? = some next → this + milliseconds 100 * 2 ^ j ≤ next) ∧
    (∀ before k after s, trace = before ++ .acknowledge k :: after → .schedule k s ∈ before →
      ∀ time, .retransmit k time ∉ after) := by
  have kept := disciplined run
  refine ⟨?_, ?_, ?_, kept.silent⟩
  · intro now woken sentAt later top peer' sent _ forward sending _ worked datagram mem
    have beats := Peer.beats_of_work sentAt forward worked
    generalize peer.seen top now woken sentAt later sent = seen at beats
    cases beats with
    | idle | schedule | acknowledge | retire => exact absurd mem List.not_mem_nil
    | @retry next datagram' isTop passed missing signed =>
      obtain rfl := List.mem_singleton.mp mem
      refine ⟨next, isTop.1, by rw [signed]; rfl, passed.trans sending, fun e' there => ?_⟩
      exact ⟨isTop.2 e' there, kept.entry_unique there isTop.1⟩
  · intro k s first scheduled sent
    have spaced := kept.spaced k s scheduled 0 s first rfl sent
    simpa [retryGap] using spaced
  · intro k j this next positive sent again
    have mem : this ∈ retransmissions k trace := List.mem_of_getElem? sent
    obtain ⟨s, scheduled⟩ := kept.known k this (mem_retransmissions.mp mem)
    obtain ⟨j, rfl⟩ := Nat.exists_eq_add_of_le' positive
    exact kept.spaced k s scheduled (j + 1) this next sent again

end

/-- The peer of a worker with one message, which is in its schedule: what the entry waits, and until
when, in milliseconds. -/
def waiting (timeout retryAt : Nat) (incoming : List Message) : Peer where
  nextSeqNum := 1
  incoming := incoming
  scheduled := [{ msg := {}, backoff :=
    { timeout := milliseconds timeout, retryAt := milliseconds retryAt } }]

/-- A message that is sent again twice, the second time late, and then acknowledged and retired. -/
theorem discipline_of_two_retries : ∃ (peer : Peer) (clock : Nat),
    Worked 0 1 peer clock [.schedule 0 0, .retransmit 0 (milliseconds 100),
      .retransmit 0 (milliseconds 350), .acknowledge 0] ∧
    peer.scheduled = [] ∧ milliseconds 100 + milliseconds 100 * 2 ^ 1 ≤ milliseconds 350 := by
  have pushed : Worked 0 1 { nextSeqNum := 1, incoming := [{}] } 0 [] :=
    (Worked.start 0).send {} (by decide)
  have taken : Worked 0 1 (waiting 100 100 []) 0 [.schedule 0 0] := by
    have body : Peer.work 0 1 none 0 0 0 { nextSeqNum := 1, incoming := [{}] } =
      some (waiting 100 100 [], []) := rfl
    exact pushed.work (Nat.zero_le 0) (Nat.zero_le 0) (Nat.zero_le 0) (Nat.zero_le 0) body
  have first : Worked 0 1 (waiting 200 300 []) (milliseconds 100)
      [.schedule 0 0, .retransmit 0 (milliseconds 100)] := by
    have body : Peer.work 0 1 (waiting 100 100 []).scheduled.head? (milliseconds 100)
      (milliseconds 100) (milliseconds 100) (waiting 100 100 []) =
        some (waiting 200 300 [], [(1, {})]) := rfl
    exact taken.work (Nat.zero_le _) (Nat.le_refl _) (Nat.le_refl _) (Nat.le_refl _) body
  have second : Worked 0 1 (waiting 400 750 []) (milliseconds 350)
      [.schedule 0 0, .retransmit 0 (milliseconds 100), .retransmit 0 (milliseconds 350)] := by
    have body : Peer.work 0 1 (waiting 200 300 []).scheduled.head? (milliseconds 200)
      (milliseconds 320) (milliseconds 350) (waiting 200 300 []) =
        some (waiting 400 750 [], [(1, {})]) := rfl
    exact first.work (by decide) (by decide) (show _ ≤ milliseconds 350 by decide) (Nat.le_refl _)
      body
  have answered : Worked 0 1 (waiting 400 750 [setAck {}]) (milliseconds 350) _ :=
    second.ack (not_isSyn_setAck {})
  have heard : Worked 0 1 { waiting 400 750 [] with acknowledged := {0} } (milliseconds 360)
      [.schedule 0 0, .retransmit 0 (milliseconds 100), .retransmit 0 (milliseconds 350),
        .acknowledge 0] := by
    have body : Peer.work 0 1 (waiting 400 750 []).scheduled.head? (milliseconds 350)
      (milliseconds 350) (milliseconds 360) (waiting 400 750 [setAck {}]) =
        some ({ waiting 400 750 [] with acknowledged := {0} }, []) := rfl
    exact answered.work (Nat.le_refl _) (Nat.le_refl _) (Nat.le_refl _) (by decide) body
  have body : Peer.work 0 1 (waiting 400 750 []).scheduled.head? (milliseconds 760)
    (milliseconds 760) (milliseconds 760) { waiting 400 750 [] with acknowledged := {0} } =
      some ({ nextSeqNum := 1 }, []) := rfl
  have retired := heard.work (by decide) (Nat.le_refl _) (Nat.le_refl _) (Nat.le_refl _) body
  obtain ⟨-, -, gaps, -⟩ := retransmission_discipline retired
  exact ⟨_, _, retired, rfl, gaps 0 1 _ _ (Nat.le_refl 1) rfl rfl⟩

end CausalBroadcast
