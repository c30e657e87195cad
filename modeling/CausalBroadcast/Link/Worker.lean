import Mathlib.Data.Nat.Bitwise
import CausalBroadcast.Message
import CausalBroadcast.RollingSet

/-!
# One peer of a perfect link

What `PerfectLink` keeps for each peer, and the worker thread that retransmits to it. Syns and acks
share one struct and one number space: the top bit of the link sequence number tells them apart.

The worker's loop body is one step here. Its locals are invisible to the other threads, so the only
shared accesses are the pop from `incoming` and the datagram put on the network, and a loop body
makes at most one of the two.
-/

namespace CausalBroadcast

/-! ## Syns and acks -/

/-- `SEQ_NUM_MSB`. -/
def seqNumMsb : Nat := 1 <<< 63

/-- `SEQ_NUM_MASK`, the complement of `SEQ_NUM_MSB` in 64 bits. -/
def seqNumMask : Nat := 2 ^ 64 - 1 - seqNumMsb

/-- `is_syn`. -/
def isSyn (msg : Message) : Bool := msg.linkSeqNum &&& seqNumMsb == 0

/-- `set_ack`. -/
def setAck (msg : Message) : Message :=
  { msg with linkSeqNum := msg.linkSeqNum ||| seqNumMsb, vectorClock := [] }

/-- `seq_num`. -/
def seqNum (msg : Message) : Nat := msg.linkSeqNum &&& seqNumMask

theorem isSyn_of_lt {msg : Message} (small : msg.linkSeqNum < 2 ^ 63) : isSyn msg := by
  have none : msg.linkSeqNum &&& 2 ^ 63 = 0 := by
    rw [Nat.and_two_pow, Nat.testBit_lt_two_pow small]
    rfl
  simpa [isSyn, seqNumMsb] using none

theorem not_isSyn_setAck (msg : Message) : isSyn (setAck msg) = false := by
  have bit : ((msg.linkSeqNum ||| 2 ^ 63) &&& 2 ^ 63).testBit 63 = true := by
    rw [Nat.testBit_and, Nat.testBit_or, Nat.testBit_two_pow_self]
    simp
  have set : (msg.linkSeqNum ||| 2 ^ 63) &&& 2 ^ 63 ≠ 0 := by
    intro zero
    rw [zero] at bit
    simp at bit
  simpa [isSyn, setAck, seqNumMsb] using set

theorem seqNum_eq_mod (msg : Message) : seqNum msg = msg.linkSeqNum % 2 ^ 63 := by
  rw [← Nat.and_two_pow_sub_one_eq_mod]
  rfl

theorem seqNum_of_lt {msg : Message} (small : msg.linkSeqNum < 2 ^ 63) :
    seqNum msg = msg.linkSeqNum := by
  rw [seqNum_eq_mod, Nat.mod_eq_of_lt small]

/-- An ack keeps the number it acknowledges. -/
theorem seqNum_setAck (msg : Message) : seqNum (setAck msg) = seqNum msg := by
  have low : (msg.linkSeqNum ||| 2 ^ 63) % 2 ^ 63 = msg.linkSeqNum % 2 ^ 63 := by
    rw [Nat.or_mod_two_pow, Nat.mod_self, Nat.or_zero]
  simpa [seqNum_eq_mod, setAck, seqNumMsb] using low

/-! ## The link below -/

/-- A datagram on the network: where it goes, and the message it carries. -/
abbrev Datagram := Nat × Message

/-- `FairLossLink::send` of process `id`, which signs what it sends. -/
def FairLossLink.send (id receiver : Nat) (msg : Message) : Datagram :=
  (receiver, { msg with sender := id })

theorem resigned {p : Nat} {msg : Message} (signed : msg.sender = p) :
    { msg with sender := p } = msg := by
  subst signed
  rfl

/-! ## The schedule -/

/-- `std::chrono::milliseconds`, in the nanoseconds `steady_clock` counts. -/
def milliseconds (k : Nat) : Nat := k * 1000000

/-- `ExponentialBackoff`, with exact integers for durations and clock readings. -/
structure ExponentialBackoff where
  timeout : Nat
  retryAt : Nat
  deriving DecidableEq, Repr

/-- The constructor, at time `now`. -/
def ExponentialBackoff.start (now : Nat) : ExponentialBackoff :=
  { timeout := milliseconds 100, retryAt := now + milliseconds 100 }

/-- `ExponentialBackoff::retry`, at time `now`. -/
def ExponentialBackoff.retry (backoff : ExponentialBackoff) (now : Nat) : ExponentialBackoff :=
  { timeout := backoff.timeout * 2, retryAt := now + backoff.timeout * 2 }

/-- `Entry`: a message to be sent again until it is acknowledged. -/
structure Entry where
  msg : Message
  backoff : ExponentialBackoff
  deriving DecidableEq, Repr

/-- `EntryQueue`, a priority queue with the earliest `next_timeout` on top. -/
abbrev EntryQueue := List Entry

/-- `top` of a schedule, `none` when it is empty. Which of several earliest entries is on top is
not specified, so this is a relation. -/
def EntryQueue.IsTop (scheduled : EntryQueue) : Option Entry → Prop
  | none => scheduled = []
  | some next => next ∈ scheduled ∧ ∀ e ∈ scheduled, next.backoff.retryAt ≤ e.backoff.retryAt

instance (scheduled : EntryQueue) (top : Option Entry) : Decidable (scheduled.IsTop top) :=
  match top with
  | none => inferInstanceAs (Decidable (scheduled = []))
  | some next => inferInstanceAs (Decidable
      (next ∈ scheduled ∧ ∀ e ∈ scheduled, next.backoff.retryAt ≤ e.backoff.retryAt))

/-! ## The worker -/

/-- `PerfectLink::Peer`, with the two locals of its worker thread. -/
structure Peer where
  nextSeqNum : Nat := 0
  delivered : RollingBitset := {}
  incoming : List Message := []
  scheduled : EntryQueue := []
  acknowledged : Finset Nat := ∅

/-- `ConcurrentQueue::try_pop_until`, woken at time `woken`; `none` while it still waits. An item
is taken whenever there is one, and a timeout is reported only once `timePoint` has passed. -/
def tryPopUntil (inner : List Message) (timePoint woken : Nat) :
    Option (Option Message × List Message) :=
  match inner with
  | item :: rest => some (some item, rest)
  | [] => if timePoint ≤ woken then some (none, []) else none

/-- `try_pop`, called at time `now` with `top` on top of the schedule. -/
def tryPop (queue : List Message) (top : Option Entry) (now woken : Nat) :
    Option (Option Message × List Message) :=
  match top with
  | none => tryPopUntil queue (now + milliseconds 500) woken
  | some next =>
    if next.backoff.retryAt > now then tryPopUntil queue next.backoff.retryAt woken
    else some (none, queue)

/-- `handle_timeout` in the worker of `id` for `receiver`, retrying at time `later`. -/
def handleTimeout (id receiver : Nat) (top : Option Entry) (later : Nat) (peer : Peer) :
    Peer × List Datagram :=
  match top with
  | none => (peer, [])
  | some next =>
    let scheduled := peer.scheduled.erase next
    let num := seqNum next.msg
    if num ∈ peer.acknowledged then
      ({ peer with scheduled, acknowledged := peer.acknowledged.erase num }, [])
    else
      let datagram := FairLossLink.send id receiver next.msg
      let entry := { msg := datagram.2, backoff := next.backoff.retry later }
      ({ peer with scheduled := entry :: scheduled }, [datagram])

/-- The loop body of the worker of `id` for `receiver`. The environment supplies the clock readings
and picks the top of the schedule; `none` where the pick is not a top or the pop still waits. -/
def Peer.work (id receiver : Nat) (top : Option Entry) (now woken later : Nat)
    (peer : Peer) : Option (Peer × List Datagram) :=
  if peer.scheduled.IsTop top then
    match tryPop peer.incoming top now woken with
    | none => none
    | some (none, incoming) => some (handleTimeout id receiver top later { peer with incoming })
    | some (some msg, incoming) =>
      if isSyn msg then
        let entry := { msg, backoff := .start later }
        some ({ peer with incoming, scheduled := entry :: peer.scheduled }, [])
      else
        some ({ peer with incoming, acknowledged := insert (seqNum msg) peer.acknowledged }, [])
  else none

/-- Everything a worker's loop body can do. -/
inductive Peer.Works (id receiver : Nat) (peer : Peer) : Peer → List Datagram → Prop
  | idle : peer.scheduled = [] → peer.Works id receiver peer []
  | schedule {msg : Message} {rest : List Message} {backoff : ExponentialBackoff} :
      peer.incoming = msg :: rest → isSyn msg →
      peer.Works id receiver
        { peer with incoming := rest, scheduled := { msg, backoff } :: peer.scheduled } []
  | acknowledge {msg : Message} {rest : List Message} :
      peer.incoming = msg :: rest → ¬ isSyn msg →
      peer.Works id receiver
        { peer with incoming := rest, acknowledged := insert (seqNum msg) peer.acknowledged } []
  | retire {next : Entry} :
      next ∈ peer.scheduled → seqNum next.msg ∈ peer.acknowledged →
      peer.Works id receiver
        { peer with
          scheduled := peer.scheduled.erase next
          acknowledged := peer.acknowledged.erase (seqNum next.msg) } []
  | retry {next : Entry} {later : Nat} :
      next ∈ peer.scheduled → seqNum next.msg ∉ peer.acknowledged →
      peer.Works id receiver
        { peer with
          scheduled :=
            { msg := { next.msg with sender := id }, backoff := next.backoff.retry later } ::
              peer.scheduled.erase next }
        [FairLossLink.send id receiver next.msg]

/-- `try_pop` either takes the head of the queue or leaves the queue alone. -/
theorem tryPop_cases {queue rest : List Message} {top : Option Entry} {now woken : Nat}
    {item : Option Message} (popped : tryPop queue top now woken = some (item, rest)) :
    (item = none ∧ rest = queue) ∨ ∃ msg, item = some msg ∧ queue = msg :: rest := by
  have until_cases : ∀ timePoint, tryPopUntil queue timePoint woken = some (item, rest) →
      (item = none ∧ rest = queue) ∨ ∃ msg, item = some msg ∧ queue = msg :: rest := by
    intro timePoint waited
    cases queue with
    | nil =>
      simp only [tryPopUntil] at waited
      split at waited <;> cases waited
      exact .inl ⟨rfl, rfl⟩
    | cons msg queue =>
      cases waited
      exact .inr ⟨msg, rfl, rfl⟩
  cases top with
  | none => exact until_cases _ popped
  | some next =>
    simp only [tryPop] at popped
    split at popped
    · exact until_cases _ popped
    · cases popped
      exact .inl ⟨rfl, rfl⟩

theorem Peer.work_cases {id receiver : Nat} {top : Option Entry} {now woken later : Nat}
    {peer peer' : Peer} {sent : List Datagram}
    (worked : peer.work id receiver top now woken later = some (peer', sent)) :
    peer.Works id receiver peer' sent := by
  unfold Peer.work at worked
  split at worked
  next isTop =>
    split at worked
    next => cases worked
    next incoming popped =>
      obtain ⟨-, rfl⟩ | ⟨msg, eq, -⟩ := tryPop_cases popped
      · cases top with
        | none => cases worked; exact .idle isTop
        | some next =>
          simp only [handleTimeout] at worked
          split at worked
          next held => cases worked; exact .retire isTop.1 held
          next open_ => cases worked; exact .retry isTop.1 open_
      · cases eq
    next msg incoming popped =>
      obtain ⟨eq, -⟩ | ⟨msg', eq, split⟩ := tryPop_cases popped
      · cases eq
      · cases eq
        split at worked
        next syn => cases worked; exact .schedule split syn
        next ack => cases worked; exact .acknowledge split ack
  next => cases worked

end CausalBroadcast
