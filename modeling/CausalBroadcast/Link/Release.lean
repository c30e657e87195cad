import CausalBroadcast.Link.Numbering

/-!
# What the worker keeps of acks

An ack taken by the worker waits in `acknowledged` for its entry to time out, which retires both. An
ack whose entry was retired before, by an earlier ack of the same message, has nothing left to wait
for and stays.
-/

namespace CausalBroadcast

open Async Process

variable {σ κ ε : Type} {client : Client σ κ ε} {n : Nat} {peer peer' : Peer}

/-- Number `k` is still the worker's business: a message of that number is in its schedule, or
queued for it as a syn. -/
def Peer.Awaits (peer : Peer) (k : Nat) : Prop :=
  (∃ e ∈ peer.scheduled, seqNum e.msg = k) ∨ ∃ msg ∈ peer.incoming, isSyn msg ∧ seqNum msg = k

/-- Every acknowledged number is still the worker's business. -/
def Peer.Released (peer : Peer) : Prop := ∀ k ∈ peer.acknowledged, peer.Awaits k

/-- An ack that the worker takes out of its queue is for a number that is still its business. -/
def Peer.TakesAwaited (peer : Peer) (top : Option Entry) (now woken : Nat) : Prop :=
  ∀ msg rest, tryPop peer.incoming top now woken = some (some msg, rest) → isSyn msg = false →
    peer.Awaits (seqNum msg)

/-- Once there is nothing left to send, nothing is left of the acks. -/
theorem Peer.Released.empty (released : peer.Released) (done : peer.scheduled = [])
    (drained : peer.incoming = []) : peer.acknowledged = ∅ := by
  apply Finset.eq_empty_of_forall_notMem
  intro k mem
  rcases released k mem with ⟨e, there, -⟩ | ⟨msg, there, -⟩
  · exact List.not_mem_nil (done ▸ there)
  · exact List.not_mem_nil (drained ▸ there)

/-- An entry that leaves the schedule is the business of its own number only. -/
theorem Peer.Awaits.erase {next : Entry} {k : Nat} (awaits : peer.Awaits k)
    (other : k ≠ seqNum next.msg) :
    { peer with scheduled := peer.scheduled.erase next }.Awaits k := by
  refine awaits.imp_left fun ⟨e, mem, number⟩ => ⟨e, ?_, number⟩
  refine (List.mem_erase_of_ne ?_).mpr mem
  rintro rfl
  exact other number.symm

/-- A timeout leaves no ack behind. -/
theorem Peer.Released.handleTimeout {id receiver later : Nat} {top : Option Entry}
    (released : peer.Released) : (handleTimeout id receiver top later peer).1.Released := by
  cases top with
  | none => exact released
  | some next =>
    unfold CausalBroadcast.handleTimeout
    dsimp only
    split
    · intro k mem
      have ⟨other, old⟩ := Finset.mem_erase.mp mem
      exact (released k old).erase other
    · intro k mem
      by_cases same : k = seqNum next.msg
      · exact .inl ⟨_, List.mem_cons_self, same ▸ rfl⟩
      · refine ((released k mem).erase same).imp_left fun ⟨e, there, number⟩ => ?_
        exact ⟨e, List.mem_cons_of_mem _ there, number⟩

/-- The worker's loop body leaves no ack behind exactly when it takes no ack that is late. -/
theorem Peer.released_of_work {id receiver now woken later : Nat} {top : Option Entry}
    {sent : List Datagram} (released : peer.Released)
    (worked : peer.work id receiver top now woken later = some (peer', sent)) :
    peer'.Released ↔ peer.TakesAwaited top now woken := by
  unfold Peer.work at worked
  split at worked
  · split at worked
    next => cases worked
    next incoming popped =>
      obtain ⟨-, rfl⟩ | ⟨msg, eq, -⟩ := tryPop_cases popped
      · refine iff_of_true ?_ ?_
        · obtain rfl := congrArg Prod.fst (Option.some.inj worked)
          exact released.handleTimeout
        · intro msg rest taken
          rw [popped] at taken
          cases taken
      · cases eq
    next msg incoming popped =>
      obtain ⟨eq, -⟩ | ⟨msg', eq, queue⟩ := tryPop_cases popped
      · cases eq
      cases eq
      split at worked
      next syn =>
        cases worked
        refine iff_of_true ?_ ?_
        · intro k mem
          rcases released k mem with ⟨e, there, number⟩ | ⟨queued, there, isQueued, number⟩
          · exact .inl ⟨e, List.mem_cons_of_mem _ there, number⟩
          · rw [queue] at there
            rcases List.mem_cons.mp there with rfl | there
            · exact .inl ⟨_, List.mem_cons_self, number⟩
            · exact .inr ⟨queued, there, isQueued, number⟩
        · intro msg' rest taken ack
          rw [popped] at taken
          cases taken
          exact absurd (syn.symm.trans ack) (by decide)
      next notSyn =>
        cases worked
        have ack : isSyn msg = false := Bool.not_eq_true _ ▸ notSyn
        -- a syn in the queue is behind the ack
        have behind : ∀ k, peer.Awaits k ↔ { peer with incoming }.Awaits k := by
          intro k
          refine or_congr_right ⟨?_, ?_⟩
          · rintro ⟨queued, there, isQueued, number⟩
            rw [queue] at there
            rcases List.mem_cons.mp there with rfl | there
            · exact absurd isQueued notSyn
            · exact ⟨queued, there, isQueued, number⟩
          · rintro ⟨queued, there, rest⟩
            exact ⟨queued, queue ▸ List.mem_cons_of_mem _ there, rest⟩
        constructor
        · intro released' msg' rest taken _
          rw [popped] at taken
          cases taken
          exact (behind _).mpr (released' _ (Finset.mem_insert_self ..))
        · intro awaited k mem
          rcases Finset.mem_insert.mp mem with rfl | old
          · exact (behind _).mp (awaited msg incoming popped ack)
          · exact (behind _).mp (released k old)
  · cases worked

theorem Peer.Released.enqueue (released : peer.Released) (msg : Message) :
    (peer.enqueue msg).Released :=
  fun k mem => (released k mem).imp_right fun ⟨queued, there, rest⟩ =>
    ⟨queued, List.mem_append_left _ there, rest⟩

/-- The main thread only queues. -/
theorem Process.released_of_main {id : Nat} {s : Process σ κ} {r : ProcessReaction σ κ ε}
    (released : ∀ q, (s.peers q).Released) (stepped : s.main client id = some r) (q : Nat) :
    (r.state.peers q).Released := by
  unfold Process.main at stepped
  split at stepped
  next frame stack top =>
    cases stepped
    cases frame with
    | transmit receiver msg => exact released q
    | client c => exact released q
    | send receiver msg =>
      have advanced : (s.peers receiver).advance.Released := released receiver
      simp only [Frame.run, PerfectLink.send]
      split
      · exact setPeer_elim (fun _ => advanced) fun _ => released q
      · exact setPeer_elim (fun _ => advanced.enqueue _) fun _ => released q
    | receive msg =>
      have marked : ∀ num, ((s.peers msg.sender).markDelivered num).Released := fun _ =>
        released msg.sender
      simp only [Frame.run, PerfectLink.deliver]
      split
      · exact setPeer_elim (fun _ => (released msg.sender).enqueue msg) fun _ => released q
      · split
        · exact setPeer_elim (fun _ => marked _) fun _ => released q
        · exact released q
  next =>
    split at stepped <;> cases stepped <;> exact released q

/-! ## Over whole runs -/

/-- A world of processes over the link. -/
abbrev LinkWorld (σ κ ε : Type) := World Nat (Process σ κ) (Event ε) Message

/-- No worker takes an ack that is for nothing that it still has to send. -/
def NoLateAck (w : LinkWorld σ κ ε) (p : Nat) : Act → Prop
  | .work q top now woken _ => ((w.nodes p).peers q).TakesAwaited top now woken
  | .main | .stop => True

/-- The step leaves no ack behind. -/
def LeavesReleased (n : Nat) (client : Client σ κ ε) (w : LinkWorld σ κ ε) (p : Nat) (act : Act) :
    Prop :=
  ∀ r, (linkMachine n client).step p act (w.nodes p) = some r → ∀ q, (r.state.peers q).Released

/-- Where nothing was left behind, a step leaves nothing behind exactly when it takes no late ack. -/
theorem leavesReleased_iff {w : LinkWorld σ κ ε} {p : Nat} {act : Act}
    {r : ProcessReaction σ κ ε} (released : ∀ q, ((w.nodes p).peers q).Released)
    (stepped : (linkMachine n client).step p act (w.nodes p) = some r) :
    LeavesReleased n client w p act ↔ NoLateAck w p act := by
  have only : LeavesReleased n client w p act ↔ ∀ q, (r.state.peers q).Released := by
    constructor
    · exact fun leaves => leaves r stepped
    · intro leaves r' stepped'
      obtain rfl := Option.some.inj (stepped.symm.trans stepped')
      exact leaves
  rw [only]
  simp only [linkMachine, Option.ite_none_right_eq_some] at stepped
  obtain ⟨-, stepped⟩ := stepped
  cases act with
  | work q top now woken later =>
    obtain ⟨⟨peer, sent⟩, worked, rfl⟩ := Option.map_eq_some_iff.mp stepped
    have exactly := Peer.released_of_work (released q) worked
    constructor
    · intro leaves
      exact exactly.mp (by simpa using leaves q)
    · intro awaited q'
      exact setPeer_elim (fun _ => exactly.mpr awaited) fun _ => released q'
  | stop =>
    simp only [Process.step] at stepped
    split at stepped
    · cases stepped
    · cases stepped
      exact iff_of_true released trivial
  | main =>
    simp only [Process.step] at stepped
    split at stepped
    · cases stepped
    · exact iff_of_true (Process.released_of_main released stepped) trivial

/-- In a run without late acks nothing is left behind. -/
theorem released_of_noLateAck {w : LinkWorld σ κ ε}
    (run : (linkMachine n client).ReachableBy NoLateAck w) (p q : Nat) :
    ((w.nodes p).peers q).Released := by
  induction run generalizing p q with
  | start => exact fun k mem => absurd mem (Finset.notMem_empty k)
  | @act w i act r run timely stepped ih =>
    by_cases same : p = i
    · subst same
      have leaves := (leavesReleased_iff (ih p) stepped).mpr timely
      simpa using leaves r stepped q
    · simpa [same] using ih p q
  | @arrive w i msg run sent ih =>
    by_cases same : p = i
    · subst same
      rw [World.replace_self]
      exact ih p q
    · simpa [same] using ih p q

/-- **The link releases its acks** in a run, that is every acknowledged number is of a message still
scheduled or queued as a syn, exactly when no worker takes an ack for a number that is neither. -/
theorem released_iff {w : LinkWorld σ κ ε} :
    ((linkMachine n client).ReachableBy NoLateAck w → ∀ p q,
      ((w.nodes p).peers q).Released ∧
      (((w.nodes p).peers q).scheduled = [] → ((w.nodes p).peers q).incoming = [] →
        ((w.nodes p).peers q).acknowledged = ∅)) ∧
    ((linkMachine n client).ReachableBy NoLateAck w ↔
      (linkMachine n client).ReachableBy (LeavesReleased n client) w) := by
  refine ⟨fun run p q => ?_, fun run => ?_, fun run => ?_⟩
  · have released := released_of_noLateAck run p q
    exact ⟨released, released.empty⟩
  · induction run with
    | start => exact .start
    | act run timely stepped ih =>
      exact ih.act ((leavesReleased_iff (released_of_noLateAck run _) stepped).mpr timely) stepped
    | arrive run sent ih => exact ih.arrive sent
  · induction run with
    | start => exact .start
    | act run leaves stepped ih =>
      exact ih.act ((leavesReleased_iff (released_of_noLateAck ih _) stepped).mp leaves) stepped
    | arrive run sent ih => exact ih.arrive sent

/-- The first process sends its message again after 100 ms, both copies are acknowledged, and the
second ack is taken after the first one has retired the message. -/
theorem not_released : ∃ w, (linkMachine 2 probe).Reachable w ∧
    ¬ ((w.nodes 0).peers 1).Released ∧ ((w.nodes 0).peers 1).scheduled = [] ∧
    ((w.nodes 0).peers 1).incoming = [] ∧ ((w.nodes 0).peers 1).acknowledged ≠ ∅ := by
  let syn : Message := { sender := 0 }
  let ack : Message := { setAck syn with sender := 1 }
  let first : Entry := { msg := syn, backoff := .start 0 }
  let again : Entry := { msg := syn, backoff := first.backoff.retry (milliseconds 100) }
  let ok : LinkWorld Bool Bool Unit → Bool := fun w =>
    ((w.nodes 0).peers 1).scheduled = [] && ((w.nodes 0).peers 1).incoming = [] &&
      0 ∈ ((w.nodes 0).peers 1).acknowledged
  have ran : ((linkMachine 2 probe).execute (linkMachine 2 probe).start
      (List.replicate 6 (.act 0 .main) ++
        [.act 0 (.work 1 none 0 0 0),
          .act 0 (.work 1 (some first) (milliseconds 100) (milliseconds 100) (milliseconds 100)),
          .arrive 1 syn, .arrive 1 syn] ++
        List.replicate 7 (.act 1 .main) ++ [.arrive 0 ack, .arrive 0 ack] ++
        List.replicate 4 (.act 0 .main) ++
        [.act 0 (.work 1 (some again) (milliseconds 200) (milliseconds 200) (milliseconds 200)),
          .act 0 (.work 1 (some again) (milliseconds 300) (milliseconds 300) (milliseconds 300)),
          .act 0 (.work 1 none (milliseconds 300) (milliseconds 300) (milliseconds 300))])).any
      ok := by decide +kernel
  obtain ⟨w, reach, checked⟩ := Machine.exists_reachable ran
  simp only [ok, Bool.and_eq_true, decide_eq_true_eq] at checked
  obtain ⟨⟨done, drained⟩, kept⟩ := checked
  have left := Finset.ne_empty_of_mem kept
  exact ⟨w, reach, fun released => left (released.empty done drained), done, drained, left⟩

end CausalBroadcast
