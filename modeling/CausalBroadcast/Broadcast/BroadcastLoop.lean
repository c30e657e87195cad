import CausalBroadcast.Broadcast.MainLoop

/-!
# The broadcast loop ends

The loop of `main` that broadcasts, by itself: its variables, the queue the receiver thread fills, and
the calls it makes. However many messages arrive, no more than `num_messages` are received between
two broadcasts, because the budget is used up and only a broadcast renews it.
-/

namespace CausalBroadcast

/-- A call the broadcast loop makes. -/
inductive LoopCall where
  /-- `link.receive(*maybe_msg)` -/
  | receive (msg : Message)
  /-- `broadcast.send(next_msg)` -/
  | send (seqNum : Nat)
  /-- `log.log_broadcast(next_msg)` -/
  | logBroadcast (seqNum : Nat)
  deriving DecidableEq

/-- The variables of the broadcast loop, and the calls it has made. -/
structure BroadcastLoop where
  /-- a `BroadcastSeqNum` -/
  nextMsg : Nat := 0
  subsequentRecvs : Nat
  messageQueue : List Message := []
  calls : List LoopCall := []

/-- `ConcurrentQueue::try_pop`. -/
def ConcurrentQueue.tryPop {T : Type} (inner : List T) : Option (T × List T) :=
  match inner with
  | [] => none
  | item :: rest => some (item, rest)

namespace BroadcastLoop

/-- The variables before the loop. -/
def start (numMessages : UInt32) : BroadcastLoop := { subsequentRecvs := numMessages.toNat }

/-- One iteration, after `arrived` came into the queue: `none` where the condition of the loop is
false. The queue is not looked at where the budget is used up. -/
def iterate (numMessages : UInt32) (arrived : List Message) (l : BroadcastLoop) :
    Option BroadcastLoop :=
  if l.nextMsg < numMessages.toNat then
    let queue := l.messageQueue ++ arrived
    match if l.subsequentRecvs > 0 then ConcurrentQueue.tryPop queue else none with
    | some (msg, rest) => some { l with
        subsequentRecvs := l.subsequentRecvs - 1
        messageQueue := rest
        calls := l.calls ++ [.receive msg] }
    | none => some {
        subsequentRecvs := numMessages.toNat
        messageQueue := queue
        calls := l.calls ++ [.send l.nextMsg, .logBroadcast l.nextMsg]
        nextMsg := succ32 l.nextMsg }
  else none

/-- Everything an iteration can do. -/
inductive Iterates (numMessages : UInt32) (arrived : List Message) (l : BroadcastLoop) :
    BroadcastLoop → Prop
  | receive {msg : Message} {rest : List Message} : l.nextMsg < numMessages.toNat →
      0 < l.subsequentRecvs → l.messageQueue ++ arrived = msg :: rest →
      l.Iterates numMessages arrived { l with
        subsequentRecvs := l.subsequentRecvs - 1
        messageQueue := rest
        calls := l.calls ++ [.receive msg] }
  | send : l.nextMsg < numMessages.toNat →
      (0 < l.subsequentRecvs → l.messageQueue ++ arrived = []) →
      l.Iterates numMessages arrived {
        subsequentRecvs := numMessages.toNat
        messageQueue := l.messageQueue ++ arrived
        calls := l.calls ++ [.send l.nextMsg, .logBroadcast l.nextMsg]
        nextMsg := l.nextMsg + 1 }

variable {numMessages : UInt32} {arrived : List Message} {l l' : BroadcastLoop}

theorem iterate_cases (next : l.iterate numMessages arrived = some l') :
    l.Iterates numMessages arrived l' := by
  unfold iterate at next
  split at next
  next more =>
    have wraps : succ32 l.nextMsg = l.nextMsg + 1 :=
      Nat.mod_eq_of_lt (by have := numMessages.toNat_lt; omega)
    dsimp only at next
    split at next
    next msg rest popped =>
      cases next
      split at popped
      next budget =>
        cases queue : l.messageQueue ++ arrived with
        | nil => rw [queue] at popped; cases popped
        | cons head tail => rw [queue] at popped; cases popped; exact .receive more budget queue
      next => cases popped
    next popped =>
      cases next
      rw [wraps]
      refine .send more fun budget => ?_
      rw [if_pos budget] at popped
      cases queue : l.messageQueue ++ arrived with
      | nil => rfl
      | cons head tail => rw [queue] at popped; cases popped
  next => cases next

/-- An iteration uses up budget, or a message. -/
theorem Iterates.decreases (iterates : l.Iterates numMessages arrived l') :
    Prod.Lex (· < ·) (· < ·) (numMessages.toNat - l'.nextMsg, l'.subsequentRecvs)
      (numMessages.toNat - l.nextMsg, l.subsequentRecvs) := by
  cases iterates with
  | receive more budget queue => exact .right _ (Nat.sub_lt budget Nat.one_pos)
  | send more dry => exact .left _ _ (Nat.sub_lt_sub_left more (Nat.lt_succ_self _))

/-- The loop from iteration `i` on, where `arrivals j` came into the queue before iteration `j`: how
many iterations there were, and the variables after it. -/
def run (numMessages : UInt32) (arrivals : Nat → List Message) (i : Nat) (l : BroadcastLoop) :
    Nat × BroadcastLoop :=
  match next : l.iterate numMessages (arrivals i) with
  | none => (i, l)
  | some l' => run numMessages arrivals (i + 1) l'
termination_by (numMessages.toNat - l.nextMsg, l.subsequentRecvs)
decreasing_by exact (iterate_cases next).decreases

/-- The calls of the broadcasts below `n`, with what was `received` before each. -/
def rounds (received : Nat → List Message) (n : Nat) : List LoopCall :=
  (List.range n).flatMap fun k =>
    (received k).map .receive ++ [.send k, .logBroadcast k]

theorem rounds_succ (received : Nat → List Message) (n : Nat) :
    rounds received (n + 1) = rounds received n ++
      ((received n).map .receive ++ [.send n, .logBroadcast n]) := by
  simp [rounds, List.range_succ]

/-- What is received before later broadcasts does not matter. -/
theorem rounds_update (received : Nat → List Message) {n k : Nat} (later : n ≤ k)
    (msgs : List Message) : rounds (Function.update received k msgs) n = rounds received n := by
  refine List.flatMap_congr fun j mem => ?_
  have below := List.mem_range.mp mem
  rw [Function.update_of_ne (by omega)]

/-- Where the loop is after `i` iterations: `nextMsg` broadcasts are made, and what was received since
the last one is what is missing of the budget. -/
structure Counts (numMessages : UInt32) (i : Nat) (l : BroadcastLoop)
    (received : Nat → List Message) : Prop where
  bound : l.nextMsg ≤ numMessages.toNat
  calls : l.calls = rounds received l.nextMsg ++ (received l.nextMsg).map .receive
  few : ∀ k, (received k).length ≤ numMessages.toNat
  budget : (received l.nextMsg).length + l.subsequentRecvs = numMessages.toNat
  iterations : i ≤ l.nextMsg * (numMessages.toNat + 1) + (received l.nextMsg).length
  last : l.nextMsg = numMessages.toNat → received l.nextMsg = []

theorem Counts.iterate {i : Nat} {received : Nat → List Message}
    (counts : Counts numMessages i l received) (iterates : l.Iterates numMessages arrived l') :
    ∃ received', Counts numMessages (i + 1) l' received' := by
  cases iterates with
  | @receive msg rest more budget queue =>
    refine ⟨Function.update received l.nextMsg (received l.nextMsg ++ [msg]), ?_⟩
    have spare := counts.budget
    exact {
      bound := counts.bound
      calls := by
        rw [rounds_update _ (Nat.le_refl _), Function.update_self, List.map_append,
          ← List.append_assoc, ← counts.calls]
        rfl
      few := fun k => by
        by_cases same : k = l.nextMsg
        · subst same
          rw [Function.update_self, List.length_append, List.length_singleton]
          omega
        · rw [Function.update_of_ne same]
          exact counts.few k
      budget := by
        simp only [Function.update_self, List.length_append, List.length_singleton]
        omega
      iterations := by
        have before := counts.iterations
        simp only [Function.update_self, List.length_append, List.length_singleton]
        omega
      last := fun done => absurd done (Nat.ne_of_lt more) }
  | send more dry =>
    refine ⟨Function.update received (l.nextMsg + 1) [], ?_⟩
    exact {
      bound := more
      calls := by
        rw [rounds_update _ (Nat.le_refl _), Function.update_self, rounds_succ]
        simp [counts.calls]
      few := fun k => by
        by_cases same : k = l.nextMsg + 1
        · subst same
          rw [Function.update_self]
          exact Nat.zero_le _
        · rw [Function.update_of_ne same]
          exact counts.few k
      budget := by
        rw [Function.update_self]
        exact Nat.zero_add _
      iterations := by
        have before := counts.iterations
        have few := counts.few l.nextMsg
        rw [Function.update_self, Nat.add_mul]
        simp only [List.length_nil]
        omega
      last := fun _ => Function.update_self .. }

/-- The loop goes on until every message is broadcast. -/
theorem nextMsg_of_iterate (stopped : l.iterate numMessages arrived = none) :
    numMessages.toNat ≤ l.nextMsg := by
  unfold iterate at stopped
  split at stopped
  · dsimp only at stopped
    split at stopped <;> cases stopped
  next done => exact Nat.le_of_not_lt done

theorem Counts.run {i : Nat} {received : Nat → List Message}
    (counts : Counts numMessages i l received) (arrivals : Nat → List Message) : ∃ received',
      Counts numMessages (run numMessages arrivals i l).1 (run numMessages arrivals i l).2 received' ∧
      (run numMessages arrivals i l).2.nextMsg = numMessages.toNat := by
  fun_induction BroadcastLoop.run numMessages arrivals i l generalizing received with
  | case1 i l stopped =>
    exact ⟨received, counts, Nat.le_antisymm counts.bound (nextMsg_of_iterate stopped)⟩
  | case2 i l l' next ih =>
    obtain ⟨received', counts'⟩ := counts.iterate (iterate_cases next)
    exact ih counts'

/-- **The broadcast loop ends, whatever arrives**: after at most `m * (m + 1)` iterations, `m` being the
number of messages, it has sent and logged each of them once, in order, with at most `m` receptions
before each. -/
theorem run_ends (numMessages : UInt32) (arrivals : Nat → List Message) :
    let m := numMessages.toNat
    let (iterations, l) := run numMessages arrivals 0 (start numMessages)
    iterations ≤ m * (m + 1) ∧ l.nextMsg = m ∧
      ∃ received : Nat → List Message, (∀ k, (received k).length ≤ m) ∧
        l.calls = (List.range m).flatMap fun k =>
          (received k).map .receive ++ [.send k, .logBroadcast k] := by
  have init : Counts numMessages 0 (start numMessages) fun _ => [] := {
    bound := Nat.zero_le _
    calls := rfl
    few := fun _ => Nat.zero_le _
    budget := Nat.zero_add _
    iterations := Nat.zero_le _
    last := fun _ => rfl }
  obtain ⟨received, counts, done⟩ := init.run arrivals
  have none_ := counts.last done
  have iterations := counts.iterations
  have calls := counts.calls
  rw [none_, done] at iterations calls
  refine ⟨by simpa using iterations, done, received, counts.few, ?_⟩
  simpa [rounds] using calls

/-- The turns that the main loop of a process takes are iterations of this loop: it hands over the first
message of the queue, or broadcasts. -/
theorem Iterates.loop_eq {cfg : Config} {s : Node} (messages : cfg.numMessages = numMessages.toNat)
    (next : s.nextMsg = l.nextMsg) (recvs : s.subsequentRecvs = l.subsequentRecvs)
    (iterates : l.Iterates numMessages arrived l') :
    Node.loop cfg s (!(l.messageQueue ++ arrived).isEmpty) =
      if l'.nextMsg = l.nextMsg then
        some (.receive { s with subsequentRecvs := l'.subsequentRecvs })
      else some (.call { s with subsequentRecvs := l'.subsequentRecvs }
        [.lcbSend l.nextMsg, .logBroadcast l.nextMsg]) := by
  unfold Node.loop
  cases iterates with
  | receive more budget queue =>
    rw [if_pos (by omega), if_pos (by simp [queue]; omega), if_pos rfl, recvs]
  | send more dry =>
    rw [if_pos (by omega), if_neg, if_neg (by simp), next, messages]
    rintro ⟨budget, some_⟩
    simp [dry (recvs ▸ budget)] at some_

end BroadcastLoop

end CausalBroadcast
