import CausalBroadcast.Link.Process

/-!
# Calls inside one another

The main thread's stack is flat: what a call goes on to call lies where the call was. `Ends` follows
the calls as they are nested in the source. `Inevitable` is about the steps of the thread, between
any two of which the other threads may take theirs, and what ends is inevitable.
-/

namespace CausalBroadcast

variable {σ κ ε : Type}

/-! ## The other threads -/

/-- The other threads of a process went on: the code above the link and the stack are not theirs. -/
structure Process.Others (s s' : Process σ κ) : Prop where
  client : s'.client = s.client
  stack : s'.stack = s.stack
  stopped : s'.stopped = s.stopped

namespace Process

variable {client : Client σ κ ε} {id : Nat} {s : Process σ κ}

/-- A worker is one of the other threads. -/
theorem others_of_work {q : Nat} {top : Option Entry} {now woken later : Nat}
    {r : ProcessReaction σ κ ε}
    (stepped : s.step client id (.work q top now woken later) = some r) : s.Others r.state := by
  obtain ⟨worked, -, rfl⟩ := Option.map_eq_some_iff.mp stepped
  exact ⟨rfl, rfl, rfl⟩

/-- So is the receiver thread. -/
theorem others_of_arrive {n : Nat} (msg : Message) :
    s.Others ((linkMachine n client).arrive msg s) := ⟨rfl, rfl, rfl⟩

end Process

/-- Whatever the other threads do meanwhile, the main thread comes to a state with `goal` before it
stops or blocks. -/
inductive Inevitable (client : Client σ κ ε) (id : Nat) (goal : Process σ κ → Prop) :
    Process σ κ → Prop
  | now {s : Process σ κ} : goal s → Inevitable client id goal s
  | later {s : Process σ κ} :
      (∀ s', s.Others s' → (s'.step client id .main).isSome) →
      (∀ s' r, s.Others s' → s'.step client id .main = some r → Inevitable client id goal r.state) →
      Inevitable client id goal s

/-- What leads to one goal, and from there to another, leads to the other. -/
theorem Inevitable.bind {client : Client σ κ ε} {id : Nat} {s : Process σ κ}
    {goal goal' : Process σ κ → Prop} (first : Inevitable client id goal s)
    (next : ∀ s', goal s' → Inevitable client id goal' s') : Inevitable client id goal' s := by
  induction first with
  | now there => exact next _ there
  | later goes _ ih => exact .later goes ih

/-! ## Running a call to its end -/

section
variable (client : Client σ κ ε) (id : Nat) (counts : κ → Bool)

/-- One for the calls that are counted. -/
def Frame.weight : Frame κ → Nat
  | .client c => (counts c).toNat
  | .send .. | .transmit .. | .receive _ => 0

/-- What a call does to the code above the link. -/
def Frame.after (frame : Frame κ) (s : Process σ κ) : σ :=
  (frame.run client id { s with stack := [] }).state.client

/-- The calls a call goes on to make. -/
def Frame.calls (frame : Frame κ) (s : Process σ κ) : List (Frame κ) :=
  (frame.run client id { s with stack := [] }).state.stack

/-- The calls on a stack, made where the code above the link is in a given state, end one after the
other, whatever the other threads do meanwhile, and leave it in a state with `Q`. At no time are more
than `depth` counted calls under way inside one another. -/
inductive Ends : Nat → List (Frame κ) → σ → (σ → Prop) → Prop
  | nil {depth : Nat} {state : σ} {Q : σ → Prop} : Q state → Ends depth [] state Q
  | cons {depth inner : Nat} {frame : Frame κ} {rest : List (Frame κ)} {state : σ}
      {Q : σ → Prop} (R : σ → Prop) :
      frame.weight counts + inner ≤ depth →
      (∀ s : Process σ κ, s.client = state →
        Ends inner (frame.calls client id s) (frame.after client id s) R) →
      (∀ state', R state' → Ends depth rest state' Q) →
      Ends depth (frame :: rest) state Q

/-- A call returns, with at most `depth` counted calls under way inside one another. -/
structure Returns (depth : Nat) (c : κ) (state : σ) : Prop where
  ends : Ends client id counts depth [.client c] state fun _ => True
  /-- the main thread comes back to the calls below -/
  back : ∀ (s : Process σ κ) (below : List (Frame κ)), s.client = state → s.stopped = false →
    s.stack = .client c :: below → Inevitable client id (fun s' => s'.stack = below) s

end

variable {client : Client σ κ ε} {id : Nat} {counts : κ → Bool} {depth depth' : Nat}
  {frames frames' : List (Frame κ)} {state : σ} {Q R : σ → Prop}

/-- What lies below a call has no part in it. -/
theorem Frame.run_below (frame : Frame κ) (s : Process σ κ) (below : List (Frame κ)) :
    (frame.run client id { s with stack := below }).state.stack =
        frame.calls client id s ++ below ∧
      (frame.run client id { s with stack := below }).state.client = frame.after client id s := by
  unfold Frame.calls Frame.after
  cases frame with
  | transmit receiver msg => exact ⟨rfl, rfl⟩
  | client c => exact ⟨by simp [Frame.run], rfl⟩
  | send receiver msg =>
    simp only [Frame.run, PerfectLink.send]
    split <;> exact ⟨rfl, rfl⟩
  | receive msg =>
    simp only [Frame.run, PerfectLink.deliver]
    split
    · exact ⟨rfl, rfl⟩
    · split <;> exact ⟨rfl, rfl⟩

@[simp] theorem Frame.calls_client (c : κ) (s : Process σ κ) :
    (Frame.client c).calls client id s = (client.run id c s.client).calls.map Request.frame := by
  simp [Frame.calls, Frame.run]

@[simp] theorem Frame.after_client (c : κ) (s : Process σ κ) :
    (Frame.client c).after client id s = (client.run id c s.client).state := rfl

namespace Ends

/-- Less is asked of the end, and more calls may be under way. -/
theorem mono (ends : Ends client id counts depth frames state Q) (deeper : depth ≤ depth')
    (weaker : ∀ state', Q state' → R state') : Ends client id counts depth' frames state R := by
  induction ends generalizing depth' R with
  | nil holds => exact .nil (weaker _ holds)
  | cons middle shallow first _ _ ih =>
    exact .cons middle (shallow.trans deeper) first fun state' holds => ih state' holds deeper weaker

/-- The calls of one stack, then those of another. -/
theorem append (first : Ends client id counts depth frames state R)
    (next : ∀ state', R state' → Ends client id counts depth frames' state' Q) :
    Ends client id counts depth (frames ++ frames') state Q := by
  generalize same : R = P at first
  induction first with
  | nil holds => exact next _ (same ▸ holds)
  | cons middle shallow first _ _ ih =>
    exact .cons middle shallow first fun state' holds => ih state' holds next same

/-- What each call of a kind keeps, and the calls it goes on to make are of that kind, holds at the
end. -/
theorem frame {P : σ → Prop} {kind : Frame κ → Prop}
    (ends : Ends client id counts depth frames state Q) (all : ∀ f ∈ frames, kind f)
    (holds : P state)
    (kept : ∀ f (s : Process σ κ), kind f → P s.client →
      (∀ f' ∈ f.calls client id s, kind f') ∧ P (f.after client id s)) :
    Ends client id counts depth frames state fun state' => Q state' ∧ P state' := by
  induction ends with
  | nil there => exact .nil ⟨there, holds⟩
  | cons middle shallow _ _ called rested =>
    obtain ⟨first, others⟩ := List.forall_mem_cons.mp all
    refine .cons (fun state' => middle state' ∧ P state') shallow (fun s same => ?_)
      fun state' both => rested state' both.1 others both.2
    obtain ⟨calls, after⟩ := kept _ s first (same ▸ holds)
    exact called s same calls after

/-- The main thread gets to the end, and back to the calls below. -/
theorem inevitable (ends : Ends client id counts depth frames state Q) {s : Process σ κ}
    {below : List (Frame κ)} (same : s.client = state) (running : s.stopped = false)
    (stack : s.stack = frames ++ below) :
    Inevitable client id
      (fun s' => s'.stack = below ∧ Q s'.client ∧ s'.stopped = false) s := by
  induction ends generalizing s below with
  | nil holds => exact .now ⟨stack, same ▸ holds, running⟩
  | @cons depth inner frame rest state Q middle shallow _ _ called rested =>
    have steps : ∀ s', s.Others s' → s'.step client id .main =
        some (frame.run client id { s' with stack := rest ++ below }) := by
      intro s' others
      have top : s'.stack = frame :: (rest ++ below) := others.stack.trans stack
      have goes : s'.stopped = false := others.stopped.trans running
      simp [Process.step, Process.main, top, goes]
    refine .later (fun s' others => by simp [steps s' others]) ?_
    intro s' r others stepped
    rw [steps s' others, Option.some.injEq] at stepped
    subst stepped
    obtain ⟨pushed, changed⟩ := @Frame.run_below σ κ ε client id frame s' (rest ++ below)
    have goes : (frame.run client id { s' with stack := rest ++ below }).state.stopped = false := by
      rw [Frame.run_stopped]
      exact others.stopped.trans running
    refine (called s' (others.client.trans same) changed goes pushed).bind ?_
    rintro s'' ⟨stack, holds, running⟩
    exact rested _ holds rfl running stack

theorem returns {c : κ} (ends : Ends client id counts depth [.client c] state Q) :
    Returns client id counts depth c state where
  ends := ends.mono le_rfl fun _ _ => trivial
  back _ _ same running stack :=
    (ends.inevitable same running stack).bind fun _ there => .now there.1

/-- One call above the link: its body, then the calls that makes. -/
theorem call {c : κ} {inner : Nat} (shallow : (counts c).toNat + inner ≤ depth)
    (body : Ends client id counts inner ((client.run id c state).calls.map Request.frame)
      (client.run id c state).state Q) : Ends client id counts depth [.client c] state Q := by
  refine .cons Q shallow ?_ fun _ => .nil
  intro s same
  subst same
  simpa using body

/-- A message passed to the link: one to the process itself is handed over at once, and of the others
the code above the link sees nothing. -/
theorem send {receiver : Nat} {msg : Message}
    (self : receiver = id → ∀ copy : Message, copy.payload = msg.payload →
      Ends client id counts depth [.client (client.deliver copy)] state Q)
    (other : receiver ≠ id → Q state) :
    Ends client id counts depth [.send receiver msg] state Q := by
  refine .cons Q (Nat.zero_add depth).le ?_ fun _ => .nil
  intro s same
  subst same
  simp only [Frame.calls, Frame.after, Frame.run, PerfectLink.send]
  split
  next itself => exact self itself.symm _ rfl
  next away =>
    refine .cons Q (Nat.zero_add depth).le ?_ fun _ => .nil
    intro s' same
    have left : Q s'.client := same ▸ other fun itself => away itself.symm
    exact .nil left

end Ends

end CausalBroadcast
