import CausalBroadcast.Link.Provenance

/-!
# The calls above the link

What the code above a link can tell of a step of its process: the calls it waits for return, and
what the link makes of its sends. The link's own frames, peers and queue are left out of `View`, and
`Moves` is everything a step can do to what remains.
-/

namespace CausalBroadcast

open Async

variable {σ κ ε : Type}

/-- The request a call on the stack is; the link's own calls are none. -/
def Frame.request : Frame κ → Option (Request κ)
  | .send receiver msg => some (.send receiver msg)
  | .client c => some (.call c)
  | .transmit .. | .receive .. => none

/-- The requests on a stack, topmost first. -/
def requestsOf (stack : List (Frame κ)) : List (Request κ) := stack.filterMap Frame.request

section
variable (stack : List (Frame κ))

@[simp] theorem requestsOf_nil : requestsOf ([] : List (Frame κ)) = [] := rfl

@[simp] theorem requestsOf_send (receiver : Nat) (msg : Message) :
    requestsOf (.send receiver msg :: stack) = .send receiver msg :: requestsOf stack := rfl

@[simp] theorem requestsOf_client (c : κ) :
    requestsOf (.client c :: stack) = .call c :: requestsOf stack := rfl

@[simp] theorem requestsOf_transmit (receiver : Nat) (msg : Message) :
    requestsOf (.transmit receiver msg :: stack) = requestsOf stack := rfl

@[simp] theorem requestsOf_receive (msg : Message) :
    requestsOf (.receive msg :: stack) = requestsOf stack := rfl

@[simp] theorem requestsOf_frames (calls : List (Request κ)) :
    requestsOf (calls.map Request.frame ++ stack) = calls ++ requestsOf stack := by
  induction calls with
  | nil => rfl
  | cons call calls ih => cases call <;> simp [Request.frame, ih]

@[simp] theorem requestsOf_calls (calls : List κ) :
    requestsOf (calls.map Frame.client) = calls.map Request.call := by
  induction calls with
  | nil => rfl
  | cons c calls ih => simp [ih]

end

/-- The state of the code above the link, and the requests on the stack. -/
structure View (σ κ : Type) where
  state : σ
  requests : List (Request κ) := []

/-- A process as the code above the link sees it. -/
def Process.view (s : Process σ κ) : View σ κ :=
  { state := s.client, requests := requestsOf s.stack }

@[simp] theorem Process.view_state (s : Process σ κ) : s.view.state = s.client := rfl

@[simp] theorem Process.view_requests (s : Process σ κ) :
    s.view.requests = requestsOf s.stack := rfl

/-- Everything a step of process `id` can do to its view, with `h` observed so far. -/
inductive Moves (client : Client σ κ ε) (h : List (Nat × Event ε)) (id : Nat) :
    View σ κ → View σ κ → List (Event ε) → Prop
  /-- Only the link's part of the process changes. -/
  | silent {v : View σ κ} : Moves client h id v v []
  /-- The main loop pops a message. -/
  | poll {a a' : σ} : client.loop a true = some (.receive a') →
      Moves client h id { state := a } { state := a' } []
  /-- The main loop makes calls. -/
  | call {a a' : σ} {calls : List κ} {nonempty : Bool} :
      client.loop a nonempty = some (.call a' calls) →
      Moves client h id { state := a } { state := a', requests := calls.map Request.call } []
  /-- A message sent to itself comes back at once. -/
  | sendSelf {a : σ} {msg copy : Message} {rest : List (Request κ)} :
      copy.payload = msg.payload → copy.sender = id →
      Moves client h id { state := a, requests := .send id msg :: rest }
        { state := a, requests := .call (client.deliver copy) :: rest }
        [.send id copy, .deliver copy]
  | sendPeer {a : σ} {receiver : Nat} {msg copy : Message} {rest : List (Request κ)} :
      receiver ≠ id → copy.payload = msg.payload → copy.sender = id →
      Moves client h id { state := a, requests := .send receiver msg :: rest }
        { state := a, requests := rest } [.send receiver copy]
  /-- The link hands over a message of another process. -/
  | take {a : σ} {msg : Message} : msg.sender ≠ id → SentTo h msg.sender id msg →
      Moves client h id { state := a }
        { state := a, requests := [.call (client.deliver msg)] } [.deliver msg]
  | run {a : σ} {c : κ} {rest : List (Request κ)} :
      Moves client h id { state := a, requests := .call c :: rest }
        { state := (client.run id c a).state, requests := (client.run id c a).calls ++ rest }
        ((client.run id c a).events.map Event.client)
  | stop {a : σ} {requests : List (Request κ)} :
      Moves client h id { state := a, requests } { state := client.stop a, requests } []

variable {n : Nat} {client : Client σ κ ε} {w : World Nat (Process σ κ) (Event ε) Message}

/-- A message taken from the queue is handed over before anything else is called. -/
theorem receive_alone (reach : (linkMachine n client).Reachable w) (p : Nat) {msg : Message}
    (mem : Frame.receive msg ∈ (w.nodes p).stack) : (w.nodes p).stack = [.receive msg] := by
  have invariant := reach.locally (P := fun _ s _ => ∀ msg, Frame.receive msg ∈ s.stack →
    s.stack = [.receive msg]) ?_ ?_ ?_ p
  · exact invariant msg mem
  · intro i msg mem
    cases mem
  · intro w i a r reach ih stepped msg mem
    have none_below : ∀ {f : Frame κ} {rest : List (Frame κ)}, (w.nodes i).stack = f :: rest →
        Frame.receive msg ∉ rest := by
      intro f rest top old
      have alone := ih msg (top ▸ List.mem_cons_of_mem _ old)
      rw [top, List.cons.injEq] at alone
      rw [alone.2] at old
      cases old
    have no_request : ∀ calls : List (Request κ), Frame.receive msg ∉ calls.map Request.frame := by
      intro calls mem
      obtain ⟨call, -, same⟩ := List.mem_map.mp mem
      cases call <;> cases same
    cases (linkMachine_step_cases stepped).2 with
    | poll running idle queue polled =>
      obtain rfl : _ = _ := by simpa using mem
      rfl
    | call running idle polled => simp at mem
    | sendSelf running top => simp [none_below top] at mem
    | sendPeer running other top => simp [none_below top] at mem
    | transmit running top => exact absurd mem (none_below top)
    | takeAck running top ack => exact absurd mem (none_below top)
    | takeNew running top syn fresh => simp [none_below top] at mem
    | takeOld running top syn seen => simp [none_below top] at mem
    | client running top =>
      simp only [Process.push_stack, List.mem_append] at mem
      exact absurd mem (not_or.mpr ⟨no_request _, none_below top⟩)
    | work works => exact ih msg mem
    | stop running => exact ih msg mem
  · intro w i m reach sent ih
    exact ih

/-- A step moves the view. -/
theorem moves_of_step (reach : (linkMachine n client).Reachable w) {p : Nat} {act : Act}
    {r : ProcessReaction σ κ ε} (stepped : (linkMachine n client).step p act (w.nodes p) = some r) :
    p < n ∧ Moves client w.history p (w.nodes p).view r.state.view r.events := by
  obtain ⟨inside, steps⟩ := linkMachine_step_cases stepped
  refine ⟨inside, ?_⟩
  have ok := ((Provenance.carried n client).holds reach).1 p
  have alone := fun msg => @receive_alone _ _ _ _ _ _ reach p msg
  generalize w.nodes p = s at *
  have seen : s.view = { state := s.client, requests := requestsOf s.stack } := rfl
  cases steps with
  | poll running idle queue polled =>
    rw [seen, idle]
    exact .poll polled
  | call running idle polled =>
    rw [seen, idle, Process.view, requestsOf_calls]
    exact .call polled
  | @sendSelf msg stack running top =>
    rw [seen, top]
    exact .sendSelf (rfl : _ = msg.payload) rfl
  | @sendPeer receiver msg stack running other top =>
    rw [seen, top]
    exact .sendPeer other (rfl : _ = msg.payload) rfl
  | transmit running top =>
    rw [seen, top]
    exact .silent
  | takeAck running top ack =>
    rw [seen, top]
    exact .silent
  | @takeNew msg stack running top syn fresh =>
    have last : stack = [] := by
      have sole := alone msg (top ▸ List.mem_cons_self)
      rw [top] at sole
      exact (List.cons.inj sole).2
    have packet : Provenance.Packet w.history p msg :=
      ok.stack (.receive msg) (top ▸ List.mem_cons_self)
    rw [seen, top, last]
    exact .take packet.1 (packet.2 syn)
  | takeOld running top syn seenBefore =>
    rw [seen, top]
    exact .silent
  | client running top =>
    rw [seen, top, Process.view, Process.push_stack, requestsOf_frames]
    exact .run
  | work works => exact .silent
  | stop running => exact .stop

/-! ## Induction rules for views -/

/-- What the moves of one process preserve of its view and its own events. -/
theorem view_locally {P : Nat → View σ κ → List (Event ε) → Prop}
    (init : ∀ i, P i { state := client.init i } [])
    (move : ∀ {w : World Nat (Process σ κ) (Event ε) Message} {i : Nat} {v : View σ κ}
      {es : List (Event ε)}, (linkMachine n client).Reachable w → i < n →
      Moves client w.history i (w.nodes i).view v es →
      P i (w.nodes i).view (eventsOf i w.history) → P i v (eventsOf i w.history ++ es))
    (reach : (linkMachine n client).Reachable w) (p : Nat) :
    P p (w.nodes p).view (eventsOf p w.history) := by
  refine reach.locally (P := fun i s es => P i s.view es) init ?_ ?_ p
  · intro w i a r reach ih stepped
    obtain ⟨inside, moves⟩ := moves_of_step reach stepped
    exact move reach inside moves ih
  · intro w i msg reach sent ih
    exact ih

/-- What the moves of every process preserve of its view and the whole history, when nothing is
lost as others go on. -/
theorem view_globally {L : List (Nat × Event ε) → Nat → View σ κ → Prop}
    (init : ∀ i, L [] i { state := client.init i })
    (later : ∀ {h : List (Nat × Event ε)} {i j : Nat} {v : View σ κ} (es : List (Event ε)),
      j ≠ i → L h i v → L (h ++ es.map (Prod.mk j)) i v)
    (move : ∀ {w : World Nat (Process σ κ) (Event ε) Message} {i : Nat} {v : View σ κ}
      {es : List (Event ε)}, (linkMachine n client).Reachable w → i < n →
      Moves client w.history i (w.nodes i).view v es →
      (∀ j, L w.history j (w.nodes j).view) → L (w.history ++ es.map (Prod.mk i)) i v)
    (reach : (linkMachine n client).Reachable w) (p : Nat) :
    L w.history p (w.nodes p).view := by
  have carried : Machine.Carried (linkMachine n client) (fun h i s => L h i s.view)
      (fun _ _ _ => True) := {
    init := init
    act := fun reach ok stepped =>
      have moves := moves_of_step reach stepped
      ⟨move reach moves.1 moves.2 ok, fun _ _ => trivial⟩
    arrive := fun ok _ => ok
    later := fun es other ok => later es other ok
    laterPacket := fun _ _ => trivial }
  exact (carried.holds reach).1 p

/-- What every request has when it is made, whatever the state, every request on a stack has. -/
theorem requests_have {R : Nat → Request κ → Prop}
    (loop : ∀ {i : Nat} {a a' : σ} {calls : List κ} {nonempty : Bool},
      client.loop a nonempty = some (.call a' calls) → ∀ c ∈ calls, R i (.call c))
    (deliver : ∀ i msg, R i (.call (client.deliver msg)))
    (run : ∀ i c a, ∀ r ∈ (client.run i c a).calls, R i r)
    (reach : (linkMachine n client).Reachable w) (p : Nat) :
    ∀ r ∈ requestsOf (w.nodes p).stack, R p r := by
  refine view_locally (P := fun i v _ => ∀ r ∈ v.requests, R i r) ?_ ?_ reach p
  · exact fun i => List.forall_mem_nil _
  · intro w i v es _ _ moves ok
    generalize (w.nodes i).view = before at moves ok
    intro r mem
    cases moves with
    | silent | stop => exact ok r mem
    | poll turn => cases mem
    | call turn =>
      obtain ⟨c, listed, rfl⟩ := List.mem_map.mp mem
      exact loop turn c listed
    | sendSelf same signed =>
      rcases List.mem_cons.mp mem with rfl | old
      · exact deliver i _
      · exact ok r (List.mem_cons_of_mem _ old)
    | sendPeer other same signed => exact ok r (List.mem_cons_of_mem _ mem)
    | take other sent =>
      obtain rfl := List.mem_singleton.mp mem
      exact deliver i _
    | run =>
      rcases List.mem_append.mp mem with new | old
      · exact run i _ _ r new
      · exact ok r (List.mem_cons_of_mem _ old)

end CausalBroadcast
