import CausalBroadcast.Broadcast.Node

/-!
# The main loop

A process broadcasts its messages one after the other, and in between lets what it received run to
its end. `Phase` says where in a turn the main thread is, by the requests on its stack and the
number of messages broadcast so far.
-/

namespace CausalBroadcast

open Async

/-- A request that the main loop's own broadcasting does not consist of. -/
def Request.Passive : Request Call → Prop
  | .call (.lcbSend _) | .call (.urbSend ..) | .call (.logBroadcast _) => False
  | _ => True

@[simp] theorem passive_deliver (cfg : Config) (msg : Message) :
    (Request.call ((Node.client cfg).deliver msg)).Passive := trivial

/-- Where process `p` is in its main loop, with `sent` messages broadcast. -/
inductive Phase (cfg : Config) (p : Nat) (s : Node) (requests : List (Request Call)) (sent : Nat) :
    Prop where
  /-- No broadcast of its own is under way. -/
  | between : (∀ r ∈ requests, r.Passive) → sent = s.nextMsg → Phase cfg p s requests sent
  /-- `broadcast.send` is about to be called. -/
  | starting : s.nextMsg < cfg.numMessages → sent = s.nextMsg →
      requests = [.call (.lcbSend s.nextMsg), .call (.logBroadcast s.nextMsg)] →
      Phase cfg p s requests sent
  /-- The message has its vector clock. -/
  | stamped {msg : Message} : s.nextMsg < cfg.numMessages → sent = s.nextMsg →
      msg.vectorClock = (cfg.depends p).map s.lcb.currentClock →
      requests = [.call (.urbSend s.nextMsg msg), .call (.logBroadcast s.nextMsg)] →
      Phase cfg p s requests sent
  /-- The message is broadcast, and `broadcast.send` has not returned. -/
  | sending {rest : List (Request Call)} : s.nextMsg < cfg.numMessages → sent = s.nextMsg + 1 →
      (∀ r ∈ rest, r.Passive) → requests = rest ++ [.call (.logBroadcast s.nextMsg)] →
      Phase cfg p s requests sent

/-- The main loop's account of what it broadcast and logged. -/
structure MainOk (cfg : Config) (p : Nat) (v : View Node Call) (es : List (Event Notice)) :
    Prop where
  bound : v.state.nextMsg ≤ cfg.numMessages
  phase : Phase cfg p v.state v.requests (urbSends es).length
  numbers : (urbSends es).map Message.bcastSeqNum = List.range (urbSends es).length
  originators : ∀ msg ∈ urbSends es, msg.originator = p
  logged : loggedBroadcasts es = List.range v.state.nextMsg

namespace Phase

variable {cfg : Config} {p sent seqNum : Nat} {s s' : Node} {r : Request Call}
  {rest : List (Request Call)} {msg : Message}

theorem of_nil (phase : Phase cfg p s [] sent) : sent = s.nextMsg := by
  cases phase with
  | between _ same => exact same
  | starting _ _ top | stamped _ _ _ top => cases top
  | sending _ _ _ top => simp at top

theorem of_lcbSend (phase : Phase cfg p s (.call (.lcbSend seqNum) :: rest) sent) :
    seqNum = s.nextMsg ∧ s.nextMsg < cfg.numMessages ∧ sent = s.nextMsg ∧
      rest = [.call (.logBroadcast s.nextMsg)] := by
  cases phase with
  | between passive => exact (passive _ List.mem_cons_self).elim
  | starting more same top => cases top; exact ⟨rfl, more, same, rfl⟩
  | stamped _ _ _ top => cases top
  | @sending below _ _ passive top =>
    cases below with
    | nil => cases top
    | cons r below => cases top; exact (passive _ List.mem_cons_self).elim

theorem of_urbSend (phase : Phase cfg p s (.call (.urbSend seqNum msg) :: rest) sent) :
    seqNum = s.nextMsg ∧ s.nextMsg < cfg.numMessages ∧ sent = s.nextMsg ∧
      msg.vectorClock = (cfg.depends p).map s.lcb.currentClock ∧
      rest = [.call (.logBroadcast s.nextMsg)] := by
  cases phase with
  | between passive => exact (passive _ List.mem_cons_self).elim
  | starting _ _ top => cases top
  | stamped more same clock top => cases top; exact ⟨rfl, more, same, clock, rfl⟩
  | @sending below _ _ passive top =>
    cases below with
    | nil => cases top
    | cons r below => cases top; exact (passive _ List.mem_cons_self).elim

theorem of_logBroadcast (phase : Phase cfg p s (.call (.logBroadcast seqNum) :: rest) sent) :
    seqNum = s.nextMsg ∧ s.nextMsg < cfg.numMessages ∧ sent = s.nextMsg + 1 ∧ rest = [] := by
  cases phase with
  | between passive => exact (passive _ List.mem_cons_self).elim
  | starting _ _ top | stamped _ _ _ top => cases top
  | @sending below more same passive top =>
    cases below with
    | nil => cases top; exact ⟨rfl, more, same, rfl⟩
    | cons r below => cases top; exact (passive _ List.mem_cons_self).elim

/-- What is to be logged is the message under way. -/
theorem lt_of_logBroadcast (phase : Phase cfg p s rest sent)
    (mem : .call (.logBroadcast seqNum) ∈ rest) : seqNum < cfg.numMessages := by
  cases phase with
  | between passive => exact (passive _ mem).elim
  | starting more _ all =>
    obtain rfl : seqNum = s.nextMsg := by simpa [all] using mem
    exact more
  | stamped more _ _ all =>
    obtain rfl : seqNum = s.nextMsg := by simpa [all] using mem
    exact more
  | @sending below more _ passive all =>
    rw [all] at mem
    rcases List.mem_append.mp mem with other | last
    · exact (passive _ other).elim
    · cases List.mem_singleton.mp last
      exact more

/-- A passive request gives way to others. -/
theorem pop (phase : Phase cfg p s (r :: rest) sent) (passive : r.Passive)
    (same : s'.nextMsg = s.nextMsg) (new : List (Request Call)) (others : ∀ r ∈ new, r.Passive) :
    Phase cfg p s' (new ++ rest) sent := by
  have joined : ∀ {below : List (Request Call)}, (∀ r ∈ below, r.Passive) →
      ∀ r ∈ new ++ below, r.Passive :=
    fun passive r mem => (List.mem_append.mp mem).elim (others r) (passive r)
  cases phase with
  | between all count =>
    exact .between (joined fun r mem => all r (List.mem_cons_of_mem _ mem)) (same ▸ count)
  | starting _ _ top | stamped _ _ _ top => cases top; exact passive.elim
  | @sending below more count all top =>
    cases below with
    | nil => cases top; exact passive.elim
    | cons r below =>
      obtain ⟨rfl, rfl⟩ := List.cons.inj top
      refine .sending (same ▸ more) (same ▸ count)
        (joined fun r mem => all r (List.mem_cons_of_mem _ mem)) ?_
      rw [same, List.append_assoc]
      rfl

/-- Only `nextMsg` and the clocks matter. -/
theorem congr (phase : Phase cfg p s rest sent) (same : s'.nextMsg = s.nextMsg)
    (clocks : s'.lcb = s.lcb) : Phase cfg p s' rest sent := by
  cases phase with
  | between all count => exact .between all (same ▸ count)
  | starting more count top => exact .starting (same ▸ more) (same ▸ count) (same ▸ top)
  | stamped more count clock top =>
    exact .stamped (same ▸ more) (same ▸ count) (clocks ▸ clock) (same ▸ top)
  | sending more count all top => exact .sending (same ▸ more) (same ▸ count) all (same ▸ top)

end Phase

variable {cfg : Config} {p : Nat}

/-- An outcome that leaves the main loop's account alone. -/
structure Outcome.Passive (s : Node) (out : Outcome Node Call Notice) : Prop where
  nextMsg : out.state.nextMsg = s.nextMsg
  calls : ∀ r ∈ out.calls, r.Passive
  sends : urbSends (out.events.map Event.client) = []
  logged : loggedBroadcasts (out.events.map Event.client) = []

/-- What a call that is not the main loop's own does is passive. -/
theorem Node.Runs.passive {id : Nat} {c : Call} {s : Node} {out : Outcome Node Call Notice}
    (runs : s.Runs cfg id c out) (passive : (Request.call c).Passive) : out.Passive s := by
  cases runs with
  | lcbSend | urbSend | logBroadcast => exact passive.elim
  | @bebSend msg =>
    refine ⟨rfl, fun r mem => ?_, rfl, rfl⟩
    rcases List.mem_append.mp mem with near | self
    · obtain ⟨q, -, rfl⟩ := List.mem_map.mp near
      trivial
    · exact List.mem_singleton.mp self ▸ trivial
  | ignore | wait | finish => exact ⟨rfl, List.forall_mem_nil _, rfl, rfl⟩
  | first => exact ⟨rfl, by simp [Request.Passive], rfl, rfl⟩
  | count | quorum | hold | deliver | skip =>
    exact ⟨rfl, fun r mem => List.mem_singleton.mp mem ▸ trivial, rfl, rfl⟩

/-- The account stays as it is where nothing is broadcast or logged. -/
private theorem MainOk.rephase {v v' : View Node Call} {es es' : List (Event Notice)}
    (ok : MainOk cfg p v es) (same : v'.state.nextMsg = v.state.nextMsg)
    (phase : Phase cfg p v'.state v'.requests (urbSends es).length)
    (sends : urbSends es' = []) (logged : loggedBroadcasts es' = []) :
    MainOk cfg p v' (es ++ es') where
  bound := same ▸ ok.bound
  phase := by simpa [sends] using phase
  numbers := by simpa [sends] using ok.numbers
  originators := by simpa [sends] using ok.originators
  logged := by simpa [logged, same] using ok.logged

/-- A turn of the main loop that receives changes nothing but the count of receptions. -/
theorem Node.loop_receive {s s' : Node} {nonempty : Bool}
    (turn : Node.loop cfg s nonempty = some (.receive s')) :
    ∃ recvs, s' = { s with subsequentRecvs := recvs } := by
  unfold Node.loop at turn
  split at turn
  · split at turn
    · cases turn
      exact ⟨_, rfl⟩
    · cases turn
  · split at turn
    · cases turn
      exact ⟨_, rfl⟩
    · cases turn

/-- A turn of the main loop that makes calls broadcasts the next message. -/
theorem Node.loop_call {s s' : Node} {nonempty : Bool} {calls : List Call}
    (turn : Node.loop cfg s nonempty = some (.call s' calls)) :
    s.nextMsg < cfg.numMessages ∧ s' = { s with subsequentRecvs := cfg.numMessages } ∧
      calls = [.lcbSend s.nextMsg, .logBroadcast s.nextMsg] := by
  unfold Node.loop at turn
  split at turn
  next more =>
    split at turn
    · cases turn
    · cases turn
      exact ⟨more, rfl, rfl⟩
  · split at turn <;> cases turn

/-- Every process keeps its account. -/
theorem main_ok {w : SystemWorld} (reach : (system cfg).Reachable w) (p : Nat) :
    MainOk cfg p (w.nodes p).view (eventsOf p w.history) := by
  refine view_locally (P := MainOk cfg) ?_ ?_ reach p
  · intro i
    exact {
      bound := Nat.zero_le _
      phase := .between nofun rfl
      numbers := rfl
      originators := nofun
      logged := rfl }
  · intro w i v es _ _ moves ok
    generalize (w.nodes i).view = before at moves ok
    generalize eventsOf i w.history = past at ok ⊢
    cases moves with
    | silent => exact ok.rephase rfl ok.phase rfl rfl
    | poll turn =>
      obtain ⟨recvs, rfl⟩ := Node.loop_receive turn
      exact ok.rephase rfl (ok.phase.congr rfl rfl) rfl rfl
    | call turn =>
      obtain ⟨more, rfl, rfl⟩ := Node.loop_call turn
      exact ok.rephase rfl (.starting more ok.phase.of_nil rfl) rfl rfl
    | sendSelf same signed =>
      exact ok.rephase rfl (ok.phase.pop trivial rfl [_] (by simp [passive_deliver]))
        rfl rfl
    | sendPeer other same signed =>
      exact ok.rephase rfl (ok.phase.pop trivial rfl [] nofun) rfl rfl
    | take other sent =>
      exact ok.rephase rfl (.between (by simp [passive_deliver]) ok.phase.of_nil) rfl rfl
    | stop => exact ok.rephase rfl (ok.phase.congr rfl rfl) rfl rfl
    | @run s c rest =>
      have phase : Phase cfg i s (.call c :: rest) (urbSends past).length := ok.phase
      have runs := Node.client_run_cases cfg i c s
      generalize (Node.client cfg).run i c s = out at runs ⊢
      by_cases passive : (Request.call c).Passive
      · have quiet := runs.passive passive
        exact ok.rephase quiet.nextMsg (phase.pop passive quiet.nextMsg _ quiet.calls) quiet.sends
          quiet.logged
      · cases runs with
        | @lcbSend seqNum =>
          obtain ⟨rfl, more, count, rfl⟩ := phase.of_lcbSend
          exact ok.rephase rfl (.stamped more count rfl rfl) rfl rfl
        | @urbSend seqNum msg =>
          obtain ⟨rfl, more, count, clock, rfl⟩ := phase.of_urbSend
          generalize sent : { msg with originator := i, bcastSeqNum := s.nextMsg } = stamped
          have sends : urbSends (past ++ [Notice.urbSend stamped].map Event.client) =
              urbSends past ++ [stamped] := by simp
          exact {
            bound := ok.bound
            phase := by
              rw [sends, List.length_append, count]
              have passive : ∀ r ∈ [Request.call (.bebSend stamped)], r.Passive := by
                simp [Request.Passive]
              exact .sending more rfl passive rfl
            numbers := by
              rw [sends, List.length_append, List.map_append, ok.numbers, List.length_singleton,
                List.range_succ, count, ← sent]
              rfl
            originators := by
              rw [sends]
              intro m mem
              rcases List.mem_append.mp mem with old | new
              · exact ok.originators m old
              · rw [List.mem_singleton.mp new, ← sent]
            logged := by simpa using ok.logged }
        | @logBroadcast seqNum =>
          obtain ⟨rfl, more, count, rfl⟩ := phase.of_logBroadcast
          have next : succ32 s.nextMsg = s.nextMsg + 1 :=
            Nat.mod_eq_of_lt (by have := cfg.numMessages_lt; omega)
          exact {
            bound := by
              show succ32 s.nextMsg ≤ _
              omega
            phase := .between nofun (by simpa [next] using count)
            numbers := by simpa using ok.numbers
            originators := by simpa using ok.originators
            logged := by simp [next, List.range_succ, ok.logged] }
        | bebSend | ignore | first | count | quorum | wait | hold | deliver | skip | finish =>
          exact absurd trivial passive

end CausalBroadcast
