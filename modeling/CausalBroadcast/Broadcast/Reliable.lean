import CausalBroadcast.Broadcast.Quorum

/-!
# Uniform reliable broadcast

Integrity needs no assumption. A delivery rests on a quorum of processes that hold the message, so
one of them is left whichever minority crashes, and it relays the message to its neighbours.

Whether that is enough for everybody to deliver depends on the ring. `Covered` asks of every process
left that its neighbourhood holds a quorum of processes that are left; without it the processes in
between two crashed ones wait for ever.
-/

namespace CausalBroadcast

open Async

variable {cfg : Config} {w : SystemWorld} {p q r : Nat} {msg : Message} {key : BroadcastKey}

/-! ## Integrity -/

/-- **Integrity**: a process delivers each broadcast at most once, and only what its originator
broadcast, with the vector clock it attached. -/
theorem urb_integrity (reach : (system cfg).Reachable w) (p : Nat) :
    ((urbDeliveries (eventsOf p w.history)).map Message.key).Nodup ∧
    ∀ msg ∈ urbDeliveries (eventsOf p w.history), ∃ original : Message,
      (msg.originator, .client (.urbSend original)) ∈ w.history ∧
      original.key = msg.key ∧ original.vectorClock = msg.vectorClock ∧
      ∀ other : Message, (msg.originator, .client (.urbSend other)) ∈ w.history →
        other.key = msg.key → other = original := by
  constructor
  · exact urbDeliveries_nodup reach p
  · intro msg mem
    have delivered : (p, .client (.urbDeliver msg)) ∈ w.history :=
      mem_eventsOf.mp (mem_urbDeliveries.mp mem)
    obtain ⟨original, same, sent⟩ := genuine_of_event reach delivered rfl
    refine ⟨original, sent, Message.key_eq_of_payload same,
      Message.vectorClock_eq_of_payload same, ?_⟩
    intro other sent' key
    refine eq_of_urbSends reach sent' sent ?_
    exact congrArg Prod.snd (key.trans (Message.key_eq_of_payload same).symm)

/-- The first process delivers the second one's message, which came back in a copy of its own. -/
theorem urb_integrity_of_follower : ∃ w : SystemWorld, (system follower).Reachable w ∧
    secondCopy 0 ∈ urbDeliveries (eventsOf 0 w.history) ∧
    ((urbDeliveries (eventsOf 0 w.history)).map Message.key).Nodup ∧
    ∃ original : Message, (1, .client (.urbSend original)) ∈ w.history ∧
      original.vectorClock = [1] := by
  let ok : SystemWorld → Bool := fun w => secondCopy 0 ∈ urbDeliveries (eventsOf 0 w.history)
  have ran : ((system follower).execute (system follower).start followerSchedule).any ok := by
    decide +kernel
  obtain ⟨w, reach, checked⟩ := Machine.exists_reachable ran
  have delivered : secondCopy 0 ∈ urbDeliveries (eventsOf 0 w.history) := of_decide_eq_true checked
  obtain ⟨once, faithful⟩ := urb_integrity reach 0
  obtain ⟨original, sent, -, clock, -⟩ := faithful _ delivered
  exact ⟨w, reach, delivered, once, original, sent, clock⟩

/-! ## Majorities -/

/-- Process `r` has a broadcast in its pending set. -/
def Holds (w : SystemWorld) (r : Nat) (key : BroadcastKey) : Prop :=
  (w.nodes r).client.urb.pending.contains key

/-- Process `r` passed a copy of a broadcast to the link for `q`, or its main thread is about
to. -/
def Relays (w : SystemWorld) (r q : Nat) (key : BroadcastKey) : Prop :=
  (∃ copy, SentTo w.history r q copy ∧ copy.key = key) ∨
    (∃ copy, .send q copy ∈ requestsOf (w.nodes r).stack ∧ copy.key = key) ∨
    ∃ copy, .call (.bebSend copy) ∈ requestsOf (w.nodes r).stack ∧ copy.key = key

theorem holds_of_sentTo (reach : (system cfg).Reachable w)
    (sent : SentTo w.history p q msg) : Holds w p msg.key :=
  (urb_ok reach p).sent q msg.key (.inl (mem_sent.mpr ⟨msg, mem_eventsOf.mpr sent, rfl⟩))

/-- What a process holds, it relays to all its neighbours. -/
theorem relays_of_holds (reach : (system cfg).Reachable w) (holds : Holds w r key)
    (near : q ∈ cfg.neighborhood r) : Relays w r q key := by
  have ok := urb_ok reach r
  rcases (ok.pending key).mp holds with relayed | relaying
  · rcases ok.relayed key relayed q near with sent | sending
    · obtain ⟨copy, mem, same⟩ := mem_sent.mp sent
      exact .inl ⟨copy, mem_eventsOf.mp mem, same⟩
    · exact .inr (.inl (mem_sending.mp sending))
  · exact .inr (.inr (mem_relaying.mp relaying))

/-- The copies a delivery was counted from. -/
theorem quorum_of_urbDeliver (reach : (system cfg).Reachable w)
    (delivered : (p, .client (.urbDeliver msg)) ∈ w.history) : ∃ S : Finset Nat,
      cfg.numProcesses < 2 * S.card ∧ ∀ r ∈ S, r < cfg.numProcesses ∧ Holds w r msg.key ∧
        ∃ copy, SentTo w.history r p copy ∧ copy.payload = msg.payload := by
  have ok := urb_ok reach p
  obtain ⟨S, many, all⟩ := ok.quorum msg.key (mem_done.mpr ⟨msg, mem_eventsOf.mpr delivered, rfl⟩)
  refine ⟨S, by omega, fun r mem => ?_⟩
  obtain ⟨copy, came, from_, same⟩ := mem_came.mp (all r mem)
  subst from_
  have sent : SentTo w.history copy.sender p copy :=
    sentTo_of_handedTo reach (mem_eventsOf.mp came)
  refine ⟨lt_of_mem_history reach sent, same ▸ holds_of_sentTo reach sent, copy, sent, ?_⟩
  exact (genuine_of_event reach sent rfl).payload_eq reach
    (genuine_of_event reach delivered rfl) same

/-- **Majority**: a delivered message is held by more than half of the processes, each of which
sent it to the one that delivered it; whichever minority crashes, one that holds it is left and
relays it to all its neighbours. -/
theorem majority_holds (reach : (system cfg).Reachable w)
    (delivered : (p, .client (.urbDeliver msg)) ∈ w.history) : ∃ S : Finset Nat,
      cfg.numProcesses < 2 * S.card ∧
      (∀ r ∈ S, r < cfg.numProcesses ∧ Holds w r msg.key ∧
        (r ≠ p → ∃ copy, SentTo w.history r p copy ∧ copy.payload = msg.payload)) ∧
      ∀ F : Finset Nat, 2 * F.card < cfg.numProcesses →
        ∃ r ∈ S, r ∉ F ∧ ∀ q ∈ cfg.connections r, Relays w r q msg.key := by
  obtain ⟨S, many, all⟩ := quorum_of_urbDeliver reach delivered
  refine ⟨S, many, fun r mem => ?_, fun F few => ?_⟩
  · obtain ⟨inside, holds, sent⟩ := all r mem
    exact ⟨inside, holds, fun _ => sent⟩
  · obtain ⟨r, mem, left⟩ := Finset.exists_mem_notMem_of_card_lt_card (by omega : F.card < S.card)
    refine ⟨r, mem, left, fun q near => ?_⟩
    exact relays_of_holds reach (all r mem).2.1 (Config.mem_neighborhood.mpr (.inr near))

/-- Both processes hold what the first one delivers. -/
theorem majority_holds_of_follower : ∃ w : SystemWorld, (system follower).Reachable w ∧
    (0, .client (.urbDeliver (secondCopy 0))) ∈ w.history ∧ ∃ S : Finset Nat,
      2 < 2 * S.card ∧ ∀ r ∈ S, r < 2 ∧ Holds w r (secondCopy 0).key := by
  let ok : SystemWorld → Bool := fun w => (0, .client (.urbDeliver (secondCopy 0))) ∈ w.history
  have ran : ((system follower).execute (system follower).start followerSchedule).any ok := by
    decide +kernel
  obtain ⟨w, reach, checked⟩ := Machine.exists_reachable ran
  have delivered : (0, .client (.urbDeliver (secondCopy 0))) ∈ w.history :=
    of_decide_eq_true checked
  obtain ⟨S, many, all, -⟩ := majority_holds reach delivered
  exact ⟨w, reach, delivered, S, many, fun r mem => ⟨(all r mem).1, (all r mem).2.1⟩⟩

/-! ## Agreement -/

/-- Nothing is left to happen between the processes outside `F`: their main threads run and are
idle, and every message one sent to another was handed over. -/
structure Quiescent (cfg : Config) (w : SystemWorld) (F : Finset Nat) : Prop where
  running : ∀ p < cfg.numProcesses, p ∉ F → (w.nodes p).stopped = false
  idle : ∀ p < cfg.numProcesses, p ∉ F → (w.nodes p).stack = []
  handed : ∀ p < cfg.numProcesses, p ∉ F → ∀ q < cfg.numProcesses, q ∉ F → ∀ msg,
    SentTo w.history p q msg → HandedTo w.history q msg

/-- Whatever anybody delivered, or a process outside `F` broadcast, every process outside `F`
delivered. -/
def Agreement (cfg : Config) (w : SystemWorld) (F : Finset Nat) : Prop :=
  ∀ msg : Message,
    ((∃ p, (p, .client (.urbDeliver msg)) ∈ w.history) ∨
      ∃ p, p ∉ F ∧ (p, .client (.urbSend msg)) ∈ w.history) →
    ∀ q < cfg.numProcesses, q ∉ F → ∃ copy : Message, copy.payload = msg.payload ∧
      (q, .client (.urbDeliver copy)) ∈ w.history

/-- Every process outside `F` has a quorum of processes outside `F` in its neighbourhood. -/
def Covered (cfg : Config) (F : Finset Nat) : Prop :=
  ∀ p < cfg.numProcesses, p ∉ F → cfg.numProcesses / 2 < (cfg.neighborhood p \ F).card

instance (cfg : Config) (F : Finset Nat) : Decidable (Covered cfg F) :=
  inferInstanceAs (Decidable (∀ p < cfg.numProcesses, p ∉ F → _))

namespace Quiescent

variable {F : Finset Nat}

/-- In a quiescent world a copy has come from every neighbour left that holds the broadcast. -/
theorem came (reach : (system cfg).Reachable w) (quiet : Quiescent cfg w F)
    (inside : r < cfg.numProcesses) (left : r ∉ F) (holds : Holds w r key)
    (near : q ∈ cfg.neighborhood r) (left' : q ∉ F) :
    ∃ copy, (q, .deliver copy) ∈ w.history ∧ copy.sender = r ∧ copy.key = key := by
  have inside' : q < cfg.numProcesses := by
    rcases Config.mem_neighborhood.mp near with rfl | near
    · exact inside
    · exact Config.lt_of_mem_connections inside near
  rcases relays_of_holds reach holds near with ⟨copy, sent, same⟩ | due
  · exact ⟨copy, quiet.handed r inside left q inside' left' copy sent,
      sender_of_sentTo reach sent, same⟩
  · rw [quiet.idle r inside left] at due
    simp at due

/-- What came was counted or delivered. -/
theorem counted (reach : (system cfg).Reachable w) (quiet : Quiescent cfg w F)
    (inside : q < cfg.numProcesses) (left : q ∉ F)
    (came : ∃ copy, (q, .deliver copy) ∈ w.history ∧ copy.sender = r ∧ copy.key = key) :
    Holds w q key ∧ ((∃ copy, (q, .client (.urbDeliver copy)) ∈ w.history ∧ copy.key = key) ∨
      r ∈ (w.nodes q).client.urb.acks key) := by
  obtain ⟨copy, came, from_, same⟩ := came
  have ok := urb_ok reach q
  rcases ok.came r key (mem_came.mpr ⟨copy, mem_eventsOf.mpr came, from_, same⟩) with due | rest
  · rw [quiet.idle q inside left] at due
    cases due
  · refine ⟨rest.1, rest.2.imp_left fun done => ?_⟩
    simpa using mem_done.mp done

end Quiescent

namespace Covered

variable {F : Finset Nat}

/-- Two processes left have a common neighbour left. -/
theorem common (covered : Covered cfg F) (inside : p < cfg.numProcesses) (left : p ∉ F)
    (inside' : q < cfg.numProcesses) (left' : q ∉ F) :
    ∃ r, r ∈ cfg.neighborhood p ∧ r ∈ cfg.neighborhood q ∧ r ∉ F := by
  have manyP := covered p inside left
  have manyQ := covered q inside' left'
  have total : ((cfg.neighborhood p \ F) ∪ (cfg.neighborhood q \ F)).card ≤ cfg.numProcesses := by
    rw [← Finset.card_range cfg.numProcesses]
    apply Finset.card_le_card
    apply Finset.union_subset
    · exact Finset.sdiff_subset.trans (Config.neighborhood_subset inside)
    · exact Finset.sdiff_subset.trans (Config.neighborhood_subset inside')
  have meet : ¬ Disjoint (cfg.neighborhood p \ F) (cfg.neighborhood q \ F) := by
    intro apart
    rw [Finset.card_union_of_disjoint apart] at total
    omega
  obtain ⟨r, nearP, nearQ⟩ := Finset.not_disjoint_iff.mp meet
  rw [Finset.mem_sdiff] at nearP nearQ
  exact ⟨r, nearP.1, nearQ.1, nearP.2⟩

/-- What one process left holds, every process left holds: it reaches a common neighbour, and from
there the other. -/
theorem spread (covered : Covered cfg F) (reach : (system cfg).Reachable w)
    (quiet : Quiescent cfg w F) (inside : p < cfg.numProcesses) (left : p ∉ F)
    (holds : Holds w p key) (inside' : q < cfg.numProcesses) (left' : q ∉ F) : Holds w q key := by
  obtain ⟨r, nearP, nearQ, leftR⟩ := covered.common inside left inside' left'
  have insideR : r < cfg.numProcesses :=
    Finset.mem_range.mp (Config.neighborhood_subset inside nearP)
  have back : q ∈ cfg.neighborhood r := Config.neighborhood_symm inside' nearQ
  have holdsR := (quiet.counted reach insideR leftR
    (quiet.came reach inside left holds nearP leftR)).1
  exact (quiet.counted reach inside' left' (quiet.came reach insideR leftR holdsR back left')).1

/-- What a process left holds, every process left delivers: copies have come from a quorum. -/
theorem deliver (covered : Covered cfg F) (reach : (system cfg).Reachable w)
    (quiet : Quiescent cfg w F) (inside : p < cfg.numProcesses) (left : p ∉ F)
    (holds : Holds w p key) (inside' : q < cfg.numProcesses) (left' : q ∉ F) :
    ∃ copy, (q, .client (.urbDeliver copy)) ∈ w.history ∧ copy.key = key := by
  by_contra missing
  have bits : cfg.neighborhood q \ F ⊆ (w.nodes q).client.urb.acks key := by
    intro r mem
    obtain ⟨near, leftR⟩ := Finset.mem_sdiff.mp mem
    have insideR : r < cfg.numProcesses :=
      Finset.mem_range.mp (Config.neighborhood_subset inside' near)
    have holdsR := covered.spread reach quiet inside left holds insideR leftR
    have back : q ∈ cfg.neighborhood r := Config.neighborhood_symm inside' near
    exact (quiet.counted reach inside' left'
      (quiet.came reach insideR leftR holdsR back left')).2.resolve_left missing
  have many := Nat.lt_of_lt_of_le (covered q inside' left') (Finset.card_le_card bits)
  have due := (urb_ok reach q).trying key many
  rw [quiet.idle q inside' left'] at due
  cases due

end Covered

/-- Where each process left has a quorum of processes left in its neighbourhood, or nothing is
broadcast at all, the processes left by a minority of crashes agree. -/
theorem agreement_of_covered {F : Finset Nat} (reach : (system cfg).Reachable w)
    (minority : 2 * F.card < cfg.numProcesses) (quiet : Quiescent cfg w F)
    (covered : cfg.numMessages = 0 ∨ Covered cfg F) : Agreement cfg w F := by
  intro msg known q inside' left'
  -- wherever the message was seen, a process left holds it
  obtain ⟨genuine, p, inside, left, holds⟩ : Genuine w.history msg ∧
      ∃ p < cfg.numProcesses, p ∉ F ∧ Holds w p msg.key := by
    rcases known with ⟨p, delivered⟩ | ⟨p, left, sent⟩
    · obtain ⟨S, many, all⟩ := quorum_of_urbDeliver reach delivered
      obtain ⟨r, mem, left⟩ := Finset.exists_mem_notMem_of_card_lt_card
        (by omega : F.card < S.card)
      exact ⟨genuine_of_event reach delivered rfl, r, (all r mem).1, left, (all r mem).2.1⟩
    · exact ⟨genuine_of_event reach sent rfl, p, lt_of_mem_history reach sent, left,
        (urb_ok reach p).started _ (mem_started (mem_eventsOf.mpr sent))⟩
  rcases covered with none | covered
  · exact absurd (genuine.bcastSeqNum_lt reach) (by omega)
  obtain ⟨copy, delivered, same⟩ :=
    covered.deliver reach quiet inside left holds inside' left'
  exact ⟨copy, (genuine_of_event reach delivered rfl).payload_eq reach genuine same, delivered⟩

/-- Only `BestEffortBroadcast::send` asks the link for anything, and for neighbours and the process
itself only. -/
theorem Node.Runs.near {id : Nat} {c : Call} {s : Node} {out : Outcome Node Call Notice}
    (runs : s.Runs cfg id c out) (mem : .send q msg ∈ out.calls) : q ∈ cfg.neighborhood id := by
  cases runs with
  | bebSend =>
    rw [Config.mem_neighborhood]
    rcases List.mem_append.mp mem with near | self
    · obtain ⟨q', listed, same⟩ := List.mem_map.mp near
      cases same
      exact .inr listed
    · cases List.mem_singleton.mp self
      exact .inl rfl
  | lcbSend | urbSend | first | count | quorum | hold | deliver | skip => simp at mem
  | ignore | wait | finish | logBroadcast => cases mem

/-- The link is asked to send to a neighbour, or to the process itself. -/
structure Near (cfg : Config) (p : Nat) (v : View Node Call) (es : List (Event Notice)) :
    Prop where
  requests : ∀ q msg, .send q msg ∈ v.requests → q ∈ cfg.neighborhood p
  events : ∀ q msg, .send q msg ∈ es → q ∈ cfg.neighborhood p

theorem near_of_request (reach : (system cfg).Reachable w)
    (mem : .send q msg ∈ requestsOf (w.nodes p).stack) : q ∈ cfg.neighborhood p := by
  refine requests_have (R := fun p r => ∀ q msg, r = .send q msg → q ∈ cfg.neighborhood p)
    ?_ ?_ ?_ reach p _ mem q msg rfl
  · intro i a a' calls nonempty turn c listed q msg same
    cases same
  · intro i msg q copy same
    cases same
  · rintro i c a r new q msg rfl
    exact (Node.run_cases cfg i c a).near new

theorem near_ok (reach : (system cfg).Reachable w) (p : Nat) :
    Near cfg p (w.nodes p).view (eventsOf p w.history) := by
  refine ⟨fun q msg => near_of_request reach, fun q msg mem => ?_⟩
  refine view_locally (P := fun p _ es => ∀ q msg, .send q msg ∈ es → q ∈ cfg.neighborhood p)
    ?_ ?_ reach p q msg mem
  · intro i q msg mem
    cases mem
  · intro w i v es reach _ moves ok
    have asked : ∀ q msg, .send q msg ∈ (w.nodes i).view.requests → q ∈ cfg.neighborhood i :=
      fun q msg => near_of_request reach
    generalize (w.nodes i).view = before at moves asked
    generalize eventsOf i w.history = past at ok ⊢
    intro q msg mem
    refine (List.mem_append.mp mem).elim (ok q msg) fun new => ?_
    cases moves with
    | silent | stop | poll | call => cases new
    | @sendSelf a msg copy rest same signed =>
      obtain ⟨rfl, -⟩ : q = i ∧ _ = copy := by simpa using new
      exact asked q msg List.mem_cons_self
    | @sendPeer a receiver msg copy rest other same signed =>
      obtain ⟨rfl, -⟩ : q = receiver ∧ _ = copy := by simpa using new
      exact asked q msg List.mem_cons_self
    | take other sent => simp at new
    | run => simp at new

/-- A process sends to its neighbours and itself only. -/
theorem near_of_sentTo (reach : (system cfg).Reachable w) (sent : SentTo w.history p q msg) :
    q ∈ cfg.neighborhood p :=
  (near_ok reach p).events q msg (mem_eventsOf.mpr sent)

/-- Where processes that never sent anything are gone and every other one broadcast something,
agreement needs a quorum of processes left in the neighbourhood of each. -/
theorem covered_of_agreement {F : Finset Nat} (reach : (system cfg).Reachable w)
    (silent : ∀ p ∈ F, ∀ q msg, ¬ SentTo w.history p q msg)
    (broadcast : ∀ p < cfg.numProcesses, p ∉ F →
      ∃ msg, (p, .client (.urbSend msg)) ∈ w.history)
    (agreement : Agreement cfg w F) : Covered cfg F := by
  intro p inside left
  obtain ⟨msg, sent⟩ := broadcast p inside left
  obtain ⟨copy, -, delivered⟩ := agreement msg (.inr ⟨p, left, sent⟩) p inside left
  obtain ⟨S, many, all⟩ := quorum_of_urbDeliver reach delivered
  have counted : S ⊆ cfg.neighborhood p \ F := by
    intro r mem
    obtain ⟨inside', -, copy', sent', -⟩ := all r mem
    rw [Finset.mem_sdiff]
    constructor
    · exact Config.neighborhood_symm inside' (near_of_sentTo reach sent')
    · exact fun gone => silent r gone p copy' sent'
  have few := Finset.card_le_card counted
  omega

/-- **Agreement** among the processes left by a minority of crashes: it holds where each of them has
a quorum of processes left in its neighbourhood, or nothing is broadcast at all, and where it does
not, no run of them alone in which each broadcasts something comes to it. -/
theorem uniform_agreement {F : Finset Nat} (reach : (system cfg).Reachable w)
    (minority : 2 * F.card < cfg.numProcesses) (quiet : Quiescent cfg w F) :
    (cfg.numMessages = 0 ∨ Covered cfg F → Agreement cfg w F) ∧
    ((∀ p ∈ F, ∀ q msg, ¬ SentTo w.history p q msg) →
      (∀ p < cfg.numProcesses, p ∉ F → ∃ msg, (p, .client (.urbSend msg)) ∈ w.history) →
      Agreement cfg w F → Covered cfg F) :=
  ⟨agreement_of_covered reach minority quiet, covered_of_agreement reach⟩

/-! ## Two runs -/

/-- Whether a message that an event sends between processes outside `F` was handed over. -/
def handedIn (h : SystemHistory) (F : Finset Nat) : Nat × Event Notice → Bool
  | (p, .send q msg) => p ∈ F ∨ q ∈ F ∨ (q, .deliver msg) ∈ h
  | (_, .deliver _) | (_, .client _) => true

/-- `Quiescent` can be checked event by event. -/
theorem quiescent_of_check {F : Finset Nat}
    (main : ∀ p < cfg.numProcesses, p ∉ F →
      (w.nodes p).stopped = false ∧ (w.nodes p).stack.isEmpty)
    (sends : ∀ e ∈ w.history, handedIn w.history F e) : Quiescent cfg w F where
  running p inside left := (main p inside left).1
  idle p inside left := List.isEmpty_iff.mp (main p inside left).2
  handed p _ left q _ left' msg sent := by
    have handed := of_decide_eq_true (sends _ sent)
    tauto

/-- The last of three processes crashes at once, and the other two deliver what they broadcast. -/
theorem uniform_agreement_of_triangle : ∃ w, (system triangle).Reachable w ∧
    (1, .client (.urbDeliver (firstCopy 1))) ∈ w.history ∧ Agreement triangle w {2} ∧
    Covered triangle {2} := by
  let second (sender : Nat) : Message := { linkSeqNum := 1, originator := 1, sender }
  let ok : SystemWorld → Bool := fun w =>
    ((List.range 3).all fun p =>
      p = 2 || (!(w.nodes p).stopped && (w.nodes p).stack.isEmpty &&
        !(urbSends (eventsOf p w.history)).isEmpty)) &&
      w.history.all (handedIn w.history {2}) && w.history.all (fun e => e.1 ≠ 2) &&
      (1, .client (.urbDeliver (firstCopy 1))) ∈ w.history
  have ran : ((system triangle).execute (system triangle).start
      (.act 2 .stop :: mains 0 12 ++ .arrive 1 (firstCopy 0) :: mains 1 31 ++
        .arrive 0 (firstCopy 1) :: mains 0 11 ++ .arrive 0 (second 1) :: mains 0 20 ++
        .arrive 1 (second 0) :: mains 1 12)).any ok := by decide +kernel
  obtain ⟨w, reach, checked⟩ := Machine.exists_reachable ran
  simp only [ok, Bool.and_eq_true, List.all_eq_true, List.mem_range, decide_eq_true_eq] at checked
  obtain ⟨⟨⟨main, sends⟩, silent⟩, delivered⟩ := checked
  have quiet : Quiescent triangle w {2} := by
    refine quiescent_of_check (fun p inside left => ?_) sends
    have := main p inside
    simp_all
  obtain ⟨enough, needed⟩ := uniform_agreement reach (by decide) quiet
  have agreement := enough (.inr (by decide))
  refine ⟨w, reach, delivered, agreement, needed (fun p gone q msg sent => ?_)
    (fun p inside left => ?_) agreement⟩
  · exact silent _ sent (Finset.mem_singleton.mp gone)
  · have := main p inside
    obtain ⟨msg, made⟩ : ∃ msg, msg ∈ urbSends (eventsOf p w.history) := by
      apply List.exists_mem_of_ne_nil
      simp_all
    exact ⟨msg, mem_eventsOf.mp (mem_urbSends.mp made)⟩

/-- Four processes in a ring, with two messages each. -/
def ringOfFour : Config := .independent 4 2 (by decide) (by decide) (by decide)

/-- The first process broadcasts a message and the second crashes at once. The other two relay it;
the last counts three copies and delivers, while the first and the third, which are no neighbours,
count two. -/
theorem agreement_fails : ∃ w, (system ringOfFour).Reachable w ∧
    2 * ({1} : Finset Nat).card < ringOfFour.numProcesses ∧ (w.nodes 1).stopped ∧
    Quiescent ringOfFour w {1} ∧ ¬ Agreement ringOfFour w {1} := by
  let ok : SystemWorld → Bool := fun w =>
    ((List.range 4).all fun p =>
      p = 1 || (!(w.nodes p).stopped && (w.nodes p).stack.isEmpty)) &&
      w.history.all (handedIn w.history {1}) && (w.nodes 1).stopped &&
      (3, .client (.urbDeliver (firstCopy 2))) ∈ w.history &&
      (urbDeliveries (eventsOf 0 w.history)).isEmpty
  have ran : ((system ringOfFour).execute (system ringOfFour).start
      (.act 1 .stop :: mains 0 12 ++ .arrive 3 (firstCopy 0) :: mains 3 13 ++
        .arrive 0 (firstCopy 3) :: mains 0 5 ++ .arrive 2 (firstCopy 3) :: mains 2 13 ++
        .arrive 3 (firstCopy 2) :: mains 3 12)).any ok := by decide +kernel
  obtain ⟨w, reach, checked⟩ := Machine.exists_reachable ran
  simp only [ok, Bool.and_eq_true, List.all_eq_true, List.mem_range, decide_eq_true_eq] at checked
  obtain ⟨⟨⟨⟨main, sends⟩, crashed⟩, delivered⟩, none_⟩ := checked
  refine ⟨w, reach, by decide, crashed, quiescent_of_check ?_ sends, ?_⟩
  · intro p inside left
    have := main p inside
    simp_all
  · intro agreement
    obtain ⟨copy, -, delivered⟩ := agreement _ (.inl ⟨3, delivered⟩) 0 (by decide) (by decide)
    have mem : copy ∈ urbDeliveries (eventsOf 0 w.history) := by simpa using delivered
    rw [List.isEmpty_iff.mp none_] at mem
    cases mem

end CausalBroadcast
