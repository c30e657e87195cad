import CausalBroadcast.Async.System

/-!
# Systems whose packets are encoded

A system over packets `M`, run over packets `W` that stand for them: what is sent is encoded, in a way
that the environment picks with each step, and decoded where it arrives. If no packet of a run is lost
in its encoding, both are the same system.
-/

namespace Async

variable {ι S A E M W B : Type} [DecidableEq ι]

/-- A world whose packets are read. -/
def World.decode (decode : W → M) (w : World ι S E W) : World ι S E M where
  nodes := w.nodes
  sent := w.sent.map fun d => (d.1, decode d.2)
  history := w.history

/-- A reaction whose packets are written. -/
def Reaction.encode (encode : M → W) (r : Reaction ι S E M) : Reaction ι S E W where
  state := r.state
  sent := r.sent.map fun d => (d.1, encode d.2)
  events := r.events

theorem World.decode_react {encode : M → W} {decode : W → M} (w : World ι S E W) (i : ι)
    {r : Reaction ι S E M} (faithful : ∀ d ∈ r.sent, decode (encode d.2) = d.2) :
    (w.react i (r.encode encode)).decode decode = (w.decode decode).react i r := by
  have same : (r.sent.map fun d => (d.1, encode d.2)).map (fun d => (d.1, decode d.2)) = r.sent := by
    rw [List.map_map]
    refine (List.map_congr_left fun d mem => ?_).trans (List.map_id _)
    exact Prod.ext rfl (faithful d mem)
  have sent : ((w.react i (r.encode encode)).decode decode).sent =
      ((w.decode decode).react i r).sent := by
    show List.map _ (w.sent ++ _) = List.map _ w.sent ++ r.sent
    rw [List.map_append]
    exact congrArg _ same
  exact congrArg (World.mk _ · _) sent

namespace Machine

/-- The system with its packets encoded. -/
def encoded (m : Machine ι S A E M) (encode : B → M → W) (decode : W → M) :
    Machine ι S (A × B) E W where
  init := m.init
  step i a s := (m.step i a.1 s).map (Reaction.encode (encode a.2))
  arrive packet s := m.arrive (decode packet) s

section
variable {m : Machine ι S A E M} {encode : B → M → W} {decode : W → M}
  (faithful : ∀ w, m.Reachable w → ∀ d ∈ w.sent, ∀ b, decode (encode b d.2) = d.2)
include faithful

theorem reachable_decode {w : World ι S E W} (reach : (m.encoded encode decode).Reachable w) :
    m.Reachable (w.decode decode) := by
  induction reach with
  | start => exact .start
  | @act w i a r reach step ih =>
    obtain ⟨r, fired, rfl⟩ := Option.map_eq_some_iff.mp step
    have next := ih.act (show m.step i a.1 ((w.decode decode).nodes i) = some r from fired)
    rwa [World.decode_react w i fun d mem => faithful _ next d (by simp [mem]) a.2]
  | @arrive w i packet reach sent ih =>
    exact ih.arrive (List.mem_map.mpr ⟨_, sent, rfl⟩)

theorem exists_encoded [Nonempty B] {w : World ι S E M} (reach : m.Reachable w) :
    ∃ w', (m.encoded encode decode).Reachable w' ∧ w'.decode decode = w := by
  induction reach with
  | start => exact ⟨_, .start, rfl⟩
  | @act w i a r reach step ih =>
    obtain ⟨w', reach', rfl⟩ := ih
    obtain ⟨b⟩ := ‹Nonempty B›
    have encoded : (m.encoded encode decode).step i (a, b) (w'.nodes i) =
        some (r.encode (encode b)) := Option.map_eq_some_iff.mpr ⟨r, step, rfl⟩
    refine ⟨_, reach'.act encoded, World.decode_react w' i fun d mem => ?_⟩
    exact faithful _ (reach.act step) d (by simp [mem]) b
  | @arrive w i msg reach sent ih =>
    obtain ⟨w', reach', rfl⟩ := ih
    obtain ⟨⟨j, packet⟩, sent', same⟩ := List.mem_map.mp sent
    cases same
    exact ⟨_, reach'.arrive sent', rfl⟩

/-- What is on the network was encoded. -/
theorem exists_encode {w : World ι S E W} (reach : (m.encoded encode decode).Reachable w) {i : ι}
    {packet : W} (mem : (i, packet) ∈ w.sent) :
    ∃ b msg, packet = encode b msg ∧ (i, msg) ∈ (w.decode decode).sent := by
  induction reach with
  | start => cases mem
  | @act w j a r reach step ih =>
    obtain ⟨r, fired, rfl⟩ := Option.map_eq_some_iff.mp step
    have next := (reachable_decode faithful reach).act
      (show m.step j a.1 ((w.decode decode).nodes j) = some r from fired)
    rw [World.decode_react w j fun d mem => faithful _ next d (by simp [mem]) a.2]
    rcases List.mem_append.mp mem with old | new
    · obtain ⟨b, msg, same, sent⟩ := ih old
      exact ⟨b, msg, same, List.mem_append_left _ sent⟩
    · obtain ⟨⟨k, msg⟩, sent, same⟩ := List.mem_map.mp new
      cases same
      exact ⟨a.2, msg, rfl, List.mem_append_right _ sent⟩
  | arrive reach sent ih => exact ih mem

/-- Both have the same worlds, packets read. -/
theorem reachable_iff_encoded [Nonempty B] {w : World ι S E M} :
    m.Reachable w ↔ ∃ w', (m.encoded encode decode).Reachable w' ∧ w'.decode decode = w := by
  constructor
  · exact exists_encoded faithful
  · rintro ⟨w', reach, rfl⟩
    exact reachable_decode faithful reach

end

end Machine

end Async
