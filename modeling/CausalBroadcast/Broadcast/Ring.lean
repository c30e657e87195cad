import Mathlib.Data.Finset.Union
import Mathlib.Logic.Relation
import Mathlib.Order.Interval.Finset.Nat
import CausalBroadcast.Broadcast.Config

/-!
# The relay graph survives a minority of crashes

The ring joins two processes by two arcs. Survivors that cannot cross an arc in jumps of a quarter of
the ring have a quarter of the ring crashed in a row on it, so crashes that cut both arcs are at
least half of the processes.
-/

namespace CausalBroadcast

open Relation

/-! ## Crossing a line -/

section Line
variable {c d : Nat}

/-- A jump of at most `c`, from a place that is alive to a later one that is. -/
def Jump (alive : Nat → Prop) (c i j : Nat) : Prop := i < j ∧ j ≤ i + c ∧ alive i ∧ alive j

/-- The end of a line is reached from its start in jumps of at most `c`, or `c` places in a row
between them are dead. -/
theorem jumps_or_gap (alive : Nat → Prop) (first : alive 0) (last : alive d) :
    ReflTransGen (Jump alive c) 0 d ∨
      ∃ s, 0 < s ∧ s + c ≤ d ∧ ∀ i, s ≤ i → i < s + c → ¬ alive i := by
  induction d using Nat.strongRecOn with
  | ind d ih =>
    by_cases origin : d = 0
    · exact .inl (origin ▸ .refl)
    by_cases stepped : ∃ i, i < d ∧ d ≤ i + c ∧ alive i
    · obtain ⟨i, before, near, here⟩ := stepped
      rcases ih i before here with path | ⟨s, inside, ends, dead⟩
      · exact .inl (path.tail ⟨before, near, here, last⟩)
      · exact .inr ⟨s, inside, by omega, dead⟩
    · -- everything within a jump of the end is dead, and the start is not
      push Not at stepped
      have far : c < d := by
        by_contra close
        exact stepped 0 (by omega) (by omega) first
      exact .inr ⟨d - c, by omega, by omega, fun i low high => stepped i (by omega) (by omega)⟩

end Line

/-! ## Round the ring -/

section
variable {n p q : Nat} {F : Finset Nat}

/-- An edge of the relay graph between two processes outside `F`. -/
def RelayEdge (n : Nat) (F : Finset Nat) (p q : Nat) : Prop :=
  p ∉ F ∧ q ∉ F ∧ q ∈ createNConnectedRing p n

/-- Along places of the ring a quarter of which are neighbours in a row, the survivors have a path,
or a quarter of the ring in a row is in `F`. -/
private theorem relayed_or_gap (place : Nat → Nat) {c d : Nat}
    (near : ∀ i j, i < j → j ≤ i + c → j ≤ d → place j ∈ createNConnectedRing (place i) n)
    (first : place 0 ∉ F) (last : place d ∉ F) :
    ReflTransGen (RelayEdge n F) (place 0) (place d) ∨
      ∃ s, 0 < s ∧ s + c ≤ d ∧ ∀ i, s ≤ i → i < s + c → place i ∈ F := by
  have cross := jumps_or_gap (c := c) (d := d) (fun i => i ≤ d ∧ place i ∉ F)
    ⟨Nat.zero_le d, first⟩ ⟨Nat.le_refl d, last⟩
  rcases cross with path | ⟨s, inside, ends, dead⟩
  · left
    refine path.lift place fun i j jump => ?_
    obtain ⟨later, close, ⟨-, here⟩, below, there⟩ := jump
    exact ⟨here, there, near i j later close below⟩
  · right
    refine ⟨s, inside, ends, fun i low high => ?_⟩
    by_contra survives
    exact dead i low high ⟨by omega, survives⟩

/-- Two stretches of `c` places, one on either arc, hold `2 * c` processes. -/
private theorem two_mul_le_card {c s s' : Nat} (insideP : p < n) (low : 0 < s) (low' : 0 < s')
    (apart : s + c + (s' + c) ≤ n)
    (crashed : ∀ i, s ≤ i → i < s + c → (p + i) % n ∈ F)
    (crashed' : ∀ i, s' ≤ i → i < s' + c → (p + n - i) % n ∈ F) : 2 * c ≤ F.card := by
  let cut := Finset.Ico s (s + c) ∪ Finset.Ico (n + 1 - s' - c) (n + 1 - s')
  have disjoint : Disjoint (Finset.Ico s (s + c)) (Finset.Ico (n + 1 - s' - c) (n + 1 - s')) := by
    rw [Finset.disjoint_left]
    intro i one other
    rw [Finset.mem_Ico] at one other
    omega
  have size : cut.card = 2 * c := by
    rw [Finset.card_union_of_disjoint disjoint, Nat.card_Ico, Nat.card_Ico]
    omega
  have short : ∀ i ∈ cut, i < n := by
    intro i mem
    rw [Finset.mem_union, Finset.mem_Ico, Finset.mem_Ico] at mem
    omega
  rw [← size]
  refine Finset.card_le_card_of_injOn (fun i => (p + i) % n) (fun i mem => ?_) ?_
  · show (p + i) % n ∈ F
    have small := short i mem
    rcases Finset.mem_union.mp mem with right | left
    · rw [Finset.mem_Ico] at right
      exact crashed i right.1 right.2
    · rw [Finset.mem_Ico] at left
      have hit := crashed' (n - i) (by omega) (by omega)
      rwa [show p + n - (n - i) = p + i by omega] at hit
  · intro i memI j memJ same
    have smallI := short i memI
    have smallJ := short j memJ
    have placeI := (eq_mod_iff (q := (p + i) % n) (n := n) (by omega)).mp rfl
    have placeJ := (eq_mod_iff (q := (p + j) % n) (n := n) (by omega)).mp rfl
    have same : (p + i) % n = (p + j) % n := same
    omega

/-- **The relay graph survives any minority of crashes.** -/
theorem relayed_of_minority (two : 2 ≤ n) (fits : n ≤ 256) (minority : 2 * F.card < n)
    (insideP : p < n) (insideQ : q < n) (survivesP : p ∉ F) (survivesQ : q ∉ F) :
    ReflTransGen (RelayEdge n F) p q := by
  have isNear := fun {a b : Nat} => @mem_createNConnectedRing n a b two fits
  generalize quarter : (n + 3) / 4 = c at isNear
  -- how far `q` is clockwise
  generalize arc : (q + n - p) % n = d
  have turn := (eq_mod_iff (n := n) (by omega)).mp arc.symm
  have atP : (p + 0) % n = p := Nat.mod_eq_of_lt insideP
  have atP' : (p + n - 0) % n = p := by simp [Nat.mod_eq_of_lt insideP]
  have atQ : (p + d) % n = q := Eq.symm ((eq_mod_iff (by omega)).mpr (by omega))
  have atQ' : (p + n - (n - d)) % n = q := Eq.symm ((eq_mod_iff (by omega)).mpr (by omega))
  have clockwise := relayed_or_gap (n := n) (F := F) (c := c) (d := d)
    (fun i => (p + i) % n)
    (fun i j later close below => by
      have here := (eq_mod_iff (q := (p + i) % n) (n := n) (by omega)).mp rfl
      have there := (eq_mod_iff (q := (p + j) % n) (n := n) (by omega)).mp rfl
      show (p + j) % n ∈ createNConnectedRing ((p + i) % n) n
      rw [isNear here.1]
      omega)
    (by show (p + 0) % n ∉ F; rwa [atP])
    (by show (p + d) % n ∉ F; rwa [atQ])
  have counterclockwise := relayed_or_gap (n := n) (F := F) (c := c) (d := n - d)
    (fun i => (p + n - i) % n)
    (fun i j later close below => by
      have here := (eq_mod_iff (q := (p + n - i) % n) (n := n) (by omega)).mp rfl
      have there := (eq_mod_iff (q := (p + n - j) % n) (n := n) (by omega)).mp rfl
      show (p + n - j) % n ∈ createNConnectedRing ((p + n - i) % n) n
      rw [isNear here.1]
      omega)
    (by show (p + n - 0) % n ∉ F; rwa [atP'])
    (by show (p + n - (n - d)) % n ∉ F; rwa [atQ'])
  simp only [atP, atQ] at clockwise
  simp only [atP', atQ'] at counterclockwise
  rcases clockwise with path | ⟨s, low, high, crashed⟩
  · exact path
  rcases counterclockwise with path | ⟨s', low', high', crashed'⟩
  · exact path
  have crash := two_mul_le_card insideP low low' (by omega) crashed crashed'
  omega

/-- Seven of sixteen processes crash, those next to process 0 on one side, and it still reaches
process 8. -/
theorem relayed_of_sixteen :
    ReflTransGen (RelayEdge 16 {1, 2, 3, 4, 5, 6, 7}) 0 8 :=
  relayed_of_minority (by decide) (by decide) (by decide) (by decide) (by decide) (by decide)
    (by decide)

end

end CausalBroadcast
