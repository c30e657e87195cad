import Mathlib.Data.List.Range
import CausalBroadcast.Message

/-!
# The system's parameters, and who relays to whom

`Config` is what the hosts file and the config file say, with what the parsers and the file formats
promise of it. `createNConnectedRing` gives each process the neighbours it relays to.
-/

namespace CausalBroadcast

/-- The system as configured: the hosts, the number of messages each process broadcasts, and for
each process the processes its messages depend on. -/
structure Config where
  /-- `parser.hosts().size()` -/
  numProcesses : Nat
  /-- `config.num_messages()` -/
  numMessages : Nat
  /-- `config.dependencies()[i].depends` -/
  depends : Nat → List Nat
  two_le : 2 ≤ numProcesses
  le_max : numProcesses ≤ maxProcesses
  numMessages_lt : numMessages < 2 ^ 32
  depends_lt : ∀ i, ∀ d ∈ depends i, d < numProcesses
  depends_length : ∀ i, (depends i).length ≤ maxProcesses

/-- `static_cast<ProcessId>`. -/
def toProcessId (x : Nat) : Nat := x % 256

/-- `create_n_connected_ring`, for up to 256 processes: from `n = 1017` to `n = 1020` there are 255
neighbours per side, and the loop over the 8 bits of `offset` does not end. For two processes `1 - id`
is an `int`; above that, the loop adds the right and the left neighbour at the distance `offset`. -/
def createNConnectedRing (id n : Nat) : List Nat :=
  if n = 1 then []
  else if n = 2 then [(((1 : Int) - id) % 256).toNat]
  else
    let neighborsPerSide := toProcessId ((n + 3) / 4)
    (List.range' 1 neighborsPerSide).flatMap fun offset =>
      [toProcessId ((id + offset) % n), toProcessId ((id + n - offset) % n)]

/-! ## Neighbours

All arithmetic on the ring is linear once the remainder of a number below `3 * n` is split into its
three cases. -/

section
variable {n id q : Nat}

theorem eq_mod_iff {x : Nat} (bound : x < 3 * n) :
    q = x % n ↔ q < n ∧ (x = q ∨ x = q + n ∨ x = q + 2 * n) := by
  have positive : 0 < n := by omega
  have small : x % n < n := Nat.mod_lt x positive
  have parts : n * (x / n) + x % n = x := Nat.div_add_mod x n
  have times : x / n < 3 := (Nat.div_lt_iff_lt_mul positive).mpr bound
  generalize x / n = k at parts times
  obtain rfl | rfl | rfl : k = 0 ∨ k = 1 ∨ k = 2 := by omega
  all_goals omega

/-- The neighbours of a process are the others at a distance up to a quarter of the ring, rounded
up, on either side. -/
theorem mem_createNConnectedRing (two : 2 ≤ n) (fits : n ≤ 256) (small : id < n) :
    q ∈ createNConnectedRing id n ↔
      q < n ∧ q ≠ id ∧ (q ≤ id + (n + 3) / 4 ∧ id ≤ q + (n + 3) / 4 ∨
        q + n ≤ id + (n + 3) / 4 ∨ id + n ≤ q + (n + 3) / 4) := by
  by_cases pair : n = 2
  · subst pair
    obtain rfl | rfl : id = 0 ∨ id = 1 := by omega
    · simp [createNConnectedRing]
      omega
    · simp [createNConnectedRing]
      omega
  have cast : ∀ x, toProcessId (x % n) = x % n := fun x =>
    Nat.mod_eq_of_lt (Nat.lt_of_lt_of_le (Nat.mod_lt x (by omega)) fits)
  have side : toProcessId ((n + 3) / 4) = (n + 3) / 4 := Nat.mod_eq_of_lt (by omega)
  rw [createNConnectedRing, if_neg (by omega), if_neg pair]
  simp only [side, cast, List.mem_flatMap, List.mem_range'_1, List.mem_cons, List.not_mem_nil,
    or_false]
  constructor
  · rintro ⟨offset, ⟨low, high⟩, right | left⟩
    · rw [eq_mod_iff (by omega)] at right
      omega
    · rw [eq_mod_iff (by omega)] at left
      omega
  · rintro ⟨inside, other, near⟩
    -- the offset is the distance one way or the other round the ring
    by_cases after : id < q
    · by_cases short : q - id ≤ (n + 3) / 4
      · exact ⟨q - id, by omega, .inl ((eq_mod_iff (by omega)).mpr (by omega))⟩
      · exact ⟨id + n - q, by omega, .inr ((eq_mod_iff (by omega)).mpr (by omega))⟩
    · by_cases short : id - q ≤ (n + 3) / 4
      · exact ⟨id - q, by omega, .inr ((eq_mod_iff (by omega)).mpr (by omega))⟩
      · exact ⟨q + n - id, by omega, .inl ((eq_mod_iff (by omega)).mpr (by omega))⟩

end

/-- A process has few neighbours, whatever the size of the ring. -/
theorem length_createNConnectedRing_le (id n : Nat) :
    (createNConnectedRing id n).length ≤ 510 := by
  unfold createNConnectedRing
  split
  · exact Nat.zero_le _
  split
  · simp
  · have side : toProcessId ((n + 3) / 4) < 256 := Nat.mod_lt _ (by decide)
    simp only [List.length_flatMap, List.length_cons, List.length_nil, List.map_const',
      List.sum_replicate_nat, List.length_range']
    omega

namespace Config

variable (cfg : Config)

/-- The neighbours of process `id`: `connections`. -/
def connections (id : Nat) : List Nat := createNConnectedRing id cfg.numProcesses

/-- A process and its neighbours: the processes whose copy of a message it can receive. -/
def neighborhood (id : Nat) : Finset Nat := insert id (cfg.connections id).toFinset

variable {cfg} {p q : Nat}

theorem mem_connections (inside : p < cfg.numProcesses) :
    q ∈ cfg.connections p ↔ q < cfg.numProcesses ∧ q ≠ p ∧
      (q ≤ p + (cfg.numProcesses + 3) / 4 ∧ p ≤ q + (cfg.numProcesses + 3) / 4 ∨
        q + cfg.numProcesses ≤ p + (cfg.numProcesses + 3) / 4 ∨
        p + cfg.numProcesses ≤ q + (cfg.numProcesses + 3) / 4) :=
  mem_createNConnectedRing cfg.two_le (Nat.le_trans cfg.le_max (by decide)) inside

theorem lt_of_mem_connections (inside : p < cfg.numProcesses) (near : q ∈ cfg.connections p) :
    q < cfg.numProcesses :=
  ((mem_connections inside).mp near).1

/-- Being neighbours is symmetric. -/
theorem connections_symm (inside : p < cfg.numProcesses) (near : q ∈ cfg.connections p) :
    p ∈ cfg.connections q := by
  obtain ⟨other, ne, close⟩ := (mem_connections inside).mp near
  exact (mem_connections other).mpr ⟨inside, ne.symm, by omega⟩

@[simp] theorem mem_neighborhood : q ∈ cfg.neighborhood p ↔ q = p ∨ q ∈ cfg.connections p := by
  simp [neighborhood]

theorem neighborhood_subset (inside : p < cfg.numProcesses) :
    cfg.neighborhood p ⊆ Finset.range cfg.numProcesses := by
  intro q near
  rw [Finset.mem_range]
  rcases mem_neighborhood.mp near with rfl | near
  · exact inside
  · exact lt_of_mem_connections inside near

theorem neighborhood_symm (inside : p < cfg.numProcesses) (near : q ∈ cfg.neighborhood p) :
    p ∈ cfg.neighborhood q := by
  rw [mem_neighborhood] at near ⊢
  exact near.imp Eq.symm (connections_symm inside)

/-- A process and its neighbours are more than half of the system. -/
theorem half_lt_card_neighborhood (inside : p < cfg.numProcesses) :
    cfg.numProcesses / 2 < (cfg.neighborhood p).card := by
  have two := cfg.two_le
  have member : ∀ q, q ∈ cfg.neighborhood p ↔ _ := fun q =>
    mem_neighborhood.trans (or_congr_right (mem_connections inside))
  generalize cfg.numProcesses = n at *
  generalize reach : (n + 3) / 4 = c at *
  -- the stretch of the ring from `c` before `p` to `c` after it
  have stretch : (Finset.range (min n (2 * c + 1))).card ≤ (cfg.neighborhood p).card := by
    refine Finset.card_le_card_of_injOn (fun j => (p + n - c + j) % n) (fun j mem => ?_) ?_
    · have near : j < min n (2 * c + 1) := Finset.mem_range.mp mem
      have place := (eq_mod_iff (q := (p + n - c + j) % n) (n := n) (by omega)).mp rfl
      show (p + n - c + j) % n ∈ cfg.neighborhood p
      rw [member]
      omega
    · intro i memI j memJ same
      have nearI : i < min n (2 * c + 1) := Finset.mem_range.mp memI
      have nearJ : j < min n (2 * c + 1) := Finset.mem_range.mp memJ
      have placeI := (eq_mod_iff (q := (p + n - c + i) % n) (n := n) (by omega)).mp rfl
      have placeJ := (eq_mod_iff (q := (p + n - c + j) % n) (n := n) (by omega)).mp rfl
      have same : (p + n - c + i) % n = (p + n - c + j) % n := same
      omega
  rw [Finset.card_range] at stretch
  omega

end Config

end CausalBroadcast
