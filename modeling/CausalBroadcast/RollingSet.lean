import Mathlib.Data.Finset.Card
import Mathlib.Data.Fintype.Card
import Mathlib.Order.Bounds.Basic

/-!
# The rolling bitset

`RollingBitset` remembers which sequence numbers it has seen. It stores bits in chunks, and drops
the first chunk once every bit of it is set: from then on every number below `offset * CHUNK_SIZE`
counts as seen.

To its callers it is a set, and `contains_insert` is the only fact they use. It needs one thing of
the representation, that a chunk's `count` is the number of its set bits, and `Chunk` carries that.

How much it stores is another matter. An insertion drops one chunk at most, so a chunk that was full
before it became the first one stays, and `Gradual` is what a sequence of insertions must keep to.
-/

namespace CausalBroadcast

/-- `CHUNK_SIZE`. -/
def chunkSize : Nat := 512

/-- `RollingBitset::Chunk`. The count is a `uint16_t`, which a chunk's 512 bits cannot overflow. -/
structure Chunk where
  bits : Finset (Fin chunkSize)
  count : Nat
  count_eq : count = bits.card

namespace Chunk

/-- A chunk as `emplace_back` makes it. -/
def empty : Chunk := ⟨∅, 0, rfl⟩

/-- `Chunk::set`. -/
def set (c : Chunk) (idx : Fin chunkSize) : Chunk where
  bits := insert idx c.bits
  count := if idx ∈ c.bits then c.count else c.count + 1
  count_eq := by
    split
    next seen => rw [Finset.insert_eq_of_mem seen, c.count_eq]
    next fresh => rw [Finset.card_insert_of_notMem fresh, c.count_eq]

/-- `Chunk::test`. -/
def test (c : Chunk) (idx : Fin chunkSize) : Bool := idx ∈ c.bits

@[simp] theorem mem_set {c : Chunk} {i j : Fin chunkSize} :
    i ∈ (c.set j).bits ↔ i = j ∨ i ∈ c.bits := Finset.mem_insert

@[simp] theorem notMem_empty {i : Fin chunkSize} : i ∉ empty.bits := Finset.notMem_empty i

/-- A chunk whose count is the chunk size holds every bit. -/
theorem mem_of_full {c : Chunk} (full : c.count = chunkSize) (i : Fin chunkSize) : i ∈ c.bits := by
  have card : c.bits.card = Fintype.card (Fin chunkSize) := by
    rw [← c.count_eq, full, Fintype.card_fin]
  rw [(Finset.card_eq_iff_eq_univ c.bits).mp card]
  exact Finset.mem_univ i

end Chunk

/-- `RollingBitset`. -/
structure RollingBitset where
  offset : Nat := 0
  chunks : List Chunk := []

namespace RollingBitset

/-- `has_passed`. -/
def hasPassed (s : RollingBitset) (elem : Nat) : Bool := elem / chunkSize < s.offset

/-- `chunk_index`. -/
def chunkIndex (s : RollingBitset) (elem : Nat) : Nat := elem / chunkSize - s.offset

/-- `rotate_chunks`. -/
def rotateChunks (s : RollingBitset) : RollingBitset :=
  { offset := s.offset + 1, chunks := s.chunks.tail }

/-- `elem % CHUNK_SIZE`. -/
def bitIndex (elem : Nat) : Fin chunkSize := ⟨elem % chunkSize, Nat.mod_lt _ (by decide)⟩

/-- `chunks[idx]`; a chunk not stored yet reads as the empty one `insert` is about to append. -/
def chunkAt (s : RollingBitset) (idx : Nat) : Chunk := s.chunks.getD idx Chunk.empty

/-- The `while` loop of `insert`: append empty chunks until `chunks[idx]` exists. -/
def extend (s : RollingBitset) (idx : Nat) : RollingBitset :=
  { s with chunks := s.chunks ++ List.replicate (idx + 1 - s.chunks.length) Chunk.empty }

/-- `chunks[idx].set(bit)`. -/
def setBit (s : RollingBitset) (idx : Nat) (bit : Fin chunkSize) : RollingBitset :=
  { s with chunks := s.chunks.modify idx (·.set bit) }

/-- `RollingBitset::insert`. -/
def insert (s : RollingBitset) (elem : Nat) : RollingBitset :=
  if s.hasPassed elem then s
  else
    let idx := s.chunkIndex elem
    let s := (s.extend idx).setBit idx (bitIndex elem)
    if idx = 0 ∧ (s.chunkAt idx).count = chunkSize then s.rotateChunks else s

/-- `RollingBitset::contains`. -/
def contains (s : RollingBitset) (elem : Nat) : Bool :=
  if s.hasPassed elem then true
  else if s.chunkIndex elem ≥ s.chunks.length then false
  else (s.chunkAt (s.chunkIndex elem)).test (bitIndex elem)

/-! ## Chunks after each operation -/

@[simp] theorem chunkAt_extend (s : RollingBitset) (idx i : Nat) :
    (s.extend idx).chunkAt i = s.chunkAt i := by
  simp only [chunkAt, extend, List.getD_eq_getElem?_getD]
  by_cases stored : i < s.chunks.length
  · rw [List.getElem?_append_left stored]
  · rw [List.getElem?_append_right (by omega), List.getElem?_eq_none (l := s.chunks) (by omega),
      List.getElem?_replicate]
    split <;> rfl

theorem chunkAt_setBit (s : RollingBitset) {idx : Nat} (stored : idx < s.chunks.length)
    (bit : Fin chunkSize) (i : Nat) :
    (s.setBit idx bit).chunkAt i = if i = idx then (s.chunkAt idx).set bit else s.chunkAt i := by
  simp only [chunkAt, setBit, List.getD_eq_getElem?_getD, List.getElem?_modify]
  split
  next eq => subst eq; simp [List.getElem?_eq_getElem stored]
  next ne => simp [show ¬ i = idx from fun h => ne h.symm]

@[simp] theorem chunkAt_rotateChunks (s : RollingBitset) (i : Nat) :
    s.rotateChunks.chunkAt i = s.chunkAt (i + 1) := by
  simp [chunkAt, rotateChunks, List.getD_eq_getElem?_getD]

/-! ## The set it stands for -/

/-- Membership, read off offset and chunks: a chunk that is not stored has no bits. -/
theorem contains_iff {s : RollingBitset} {x : Nat} :
    s.contains x ↔
      x / chunkSize < s.offset ∨ bitIndex x ∈ (s.chunkAt (x / chunkSize - s.offset)).bits := by
  simp only [contains, hasPassed, chunkIndex, Chunk.test, decide_eq_true_eq]
  by_cases passed : x / chunkSize < s.offset
  · simp [passed]
  · by_cases missing : s.chunks.length ≤ x / chunkSize - s.offset
    · have none : s.chunkAt (x / chunkSize - s.offset) = Chunk.empty := by
        simp [chunkAt, List.getD_eq_getElem?_getD, List.getElem?_eq_none missing]
      simp [passed, missing, none]
    · simp only [passed, missing, ↓reduceIte, false_or]
      exact decide_eq_true_iff

@[simp] theorem not_contains_empty (x : Nat) : ({} : RollingBitset).contains x = false := by
  simp [contains, hasPassed]

/-- An element is its chunk and its bit. -/
theorem eq_of_chunk_bit {x e : Nat} (chunk : x / chunkSize = e / chunkSize)
    (bit : bitIndex x = bitIndex e) : x = e := by
  have mod : x % chunkSize = e % chunkSize := Fin.mk.inj_iff.mp bit
  rw [← Nat.div_add_mod x chunkSize, ← Nat.div_add_mod e chunkSize, chunk, mod]

/-- Before any rotation, an insertion sets exactly the element's bit. -/
private theorem contains_setBit {s : RollingBitset} {e : Nat} (kept : s.offset ≤ e / chunkSize)
    (x : Nat) :
    ((s.extend (s.chunkIndex e)).setBit (s.chunkIndex e) (bitIndex e)).contains x ↔
      x = e ∨ s.contains x := by
  have stored : s.chunkIndex e < (s.extend (s.chunkIndex e)).chunks.length := by
    simp only [extend, List.length_append, List.length_replicate]
    omega
  have offset : ((s.extend (s.chunkIndex e)).setBit (s.chunkIndex e) (bitIndex e)).offset
      = s.offset := rfl
  rw [contains_iff, contains_iff, chunkAt_setBit _ stored, chunkAt_extend, chunkAt_extend, offset]
  constructor
  · rintro (passed | held)
    · exact .inr (.inl passed)
    · split at held
      next here =>
        rcases Chunk.mem_set.mp held with bit | old
        · by_cases below : x / chunkSize < s.offset
          · exact .inr (.inl below)
          · refine .inl (eq_of_chunk_bit ?_ bit)
            simp only [chunkIndex] at here
            omega
        · exact .inr (.inr (here ▸ old))
      next => exact .inr (.inr held)
  · rintro (rfl | passed | held)
    · right
      rw [if_pos (show x / chunkSize - s.offset = s.chunkIndex x from rfl)]
      exact Chunk.mem_set.mpr (.inl rfl)
    · exact .inl passed
    · right
      split
      next here => exact Chunk.mem_set.mpr (.inr (here ▸ held))
      next => exact held

/-- Dropping a full first chunk forgets nothing. -/
private theorem contains_rotateChunks {s : RollingBitset} (full : (s.chunkAt 0).count = chunkSize)
    (x : Nat) : s.rotateChunks.contains x ↔ s.contains x := by
  have offset : s.rotateChunks.offset = s.offset + 1 := rfl
  rw [contains_iff, contains_iff, chunkAt_rotateChunks, offset]
  rcases Nat.lt_trichotomy (x / chunkSize) s.offset with below | here | above
  · exact iff_of_true (.inl (by omega)) (.inl below)
  · refine iff_of_true (.inl (by omega)) (.inr ?_)
    rw [here, Nat.sub_self]
    exact Chunk.mem_of_full full _
  · rw [show x / chunkSize - (s.offset + 1) + 1 = x / chunkSize - s.offset by omega]
    constructor
    · rintro (passed | held)
      · omega
      · exact .inr held
    · rintro (passed | held)
      · omega
      · exact .inr held

/-- **A rolling bitset is a set**: an insertion adds its element and nothing else. -/
@[simp] theorem contains_insert {s : RollingBitset} {e x : Nat} :
    (s.insert e).contains x ↔ x = e ∨ s.contains x := by
  by_cases passed : e / chunkSize < s.offset
  · rw [insert, if_pos (by simpa [hasPassed] using passed)]
    constructor
    · exact .inr
    · rintro (rfl | held)
      · exact contains_iff.mpr (.inl passed)
      · exact held
  · rw [insert, if_neg (by simpa [hasPassed] using passed)]
    by_cases full : s.chunkIndex e = 0 ∧
        (((s.extend (s.chunkIndex e)).setBit (s.chunkIndex e) (bitIndex e)).chunkAt
          (s.chunkIndex e)).count = chunkSize
    · rw [if_pos full, contains_rotateChunks (full.1 ▸ full.2)]
      exact contains_setBit (Nat.not_lt.mp passed) x
    · rw [if_neg full]
      exact contains_setBit (Nat.not_lt.mp passed) x

/-- What a sequence of insertions leaves. -/
def insertAll (es : List Nat) : RollingBitset := es.foldl insert {}

theorem insertAll_concat (es : List Nat) (e : Nat) :
    insertAll (es ++ [e]) = (insertAll es).insert e := by
  simp [insertAll]

/-- **A rolling bitset is the set of what was inserted**, in whatever order and however often, below
its window, inside it and beyond. -/
theorem contains_insertAll (es : List Nat) (x : Nat) : (insertAll es).contains x ↔ x ∈ es := by
  induction es using List.reverseRecOn with
  | nil => simp [insertAll]
  | append_singleton es e ih =>
    rw [insertAll_concat, contains_insert, ih, List.mem_append, List.mem_singleton]
    exact or_comm

/-! ## What it keeps -/

/-- The first stored chunk is not full. -/
def FirstOpen (s : RollingBitset) : Prop := ∀ c, s.chunks.head? = some c → c.count ≠ chunkSize

/-- All elements of the first `k` chunks are among `es`. -/
def Complete (es : List Nat) (k : Nat) : Prop := ∀ x < k * chunkSize, x ∈ es

theorem Complete.mono {es : List Nat} {k k' : Nat} (complete : Complete es k) (le : k' ≤ k) :
    Complete es k' :=
  fun x below => complete x (Nat.lt_of_lt_of_le below (Nat.mul_le_mul_right chunkSize le))

/-- No insertion completes two chunks at once. -/
def Gradual (es : List Nat) : Prop :=
  ∀ before e, before ++ [e] <+: es → ∀ k, Complete (before ++ [e]) (k + 2) →
    Complete before (k + 1)

/-- What was dropped was complete. -/
theorem complete_offset (es : List Nat) : Complete es (insertAll es).offset := by
  intro x below
  rw [← contains_insertAll, contains_iff]
  left
  exact Nat.div_lt_of_lt_mul (Nat.mul_comm _ _ ▸ below)

/-- A chunk that is not stored has no bits. -/
theorem head_of_chunkAt {s : RollingBitset} {i : Fin chunkSize} (held : i ∈ (s.chunkAt 0).bits) :
    s.chunks.head? = some (s.chunkAt 0) := by
  cases stored : s.chunks with
  | nil => simp [chunkAt, stored] at held
  | cons c rest => simp [chunkAt, stored]

/-- The first chunk of the window, when all of its elements are in. -/
theorem count_of_contains {s : RollingBitset}
    (all : ∀ x, x / chunkSize = s.offset → s.contains x) : (s.chunkAt 0).count = chunkSize := by
  have every : (s.chunkAt 0).bits = Finset.univ := by
    rw [Finset.eq_univ_iff_forall]
    intro i
    have place : (s.offset * chunkSize + i) / chunkSize = s.offset := by
      rw [Nat.mul_comm, Nat.mul_add_div (by decide), Nat.div_eq_of_lt i.isLt, Nat.add_zero]
    have bit : bitIndex (s.offset * chunkSize + i) = i :=
      Fin.ext (by simp [bitIndex, Nat.mod_eq_of_lt i.isLt])
    have held := contains_iff.mp (all _ place)
    rw [place, Nat.sub_self, bit] at held
    exact held.resolve_left (Nat.lt_irrefl _)
  rw [(s.chunkAt 0).count_eq, every, Finset.card_univ, Fintype.card_fin]

/-- The first stored chunk is not full exactly when the window starts at the first chunk that is
not complete. -/
theorem firstOpen_iff (es : List Nat) :
    (insertAll es).FirstOpen ↔ IsGreatest {k | Complete es k} (insertAll es).offset := by
  constructor
  · intro isOpen
    refine ⟨complete_offset es, fun k complete => ?_⟩
    by_contra beyond
    have full : ((insertAll es).chunkAt 0).count = chunkSize := by
      apply count_of_contains
      intro x place
      rw [contains_insertAll]
      refine complete.mono (Nat.lt_of_not_le beyond) x ?_
      rw [← place]
      exact Nat.lt_mul_of_div_lt (Nat.lt_succ_self _) (by decide)
    exact isOpen _ (head_of_chunkAt (Chunk.mem_of_full full ⟨0, by decide⟩)) full
  · rintro ⟨-, greatest⟩ c first full
    have next : Complete es ((insertAll es).offset + 1) := by
      intro x below
      rw [← contains_insertAll, contains_iff]
      have place : x / chunkSize < (insertAll es).offset + 1 :=
        Nat.div_lt_of_lt_mul (Nat.mul_comm _ _ ▸ below)
      rcases Nat.lt_succ_iff_lt_or_eq.mp place with passed | here
      · exact .inl passed
      · right
        have same : (insertAll es).chunkAt 0 = c := by
          simp [chunkAt, List.getD_eq_getElem?_getD, ← List.head?_eq_getElem?, first]
        rw [here, Nat.sub_self, same]
        exact Chunk.mem_of_full full _
    exact absurd (greatest next) (Nat.not_succ_le_self _)

/-- An insertion moves the window by one chunk at most. -/
theorem offset_insert (s : RollingBitset) (e : Nat) :
    (s.insert e).offset = s.offset ∨ (s.insert e).offset = s.offset + 1 := by
  unfold insert
  split
  · exact .inl rfl
  · dsimp only
    split
    · exact .inr rfl
    · exact .inl rfl

/-- An insertion that completes the first chunk of the window drops it. -/
theorem offset_insert_of_complete {s : RollingBitset} {e : Nat} (place : e / chunkSize = s.offset)
    (all : ∀ x, x / chunkSize = s.offset → (s.insert e).contains x) :
    (s.insert e).offset = s.offset + 1 := by
  have kept : ¬ s.hasPassed e := by simp [hasPassed, place]
  have here : s.chunkIndex e = 0 := by simp [chunkIndex, place]
  have full : (((s.extend 0).setBit 0 (bitIndex e)).chunkAt 0).count = chunkSize := by
    apply count_of_contains
    intro x same
    have set := contains_setBit (s := s) (e := e) (Nat.le_of_eq place.symm) x
    rw [here] at set
    exact set.mpr (contains_insert.mp (all x same))
  rw [insert, if_neg kept, here, if_pos ⟨rfl, full⟩]
  rfl

/-- The window starts at the first incomplete chunk after every call when no call completes two
chunks at once. -/
private theorem isGreatest_offset {es : List Nat} (gradual : Gradual es) (before : List Nat)
    (upTo : before <+: es) : IsGreatest {k | Complete before k} (insertAll before).offset := by
  induction before using List.reverseRecOn with
  | nil =>
    refine ⟨complete_offset [], fun k complete => ?_⟩
    by_contra beyond
    have positive : 0 < k * chunkSize := Nat.mul_pos (Nat.zero_lt_of_lt (Nat.lt_of_not_le beyond))
      (by decide)
    exact List.not_mem_nil (complete 0 positive)
  | append_singleton before e ih =>
    have ⟨dropped, greatest⟩ := ih ((List.prefix_append before [e]).trans upTo)
    refine ⟨complete_offset _, fun k complete => ?_⟩
    by_contra beyond
    have incomplete : ¬ Complete before ((insertAll before).offset + 1) := fun next =>
      Nat.not_succ_le_self _ (greatest next)
    have moved := offset_insert (insertAll before) e
    rw [← insertAll_concat] at moved
    rcases moved with stays | moves
    · -- then `e` is the missing element of the first chunk of the window
      have after : Complete (before ++ [e]) ((insertAll before).offset + 1) :=
        complete.mono (by omega)
      have place : e / chunkSize = (insertAll before).offset := by
        unfold Complete at incomplete
        push Not at incomplete
        obtain ⟨x, below, missing⟩ := incomplete
        have isNew : x = e := by simpa [missing] using after x below
        subst isNew
        refine Nat.le_antisymm (Nat.lt_succ_iff.mp
          (Nat.div_lt_of_lt_mul (Nat.mul_comm _ _ ▸ below))) ?_
        rw [Nat.le_div_iff_mul_le (by decide)]
        exact Nat.le_of_not_lt fun passed => missing (dropped x passed)
      have rolls := offset_insert_of_complete place fun x same => by
        rw [← insertAll_concat, contains_insertAll]
        refine after x ?_
        rw [← same]
        exact Nat.lt_mul_of_div_lt (Nat.lt_succ_self _) (by decide)
      rw [← insertAll_concat] at rolls
      omega
    · exact incomplete (gradual before e upTo _ (complete.mono (by omega)))

/-- **A rolling bitset rolls** through a sequence of insertions, keeping nothing before the first
incomplete chunk, exactly when none of them completes two chunks at once. -/
theorem rolls_iff (es : List Nat) :
    (∀ before, before <+: es → (insertAll before).FirstOpen ∧
      IsGreatest {k | Complete before k} (insertAll before).offset) ↔ Gradual es := by
  constructor
  · intro rolls before e upTo k complete
    have after := (rolls _ upTo).2.2 complete
    have moved := offset_insert (insertAll before) e
    rw [← insertAll_concat] at moved
    exact (complete_offset before).mono (by omega)
  · intro gradual before upTo
    have greatest := isGreatest_offset gradual before upTo
    exact ⟨(firstOpen_iff before).mpr greatest, greatest⟩

/-- The second chunk in full, then the first. -/
def secondChunkFirst : List Nat := List.range' chunkSize chunkSize ++ List.range chunkSize

/-- The call that fills the first chunk rotates once (an `if`, not a loop), so the full second chunk
is kept. -/
theorem not_rolls :
    ¬ ((insertAll secondChunkFirst).FirstOpen ∧
      IsGreatest {k | Complete secondChunkFirst k} (insertAll secondChunkFirst).offset) := by
  intro ⟨_, _, greatest⟩
  have both : Complete secondChunkFirst 2 := by
    intro x below
    simp only [secondChunkFirst, chunkSize, List.mem_append, List.mem_range'_1, List.mem_range]
      at below ⊢
    omega
  have last : secondChunkFirst =
      (List.range' chunkSize chunkSize ++ List.range (chunkSize - 1)) ++ [chunkSize - 1] := by
    rw [List.append_assoc, ← List.range_succ]
    rfl
  have before : (insertAll (List.range' chunkSize chunkSize ++ List.range (chunkSize - 1))).offset
      = 0 := by
    by_contra moved
    have first := (complete_offset _).mono (Nat.one_le_iff_ne_zero.mpr moved)
      (chunkSize - 1) (by decide)
    simp [chunkSize, List.mem_range'_1] at first
  have after := greatest both
  have moved := offset_insert
    (insertAll (List.range' chunkSize chunkSize ++ List.range (chunkSize - 1))) (chunkSize - 1)
  rw [← insertAll_concat, ← last] at moved
  omega

end RollingBitset

end CausalBroadcast
