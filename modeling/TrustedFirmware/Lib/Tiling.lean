import Mathlib.Algebra.Order.BigOperators.Group.Finset
import Mathlib.Order.Interval.Finset.Nat

/-!
# Tilings of an interval

A finite family of non-empty intervals that are pairwise disjoint and cover `[lo, hi)` exactly: the
shape of an allocator without fragmentation. Appending an interval at the end and removing one while
the later ones close the gap both give a tiling again, and the intervals behind a given one fill the
rest.

* `Tiles.insert`, `Tiles.erase` — the two operations;
* `Tiles.exists_next` — the interval behind a given one;
* `Tiles.sum_behind` — the bytes that have to move when one is removed.
-/

namespace Tiling

variable {ι : Type*}

/-- The intervals `[start i, start i + len i)`, `i ∈ s`, tile `[lo, hi)`. -/
structure Tiles (s : Finset ι) (start len : ι → Nat) (lo hi : Nat) : Prop where
  le : lo ≤ hi
  pos : ∀ i ∈ s, 0 < len i
  disjoint : ∀ i ∈ s, ∀ j ∈ s, i ≠ j →
    start i + len i ≤ start j ∨ start j + len j ≤ start i
  cover : ∀ o, (lo ≤ o ∧ o < hi) ↔ ∃ i ∈ s, start i ≤ o ∧ o < start i + len i

namespace Tiles

variable {s : Finset ι} {start len start' len' : ι → Nat} {lo hi : Nat} {i j : ι}

/-- Every interval lies in the tiled range. -/
theorem bounds (h : Tiles s start len lo hi) (hi' : i ∈ s) :
    lo ≤ start i ∧ start i + len i ≤ hi := by
  have hpos := h.pos i hi'
  have h1 := (h.cover (start i)).mpr ⟨i, hi', le_refl _, by omega⟩
  have h2 := (h.cover (start i + len i - 1)).mpr ⟨i, hi', by omega, by omega⟩
  omega

/-- The empty family tiles an empty range only. -/
theorem empty (start len : ι → Nat) (lo : Nat) : Tiles ∅ start len lo lo where
  le := le_refl _
  pos := by simp
  disjoint := by simp
  cover := by simp

/-- Only starts and lengths of the members matter. -/
theorem congr (h : Tiles s start len lo hi) (hs : ∀ i ∈ s, start' i = start i)
    (hl : ∀ i ∈ s, len' i = len i) : Tiles s start' len' lo hi where
  le := h.le
  pos i hi' := by
    rw [hl i hi']
    exact h.pos i hi'
  disjoint i hi' j hj hij := by
    rw [hs i hi', hs j hj, hl i hi', hl j hj]
    exact h.disjoint i hi' j hj hij
  cover o := by
    rw [h.cover o]
    refine exists_congr fun i => and_congr_right fun hi' => ?_
    rw [hs i hi', hl i hi']

/-- Append an interval at the end. -/
theorem insert [DecidableEq ι] (h : Tiles s start len lo hi) (hi' : i ∉ s) (hs : ∀ j ∈ s, start' j = start j)
    (hl : ∀ j ∈ s, len' j = len j) (hstart : start' i = hi) (hpos : 0 < len' i) :
    Tiles (insert i s) start' len' lo (hi + len' i) := by
  have h' := h.congr hs hl
  refine ⟨by have := h.le; omega, ?_, ?_, ?_⟩
  · intro j hj
    rcases Finset.mem_insert.mp hj with rfl | hj
    · exact hpos
    · exact h'.pos j hj
  · intro j hj k hk hjk
    rcases Finset.mem_insert.mp hj with rfl | hj'
    · rcases Finset.mem_insert.mp hk with rfl | hk'
      · exact absurd rfl hjk
      · have := h'.bounds hk'
        omega
    · rcases Finset.mem_insert.mp hk with rfl | hk'
      · have := h'.bounds hj'
        omega
      · exact h'.disjoint j hj' k hk' hjk
  · -- an offset is covered by an old interval, or lies in the new one
    intro o
    have hc := h'.cover o
    have hle := h.le
    constructor
    · intro ho
      by_cases hlt : o < hi
      · obtain ⟨j, hj, hjo⟩ := hc.mp ⟨ho.1, hlt⟩
        exact ⟨j, Finset.mem_insert_of_mem hj, hjo⟩
      · exact ⟨i, Finset.mem_insert_self _ _, by omega, by omega⟩
    · rintro ⟨j, hj, hjo⟩
      rcases Finset.mem_insert.mp hj with rfl | hj
      · omega
      · have := hc.mpr ⟨j, hj, hjo⟩
        omega

/-- An interval that starts later starts behind the end. -/
theorem end_le_start (h : Tiles s start len lo hi) (hi' : i ∈ s) (hj : j ∈ s)
    (hlt : start i < start j) : start i + len i ≤ start j := by
  have hpos := h.pos j hj
  have hij : i ≠ j := by
    rintro rfl
    exact lt_irrefl _ hlt
  rcases h.disjoint i hi' j hj hij with h | h <;> omega

/-- Unless an interval is the last one, another one starts where it ends. -/
theorem exists_next (h : Tiles s start len lo hi) (hi' : i ∈ s) (hlt : start i + len i < hi) :
    ∃ j ∈ s, start j = start i + len i := by
  have hb := h.bounds hi'
  have hpos := h.pos i hi'
  obtain ⟨j, hj, hjo⟩ := (h.cover (start i + len i)).mp ⟨by omega, hlt⟩
  have hij : i ≠ j := by
    rintro rfl
    omega
  refine ⟨j, hj, ?_⟩
  rcases h.disjoint i hi' j hj hij with h | h <;> omega

/-- The intervals behind `i` fill the range from its end to `hi`. -/
theorem sum_behind [DecidableEq ι] (h : Tiles s start len lo hi) (hi' : i ∈ s) :
    ∑ j ∈ s.filter (fun j => start i < start j), len j = hi - (start i + len i) := by
  -- the rest of the range is the disjoint union of the intervals behind `i`, so its size is the sum
  -- of theirs
  have hcard : Finset.Ico (start i + len i) hi
      = (s.filter (fun j => start i < start j)).biUnion
          (fun j => Finset.Ico (start j) (start j + len j)) := by
    ext o
    simp only [Finset.mem_Ico, Finset.mem_biUnion, Finset.mem_filter]
    have hb := h.bounds hi'
    have hpos := h.pos i hi'
    constructor
    · intro ho
      obtain ⟨j, hj, hjo⟩ := (h.cover o).mp ⟨by omega, ho.2⟩
      have hij : i ≠ j := by
        rintro rfl
        omega
      refine ⟨j, ⟨hj, ?_⟩, hjo⟩
      rcases h.disjoint i hi' j hj hij with h | h <;> omega
    · rintro ⟨j, ⟨hj, hlt⟩, hjo⟩
      have := h.end_le_start hi' hj hlt
      have := h.bounds hj
      omega
  have hdisj : Set.PairwiseDisjoint (s.filter (fun j => start i < start j) : Set ι)
      (fun j => Finset.Ico (start j) (start j + len j)) := by
    intro j hj k hk hjk
    rw [Finset.mem_coe, Finset.mem_filter] at hj hk
    refine Finset.disjoint_left.mpr fun o hoj hok => ?_
    rw [Finset.mem_Ico] at hoj hok
    rcases h.disjoint j hj.1 k hk.1 hjk with h | h <;> omega
  calc ∑ j ∈ s.filter (fun j => start i < start j), len j
      = ∑ j ∈ s.filter (fun j => start i < start j),
          (Finset.Ico (start j) (start j + len j)).card := by simp
    _ = (Finset.Ico (start i + len i) hi).card := by
        rw [hcard, Finset.card_biUnion fun j hj k hk hjk => hdisj hj hk hjk]
    _ = hi - (start i + len i) := by simp

/-- Remove an interval; the later ones move down by its length. -/
theorem erase [DecidableEq ι] (h : Tiles s start len lo hi) (hi' : i ∈ s)
    (hs : ∀ j ∈ s, j ≠ i →
      start' j = if start i < start j then start j - len i else start j)
    (hl : ∀ j ∈ s, j ≠ i → len' j = len j) :
    Tiles (s.erase i) start' len' lo (hi - len i) := by
  have hb := h.bounds hi'
  have hpos := h.pos i hi'
  -- an interval of the rest lies wholly before or wholly behind the removed one
  have hside (j : ι) (hj : j ∈ s) (hji : j ≠ i) :
      (start' j = start j ∧ start j + len j ≤ start i)
        ∨ (start' j = start j - len i ∧ start i + len i ≤ start j) := by
    have hpj := h.pos j hj
    rw [hs j hj hji]
    rcases h.disjoint j hj i hi' hji with hd | hd
    · exact Or.inl ⟨if_neg (by omega), hd⟩
    · exact Or.inr ⟨if_pos (by omega), hd⟩
  refine ⟨by omega, ?_, ?_, ?_⟩
  · intro j hj
    rw [Finset.mem_erase] at hj
    rw [hl j hj.2 hj.1]
    exact h.pos j hj.2
  · intro j hj k hk hjk
    rw [Finset.mem_erase] at hj hk
    have hdj := hside j hj.2 hj.1
    have hdk := hside k hk.2 hk.1
    have hd := h.disjoint j hj.2 k hk.2 hjk
    rw [hl j hj.2 hj.1, hl k hk.2 hk.1]
    omega
  · intro o
    constructor
    · intro ho
      -- the offset `o` held before the removal what is now at `o`
      have hcov := h.cover (if o < start i then o else o + len i)
      obtain ⟨j, hj, hjo⟩ := hcov.mp (by split <;> omega)
      have hji : j ≠ i := by
        rintro rfl
        split at hjo <;> omega
      refine ⟨j, Finset.mem_erase.mpr ⟨hji, hj⟩, ?_⟩
      rw [hl j hj hji]
      have := hside j hj hji
      split at hjo <;> omega
    · rintro ⟨j, hj, hjo⟩
      rw [Finset.mem_erase] at hj
      rw [hl j hj.2 hj.1] at hjo
      have hbj := h.bounds hj.2
      have := hside j hj.2 hj.1
      omega

end Tiles

end Tiling
