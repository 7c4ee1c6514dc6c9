import Mathlib.Data.Finset.Card
import Mathlib.Data.Finset.Range
import Mathlib.Logic.Function.Iterate

/-!
# Iterations that stay below a bound

A function on natural numbers is iterated for as long as its values stay below a bound. There are
only finitely many values to take, so an iteration that stays below the bound for long enough has
repeated itself, and one that has repeated itself stays below the bound for good.

This decides whether a loop that follows stored lengths or links ends: it runs out of its buffer
(`leaves_iff_no_repeat`), or it goes round for ever, and one look at `bound + 1` iterates tells
which.
-/

namespace BoundedIteration

variable {g : Nat → Nat} {s bound i j n : Nat}

/-- The iterates up to the `n`-th are at most `bound`. -/
def Within (g : Nat → Nat) (s bound n : Nat) : Prop := ∀ m ≤ n, g^[m] s ≤ bound

theorem Within.mono (h : Within g s bound n) (hle : i ≤ n) : Within g s bound i :=
  fun m hm => h m (Nat.le_trans hm hle)

/-- There are more iterates than values. -/
theorem exists_repeat (h : Within g s bound (bound + 1)) :
    ∃ i j, i < j ∧ j ≤ bound + 1 ∧ g^[i] s = g^[j] s := by
  have hcard : (Finset.range (bound + 1)).card < (Finset.range (bound + 2)).card := by
    rw [Finset.card_range, Finset.card_range]
    omega
  have hmaps : ∀ m ∈ Finset.range (bound + 2), g^[m] s ∈ Finset.range (bound + 1) := by
    intro m hm
    have hle := h m (Nat.le_of_lt_succ (Finset.mem_range.mp hm))
    exact Finset.mem_range.mpr (Nat.lt_succ_of_le hle)
  -- the pigeonhole principle
  obtain ⟨i, hi, j, hj, hne, heq⟩ := Finset.exists_ne_map_eq_of_card_lt_of_maps_to hcard hmaps
  rw [Finset.mem_range] at hi hj
  rcases Nat.lt_or_gt_of_ne hne with hlt | hgt
  · exact ⟨i, j, hlt, by omega, heq⟩
  · exact ⟨j, i, hgt, by omega, heq.symm⟩

/-- An iteration that repeats a value below the bound never leaves it. -/
theorem within_of_repeat (hlt : i < j) (heq : g^[i] s = g^[j] s) (h : Within g s bound j)
    (n : Nat) : Within g s bound n := by
  have hall : ∀ m, g^[m] s ≤ bound := by
    intro m
    induction m using Nat.strong_induction_on with
    | _ m ih =>
      rcases Nat.le_total m j with hle | hle
      · exact h m hle
      · -- from the second occurrence on, the value is the one a period earlier
        have hback : g^[m] s = g^[m - j + i] s := by
          rw [Function.iterate_add_apply, heq, ← Function.iterate_add_apply, Nat.sub_add_cancel hle]
        rw [hback]
        exact ih _ (by omega)
  exact fun m _ => hall m

/-- An iteration stays below the bound for good if it does so for long enough. -/
theorem within_of_within_bound (h : Within g s bound (bound + 1)) (n : Nat) :
    Within g s bound n := by
  obtain ⟨i, j, hlt, hle, heq⟩ := exists_repeat h
  exact within_of_repeat hlt heq (h.mono hle) n

/-- An iteration leaves the bound exactly if it repeats no value before. -/
theorem leaves_iff_no_repeat :
    (∃ n, bound < g^[n] s) ↔
      ∀ i j, i < j → Within g s bound j → g^[i] s ≠ g^[j] s := by
  constructor
  · rintro ⟨n, hn⟩ i j hlt hwithin heq
    exact Nat.not_le.mpr hn (within_of_repeat hlt heq hwithin n n (Nat.le_refl n))
  · intro hnone
    by_contra hstay
    have hwithin : Within g s bound (bound + 1) :=
      fun m _ => Nat.not_lt.mp fun hlt => hstay ⟨m, hlt⟩
    obtain ⟨i, j, hlt, hle, heq⟩ := exists_repeat hwithin
    exact hnone i j hlt (hwithin.mono hle) heq

end BoundedIteration
