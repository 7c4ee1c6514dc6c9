import Mathlib.Data.List.Basic
import Mathlib.Logic.Function.Basic

/-!
# Ring buffers

A ring of capacity `N` is a buffer whose positions are taken modulo `N`. `window` reads cells
from a position on and `store` writes them, both wrapping around. Two windows that do not
overlap, even around the end, do not disturb each other (`window_store_ahead`), so a queue of
records can be kept in a ring as one window that grows at its end and shrinks at its start.
-/

namespace Ring

variable {α : Type} {N : Nat}

/-- The `n` cells from position `p` on. -/
def window (N : Nat) (buf : Nat → α) (p n : Nat) : List α :=
  (List.range n).map fun i => buf ((p + i) % N)

/-- Write `xs` from position `p` on, one cell after the other. -/
def store (N : Nat) : (Nat → α) → Nat → List α → Nat → α
  | buf, _, [] => buf
  | buf, p, x :: xs => store N (Function.update buf (p % N) x) (p + 1) xs

/-! ## Windows

Reading does not look at positions beyond the window, and positions count modulo the capacity. -/

/-- A window has as many cells as asked for. -/
@[simp] theorem length_window (buf : Nat → α) (p n : Nat) : (window N buf p n).length = n := by
  simp [window]

theorem window_mod (buf : Nat → α) (p n : Nat) : window N buf (p % N) n = window N buf p n := by
  simp [window]

theorem window_add (buf : Nat → α) (p m n : Nat) :
    window N buf p (m + n) = window N buf p m ++ window N buf (p + m) n := by
  simp [window, List.range_add, Nat.add_assoc, Function.comp_def]

theorem window_congr {buf buf' : Nat → α} {p n : Nat}
    (h : ∀ i < n, buf ((p + i) % N) = buf' ((p + i) % N)) :
    window N buf p n = window N buf' p n := by
  unfold window
  exact List.map_congr_left fun i hi => h i (List.mem_range.mp hi)

theorem getElem?_window (buf : Nat → α) (p : Nat) {n i : Nat} (h : i < n) :
    (window N buf p n)[i]? = some (buf ((p + i) % N)) := by
  simp [window, h]

/-- The parts of a window that holds two lists one after the other. -/
theorem window_append {buf : Nat → α} {p : Nat} {xs ys : List α}
    (h : window N buf p (xs ++ ys).length = xs ++ ys) :
    window N buf p xs.length = xs ∧ window N buf (p + xs.length) ys.length = ys := by
  rw [List.length_append, window_add] at h
  exact List.append_inj h (length_window _ _ _)

/-! ## Stores

At most `N` cells are written, so that none is written twice. -/

/-- The cell `i` positions ahead of where `xs` was written. -/
theorem store_apply (buf : Nat → α) (p : Nat) {xs : List α} {i : Nat} (hN : xs.length ≤ N)
    (hi : i < N) :
    store N buf p xs ((p + i) % N) = (xs[i]?).getD (buf ((p + i) % N)) := by
  -- by induction on the cells: the position moves on by one, and the distance to a given cell
  -- shrinks by one
  induction xs generalizing buf p i with
  | nil => rfl
  | cons x xs ih =>
    rw [List.length_cons] at hN
    unfold store
    cases i with
    | zero =>
      -- seen from the next position, the cell at `p` is the last one around the ring
      have hround : (p + 1 + (N - 1)) % N = p % N := by
        rw [show p + 1 + (N - 1) = p + N by omega, Nat.add_mod_right]
      have hlast := ih (Function.update buf (p % N) x) (p + 1) (i := N - 1) (by omega) (by omega)
      rw [hround, List.getElem?_eq_none (by omega)] at hlast
      simpa using hlast
    | succ i =>
      have hnext := ih (Function.update buf (p % N) x) (p + 1) (i := i) (by omega) (by omega)
      rw [show p + 1 + i = p + (i + 1) by omega] at hnext
      rw [hnext, List.getElem?_cons_succ]
      cases hx : xs[i]? with
      | some y => rfl
      | none =>
        -- another cell of the ring, as `i + 1` is less than a full round
        have hne : (p + (i + 1)) % N ≠ p % N := by
          intro heq
          have hzero := Nat.sub_mod_eq_zero_of_mod_eq heq
          rw [Nat.add_sub_cancel_left, Nat.mod_eq_of_lt hi] at hzero
          omega
        exact Function.update_of_ne hne _ _

/-- What was written is read back. -/
theorem window_store_self (buf : Nat → α) (p : Nat) {xs : List α} (hN : xs.length ≤ N) :
    window N (store N buf p xs) p xs.length = xs := by
  refine List.ext_getElem? fun i => ?_
  by_cases hi : i < xs.length
  · rw [getElem?_window _ _ hi, store_apply buf p hN (by omega), List.getElem?_eq_getElem hi]
    rfl
  · rw [List.getElem?_eq_none (by rw [length_window]; omega), List.getElem?_eq_none (by omega)]

/-- A window that ends where the new cells begin is left alone, as long as both fit. -/
theorem window_store_ahead (buf : Nat → α) (p : Nat) {m : Nat} {xs : List α}
    (hN : m + xs.length ≤ N) :
    window N (store N buf (p + m) xs) p m = window N buf p m := by
  refine window_congr fun i hi => ?_
  -- position `p + i` is `N - m + i` ahead of the first new cell
  have hround : (p + m + (N - m + i)) % N = (p + i) % N := by
    rw [show p + m + (N - m + i) = p + i + N by omega, Nat.add_mod_right]
  have hlen : xs.length ≤ N - m + i := by omega
  have hcell := store_apply buf (p + m) (show xs.length ≤ N by omega) (show N - m + i < N by omega)
  rw [hround, List.getElem?_eq_none hlen] at hcell
  exact hcell

/-- Appending to a window. -/
theorem window_store_append {buf : Nat → α} {p : Nat} {xs ys : List α}
    (h : window N buf p xs.length = xs) (hN : xs.length + ys.length ≤ N) :
    window N (store N buf (p + xs.length) ys) p (xs ++ ys).length = xs ++ ys := by
  rw [List.length_append, window_add, window_store_ahead _ _ hN, h,
    window_store_self _ _ (by omega)]

theorem store_mod (buf : Nat → α) (p : Nat) (xs : List α) :
    store N buf (p % N) xs = store N buf p xs := by
  induction xs generalizing buf p with
  | nil => rfl
  | cons x xs ih =>
    unfold store
    rw [Nat.mod_mod, ← ih _ (p + 1), ← ih _ (p % N + 1), Nat.mod_add_mod]

end Ring
