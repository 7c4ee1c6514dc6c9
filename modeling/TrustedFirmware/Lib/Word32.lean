import Mathlib.Algebra.Ring.Nat
import Mathlib.Data.List.Basic

/-!
# 32-bit unsigned arithmetic and little-endian words

Unsigned 32-bit values are natural numbers below `2 ^ 32`; the operations wrap as C's do. Where no
wrap-around happens the `_eq` lemmas give the exact result back, so that proofs about in-range
values stay in linear arithmetic.

Subtraction takes its second argument modulo `2 ^ 32` first, so that both arguments may be any
numbers.
-/

namespace Word32

/-- Truncation to 32 bits. -/
def u32 (n : Nat) : Nat := n % 2 ^ 32

/-- Wrapping addition. -/
def add32 (a b : Nat) : Nat := u32 (a + b)

/-- Wrapping subtraction. -/
def sub32 (a b : Nat) : Nat := u32 (a + (2 ^ 32 - b % 2 ^ 32))

theorem u32_eq {n : Nat} (h : n < 2 ^ 32) : u32 n = n := Nat.mod_eq_of_lt h

theorem u32_lt (n : Nat) : u32 n < 2 ^ 32 := Nat.mod_lt _ (by decide)

theorem add32_eq {a b : Nat} (h : a + b < 2 ^ 32) : add32 a b = a + b := u32_eq h

theorem add32_lt (a b : Nat) : add32 a b < 2 ^ 32 := u32_lt _

theorem sub32_eq {a b : Nat} (h : b ≤ a) (ha : a < 2 ^ 32) : sub32 a b = a - b := by
  unfold sub32 u32
  omega

theorem sub32_lt (a b : Nat) : sub32 a b < 2 ^ 32 := u32_lt _

/-- The four bytes of a word, least significant first. -/
def le32 (n : Nat) : List UInt8 :=
  [UInt8.ofNat n, UInt8.ofNat (n / 2 ^ 8), UInt8.ofNat (n / 2 ^ 16), UInt8.ofNat (n / 2 ^ 24)]

/-- The word at offset `off` of a byte string (missing bytes read as zero). -/
def ofLe32 (bs : List UInt8) (off : Nat) : Nat :=
  (bs.getD off 0).toNat + (bs.getD (off + 1) 0).toNat * 2 ^ 8
    + (bs.getD (off + 2) 0).toNat * 2 ^ 16 + (bs.getD (off + 3) 0).toNat * 2 ^ 24

@[simp] theorem length_le32 (n : Nat) : (le32 n).length = 4 := rfl

theorem ofLe32_lt (bs : List UInt8) (off : Nat) : ofLe32 bs off < 2 ^ 32 := by
  have h0 := UInt8.toNat_lt (bs.getD off 0)
  have h1 := UInt8.toNat_lt (bs.getD (off + 1) 0)
  have h2 := UInt8.toNat_lt (bs.getD (off + 2) 0)
  have h3 := UInt8.toNat_lt (bs.getD (off + 3) 0)
  unfold ofLe32
  omega

/-- A word read back after it was stored between `pre` and `post`. -/
theorem ofLe32_append (pre post : List UInt8) {n : Nat} (h : n < 2 ^ 32) :
    ofLe32 (pre ++ (le32 n ++ post)) pre.length = n := by
  -- the bytes behind `pre` are those of the word and of `post`
  have hget (i : Nat) :
      (pre ++ (le32 n ++ post)).getD (pre.length + i) 0 = (le32 n ++ post).getD i 0 := by
    simp [List.getD_eq_getElem?_getD, List.getElem?_append_right]
  have h0 := hget 0
  rw [Nat.add_zero] at h0
  simp only [ofLe32, h0, hget]
  simp [le32]
  omega

end Word32
