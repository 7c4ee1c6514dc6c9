import Mathlib.Algebra.Ring.Nat
import Mathlib.Data.List.Basic

/-!
# Unpadded base64 with the URL alphabet

Three bytes are 24 bits, four digits of six bits each. The last group of a text may have one or two
bytes only; its missing bits are zero, and the digits that have none of its bits are left out.
Digits and bytes are both octets.

The definition goes by groups of three bytes. An implementation that shifts and masks bytes is
compared with it digit by digit (`groupBits_bit18` and the others).
-/

namespace Base64Url

/-- The digits in the order of their values. -/
def alphabet : List UInt8 :=
  ['A', 'B', 'C', 'D', 'E', 'F', 'G', 'H', 'I', 'J', 'K', 'L', 'M', 'N', 'O', 'P', 'Q', 'R', 'S', 'T',
    'U', 'V', 'W', 'X', 'Y', 'Z', 'a', 'b', 'c', 'd', 'e', 'f', 'g', 'h', 'i', 'j', 'k', 'l', 'm', 'n',
    'o', 'p', 'q', 'r', 's', 't', 'u', 'v', 'w', 'x', 'y', 'z', '0', '1', '2', '3', '4', '5', '6', '7',
    '8', '9', '-', '_'].map fun c => c.toNat.toUInt8

/-- The digit for a six-bit value. -/
def digit (value : Nat) : UInt8 := alphabet.getD value 0

/-- The 24 bits of a group. -/
def groupBits (a b c : UInt8) : Nat := a.toNat * 2 ^ 16 + b.toNat * 2 ^ 8 + c.toNat

/-- The digit for the six bits of a group from bit `i` on. -/
def groupDigit (bits i : Nat) : UInt8 := digit (bits / 2 ^ i % 2 ^ 6)

/-- The text of a byte string. -/
def encode : List UInt8 → List UInt8
  | [] => []
  | [a] => [groupDigit (groupBits a 0 0) 18, groupDigit (groupBits a 0 0) 12]
  | [a, b] => [groupDigit (groupBits a b 0) 18, groupDigit (groupBits a b 0) 12,
      groupDigit (groupBits a b 0) 6]
  | a :: b :: c :: rest => groupDigit (groupBits a b c) 18 :: groupDigit (groupBits a b c) 12
      :: groupDigit (groupBits a b c) 6 :: groupDigit (groupBits a b c) 0 :: encode rest

theorem length_encode (bytes : List UInt8) : (encode bytes).length = (4 * bytes.length + 2) / 3 := by
  induction bytes using encode.induct with
  | case1 => rfl
  | case2 a => simp [encode]
  | case3 a b => simp [encode]
  | case4 a b c rest ih =>
    simp only [encode, List.length_cons, ih]
    omega

/-- Whole groups are encoded on their own. -/
theorem encode_append {bytes : List UInt8} (h : 3 ∣ bytes.length) (rest : List UInt8) :
    encode (bytes ++ rest) = encode bytes ++ encode rest := by
  induction bytes using encode.induct with
  | case1 => simp [encode]
  | case2 a => simp at h
  | case3 a b => simp at h
  | case4 a b c bytes ih =>
    have hrest : 3 ∣ bytes.length := by
      simp only [List.length_cons] at h
      omega
    simp only [List.cons_append, encode, ih hrest]

/-! ## The digits of a group, from its bytes

The shifts and masks that pick six bits out of one byte or of two adjacent ones. -/

variable (a b c : UInt8)

theorem groupBits_bit18 : groupBits a b c / 2 ^ 18 % 2 ^ 6 = a.toNat >>> 2 := by
  have ha := a.toNat_lt
  have hb := b.toNat_lt
  have hc := c.toNat_lt
  rw [groupBits, Nat.shiftRight_eq_div_pow]
  omega

/-- The low bits of the first byte and the high bits of the second. -/
theorem groupBits_bit12 :
    groupBits a b c / 2 ^ 12 % 2 ^ 6 = (a.toNat &&& 0x03) <<< 4 ||| b.toNat >>> 4 := by
  have hb := b.toNat_lt
  have hc := c.toNat_lt
  have hlow : b.toNat >>> 4 < 2 ^ 4 := by
    rw [Nat.shiftRight_eq_div_pow]
    omega
  rw [← Nat.shiftLeft_add_eq_or_of_lt hlow, Nat.shiftLeft_eq, Nat.shiftRight_eq_div_pow,
    show 0x03 = 2 ^ 2 - 1 by rfl, Nat.and_two_pow_sub_one_eq_mod, groupBits]
  omega

/-- The low bits of the second byte and the high bits of the third. -/
theorem groupBits_bit6 :
    groupBits a b c / 2 ^ 6 % 2 ^ 6 = (b.toNat &&& 0x0f) <<< 2 ||| c.toNat >>> 6 := by
  have hc := c.toNat_lt
  have hlow : c.toNat >>> 6 < 2 ^ 2 := by
    rw [Nat.shiftRight_eq_div_pow]
    omega
  rw [← Nat.shiftLeft_add_eq_or_of_lt hlow, Nat.shiftLeft_eq, Nat.shiftRight_eq_div_pow,
    show 0x0f = 2 ^ 4 - 1 by rfl, Nat.and_two_pow_sub_one_eq_mod, groupBits]
  omega

theorem groupBits_bit0 : groupBits a b c / 2 ^ 0 % 2 ^ 6 = c.toNat &&& 0x3f := by
  rw [show 0x3f = 2 ^ 6 - 1 by rfl, Nat.and_two_pow_sub_one_eq_mod, groupBits]
  omega

end Base64Url
