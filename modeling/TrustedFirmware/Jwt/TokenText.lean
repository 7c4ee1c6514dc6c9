import TrustedFirmware.Jwt.Builder
import TrustedFirmware.Lib.Base64Url

/-!
# The text that the builder writes

A builder has been given a text to write (`Emits`): the part of it that leaves room for a terminator
is in the buffer, and the overflow flag says whether that is all. Every character goes through
`base64_outch`, so this one function has to be looked at; a segment is then a matter of its groups of
three bytes, wherever the calls that bring the bytes begin and end.
-/

namespace Tfm.Jwt

open Base64Url (digit groupDigit groupBits)

/-- The characters between the two pointers of the builder. -/
def JwtBuilder.written (st : JwtBuilder) : List UInt8 :=
  (List.range (st.buf - st.base)).map fun i => st.mem (st.base + i)

theorem JwtBuilder.getElem_written {st : JwtBuilder} {i : Nat} (h : i < st.written.length) :
    st.written[i] = st.mem (st.base + i) := by
  simp [JwtBuilder.written]

/-! ## One character

The one function that writes to memory, and the invariant it keeps. -/

/-- The builder was given `text` to write, in a buffer of `size` bytes. `mem` is the memory before
that. -/
structure Emits (buffer size : Nat) (mem : Nat → UInt8) (text : List UInt8) (st : JwtBuilder) :
    Prop where
  base : st.base = buffer
  buf : st.buf = buffer + min text.length (size - 1)
  len : st.len = size - min text.length (size - 1)
  overflowed : st.overflowed = true ↔ size - 1 < text.length
  written : st.written = text.take (size - 1)
  terminated : st.buf ≠ buffer → st.mem st.buf = 0
  outside : ∀ a, a < buffer ∨ buffer + size ≤ a → st.mem a = mem a

variable {buffer size : Nat} {mem : Nat → UInt8} {text : List UInt8} {st : JwtBuilder}

/-- Writing a character and the terminator behind it adds the character. -/
theorem written_push {st : JwtBuilder} (h : st.base ≤ st.buf) (ch : UInt8) (len : Nat) :
    { st with
      mem := Function.update (Function.update st.mem st.buf ch) (st.buf + 1) 0
      buf := st.buf + 1
      len := len }.written = st.written ++ [ch] := by
  have hn : st.buf + 1 - st.base = (st.buf - st.base) + 1 := by omega
  simp only [JwtBuilder.written, hn, List.range_succ, List.map_append, List.map_singleton]
  congr 1
  · apply List.map_congr_left
    intro i hi
    have hi := List.mem_range.mp hi
    rw [Function.update_of_ne (by omega), Function.update_of_ne (by omega)]
  · rw [Function.update_of_ne (by omega), show st.base + (st.buf - st.base) = st.buf by omega,
      Function.update_self]

theorem Emits.outch (h : Emits buffer size mem text st) (ch : UInt8) :
    Emits buffer size mem (text ++ [ch]) (base64Outch st ch) := by
  have hlen : (text ++ [ch]).length = text.length + 1 := by simp
  have hbuf := h.buf
  have hl := h.len
  have hb := h.base
  unfold base64Outch
  by_cases hov : st.overflowed = true
  · -- nothing fits any more
    rw [if_pos hov]
    have hfull := h.overflowed.mp hov
    refine ⟨hb, by omega, by omega, ⟨fun _ => by omega, fun _ => hov⟩, ?_, h.terminated, h.outside⟩
    rw [h.written, List.take_append_of_le_length (by omega)]
  · have hroom := mt h.overflowed.mpr hov
    rw [if_neg hov]
    by_cases hlast : st.len < 2
    · -- the byte that is left is for the terminator
      rw [if_pos hlast]
      refine ⟨hb, by simp only; omega, by simp only; omega, ?_, ?_, h.terminated, h.outside⟩
      · simp only [true_iff]
        omega
      · show st.written = _
        rw [h.written, List.take_append_of_le_length (by omega)]
    · rw [if_neg hlast]
      refine ⟨hb, by simp only; omega, by simp only; omega,
        ⟨fun h => absurd h hov, fun h => by omega⟩, ?_, ?_, ?_⟩
      · rw [written_push (by omega), h.written, List.take_of_length_le (by omega),
          List.take_of_length_le (by omega)]
      · intro _
        exact Function.update_self _ _ _
      · intro a ha
        show Function.update (Function.update st.mem st.buf ch) (st.buf + 1) 0 a = mem a
        rw [Function.update_of_ne (by omega), Function.update_of_ne (by omega), h.outside a ha]

/-- Writing a character leaves the pending bytes alone. -/
@[simp] theorem base64Outch_wip (st : JwtBuilder) (ch : UInt8) :
    (base64Outch st ch).wip = st.wip := by
  unfold base64Outch
  split
  · rfl
  · split <;> rfl

@[simp] theorem base64Outch_pending (st : JwtBuilder) (ch : UInt8) :
    (base64Outch st ch).pending = st.pending := by
  unfold base64Outch
  split
  · rfl
  · split <;> rfl

/-! ## Groups

A flush of the source and a group of the encoding give the same characters. -/

theorem base64Char_eq_digit : ∀ value < 64, base64Char value = digit value := by decide

/-- A character of a group is a digit of its bits. -/
theorem base64Char_groupDigit {bits i value : Nat} (h : bits / 2 ^ i % 2 ^ 6 = value) :
    base64Char value = groupDigit bits i := by
  have hlt : value < 64 := by
    rw [← h]
    exact Nat.mod_lt _ (by decide)
  rw [groupDigit, h, base64Char_eq_digit value hlt]

/-- The bytes that are pending; the other work bytes are zero. -/
structure Holds (bytes : List UInt8) (st : JwtBuilder) : Prop where
  pending : st.pending = bytes.length
  wip : st.wip = #v[bytes.getD 0 0, bytes.getD 1 0, bytes.getD 2 0]

theorem Emits.of_fields {st' : JwtBuilder} (h : Emits buffer size mem text st)
    (hbase : st'.base = st.base) (hbuf : st'.buf = st.buf) (hlen : st'.len = st.len)
    (hov : st'.overflowed = st.overflowed) (hmem : st'.mem = st.mem) :
    Emits buffer size mem text st' := by
  have hwritten : st'.written = st.written := by
    rw [JwtBuilder.written, JwtBuilder.written, hbase, hbuf, hmem]
  refine ⟨hbase.trans h.base, hbuf.trans h.buf, hlen.trans h.len, ?_, hwritten.trans h.written, ?_, ?_⟩
  · rw [hov]
    exact h.overflowed
  · rw [hbuf, hmem]
    exact h.terminated
  · rw [hmem]
    exact h.outside

/-- A flush writes the digits of the bytes that are pending. -/
theorem Emits.flush {bytes : List UInt8} (h : Emits buffer size mem text st) (hst : Holds bytes st)
    (hlen : bytes.length ≤ 3) :
    Emits buffer size mem (text ++ Base64Url.encode bytes) (base64Flush st) := by
  unfold base64Flush
  rw [hst.pending, hst.wip]
  -- none to three bytes are pending
  match bytes, hlen with
  | [], _ =>
    rw [if_pos (by simp), Base64Url.encode, List.append_nil]
    exact h
  | [a], _ =>
    have hout := (h.outch (base64Char (a.toNat >>> 2))).outch
      (base64Char ((a.toNat &&& 0x03) <<< 4 ||| (0 : UInt8).toNat >>> 4))
    have htext : [base64Char (a.toNat >>> 2)]
          ++ [base64Char ((a.toNat &&& 0x03) <<< 4 ||| (0 : UInt8).toNat >>> 4)]
        = Base64Url.encode [a] := by
      rw [base64Char_groupDigit (Base64Url.groupBits_bit18 a 0 0),
        base64Char_groupDigit (Base64Url.groupBits_bit12 a 0 0), Base64Url.encode]
      rfl
    rw [List.append_assoc, htext] at hout
    exact hout.of_fields rfl rfl rfl rfl rfl
  | [a, b], _ =>
    have hout := ((h.outch (base64Char (a.toNat >>> 2))).outch
      (base64Char ((a.toNat &&& 0x03) <<< 4 ||| b.toNat >>> 4))).outch
      (base64Char ((b.toNat &&& 0x0f) <<< 2 ||| (0 : UInt8).toNat >>> 6))
    have htext : [base64Char (a.toNat >>> 2)]
          ++ ([base64Char ((a.toNat &&& 0x03) <<< 4 ||| b.toNat >>> 4)]
          ++ [base64Char ((b.toNat &&& 0x0f) <<< 2 ||| (0 : UInt8).toNat >>> 6)])
        = Base64Url.encode [a, b] := by
      rw [base64Char_groupDigit (Base64Url.groupBits_bit18 a b 0),
        base64Char_groupDigit (Base64Url.groupBits_bit12 a b 0),
        base64Char_groupDigit (Base64Url.groupBits_bit6 a b 0), Base64Url.encode]
      rfl
    rw [List.append_assoc, List.append_assoc, htext] at hout
    exact hout.of_fields rfl rfl rfl rfl rfl
  | [a, b, c], _ =>
    have hout := (((h.outch (base64Char (a.toNat >>> 2))).outch
      (base64Char ((a.toNat &&& 0x03) <<< 4 ||| b.toNat >>> 4))).outch
      (base64Char ((b.toNat &&& 0x0f) <<< 2 ||| c.toNat >>> 6))).outch
      (base64Char (c.toNat &&& 0x3f))
    have htext : [base64Char (a.toNat >>> 2)]
          ++ ([base64Char ((a.toNat &&& 0x03) <<< 4 ||| b.toNat >>> 4)]
          ++ ([base64Char ((b.toNat &&& 0x0f) <<< 2 ||| c.toNat >>> 6)]
          ++ [base64Char (c.toNat &&& 0x3f)]))
        = Base64Url.encode [a, b, c] := by
      rw [base64Char_groupDigit (Base64Url.groupBits_bit18 a b c),
        base64Char_groupDigit (Base64Url.groupBits_bit12 a b c),
        base64Char_groupDigit (Base64Url.groupBits_bit6 a b c),
        base64Char_groupDigit (Base64Url.groupBits_bit0 a b c), Base64Url.encode, Base64Url.encode]
      rfl
    rw [List.append_assoc, List.append_assoc, List.append_assoc, htext] at hout
    exact hout.of_fields rfl rfl rfl rfl rfl

theorem holds_nil_flush {bytes : List UInt8} (hst : Holds bytes st) : Holds [] (base64Flush st) := by
  unfold base64Flush
  split
  · rename_i hp
    have hnil : bytes = [] := List.eq_nil_of_length_eq_zero (by rw [← hst.pending]; omega)
    rw [← hnil]
    exact hst
  · exact ⟨rfl, rfl⟩

/-- The pending bytes stay while characters are written. -/
theorem Holds.outch {bytes : List UInt8} (hst : Holds bytes st) (ch : UInt8) :
    Holds bytes (base64Outch st ch) :=
  ⟨by rw [base64Outch_pending, hst.pending], by rw [base64Outch_wip, hst.wip]⟩

/-! ## Segments

Bytes come in one by one; whole groups are written as soon as they are complete. -/

/-- In front of the current segment there is `text`, and `bytes` of the segment have come in: its
whole groups are written, the others are pending. -/
def InSegment (buffer size : Nat) (mem : Nat → UInt8) (text bytes : List UInt8) (st : JwtBuilder) :
    Prop :=
  ∃ full rest, bytes = full ++ rest ∧ 3 ∣ full.length ∧ rest.length < 3
    ∧ Emits buffer size mem (text ++ Base64Url.encode full) st ∧ Holds rest st

theorem inSegment_nil (h : Emits buffer size mem text st) (hst : Holds [] st) :
    InSegment buffer size mem text [] st :=
  ⟨[], [], rfl, by simp, by simp, by rwa [Base64Url.encode, List.append_nil], hst⟩

/-- A byte is stored behind those that are pending. -/
theorem Holds.push {bytes : List UInt8} (hst : Holds bytes st) (hlen : bytes.length < 3)
    (byte : UInt8) :
    Holds (bytes ++ [byte])
      { st with wip := st.wip.setIfInBounds st.pending byte, pending := st.pending + 1 } := by
  refine ⟨by simp [hst.pending], ?_⟩
  simp only [hst.pending, hst.wip]
  match bytes, hlen with
  | [], _ => rfl
  | [a], _ => rfl
  | [a, b], _ => rfl

theorem InSegment.addbyte {bytes : List UInt8} (h : InSegment buffer size mem text bytes st)
    (byte : UInt8) : InSegment buffer size mem text (bytes ++ [byte]) (base64Addbyte st byte) := by
  obtain ⟨full, rest, rfl, hfull, hrest, hemits, hst⟩ := h
  have hpush := hst.push hrest byte
  have hemits' : Emits buffer size mem (text ++ Base64Url.encode full)
      { st with wip := st.wip.setIfInBounds st.pending byte, pending := st.pending + 1 } :=
    hemits.of_fields rfl rfl rfl rfl rfl
  have hlen : (rest ++ [byte]).length = rest.length + 1 := by simp
  unfold base64Addbyte
  dsimp only
  by_cases hgroup : st.pending + 1 = 3
  · -- the group is complete and is written
    rw [if_pos hgroup]
    have hpending := hst.pending
    have hflush := hemits'.flush hpush (by omega)
    rw [List.append_assoc, ← Base64Url.encode_append hfull] at hflush
    refine ⟨full ++ (rest ++ [byte]), [], by simp, ?_, by simp, hflush, holds_nil_flush hpush⟩
    rw [List.length_append, hlen]
    omega
  · rw [if_neg hgroup]
    have hpending := hst.pending
    exact ⟨full, rest ++ [byte], by simp, hfull, by omega, hemits', hpush⟩

theorem InSegment.foldl {bytes : List UInt8} (h : InSegment buffer size mem text bytes st)
    (more : List UInt8) :
    InSegment buffer size mem text (bytes ++ more) (more.foldl base64Addbyte st) := by
  induction more generalizing bytes st with
  | nil => simpa using h
  | cons byte more ih =>
    rw [List.append_cons, List.foldl_cons]
    exact ih (h.addbyte byte)

/-- Where the calls that bring the bytes begin and end makes no difference. -/
theorem appendAll_eq_foldl (chunks : List (List UInt8)) (st : JwtBuilder) :
    appendAll base64AppendBytes chunks st = chunks.flatten.foldl base64Addbyte st := by
  induction chunks generalizing st with
  | nil => rfl
  | cons chunk chunks ih =>
    rw [List.flatten_cons, List.foldl_append, ← ih]
    rfl

/-- The first group of a token: whatever is in the work bytes is overwritten. -/
theorem inSegment_first_group (h : Emits buffer size mem text st) (hp : st.pending = 0)
    (a b c : UInt8) :
    InSegment buffer size mem text [a, b, c] ([a, b, c].foldl base64Addbyte st) := by
  have hadd : [a, b, c].foldl base64Addbyte st
      = base64Flush { st with wip := #v[a, b, c], pending := 3 } := by
    -- `jwt_init_builder` does not clear the work bytes, but three bytes fill them
    have hwip : ((st.wip.setIfInBounds 0 a).setIfInBounds 1 b).setIfInBounds 2 c = #v[a, b, c] := by
      ext i hi
      match i, hi with
      | 0, _ => simp
      | 1, _ => simp
      | 2, _ => simp
    rw [← hwip]
    simp [base64Addbyte, hp]
  have hst : Holds [a, b, c] { st with wip := #v[a, b, c], pending := 3 } := ⟨rfl, rfl⟩
  have hemits : Emits buffer size mem text { st with wip := #v[a, b, c], pending := 3 } :=
    h.of_fields rfl rfl rfl rfl rfl
  rw [hadd]
  exact ⟨[a, b, c], [], rfl, by simp, by simp, hemits.flush hst (by simp), holds_nil_flush hst⟩

theorem InSegment.flush {bytes : List UInt8} (h : InSegment buffer size mem text bytes st) :
    Emits buffer size mem (text ++ Base64Url.encode bytes) (base64Flush st)
      ∧ Holds [] (base64Flush st) := by
  obtain ⟨full, rest, rfl, hfull, hrest, hemits, hst⟩ := h
  refine ⟨?_, holds_nil_flush hst⟩
  rw [Base64Url.encode_append hfull, ← List.append_assoc]
  exact hemits.flush hst (by omega)

end Tfm.Jwt
