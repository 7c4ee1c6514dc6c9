import TrustedFirmware.Boot.ImageValidate

/-!
# Signature encodings

The encoding of PKCS #1, 9.1.1 for keys of 2048 bits, with SHA-256, MGF1 and salts of 32 bytes, as
the signer computes it. `bootutil_cmp_rsasig` is handed the result of the public operation and
accepts exactly these encodings, except that it does not look at the top bit of the first byte: the
encoding has 2047 bits, and 9.1.2 would reject a bit there.

The verifier works backwards. It unmasks the data block with the hash that the message carries, and
compares the hash once it has the salt. That this is the same as being an encoding rests on two
facts: the loop of `pss_mgf1` is MGF1 (`pssMgf1_eq`), and masking twice gives the data block back
(`unmask_mask`).
-/

namespace Tfm.Boot

variable (crypto : BootCrypto)

/-! ## The standard

What a signer computes, from the hash of the message and a salt. -/

/-- `I2OSP(n, 4)`. -/
def i2osp4 (n : Nat) : List UInt8 :=
  [UInt8.ofNat (n / 2 ^ 24), UInt8.ofNat (n / 2 ^ 16), UInt8.ofNat (n / 2 ^ 8), UInt8.ofNat n]

/-- The blocks of a mask, from a counter on. -/
def maskBlocks (seed : List UInt8) (start n : Nat) : List UInt8 :=
  (List.range' start n).flatMap fun counter => (crypto.sha256 (seed ++ i2osp4 counter)).toList

/-- MGF1 of PKCS #1, B.2.1. -/
def mgf1 (seed : List UInt8) (maskLen : Nat) : List UInt8 :=
  (maskBlocks crypto seed 0 ((maskLen + pssHlen - 1) / pssHlen)).take maskLen

/-- EMSA-PSS-ENCODE of PKCS #1, 9.1.1, with 2047 bits. -/
def emsaPss (hash salt : List UInt8) : List UInt8 :=
  let h := (crypto.sha256 (List.replicate 8 0 ++ hash ++ salt)).toList
  let db := List.replicate pssMaskOnePos 0 ++ 1 :: salt
  clearTopBit (List.zipWith (· ^^^ ·) (mgf1 crypto h pssMaskLen) db) ++ (h ++ [0xbc])

/-! ## The mask

The source counts blocks in the last byte of a four-byte counter. With seven blocks it never
overflows. -/

variable {crypto}

@[simp] theorem length_sha256 (data : List UInt8) : (crypto.sha256 data).toList.length = pssHlen :=
  Vector.length_toList

/-- Small counters have one byte that is not zero. -/
theorem i2osp4_of_lt {n : Nat} (h : n < 256) : i2osp4 n = [0, 0, 0, UInt8.ofNat n] := by
  have h8 : n / 2 ^ 8 = 0 := Nat.div_eq_of_lt (by omega)
  have h16 : n / 2 ^ 16 = 0 := Nat.div_eq_of_lt (by omega)
  have h24 : n / 2 ^ 24 = 0 := Nat.div_eq_of_lt (by omega)
  rw [i2osp4, h8, h16, h24]
  rfl

theorem maskBlocks_succ (seed : List UInt8) (start n : Nat) :
    maskBlocks crypto seed start (n + 1)
      = (crypto.sha256 (seed ++ i2osp4 start)).toList ++ maskBlocks crypto seed (start + 1) n := by
  rw [maskBlocks, List.range'_succ, List.flatMap_cons, maskBlocks]

/-- The loop makes the blocks from its counter on. It stops before the counter leaves its last byte. -/
theorem pssMgf1Loop_eq {hash : List UInt8} {fuel count counter : Nat} (hfuel : count ≤ fuel)
    (hcounter : counter + (count + pssHlen - 1) / pssHlen ≤ 256) :
    pssMgf1Loop crypto hash fuel count (UInt8.ofNat counter)
      = (maskBlocks crypto hash counter ((count + pssHlen - 1) / pssHlen)).take count := by
  unfold pssHlen at hcounter ⊢
  -- by induction on the fuel: every turn makes one block and moves the counter by one
  induction fuel generalizing count counter with
  | zero =>
    obtain rfl : count = 0 := by omega
    rw [List.take_zero]
    rfl
  | succ fuel ih =>
    cases count with
    | zero =>
      rw [List.take_zero]
      rfl
    | succ count =>
      have hblocks : (count + 1 + 32 - 1) / 32 = (count + 1 - 32 + 32 - 1) / 32 + 1 := by omega
      have hnext : UInt8.ofNat counter + 1 = UInt8.ofNat (counter + 1) := (UInt8.ofNat_add counter 1).symm
      have hhash : (crypto.sha256 (hash ++ [0, 0, 0, UInt8.ofNat counter])).toList.take (min pssHlen (count + 1))
          = (crypto.sha256 (hash ++ [0, 0, 0, UInt8.ofNat counter])).toList.take (count + 1) := by
        rw [List.take_eq_take_iff, length_sha256]
        omega
      have hrest : pssMgf1Loop crypto hash fuel (count + 1 - 32) (UInt8.ofNat (counter + 1)) = _ :=
        ih (by omega) (by omega)
      unfold pssMgf1Loop
      dsimp only
      rw [hhash, hnext, hblocks, maskBlocks_succ, i2osp4_of_lt (by omega), List.take_append, length_sha256]
      exact congrArg _ hrest

/-- **The loop of the source is MGF1.** -/
theorem pssMgf1_eq (hash : List UInt8) : pssMgf1 crypto hash = mgf1 crypto hash pssMaskLen :=
  pssMgf1Loop_eq (Nat.le_refl _) (by decide)

@[simp] theorem length_maskBlocks (seed : List UInt8) (start n : Nat) :
    (maskBlocks crypto seed start n).length = pssHlen * n := by
  induction n generalizing start with
  | zero => rfl
  | succ n ih => rw [maskBlocks_succ, List.length_append, length_sha256, ih, Nat.mul_succ, Nat.add_comm]

theorem length_mgf1 (seed : List UInt8) : (mgf1 crypto seed pssMaskLen).length = pssMaskLen := by
  rw [mgf1, List.length_take, length_maskBlocks]
  rfl

/-! ## Masking

Masking is an exclusive or, and the top bit is cleared behind it. -/

/-- A bit that is cleared in the end may be anything before. -/
theorem clear_xor_clear (m d : UInt8) : (m ^^^ (d &&& 0x7F)) &&& 0x7F = (m ^^^ d) &&& 0x7F := by
  refine UInt8.toBitVec_inj.mp (BitVec.eq_of_getElem_eq fun i hi => ?_)
  simp only [UInt8.toBitVec_and, UInt8.toBitVec_xor, BitVec.getElem_and, BitVec.getElem_xor]
  cases m.toBitVec[i] <;> cases d.toBitVec[i] <;> simp

theorem xor_xor_cancel {mask db : List UInt8} (h : db.length = mask.length) :
    List.zipWith (· ^^^ ·) mask (List.zipWith (· ^^^ ·) mask db) = db := by
  induction mask generalizing db with
  | nil => rw [List.zipWith_nil_left, List.length_eq_zero_iff.mp h]
  | cons m mask ih =>
    cases db with
    | nil => exact absurd h (by simp)
    | cons d db =>
      have htail := ih (Nat.succ.inj h)
      rw [List.zipWith_cons_cons, List.zipWith_cons_cons, htail, ← UInt8.xor_assoc, UInt8.xor_self,
        UInt8.zero_xor]

@[simp] theorem length_clearTopBit (bytes : List UInt8) : (clearTopBit bytes).length = bytes.length := by
  cases bytes <;> rfl

theorem clearTopBit_append {front : List UInt8} (back : List UInt8) (h : front ≠ []) :
    clearTopBit (front ++ back) = clearTopBit front ++ back := by
  cases front with
  | nil => exact absurd rfl h
  | cons b front => rfl

/-- The bit is cleared at the end, so it may be cleared before. -/
theorem clear_mask_clear (mask db : List UInt8) :
    clearTopBit (List.zipWith (· ^^^ ·) mask (clearTopBit db))
      = clearTopBit (List.zipWith (· ^^^ ·) mask db) := by
  cases mask with
  | nil => rw [List.zipWith_nil_left, List.zipWith_nil_left]
  | cons m mask =>
    cases db with
    | nil => rfl
    | cons d db =>
      rw [clearTopBit, List.zipWith_cons_cons, List.zipWith_cons_cons, clearTopBit, clearTopBit, clear_xor_clear]

/-- The mask is taken off again. -/
theorem unmask_mask {mask db : List UInt8} (h : db.length = mask.length) :
    clearTopBit (List.zipWith (· ^^^ ·) mask (clearTopBit (List.zipWith (· ^^^ ·) mask db)))
      = clearTopBit db := by
  rw [clear_mask_clear, xor_xor_cancel h]

/-! ## Verification

The message is cut into the masked data block, the hash and the last byte, and the data block into
zeros, a one and the salt. -/

theorem slice_three {bytes : List UInt8} {a b c : Nat} (h : bytes.length = a + (b + c)) :
    bytes = slice bytes 0 a ++ (slice bytes a b ++ slice bytes (a + b) c) := by
  have hall := slice_add bytes 0 a (b + c)
  rwa [Nat.zero_add, slice_add bytes a, ← h, slice_all] at hall

/-- The three parts of an encoded message. -/
theorem encoded_split {em : List UInt8} (h : em.length = pssEmlen) :
    em = slice em 0 pssMaskLen ++ (slice em pssMaskLen pssHlen ++ [em.getD (pssEmlen - 1) 0]) := by
  have hlast : slice em (pssMaskLen + pssHlen) 1 = [em.getD (pssEmlen - 1) 0] :=
    slice_one (by rw [h]; decide)
  rw [← hlast]
  exact slice_three h

/-- The three parts of a data block. -/
theorem block_split {db : List UInt8} (h : db.length = pssMaskLen) :
    db = db.take pssMaskOnePos
      ++ (db.getD pssMaskOnePos 0 :: slice db (pssMaskOnePos + 1) pssSlen) := by
  have hone : slice db pssMaskOnePos 1 = [db.getD pssMaskOnePos 0] := slice_one (by rw [h]; decide)
  rw [← List.singleton_append, ← hone]
  exact slice_three h

/-- The checks of the data block say that it is zeros, a one and a salt. -/
theorem data_block_iff {db : List UInt8} (h : db.length = pssMaskLen) :
    ((db.take pssMaskOnePos).any (· ≠ 0) = false ∧ db.getD pssMaskOnePos 0 = 1)
      ↔ db = List.replicate pssMaskOnePos 0 ++ 1 :: slice db (pssMaskOnePos + 1) pssSlen := by
  have hsplit := block_split h
  have hlen : (db.take pssMaskOnePos).length = pssMaskOnePos := by
    rw [List.length_take, h]
    rfl
  constructor
  · rintro ⟨hzero, hone⟩
    have hall : db.take pssMaskOnePos = List.replicate pssMaskOnePos 0 := by
      refine List.eq_replicate_iff.mpr ⟨hlen, fun b hb => ?_⟩
      simpa using List.any_eq_false.mp hzero b hb
    rwa [hall, hone] at hsplit
  · intro hdb
    obtain ⟨hzero, hrest⟩ := List.append_inj (hsplit.symm.trans hdb) (by rw [hlen, List.length_replicate])
    refine ⟨?_, (List.cons.inj hrest).1⟩
    rw [hzero, List.any_eq_false]
    intro b hb
    simpa using List.eq_of_mem_replicate hb

/-- The mask only covers the data block. -/
theorem zipWith_mask {mask em : List UInt8} (h : mask.length = pssMaskLen) :
    List.zipWith (· ^^^ ·) mask em = List.zipWith (· ^^^ ·) mask (slice em 0 pssMaskLen) := by
  have hleft : List.zipWith (· ^^^ ·) mask em = _ := List.zipWith_eq_zipWith_take_min
  have hright : List.zipWith (· ^^^ ·) mask (em.take pssMaskLen) = _ := List.zipWith_eq_zipWith_take_min
  rw [slice, List.drop_zero, hleft, hright, List.length_take, List.take_take, h]
  congr 2
  · omega
  · omega

/-- The checks, with the data block that the message stands for. -/
theorem pssConsistent_checks {hash em : List UInt8} {h db : List UInt8} (hh : slice em pssMaskLen pssHlen = h)
    (hdb : clearTopBit (List.zipWith (· ^^^ ·) (mgf1 crypto h pssMaskLen) (slice em 0 pssMaskLen)) = db)
    (hlen : db.length = pssMaskLen) :
    pssConsistent crypto hash em = true
      ↔ em.getD (pssEmlen - 1) 0 = 0xbc
        ∧ db = List.replicate pssMaskOnePos 0 ++ 1 :: slice db (pssMaskOnePos + 1) pssSlen
        ∧ (crypto.sha256 (List.replicate 8 0 ++ hash ++ slice db (pssMaskOnePos + 1) pssSlen)).toList = h := by
  have hmask : List.zipWith (· ^^^ ·) (mgf1 crypto h pssMaskLen) em = _ := zipWith_mask (length_mgf1 h)
  unfold pssConsistent
  rw [← data_block_iff hlen]
  simp only [hh, pssMgf1_eq, hmask, hdb, Bool.if_false_left, Bool.and_eq_true, Bool.not_eq_true',
    decide_eq_false_iff_not, decide_eq_true_eq, Bool.not_eq_true, ne_eq, not_not, and_assoc]

/-- **The checks accept the encodings of the hash, up to the top bit.** -/
theorem pssConsistent_iff {hash em : List UInt8} (hem : em.length = pssEmlen) :
    pssConsistent crypto hash em = true
      ↔ ∃ salt, salt.length = pssSlen ∧ clearTopBit em = emsaPss crypto hash salt := by
  have hsplit := encoded_split hem
  have hfront : (slice em 0 pssMaskLen).length = pssMaskLen := by
    rw [slice, List.length_take, List.length_drop, hem]
    rfl
  generalize hh : slice em pssMaskLen pssHlen = h at hsplit
  generalize hdb : clearTopBit (List.zipWith (· ^^^ ·) (mgf1 crypto h pssMaskLen) (slice em 0 pssMaskLen)) = db
  have hlen : db.length = pssMaskLen := by
    rw [← hdb, length_clearTopBit, List.length_zipWith, length_mgf1, hfront, Nat.min_self]
  have hne : slice em 0 pssMaskLen ≠ [] := List.ne_nil_of_length_pos (by rw [hfront]; decide)
  -- the message is the masked data block, the hash and a byte
  have hunmask : clearTopBit (List.zipWith (· ^^^ ·) (mgf1 crypto h pssMaskLen) db)
      = clearTopBit (slice em 0 pssMaskLen) := by
    rw [← hdb]
    exact unmask_mask (by rw [hfront, length_mgf1])
  have hclear : clearTopBit em = clearTopBit (slice em 0 pssMaskLen) ++ (h ++ [em.getD (pssEmlen - 1) 0]) := by
    rw [← clearTopBit_append _ hne, ← hsplit]
  rw [pssConsistent_checks hh hdb hlen, hclear]
  constructor
  · -- the salt is the one in the unmasked block
    rintro ⟨hlast, hblock, hhash⟩
    refine ⟨slice db (pssMaskOnePos + 1) pssSlen, ?_, ?_⟩
    · rw [slice, List.length_take, List.length_drop, hlen]
      rfl
    · rw [emsaPss, hhash, ← hblock, hunmask, hlast]
  · -- an encoding has the same hash at the same place, so that its mask is the mask of the verifier
    rintro ⟨salt, hsalt, henc⟩
    rw [emsaPss] at henc
    generalize hh' : (crypto.sha256 (List.replicate 8 0 ++ hash ++ salt)).toList = h' at henc
    have hlen' : (List.replicate pssMaskOnePos 0 ++ 1 :: salt : List UInt8).length = pssMaskLen := by
      rw [List.length_append, List.length_replicate, List.length_cons, hsalt]
      rfl
    obtain ⟨hmasked, hrest⟩ := List.append_inj henc (by
      rw [length_clearTopBit, length_clearTopBit, List.length_zipWith, length_mgf1, hlen', hfront, Nat.min_self])
    obtain ⟨rfl, hlast⟩ := List.append_inj' hrest rfl
    have hblock : db = List.replicate pssMaskOnePos 0 ++ 1 :: salt := by
      rw [← hdb, ← clear_mask_clear, hmasked]
      exact unmask_mask (by rw [hlen', length_mgf1])
    have hslice : slice db (pssMaskOnePos + 1) pssSlen = salt := by
      have hparts := (block_split hlen).symm.trans hblock
      refine (List.cons.inj (List.append_inj hparts ?_).2).2
      rw [List.length_take, hlen, List.length_replicate]
      rfl
    exact ⟨List.head_eq_of_cons_eq hlast, hslice ▸ hblock, hslice ▸ hh'⟩

/-- `bootutil_cmp_rsasig` accepts the signatures whose message is the encoding of the hash with some
salt, up to the top bit. -/
theorem rsa_signature_accepted_iff (ctx : RsaContext) (hash sig : List UInt8) :
    bootutilCmpRsasig crypto ctx hash sig = true
      ↔ ctx.len = pssEmlen ∧ hash.length = pssHlen
        ∧ ∃ em salt, ctx.rsaPublic sig = some em ∧ salt.length = pssSlen
          ∧ clearTopBit em.toList = emsaPss crypto hash salt := by
  unfold bootutilCmpRsasig
  simp only [Bool.if_false_left, Bool.and_eq_true, Bool.not_eq_true', decide_eq_false_iff_not, ne_eq, not_not]
  cases ctx.rsaPublic sig with
  | none => simp
  | some em =>
    have hem : em.toList.length = pssEmlen := Vector.length_toList
    simp only [pssConsistent_iff hem, Option.some.injEq, exists_and_left, exists_eq_left']

end Tfm.Boot
