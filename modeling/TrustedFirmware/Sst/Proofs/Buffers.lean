import TrustedFirmware.Sst.ObjectSystem

/-!
# Secure storage — buffers of the object layer

Two buffers are compared byte by byte over a range of positions (`AgreeOn`). What the object
layer reads of a buffer (bytes, header members, the associated data) depends on the range it
lies in, and a copy changes the range it writes.
-/

namespace Tfm.Sst

open Word32

variable {cfg : BuildOptions} {l l' l'' dest src : List UInt8} {p q n pos : Nat}

/-! ## Ranges

A position behind the end of a buffer reads as 0, so that buffers of different length can be
compared. -/

/-- The buffers hold the same bytes at the positions from `p` to below `q`. -/
def AgreeOn (p q : Nat) (l l' : List UInt8) : Prop := ∀ k, p ≤ k → k < q → l.getD k 0 = l'.getD k 0

theorem AgreeOn.trans (h : AgreeOn p q l l') (h' : AgreeOn p q l' l'') : AgreeOn p q l l'' :=
  fun k hp hq => (h k hp hq).trans (h' k hp hq)

theorem AgreeOn.mono {p' q' : Nat} (h : AgreeOn p q l l') (hp : p ≤ p') (hq : q' ≤ q) :
    AgreeOn p' q' l l' :=
  fun k hp' hq' => h k (Nat.le_trans hp hp') (Nat.lt_of_lt_of_le hq' hq)

theorem getD_drop_add (l : List UInt8) (p k : Nat) : (l.drop p).getD k 0 = l.getD (p + k) 0 := by
  simp [List.getD_eq_getElem?_getD]

/-- Buffers that agree on a range have the same bytes there. -/
theorem bufBytes_congr (h : AgreeOn p (p + n) l l') :
    bufBytes (l.drop p) n = bufBytes (l'.drop p) n := by
  unfold bufBytes
  apply List.map_congr_left
  intro k hk
  rw [getD_drop_add, getD_drop_add]
  exact h _ (Nat.le_add_right _ _) (Nat.add_lt_add_left (List.mem_range.mp hk) _)

theorem bufBytes_self (l : List UInt8) : bufBytes l l.length = l := by
  apply List.ext_getElem
  · simp
  · intro k hk hk'
    simp [bufBytes, List.getD_eq_getElem?_getD, hk']

/-- The first `n` bytes of a buffer. -/
theorem agreeOn_bufBytes (l : List UInt8) (n : Nat) : AgreeOn 0 n (bufBytes l n) l :=
  fun _ _ hk => getD_bufBytes l hk

/-! ## Copies

`sst_utils_memcpy` within the bounds of its destination. -/

theorem getD_sstUtilsMemcpy (h : pos ≤ dest.length) (k : Nat) :
    (sstUtilsMemcpy dest pos src).getD k 0
      = if pos ≤ k ∧ k < pos + src.length then src.getD (k - pos) 0 else dest.getD k 0 :=
  ObjectMap.getD_overlay h k

/-- A copy leaves the bytes in front of it and behind it. -/
theorem agreeOn_memcpy_of_disjoint (h : pos ≤ dest.length)
    (hpq : q ≤ pos ∨ pos + src.length ≤ p) : AgreeOn p q (sstUtilsMemcpy dest pos src) dest := by
  intro k hp hq
  rw [getD_sstUtilsMemcpy h, if_neg (by omega)]

/-- The bytes that were copied. -/
theorem bufBytes_memcpy (h : pos ≤ dest.length) :
    bufBytes ((sstUtilsMemcpy dest pos src).drop pos) src.length = src := by
  conv_rhs => rw [← bufBytes_self src]
  unfold bufBytes
  apply List.map_congr_left
  intro k hk
  have hlt := List.mem_range.mp hk
  rw [getD_drop_add, getD_sstUtilsMemcpy h, if_pos (by omega), Nat.add_sub_cancel_left]

/-- A copy to the start of a buffer. -/
theorem agreeOn_memcpy_zero : AgreeOn 0 src.length (sstUtilsMemcpy dest 0 src) src := by
  intro k _ hk
  rw [getD_sstUtilsMemcpy (Nat.zero_le _), if_pos (by omega), Nat.sub_zero]

/-! ## Members of the header

The header of an object in the buffer, member by member. The encrypted build has the fields of the
cipher in front, which the offsets account for. -/

/-- Where the members lie. -/
theorem header_layout (cfg : BuildOptions) :
    cfg.uuidOffset + 8 = cfg.infoOffset ∧ cfg.infoOffset + 12 ≤ cfg.attrOffset ∧
      cfg.attrOffset + 24 = cfg.objectHeaderSize := by
  unfold BuildOptions.infoOffset BuildOptions.attrOffset BuildOptions.objectHeaderSize
    BuildOptions.uuidOffset
  -- the offsets are numerals once the build is fixed
  cases cfg.encryption <;> decide

theorem ofLe32_congr (h : AgreeOn p (p + 4) l l') : ofLe32 l p = ofLe32 l' p := by
  unfold ofLe32
  rw [h p (by omega) (by omega), h (p + 1) (by omega) (by omega), h (p + 2) (by omega) (by omega),
    h (p + 3) (by omega) (by omega)]

theorem ofLe32_drop (l : List UInt8) (p k : Nat) : ofLe32 (l.drop p) k = ofLe32 l (p + k) := by
  unfold ofLe32
  simp only [getD_drop_add, Nat.add_assoc]

theorem objectInfo_eq (l : List UInt8) :
    objectInfo cfg l = ⟨ofLe32 l cfg.infoOffset, ofLe32 l (cfg.infoOffset + 4),
      ofLe32 l (cfg.infoOffset + 8)⟩ := by
  simp only [objectInfo, AssetInfo.decode, ofLe32_drop, Nat.add_zero]

theorem objectInfo_congr (h : AgreeOn cfg.infoOffset (cfg.infoOffset + 12) l l') :
    objectInfo cfg l = objectInfo cfg l' := by
  rw [objectInfo_eq, objectInfo_eq, ofLe32_congr (h.mono (Nat.le_refl _) (by omega)),
    ofLe32_congr (h.mono (by omega) (by omega)), ofLe32_congr (h.mono (by omega) (by omega))]

theorem objectAttrs_congr (h : AgreeOn cfg.attrOffset (cfg.attrOffset + 24) l l') :
    objectAttrs cfg l = objectAttrs cfg l' := by
  unfold objectAttrs
  congr 1
  funext i
  exact h _ (Nat.le_add_right _ _) (Nat.add_lt_add_left i.isLt _)

/-- The associated data depends on the header behind the fields of the cipher. -/
theorem associatedData_congr (h : AgreeOn sstCryptoSize cfg.objectHeaderSize l l')
    (hsize : sstCryptoSize ≤ cfg.objectHeaderSize) : associatedData cfg l = associatedData cfg l' := by
  apply bufBytes_congr
  rw [Nat.add_sub_cancel' hsize]
  exact h

/-- A word read back from where it was copied to. -/
theorem ofLe32_memcpy {w : Nat} (h : pos ≤ dest.length) (hw : w < 2 ^ 32) :
    ofLe32 (sstUtilsMemcpy dest pos (le32 w)) pos = w := by
  have hlen : (dest.take pos).length = pos := by rw [List.length_take]; omega
  have hword := ofLe32_append (dest.take pos) (dest.drop (pos + 4)) hw
  rw [hlen] at hword
  rw [sstUtilsMemcpy, List.append_assoc]
  exact hword

/-- A word that a copy does not touch. -/
theorem ofLe32_memcpy_of_disjoint (h : pos ≤ dest.length)
    (hpos : p + 4 ≤ pos ∨ pos + src.length ≤ p) :
    ofLe32 (sstUtilsMemcpy dest pos src) p = ofLe32 dest p :=
  ofLe32_congr (agreeOn_memcpy_of_disjoint h hpos)

/-- The current size is set. -/
theorem objectInfo_setSizeCurrent {size : Nat} (h : cfg.infoOffset + 12 ≤ l.length)
    (hsize : size < 2 ^ 32) :
    objectInfo cfg (setSizeCurrent cfg l size)
      = { objectInfo cfg l with sizeCurrent := size } := by
  have h4 : cfg.infoOffset + 4 ≤ l.length := by omega
  rw [objectInfo_eq, objectInfo_eq, setSizeCurrent, ofLe32_memcpy h4 hsize,
    ofLe32_memcpy_of_disjoint h4 (.inl (by omega)),
    ofLe32_memcpy_of_disjoint h4 (.inr (by simp))]

/-- A word is stored modulo its width. -/
theorem le32_mod (w : Nat) : le32 (w % 2 ^ 32) = le32 w := by
  simp only [le32, ← UInt8.toNat_inj, List.cons.injEq, and_true, UInt8.toNat_ofNat']
  omega

/-! ## A new object

What the object layer finds in a buffer that it has just initialised. -/

theorem getD_replicate_zero (n k : Nat) : (List.replicate n (0 : UInt8)).getD k 0 = 0 := by
  rw [List.getD_eq_getElem?_getD, List.getElem?_replicate]
  split <;> rfl

theorem ofLe32_replicate_zero (n p : Nat) : ofLe32 (List.replicate n 0) p = 0 := by
  rw [ofLe32, getD_replicate_zero, getD_replicate_zero, getD_replicate_zero, getD_replicate_zero]
  rfl

/-- A word copied into a buffer of the size of an object. -/
theorem length_memcpy_le32 (h : dest.length = cfg.objectBufSize) (w : Nat) (pos : Nat)
    (hpos : pos + 4 ≤ cfg.objectHeaderSize) : (sstUtilsMemcpy dest pos (le32 w)).length = cfg.objectBufSize := by
  have hbuf : cfg.objectBufSize = cfg.objectHeaderSize + cfg.maxAssetSize := rfl
  rw [length_sstUtilsMemcpy (by rw [h, length_le32]; omega), h]

/-- The words of a new object, one after the other: length, information and attributes. -/
theorem initObject_spec (cfg : BuildOptions) (uuid : UInt32) (type size : Nat) :
    (sstObjectInitObject cfg uuid type size).length = cfg.objectBufSize
      ∧ objectInfo cfg (sstObjectInitObject cfg uuid type size) = ⟨type % 2 ^ 32, 0, size % 2 ^ 32⟩
      ∧ objectAttrs cfg (sstObjectInitObject cfg uuid type size) = noAttrs := by
  have hlay := header_layout cfg
  have hver : cfg.versionOffset = cfg.uuidOffset + 4 := rfl
  have hbuf : cfg.objectBufSize = cfg.objectHeaderSize + cfg.maxAssetSize := rfl
  have h0 : (List.replicate cfg.objectBufSize (0 : UInt8)).length = cfg.objectBufSize :=
    List.length_replicate
  have h1 := length_memcpy_le32 h0 uuid.toNat cfg.uuidOffset (by omega)
  have h2 := length_memcpy_le32 h1 0 cfg.versionOffset (by omega)
  have h3 := length_memcpy_le32 h2 (size % 2 ^ 32) (cfg.infoOffset + 8) (by omega)
  have h4 := length_memcpy_le32 h3 (type % 2 ^ 32) cfg.infoOffset (by omega)
  have hlt (w : Nat) : w % 2 ^ 32 < 2 ^ 32 := Nat.mod_lt _ (Nat.two_pow_pos 32)
  unfold sstObjectInitObject
  dsimp only
  rw [← le32_mod size, ← le32_mod type]
  refine ⟨h4, ?_, ?_⟩
  · -- each word is read past the copies that come after it
    rw [objectInfo_eq, ofLe32_memcpy (by omega) (hlt type)]
    rw [ofLe32_memcpy_of_disjoint (by omega) (.inr (by rw [length_le32])),
      ofLe32_memcpy_of_disjoint (by omega) (.inl (by omega)),
      ofLe32_memcpy_of_disjoint (by omega) (.inr (by rw [length_le32]; omega)),
      ofLe32_memcpy_of_disjoint (by omega) (.inr (by rw [length_le32]; omega)), ofLe32_replicate_zero,
      ofLe32_memcpy_of_disjoint (by omega) (.inr (by rw [length_le32]; omega)),
      ofLe32_memcpy (by omega) (hlt size)]
  · apply Vector.ext
    intro i hi
    rw [objectAttrs, Vector.getElem_ofFn]
    dsimp only
    rw [getD_sstUtilsMemcpy (by omega), if_neg (by rw [length_le32]; omega),
      getD_sstUtilsMemcpy (by omega), if_neg (by rw [length_le32]; omega),
      getD_sstUtilsMemcpy (by omega), if_neg (by rw [length_le32]; omega),
      getD_sstUtilsMemcpy (by omega), if_neg (by rw [length_le32]; omega), getD_replicate_zero]
    simp [noAttrs]

/-- The object layer reserves the size the caller asks for, whether it takes it from the parameter
or from the object it has just initialised. -/
theorem sstObjectSize_initObject (cfg : BuildOptions) (uuid : UInt32) (type size : Nat) :
    sstObjectSize cfg (objectInfo cfg (sstObjectInitObject cfg uuid type size)).sizeMax
      = sstObjectSize cfg size := by
  rw [(initObject_spec cfg uuid type size).2.1, sstObjectSize, sstObjectSize, add32, add32, u32, u32]
  dsimp only
  omega

end Tfm.Sst
