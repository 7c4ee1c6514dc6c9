import TrustedFirmware.Lib.FlashDriver
import TrustedFirmware.Sst.Core.Object
import TrustedFirmware.Sst.Core.Store
import Mathlib.Tactic.Ring

/-!
# The tables of a metadata block

A metadata block holds the header, the block table and the object table. `tablesOf` reads both
tables off a row of bytes, and the `tablesOf_put_*` lemmas say how each program that the core issues
changes them, so that the rest of the development reasons about tables and not about bytes.

The core computes offsets and sizes in 32 bits. The first two sections show that within the bounds
of a configuration nothing wraps: offsets are `blkOff` and `objOff`, and rounding to the program
unit is ordinary rounding.
-/

namespace Tfm.Sst

open Word32 BlockFlash Device

variable (cfg : Config)

/-! ## Offsets

The header takes 36 bytes, a block descriptor 12 and an object entry 20, as
`TrustedFirmware.Sst.Records` encodes them. -/

/-- Offset of the descriptor of logical block `l`. -/
def blkOff (l : Nat) : Nat := 36 + 12 * l

/-- Offset of the object table entry `i`. -/
def objOff (i : Nat) : Nat := 36 + 12 * cfg.numActiveDblocks + 20 * i

/-- The metadata ends behind the last entry of the object table. -/
theorem objOff_numAssets : objOff cfg cfg.numAssets = cfg.allMetadataSize := by
  rw [cfg.allMetadataSize_eq, objOff]

theorem allMetadataSize_lt : cfg.allMetadataSize < 2 ^ 32 := by
  have := cfg.metadata_fits
  have := cfg.blockSize_le
  omega

theorem sstMetaBlockMetaOffset_eq {l : Nat} (hl : l ≤ cfg.numActiveDblocks) :
    sstMetaBlockMetaOffset l = blkOff l := by
  have := allMetadataSize_lt cfg
  rw [cfg.allMetadataSize_eq] at this
  simp only [sstMetaBlockMetaOffset, sizeofMetadataBlockHeader, sizeofBlockMetadata, blkOff]
  rw [u32_eq (by omega)]
  omega

theorem sstMetaObjectMetaOffset_eq {i : Nat} (hi : i ≤ cfg.numAssets) :
    sstMetaObjectMetaOffset cfg i = objOff cfg i := by
  have := allMetadataSize_lt cfg
  rw [cfg.allMetadataSize_eq] at this
  simp only [sstMetaObjectMetaOffset, sizeofMetadataBlockHeader, sizeofBlockMetadata,
    sizeofAssetmeta, objOff]
  rw [u32_eq (by omega)]
  omega

/-! ## Rounding to the program unit

Object sizes are rounded up so that every program starts and ends at a multiple of the unit, which
is 1, 4 or 8 bytes. -/

/-- Rounding up, without wrap-around. -/
theorem sstGetAlignedFlashBytes_eq {n : Nat} (hn : n + cfg.flashProgramUnit ≤ 2 ^ 32) :
    sstGetAlignedFlashBytes cfg n
      = n + (if n % cfg.flashProgramUnit ≠ 0 then
          cfg.flashProgramUnit - n % cfg.flashProgramUnit else 0) := by
  have hpos := cfg.flashProgramUnit_pos
  have hmod := Nat.mod_lt n hpos
  simp only [sstGetAlignedFlashBytes]
  split
  · rw [add32_eq (by omega)]
    omega
  · rw [add32_eq (by omega)]
    omega

theorem le_aligned {n : Nat} (hn : n + cfg.flashProgramUnit ≤ 2 ^ 32) :
    n ≤ sstGetAlignedFlashBytes cfg n := by
  rw [sstGetAlignedFlashBytes_eq cfg hn]
  omega

theorem dvd_aligned {n : Nat} (hn : n + cfg.flashProgramUnit ≤ 2 ^ 32) :
    cfg.flashProgramUnit ∣ sstGetAlignedFlashBytes cfg n := by
  rw [sstGetAlignedFlashBytes_eq cfg hn]
  -- one case for each program unit, because the divisor has to be a numeral
  rcases cfg.unit_ok with h | h | h <;> rw [h] <;> split <;> omega

theorem aligned_mono {m n : Nat} (hmn : m ≤ n) (hn : n + cfg.flashProgramUnit ≤ 2 ^ 32) :
    sstGetAlignedFlashBytes cfg m ≤ sstGetAlignedFlashBytes cfg n := by
  rw [sstGetAlignedFlashBytes_eq cfg hn, sstGetAlignedFlashBytes_eq cfg (by omega)]
  rcases cfg.unit_ok with h | h | h <;> rw [h] <;> split <;> split <;> omega

@[simp] theorem aligned_zero : sstGetAlignedFlashBytes cfg 0 = 0 := by
  rw [sstGetAlignedFlashBytes_eq cfg (cfg.rounds_of_le_maxObjectSize (Nat.zero_le _))]
  simp

/-! ## Tables

The tables of a metadata block are functions on all numbers, so that replacing an entry is
`Function.update`. -/

/-- The block table and the object table. Entries past the end of a table are zero: in the
object table that is a free entry. -/
@[ext]
structure Tables where
  blk : Nat → BlockMetadata
  obj : Nat → Assetmeta

/-- Replace one descriptor. -/
def Tables.setBlk (T : Tables) (l : Nat) (b : BlockMetadata) : Tables :=
  ⟨Function.update T.blk l b, T.obj⟩

/-- Replace one entry. -/
def Tables.setObj (T : Tables) (i : Nat) (e : Assetmeta) : Tables :=
  ⟨T.blk, Function.update T.obj i e⟩

@[simp] theorem Tables.setBlk_obj (T : Tables) (l : Nat) (b : BlockMetadata) :
    (T.setBlk l b).obj = T.obj := rfl

@[simp] theorem Tables.setObj_blk (T : Tables) (i : Nat) (e : Assetmeta) :
    (T.setObj i e).blk = T.blk := rfl

theorem Tables.setBlk_blk (T : Tables) (l : Nat) (b : BlockMetadata) (k : Nat) :
    (T.setBlk l b).blk k = if k = l then b else T.blk k := by
  simp [setBlk, Function.update_apply]

theorem Tables.setObj_obj (T : Tables) (i : Nat) (e : Assetmeta) (j : Nat) :
    (T.setObj i e).obj j = if j = i then e else T.obj j := by
  simp [setObj, Function.update_apply]

/-- The tables held by a metadata block. -/
def tablesOf (row : Row) : Tables where
  blk l := if l < cfg.numActiveDblocks then .decode (row.get (blkOff l) sizeofBlockMetadata)
    else ⟨0, 0, 0⟩
  obj i := if i < cfg.numAssets then .decode (row.get (objOff cfg i) sizeofAssetmeta)
    else ⟨0, 0, 0, 0, 0⟩

variable {cfg}

theorem tablesOf_blk {l : Nat} (hl : l < cfg.numActiveDblocks) (row : Row) :
    (tablesOf cfg row).blk l = .decode (row.get (blkOff l) sizeofBlockMetadata) := if_pos hl

theorem tablesOf_obj {i : Nat} (hi : i < cfg.numAssets) (row : Row) :
    (tablesOf cfg row).obj i = .decode (row.get (objOff cfg i) sizeofAssetmeta) := if_pos hi

/-- A decoded descriptor fits its 32 bits, whatever the bytes are. -/
theorem tablesOf_blk_fits (row : Row) (l : Nat) : ((tablesOf cfg row).blk l).Fits := by
  simp only [tablesOf]
  split
  · exact BlockMetadata.decode_fits _
  · exact ⟨by decide, by decide, by decide⟩

/-- A decoded entry fits its 32 bits, whatever the bytes are. -/
theorem tablesOf_obj_fits (row : Row) (i : Nat) : ((tablesOf cfg row).obj i).Fits := by
  simp only [tablesOf]
  split
  · exact Assetmeta.decode_fits _
  · exact ⟨by decide, by decide, by decide, by decide⟩

/-! ### Programs of a metadata block

A program of one record changes that record and no other; a copy of a range of records changes
exactly these. -/

/-- The tables lie between the header and the data. -/
theorem tablesOf_congr {row row' : Row}
    (h : ∀ o, sizeofMetadataBlockHeader ≤ o → o < cfg.allMetadataSize → row o = row' o) :
    tablesOf cfg row = tablesOf cfg row' := by
  rw [cfg.allMetadataSize_eq, sizeofMetadataBlockHeader] at h
  ext1
  · funext l
    simp only [tablesOf]
    split
    · rw [Row.get_congr fun i hi => h _ (by simp only [blkOff]; omega)
        (by simp only [blkOff, sizeofBlockMetadata] at hi ⊢; omega)]
    · rfl
  · funext i
    simp only [tablesOf]
    split
    · rw [Row.get_congr fun i hi => h _ (by simp only [objOff]; omega)
        (by simp only [objOff, sizeofAssetmeta] at hi ⊢; omega)]
    · rfl

/-- Programs of the header or of the data area leave the tables alone. -/
theorem tablesOf_put_outside {off : Nat} {d : List UInt8} (row : Row)
    (h : off + d.length ≤ sizeofMetadataBlockHeader ∨ cfg.allMetadataSize ≤ off) :
    tablesOf cfg (row.put off d) = tablesOf cfg row := by
  refine tablesOf_congr fun o h1 h2 => ?_
  rcases h with h | h
  · exact Row.put_of_ge (by omega)
  · exact Row.put_of_lt (by omega)

theorem tablesOf_put_obj {i : Nat} {e : Assetmeta} (row : Row) (hi : i < cfg.numAssets)
    (he : e.Fits) : tablesOf cfg (row.put (objOff cfg i) e.encode)
      = (tablesOf cfg row).setObj i e := by
  have hlen := e.length_encode
  rw [sizeofAssetmeta] at hlen
  ext1
  · funext l
    simp only [tablesOf, Tables.setObj_blk]
    split
    · rw [Row.get_put_disjoint (by simp only [blkOff, objOff, sizeofBlockMetadata]; omega)]
    · rfl
  · funext j
    -- an entry is read back as written; the bytes of the others are disjoint from it
    by_cases hj : j = i
    · subst hj
      rw [Tables.setObj_obj, if_pos rfl, tablesOf_obj hi, Row.get_put_self e.length_encode,
        Assetmeta.decode_encode he]
    · rw [Tables.setObj_obj, if_neg hj]
      simp only [tablesOf]
      split
      · rw [Row.get_put_disjoint (by simp only [objOff, sizeofAssetmeta]; omega)]
      · rfl

theorem tablesOf_put_blk {l : Nat} {b : BlockMetadata} (row : Row)
    (hl : l < cfg.numActiveDblocks) (hb : b.Fits) :
    tablesOf cfg (row.put (blkOff l) b.encode)
      = (tablesOf cfg row).setBlk l b := by
  have hlen := b.length_encode
  rw [sizeofBlockMetadata] at hlen
  ext1
  · funext k
    by_cases hk : k = l
    · subst hk
      rw [Tables.setBlk_blk, if_pos rfl, tablesOf_blk hl, Row.get_put_self b.length_encode,
        BlockMetadata.decode_encode hb]
    · rw [Tables.setBlk_blk, if_neg hk]
      simp only [tablesOf]
      split
      · rw [Row.get_put_disjoint (by simp only [blkOff, sizeofBlockMetadata]; omega)]
      · rfl
  · funext i
    simp only [tablesOf, Tables.setBlk_obj]
    split
    · rw [Row.get_put_disjoint (by simp only [blkOff, objOff, sizeofAssetmeta]; omega)]
    · rfl

/-- Copying the entries `j`, …, `j + n - 1` of another metadata block. -/
theorem tablesOf_put_get_obj {j n : Nat} (row row0 : Row) :
    tablesOf cfg (row.put (objOff cfg j) (row0.get (objOff cfg j) (20 * n)))
      = ⟨(tablesOf cfg row).blk, fun i => if j ≤ i ∧ i < j + n then (tablesOf cfg row0).obj i
          else (tablesOf cfg row).obj i⟩ := by
  ext1
  · funext l
    simp only [tablesOf]
    split
    · rw [Row.get_put_disjoint (by simp only [blkOff, objOff, sizeofBlockMetadata]; omega)]
    · rfl
  · funext i
    dsimp only
    by_cases hi : i < cfg.numAssets
    · rw [tablesOf_obj hi]
      -- inside the range the bytes are those of the other block, outside they are untouched
      by_cases hin : j ≤ i ∧ i < j + n
      · rw [if_pos hin, tablesOf_obj hi, Row.get_put_get (by simp only [objOff]; omega)
          (by simp only [objOff, sizeofAssetmeta]; omega)]
        congr 2
        simp only [objOff]
        omega
      · rw [if_neg hin, tablesOf_obj hi, Row.get_put_disjoint (by
          simp only [objOff, sizeofAssetmeta, Row.length_get]; omega)]
    · simp [tablesOf, hi]

/-- Copying the descriptors `j`, …, `j + n - 1` of another metadata block. -/
theorem tablesOf_put_get_blk {j n : Nat} (row row0 : Row) (h : j + n ≤ cfg.numActiveDblocks) :
    tablesOf cfg (row.put (blkOff j) (row0.get (blkOff j) (12 * n)))
      = ⟨fun l => if j ≤ l ∧ l < j + n then (tablesOf cfg row0).blk l
          else (tablesOf cfg row).blk l, (tablesOf cfg row).obj⟩ := by
  ext1
  · funext l
    dsimp only
    by_cases hl : l < cfg.numActiveDblocks
    · rw [tablesOf_blk hl]
      -- as for the entries; the copy ends before the object table by `h`
      by_cases hin : j ≤ l ∧ l < j + n
      · rw [if_pos hin, tablesOf_blk hl, Row.get_put_get (by simp only [blkOff]; omega)
          (by simp only [blkOff, sizeofBlockMetadata]; omega)]
        congr 2
        simp only [blkOff]
        omega
      · rw [if_neg hin, tablesOf_blk hl, Row.get_put_disjoint (by
          simp only [blkOff, sizeofBlockMetadata, Row.length_get]; omega)]
    · simp [tablesOf, hl]
  · funext i
    simp only [tablesOf]
    split
    · rw [Row.get_put_disjoint (by
        simp only [blkOff, objOff, sizeofAssetmeta, Row.length_get]; omega)]
    · rfl

end Tfm.Sst
