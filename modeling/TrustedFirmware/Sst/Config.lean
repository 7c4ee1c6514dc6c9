import TrustedFirmware.Lib.Word32
import Mathlib.Tactic.Basic

/-!
# Secure storage — build options and compile-time constants

The secure storage service is configured by macros: the flash geometry comes from the target's
`flash_layout.h`, the table sizes from `sst_asset_defs.h`, and three switches choose the build
variant. `BuildOptions` collects them, the constants of `sst_core.c` are functions of it, and
`Config` adds the compile-time checks of `sst_core.c`, so that every `Config` is one the build
admits.

The two geometries of the source differ in more than a number. With two blocks each of them is a
metadata block that also has the data, and nothing else. With four blocks or more, block 2 is the
data scratch block and the data blocks start at 3, next to what is left of the metadata blocks
(logical block 0).
-/

namespace Tfm.Sst

/-- Result codes (`psa_sst_err_t`), success excluded. -/
inductive SstErr where
  | assetNotPrepared
  | assetNotFound
  | paramError
  | storageSystemFull
  | systemError
  /-- An error code of the crypto library, which is handed on unchanged. -/
  | mbedtls (code : Int)
  /-- Not a code of the source: the call never returns. -/
  | noReturn
  /-- Not a code of the source: the call copies past the end of a buffer, and what it does from
  there on is undefined. -/
  | bufferOverrun
  deriving DecidableEq, Repr

/-- The AES-GCM functions of the crypto library, under the one storage key. -/
structure CryptoLib where
  gcmSetkey : Except SstErr Unit
  gcmCryptAndTag : (iv add input : List UInt8) → Except SstErr (Vector UInt8 16 × List UInt8)
  gcmAuthDecrypt : (iv add input tag : List UInt8) → Except SstErr (List UInt8)

/-- The macros that configure a build. -/
structure BuildOptions where
  totalNumOfBlocks : Nat
  blockSize : Nat
  numAssets : Nat
  maxAssetSize : Nat
  flashProgramUnit : Nat
  encryption : Bool
  validateMetadataFromFlash : Bool
  enablePartialAssetRw : Bool
  crypto : CryptoLib

/-! ## Sizes of the C structures

`sst_metadata_block_header` holds the 28 bytes of `sst_crypto_t`, `scratch_idx`, two
single-byte members and two bytes of padding. -/

def sizeofMetadataBlockHeader : Nat := 36
def sizeofBlockMetadata : Nat := 12
def sizeofAssetmeta : Nat := 20

/-- `offsetof(struct sst_metadata_block_header, active_swap_count)`. -/
def swapCountOffset : Nat := 33

def sstTagLenBytes : Nat := 16
def sstFlashDefaultVal : UInt8 := 0xFF
def sstSupportedVersion : UInt8 := 0x01
def sstMetadataBlock0 : Nat := 0
def sstMetadataBlock1 : Nat := 1
def sstLogicalDblock0 : Nat := 0
def sstMetadataInvalidIndex : Nat := 0xFFFF
def sstBlockInvalidId : Nat := 0xFFFFFFFF
def sstInvalidUuid : UInt32 := 0

/-- `SST_OTHER_META_BLOCK`. -/
def sstOtherMetaBlock (metablock : Nat) : Nat :=
  if metablock = sstMetadataBlock0 then sstMetadataBlock1 else sstMetadataBlock0

namespace BuildOptions

variable (cfg : BuildOptions)

/-- `SST_INIT_SCRATCH_DBLOCK`. -/
def initScratchDblock : Nat := if cfg.totalNumOfBlocks = 2 then 1 else 2

/-- `SST_INIT_DBLOCK_START`. -/
def initDblockStart : Nat := if cfg.totalNumOfBlocks = 2 then 0 else 3

/-- `SST_NUM_DEDICATED_DBLOCKS`. -/
def numDedicatedDblocks : Nat :=
  if cfg.totalNumOfBlocks = 2 then 0 else cfg.totalNumOfBlocks - cfg.initDblockStart

/-- `SST_NUM_ACTIVE_DBLOCKS`: the dedicated blocks and logical block 0. -/
def numActiveDblocks : Nat := cfg.numDedicatedDblocks + 1

/-- `SST_OBJECT_HEADER_SIZE`. The attributes start at a multiple of eight bytes; the
encrypted build puts `sst_crypto_t` in front. -/
def objectHeaderSize : Nat := if cfg.encryption then 72 else 48

/-- `SST_MAX_OBJECT_SIZE`, the size of `sst_object_t` with its trailing padding. -/
def maxObjectSize : Nat := (cfg.objectHeaderSize + cfg.maxAssetSize + 7) / 8 * 8

/-- `SST_ALIGNED_MAX_OBJECT_SIZE`. -/
def alignedMaxObjectSize : Nat :=
  (cfg.flashProgramUnit - cfg.maxObjectSize % cfg.flashProgramUnit) + cfg.maxObjectSize

/-- `SST_ALL_METADATA_SIZE`. -/
def allMetadataSize : Nat :=
  sizeofMetadataBlockHeader + cfg.numActiveDblocks * sizeofBlockMetadata
    + cfg.numAssets * sizeofAssetmeta

end BuildOptions

/-- Build options that pass the compile-time checks of `sst_core.c`. The storage area lies
in the 32-bit address space of the target. -/
structure Config extends BuildOptions where
  blocks_ok : totalNumOfBlocks = 2 ∨ 4 ≤ totalNumOfBlocks
  unit_ok : flashProgramUnit = 1 ∨ flashProgramUnit = 2 ∨ flashProgramUnit = 4
  largest_asset_fits : toBuildOptions.alignedMaxObjectSize ≤ blockSize
  asset_fits_in_data_area :
    totalNumOfBlocks = 2 →
      toBuildOptions.alignedMaxObjectSize ≤ blockSize - toBuildOptions.allMetadataSize
  metadata_fits : toBuildOptions.allMetadataSize ≤ blockSize
  area_addressable : totalNumOfBlocks * blockSize ≤ 2 ^ 32

namespace Config

variable (cfg : Config)

theorem two_le_blocks : 2 ≤ cfg.totalNumOfBlocks := by
  rcases cfg.blocks_ok with h | h <;> omega

theorem allMetadataSize_eq :
    cfg.allMetadataSize = 36 + 12 * cfg.numActiveDblocks + 20 * cfg.numAssets := by
  simp only [BuildOptions.allMetadataSize, sizeofMetadataBlockHeader, sizeofBlockMetadata,
    sizeofAssetmeta]
  omega

/-- Offsets in a block are far from the end of 32 bits. -/
theorem blockSize_le : cfg.blockSize ≤ 2 ^ 31 := by
  have h := cfg.area_addressable
  have h2 := Nat.mul_le_mul_right cfg.blockSize cfg.two_le_blocks
  omega

theorem totalNumOfBlocks_lt : cfg.totalNumOfBlocks < 2 ^ 31 := by
  have h := cfg.area_addressable
  have hb : 36 ≤ cfg.blockSize := by
    have := cfg.metadata_fits
    have := cfg.allMetadataSize_eq
    omega
  have h2 := Nat.mul_le_mul_left cfg.totalNumOfBlocks hb
  omega

/-- With more than two blocks there are three fewer dedicated blocks than blocks. -/
theorem numActiveDblocks_eq :
    cfg.numActiveDblocks = if cfg.totalNumOfBlocks = 2 then 1 else cfg.totalNumOfBlocks - 2 := by
  simp only [BuildOptions.numActiveDblocks, BuildOptions.numDedicatedDblocks,
    BuildOptions.initDblockStart]
  have := cfg.blocks_ok
  split <;> omega

theorem numActiveDblocks_pos : 0 < cfg.numActiveDblocks := Nat.succ_pos _

theorem flashProgramUnit_pos : 0 < cfg.flashProgramUnit := by
  rcases cfg.unit_ok with h | h | h <;> omega

/-- An object of maximum size, and one unit more, fits into a block: the macro aligns upwards even
when nothing is missing. -/
theorem maxObjectSize_lt : cfg.maxObjectSize + cfg.flashProgramUnit ≤ cfg.blockSize := by
  have h := cfg.largest_asset_fits
  -- the size of the structure is a multiple of eight, which every program unit divides
  have h8 : cfg.maxObjectSize % 8 = 0 := by simp [BuildOptions.maxObjectSize]
  simp only [BuildOptions.alignedMaxObjectSize] at h
  rcases cfg.unit_ok with hu | hu | hu <;> rw [hu] at h ⊢ <;> omega

/-- Rounding the size of an object that fits up to the program unit does not wrap. -/
theorem rounds_of_le_maxObjectSize {n : Nat} (hn : n ≤ cfg.maxObjectSize) :
    n + cfg.flashProgramUnit ≤ 2 ^ 32 := by
  have h1 := cfg.maxObjectSize_lt
  have h2 := cfg.blockSize_le
  omega

end Config

end Tfm.Sst
