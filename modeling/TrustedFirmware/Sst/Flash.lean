import TrustedFirmware.Lib.BlockFlash
import TrustedFirmware.Sst.Records

/-!
# Secure storage — running context, flash interface and utilities

The core is a driver of the flash interface `sst_flash.h`: its functions are programs over
the four `sst_flash_*` calls, with the statics of the service as memory. A call that fails
reports `PSA_SST_ERR_SYSTEM_ERROR` and has no effect.
-/

namespace Tfm.Sst

open Word32 BlockFlash Device

/-- `struct sst_asset_system_context`, without the storage key, which is constant. -/
structure AssetSystemContext where
  metaBlockHeader : MetadataBlockHeader
  activeMetablock : Nat
  scratchMetablock : Nat
  deriving DecidableEq, Repr

/-- The statics of the service: `sst_system_ctx` and, in the encrypted build,
`sst_crypto_iv_buf`. -/
structure Ram where
  ctx : AssetSystemContext
  cryptoIvBuf : Vector UInt8 12
  deriving DecidableEq, Repr

/-- A function of the core. -/
abbrev SstM (α : Type) : Type := M Call (List UInt8) SstErr Ram α

/-! ## `sst_flash.c`

The four functions that touch the flash. Their C counterparts write the bytes through the driver and
hand its result code on. -/

/-- `sst_flash_read`. -/
def sstFlashRead (blockId offset size : Nat) : SstM (List UInt8) :=
  M.call (.read blockId offset size) .systemError

/-- `sst_flash_write`. -/
def sstFlashWrite (blockId : Nat) (buff : List UInt8) (offset : Nat) : SstM Unit := do
  let _ ← M.call (.write blockId offset buff) .systemError
  pure ()

/-- `sst_flash_block_to_block_move`. -/
def sstFlashBlockToBlockMove (dstBlock dstOffset srcBlock srcOffset size : Nat) : SstM Unit := do
  let _ ← M.call (.move dstBlock dstOffset srcBlock srcOffset size) .systemError
  pure ()

/-- `sst_flash_erase_block`. -/
def sstFlashEraseBlock (blockId : Nat) : SstM Unit := do
  let _ ← M.call (.erase blockId) .systemError
  pure ()

/-! ## `sst_utils.c`

Range checks and copies. A copy past the end of its buffer is undefined in C: here it is an error of
its own, which no code of the source handles. -/

/-- The check is made in 64-bit arithmetic, so nothing wraps. -/
def sstUtilsCheckContainedIn (supersetStart supersetSize subsetStart subsetSize : Nat) :
    Except SstErr Unit :=
  if subsetStart < supersetStart ∨ supersetStart + supersetSize < subsetStart + subsetSize then
    .error .paramError
  else .ok ()

/-- `sst_utils_validate_uuid`. -/
def sstUtilsValidateUuid (uniqueId : UInt32) : Except SstErr Unit :=
  if uniqueId = sstInvalidUuid then .error .assetNotFound else .ok ()

/-- Copy `src` into the buffer `dest` at position `pos`. -/
def sstUtilsMemcpy (dest : List UInt8) (pos : Nat) (src : List UInt8) : List UInt8 :=
  dest.take pos ++ src ++ dest.drop (pos + src.length)

/-- Copy `src` into a buffer of the length of `dest`. -/
def memcpyInto (dest : List UInt8) (pos : Nat) (src : List UInt8) : Except SstErr (List UInt8) :=
  if pos + src.length ≤ dest.length then .ok (sstUtilsMemcpy dest pos src)
  else .error .bufferOverrun

/-- A copy inside of the buffer keeps its length. -/
theorem length_sstUtilsMemcpy {dest src : List UInt8} {pos : Nat}
    (h : pos + src.length ≤ dest.length) : (sstUtilsMemcpy dest pos src).length = dest.length := by
  simp only [sstUtilsMemcpy, List.length_append, List.length_take, List.length_drop]
  omega

/-- The `n` bytes found at a buffer address. -/
def bufBytes (data : List UInt8) (n : Nat) : List UInt8 :=
  (List.range n).map fun i => data.getD i 0

@[simp] theorem length_bufBytes (data : List UInt8) (n : Nat) : (bufBytes data n).length = n := by
  simp [bufBytes]

theorem getD_bufBytes (data : List UInt8) {n i : Nat} (h : i < n) :
    (bufBytes data n).getD i 0 = data.getD i 0 := by
  simp [bufBytes, List.getD_eq_getElem?_getD, h]

/-! ## `sst_crypto_interface.c`, as far as the core uses it

The IV of the metadata block counts up with every commit. It is kept in memory, and read back from
the flash when the store is prepared. -/

/-- `sst_crypto_get_iv`: the lower eight bytes are incremented as one word, the upper four
when that word wraps to zero. -/
def sstCryptoNextIv (buf : Vector UInt8 12) : Vector UInt8 12 :=
  let bs := buf.toList
  let ivL := (ofLe32 bs 0 + 2 ^ 32 * ofLe32 bs 4 + 1) % 2 ^ 64
  let ivH := if ivL = 0 then add32 (ofLe32 bs 8) 1 else ofLe32 bs 8
  let bytes := le32 (ivL % 2 ^ 32) ++ le32 (ivL / 2 ^ 32) ++ le32 ivH
  Vector.ofFn fun i => bytes.getD i 0

/-- Update the header of the running context. -/
def modifyHeader (f : MetadataBlockHeader → MetadataBlockHeader) : SstM Unit :=
  M.modifyMem fun r => { r with ctx := { r.ctx with metaBlockHeader := f r.ctx.metaBlockHeader } }

/-- `sst_crypto_get_iv`, into the header of the running context. -/
def sstCryptoGetIv : SstM Unit := do
  let r ← M.getMem
  let iv := sstCryptoNextIv r.cryptoIvBuf
  M.modifyMem fun r => { r with cryptoIvBuf := iv }
  modifyHeader fun h => { h with crypto := { h.crypto with iv := iv } }

/-- `sst_crypto_set_iv`. -/
def sstCryptoSetIv (crypto : SstCrypto) : SstM Unit :=
  M.modifyMem fun r => { r with cryptoIvBuf := crypto.iv }

end Tfm.Sst
