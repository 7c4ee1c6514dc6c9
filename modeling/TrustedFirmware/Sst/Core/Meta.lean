import TrustedFirmware.Sst.Flash

/-!
# Secure storage core — metadata

The first half of `sst_core.c`: where the tables lie in a metadata block, how records are read and
validated, and how the next metadata block is assembled in the scratch block and committed by its
header.

A metadata block starts with the header, followed by the descriptors of the logical blocks, the
object table, and the data of logical block 0. An update never touches the active block: it writes
the new record into the scratch block, copies all others next to it, and programs the header last.
`sst_meta_update_finalize` then swaps the two blocks and erases what has become scratch.
-/

namespace Tfm.Sst

open Word32 BlockFlash Device

variable (cfg : Config)

/-! ## Offsets

Positions of the tables, as 32-bit words. -/

/-- Round up to the flash program unit. -/
def sstGetAlignedFlashBytes (nbrBytes : Nat) : Nat :=
  let rest := nbrBytes % cfg.flashProgramUnit
  let alignFlashSize := if rest ≠ 0 then cfg.flashProgramUnit - rest else rest
  add32 alignFlashSize nbrBytes

/-- `sst_meta_block_meta_offset`. -/
def sstMetaBlockMetaOffset (idx : Nat) : Nat :=
  u32 (sizeofMetadataBlockHeader + idx * sizeofBlockMetadata)

/-- `sst_meta_object_meta_offset`. -/
def sstMetaObjectMetaOffset (objectIndex : Nat) : Nat :=
  u32 (sizeofMetadataBlockHeader + cfg.numActiveDblocks * sizeofBlockMetadata
    + objectIndex * sizeofAssetmeta)

/-! ## Block roles

Which block is active and which is scratch. For metadata both are in the running context; the data
scratch block is in the header, so that it is committed with the tables. -/

/-- `sst_meta_cur_meta_scratch`. -/
def sstMetaCurMetaScratch : SstM Nat := do
  let r ← M.getMem
  pure r.ctx.scratchMetablock

/-- `sst_meta_cur_meta_active`. -/
def sstMetaCurMetaActive : SstM Nat := do
  let r ← M.getMem
  pure r.ctx.activeMetablock

/-- `sst_meta_swap_metablocks`. -/
def sstMetaSwapMetablocks : SstM Unit :=
  M.modifyMem fun r => { r with ctx := { r.ctx with
    scratchMetablock := r.ctx.activeMetablock, activeMetablock := r.ctx.scratchMetablock } }

/-- The scratch block for the data of a logical block: for logical block 0 it is the scratch
metadata block. -/
def sstMetaCurDataScratch (lblock : Nat) : SstM Nat := do
  let r ← M.getMem
  if lblock = sstLogicalDblock0 then
    pure r.ctx.scratchMetablock
  else
    pure r.ctx.metaBlockHeader.scratchIdx

/-- `sst_meta_set_data_scratch`: logical block 0 has no data scratch block of its own. -/
def sstMetaSetDataScratch (index lblock : Nat) : SstM Unit :=
  if lblock ≠ sstLogicalDblock0 then
    modifyHeader fun h => { h with scratchIdx := index }
  else
    pure ()

/-- The latest of two valid metadata blocks. A swap count of 0 has rolled over, unless the
other block has already reached 1. -/
def sstMetaLatestMetaBlock (meta0 meta1 : MetadataBlockHeader) : Nat :=
  if meta1.activeSwapCount = 0 ∧ meta0.activeSwapCount ≠ 1 then sstMetadataBlock1
  else if meta0.activeSwapCount = 0 ∧ meta1.activeSwapCount ≠ 1 then sstMetadataBlock0
  else if meta1.activeSwapCount > meta0.activeSwapCount then sstMetadataBlock1
  else sstMetadataBlock0

/-! ## Reading records

Records are read from the active metadata block. Whether they are validated is a build option. -/

/-- `sst_meta_validate_block_meta`. -/
def sstMetaValidateBlockMeta (blockMeta : BlockMetadata) : Except SstErr Unit :=
  if blockMeta.physId ≥ cfg.totalNumOfBlocks then .error .systemError
  else
    match sstUtilsCheckContainedIn 0 cfg.blockSize blockMeta.dataStart blockMeta.freeSize with
    | .error _ => .error .assetNotFound
    | .ok _ =>
      -- data starts behind the tables in a metadata block, and at 0 in the others
      let validDataStartValue :=
        if blockMeta.physId = sstMetadataBlock0 ∨ blockMeta.physId = sstMetadataBlock1 then
          sstMetaObjectMetaOffset cfg cfg.numAssets
        else 0
      if blockMeta.dataStart ≠ validDataStartValue then .error .assetNotFound else .ok ()

/-- `sst_meta_read_block_metadata`. -/
def sstMetaReadBlockMetadata (lblock : Nat) : SstM BlockMetadata := do
  let metablock ← sstMetaCurMetaActive
  let bytes ← sstFlashRead metablock (sstMetaBlockMetaOffset lblock) sizeofBlockMetadata
  let blockMeta := BlockMetadata.decode bytes
  if cfg.validateMetadataFromFlash then
    M.ofExcept (sstMetaValidateBlockMeta cfg blockMeta)
  pure blockMeta

/-- `sst_meta_validate_object_meta`: of a free entry only the block is checked. -/
def sstMetaValidateObjectMeta (objMeta : Assetmeta) : Except SstErr Unit :=
  if objMeta.lblock ≥ cfg.numActiveDblocks then .error .assetNotFound
  else
    match sstUtilsValidateUuid objMeta.uniqueId with
    | .error _ => .ok ()
    | .ok _ =>
      -- the entry is in use
      if objMeta.maxSize > cfg.maxObjectSize then .error .assetNotFound
      else if objMeta.curSize > objMeta.maxSize then .error .assetNotFound
      else if objMeta.lblock = sstLogicalDblock0
          ∧ objMeta.dataIndex < sstMetaObjectMetaOffset cfg cfg.numAssets then
        .error .assetNotFound
      else sstUtilsCheckContainedIn 0 cfg.blockSize objMeta.dataIndex objMeta.maxSize

/-- `sst_meta_read_object_meta`. -/
def sstMetaReadObjectMeta (objectIndex : Nat) : SstM Assetmeta := do
  let metablock ← sstMetaCurMetaActive
  let bytes ← sstFlashRead metablock (sstMetaObjectMetaOffset cfg objectIndex) sizeofAssetmeta
  let objMeta := Assetmeta.decode bytes
  if cfg.validateMetadataFromFlash then
    M.ofExcept (sstMetaValidateObjectMeta cfg objMeta)
  pure objMeta

/-- The scan of `sst_get_free_object_index` over the indices `is`. -/
def sstGetFreeObjectIndexFrom : List Nat → SstM Nat
  | [] =>
    -- The loop counter is 16 bits wide: past 0xFFFF entries it wraps and never ends.
    if cfg.numAssets ≤ sstMetadataInvalidIndex then pure sstMetadataInvalidIndex
    else M.fail .noReturn
  | i :: is => do
    let res ← M.attempt (sstMetaReadObjectMeta cfg i)
    match res with
    | .ok tmpMetadata =>
      match sstUtilsValidateUuid tmpMetadata.uniqueId with
      | .error _ => pure i
      | .ok _ => sstGetFreeObjectIndexFrom is
    -- an entry that cannot be read ends the scan as a full table does
    | .error _ => pure sstMetadataInvalidIndex

/-- `sst_get_free_object_index`. -/
def sstGetFreeObjectIndex : SstM Nat :=
  sstGetFreeObjectIndexFrom cfg (List.range (min cfg.numAssets 0x10000))

/-- `sst_dblock_lo_to_phy`. -/
def sstDblockLoToPhy (lblock : Nat) : SstM Nat := do
  let res ← M.attempt (sstMetaReadBlockMetadata cfg lblock)
  match res with
  | .ok blockMeta => pure blockMeta.physId
  | .error _ => pure sstBlockInvalidId

/-! ## Assembling the scratch blocks

Each function writes one part of the new blocks. What they leave out has been programmed by another
one, or is free. -/

/-- `sst_dblock_update_scratch`: new content, and the rest of the block around it. -/
def sstDblockUpdateScratch (curLogicalBlock : Nat) (blockMeta : BlockMetadata)
    (data : List UInt8) (offset size : Nat) : SstM Unit := do
  let scratchBlock ← sstMetaCurDataScratch curLogicalBlock
  sstFlashWrite scratchBlock (bufBytes data size) offset
  -- data before the updated content
  if offset > blockMeta.dataStart then
    sstFlashBlockToBlockMove scratchBlock blockMeta.dataStart blockMeta.physId
      blockMeta.dataStart (sub32 offset blockMeta.dataStart)
  -- data after the updated content
  let endData := sub32 (sub32 cfg.blockSize (add32 offset size)) blockMeta.freeSize
  sstFlashBlockToBlockMove scratchBlock (add32 offset size) blockMeta.physId
    (add32 offset size) endData

/-- `sst_mblock_update_scratch_object_meta`. -/
def sstMblockUpdateScratchObjectMeta (objectIndex : Nat) (objMeta : Assetmeta) : SstM Unit := do
  let scratchBlock ← sstMetaCurMetaScratch
  sstFlashWrite scratchBlock objMeta.encode (sstMetaObjectMetaOffset cfg objectIndex)

/-- The metadata scratch block is erased before the data scratch block. -/
def sstMetaEraseScratchBlocks : SstM Unit := do
  let scratchMetablock ← sstMetaCurMetaScratch
  sstFlashEraseBlock scratchMetablock
  if cfg.totalNumOfBlocks > 2 then
    let scratchDatablock ← sstMetaCurDataScratch (sstLogicalDblock0 + 1)
    sstFlashEraseBlock scratchDatablock

/-- `sst_mblock_update_scratch_block_meta`. -/
def sstMblockUpdateScratchBlockMeta (lblock : Nat) (blockMeta : BlockMetadata) : SstM Unit := do
  let metaBlock ← sstMetaCurMetaScratch
  sstFlashWrite metaBlock blockMeta.encode (sstMetaBlockMetaOffset lblock)

/-- `sst_mblock_copy_remaining_object_meta`: all entries but one. -/
def sstMblockCopyRemainingObjectMeta (objectIndex : Nat) : SstM Unit := do
  let scratchBlock ← sstMetaCurMetaScratch
  let metaBlock ← sstMetaCurMetaActive
  let pos := sstMetaObjectMetaOffset cfg 0
  sstFlashBlockToBlockMove scratchBlock pos metaBlock pos (u32 (objectIndex * sizeofAssetmeta))
  let pos := sstMetaObjectMetaOffset cfg (add32 objectIndex 1)
  let last := sstMetaObjectMetaOffset cfg cfg.numAssets
  if last > pos then
    sstFlashBlockToBlockMove scratchBlock pos metaBlock pos (sub32 last pos)

/-- When `lblock` is not logical block 0, the descriptor of logical block 0 moves with the
metadata and so gets the scratch block as its physical block. -/
def sstMblockCopyRemainingBlockMeta (lblock : Nat) : SstM Unit := do
  let scratchBlock ← sstMetaCurMetaScratch
  let metaBlock ← sstMetaCurMetaActive
  if lblock ≠ sstLogicalDblock0 then
    let blockMeta ← M.orElse (sstMetaReadBlockMetadata cfg sstLogicalDblock0) .systemError
    M.orElse (sstMblockUpdateScratchBlockMeta sstLogicalDblock0
      { blockMeta with physId := scratchBlock }) .systemError
    let size := u32 (sub32 lblock 1 * sizeofBlockMetadata)
    if size > 0 then
      let pos := sizeofMetadataBlockHeader + sizeofBlockMetadata
      sstFlashBlockToBlockMove scratchBlock pos metaBlock pos size
  let pos := sstMetaBlockMetaOffset (add32 lblock 1)
  let size := sub32 (sstMetaObjectMetaOffset cfg 0) pos
  sstFlashBlockToBlockMove scratchBlock pos metaBlock pos size

/-- `sst_block_object_read_raw`. -/
def sstBlockObjectReadRaw (objMeta : Assetmeta) (offset size : Nat) : SstM (List UInt8) := do
  let physBlock ← sstDblockLoToPhy cfg objMeta.lblock
  if physBlock = sstBlockInvalidId then
    M.fail .systemError
  else
    sstFlashRead physBlock (add32 objMeta.dataIndex offset) size

/-! ## Authentication of the metadata block (encrypted build)

The tag covers everything behind itself. It is computed from what was read back, and programmed
last. -/

/-- The metadata that the tag covers: everything from `SST_AUTH_METADATA_OFFSET` on. -/
def authenticatedMetaDataSize : Nat := cfg.allMetadataSize - sstTagLenBytes

/-- `sst_meta_auth_and_update`. -/
def sstMetaAuthAndUpdate (blockId : Nat) : SstM Unit := do
  sstCryptoGetIv
  let r ← M.getMem
  -- everything behind the tag is programmed first
  sstFlashWrite blockId (r.ctx.metaBlockHeader.encode.drop sstTagLenBytes) sstTagLenBytes
  let add ← sstFlashRead blockId sstTagLenBytes (authenticatedMetaDataSize cfg)
  M.ofExcept cfg.crypto.gcmSetkey
  let (tag, _) ← M.ofExcept
    (cfg.crypto.gcmCryptAndTag r.ctx.metaBlockHeader.crypto.iv.toList add [])
  modifyHeader fun h => { h with crypto := { h.crypto with tag := tag } }
  sstFlashWrite blockId tag.toList 0

/-- `sst_mblock_authenticate`. -/
def sstMblockAuthenticate (block : Nat) : SstM Unit := do
  let bytes ← sstFlashRead block 0 cfg.allMetadataSize
  let metablockHeader := MetadataBlockHeader.decode bytes
  M.ofExcept cfg.crypto.gcmSetkey
  let _ ← M.ofExcept (cfg.crypto.gcmAuthDecrypt metablockHeader.crypto.iv.toList
    (bytes.drop sstTagLenBytes) [] metablockHeader.crypto.tag.toList)
  pure ()

/-! ## The header

A header is valid if its version is supported and its swap count is not the value of erased flash. -/

/-- `sst_meta_validate_swap_count`. -/
def sstMetaValidateSwapCount (swapCount : UInt8) : Except SstErr Unit :=
  if swapCount = sstFlashDefaultVal then .error .systemError else .ok ()

/-- `sst_meta_validate_fs_version`. -/
def sstMetaValidateFsVersion (fsVersion : UInt8) : Except SstErr Unit :=
  if fsVersion ≠ sstSupportedVersion then .error .systemError else .ok ()

/-- `sst_meta_validate_header_meta`. -/
def sstMetaValidateHeaderMeta (header : MetadataBlockHeader) : Except SstErr Unit :=
  match sstMetaValidateFsVersion header.fsVersion with
  | .error e => .error e
  | .ok _ => sstMetaValidateSwapCount header.activeSwapCount

/-- The swap count after `count`; the value of erased flash is skipped. -/
def nextSwapCount (count : UInt8) : UInt8 :=
  match sstMetaValidateSwapCount (count + 1) with
  | .ok _ => count + 1
  | .error _ => 0

/-- In the plain build the swap count, which decides the latest metadata block, is
programmed last. -/
def sstMetaWriteScratchMetaHeader : SstM Unit := do
  let scratchMetablock ← sstMetaCurMetaScratch
  modifyHeader fun h => { h with activeSwapCount := nextSwapCount h.activeSwapCount }
  if cfg.encryption then
    sstMetaAuthAndUpdate cfg scratchMetablock
  else
    let r ← M.getMem
    sstFlashWrite scratchMetablock (r.ctx.metaBlockHeader.encode.take swapCountOffset) 0
    sstFlashWrite scratchMetablock [r.ctx.metaBlockHeader.activeSwapCount] swapCountOffset

/-- `sst_meta_read_meta_header`. -/
def sstMetaReadMetaHeader : SstM Unit := do
  let r ← M.getMem
  let bytes ← sstFlashRead r.ctx.activeMetablock 0 sizeofMetadataBlockHeader
  modifyHeader fun _ => MetadataBlockHeader.decode bytes
  M.ofExcept (sstMetaValidateHeaderMeta (MetadataBlockHeader.decode bytes))

/-- Copy the data of logical block 0, which lives in the metadata block. -/
def sstMblockMigrateDataToScratch : SstM Unit := do
  let scratchMetablock ← sstMetaCurMetaScratch
  let currentMetablock ← sstMetaCurMetaActive
  let blockMeta ← sstMetaReadBlockMetadata cfg sstLogicalDblock0
  let dataSize := sub32 (sub32 cfg.blockSize blockMeta.dataStart) blockMeta.freeSize
  sstFlashBlockToBlockMove scratchMetablock blockMeta.dataStart currentMetablock
    blockMeta.dataStart dataSize

/-- Commit: write the header, swap the metadata blocks, erase the scratch blocks. -/
def sstMetaUpdateFinalize : SstM Unit := do
  sstMetaWriteScratchMetaHeader cfg
  sstMetaSwapMetablocks
  sstMetaEraseScratchBlocks cfg

end Tfm.Sst
