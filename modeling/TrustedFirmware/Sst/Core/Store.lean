import TrustedFirmware.Sst.Core.Meta

/-!
# Secure storage core — preparing and wiping the store

The second half of `sst_core.c`: how a store is found on the flash after a reset, and how a new one
is made.

A reset may have come at any point of an update, so that up to two metadata blocks have valid
headers. `sst_init_get_active_metablock` takes the latest one, in the encrypted build the latest one
that authenticates. A wipe erases the metadata blocks, the active one last, and builds an empty
store in block 1, which becomes active when its header is there.
-/

namespace Tfm.Sst

open Word32 BlockFlash Device

variable (cfg : Config)

/-! ## Finding the active metadata block

The headers of both metadata blocks decide. -/

/-- The candidates, in order of preference, given the two headers: none, or the latest valid
block with the number of valid blocks. -/
def sstMetaCandidate (meta0 meta1 : MetadataBlockHeader) : Option (Nat × Nat) :=
  match sstMetaValidateHeaderMeta meta0, sstMetaValidateHeaderMeta meta1 with
  | .ok _, .ok _ => some (sstMetaLatestMetaBlock meta0 meta1, 2)
  | .ok _, .error _ => some (sstMetadataBlock0, 1)
  | .error _, .ok _ => some (sstMetadataBlock1, 1)
  | .error _, .error _ => none

/-- The authentication loop of the encrypted build: try `numValid` blocks from `curMetaBlock`
on. -/
def sstInitAuthenticate : Nat → Nat → SstM Nat
  | 0, _ => M.fail .systemError
  | numValid + 1, curMetaBlock => do
    let res ← M.attempt (sstMblockAuthenticate cfg curMetaBlock)
    match res with
    | .ok _ => pure curMetaBlock
    | .error _ => sstInitAuthenticate numValid (sstOtherMetaBlock curMetaBlock)

/-- `sst_init_get_active_metablock`. -/
def sstInitGetActiveMetablock : SstM Unit := do
  let bytes0 ← M.orElse (sstFlashRead sstMetadataBlock0 0 sizeofMetadataBlockHeader) .systemError
  let bytes1 ← M.orElse (sstFlashRead sstMetadataBlock1 0 sizeofMetadataBlockHeader) .systemError
  match sstMetaCandidate (.decode bytes0) (.decode bytes1) with
  | none => M.fail .systemError
  | some (candidate, numValidMetaBlocks) =>
    let curMetaBlock ←
      if cfg.encryption then sstInitAuthenticate cfg numValidMetaBlocks candidate
      else pure candidate
    M.modifyMem fun r => { r with ctx := { r.ctx with
      activeMetablock := curMetaBlock, scratchMetablock := sstOtherMetaBlock curMetaBlock } }

/-- `sst_core_prepare`: the scratch blocks are erased, whatever an update has left in them. -/
def sstCorePrepare : SstM Unit := do
  M.orElse (sstInitGetActiveMetablock cfg) .systemError
  M.orElse sstMetaReadMetaHeader .systemError
  if cfg.encryption then
    let r ← M.getMem
    sstCryptoSetIv r.ctx.metaBlockHeader.crypto
  sstMetaEraseScratchBlocks cfg

/-! ## Wiping the store

`sst_core_wipe_all`, in the order of the source. -/

/-- The erase loop of `sst_core_wipe_all`: all blocks are tried, and any error is reported
at the end. -/
def sstCoreWipeAll.eraseBlocks : List Nat → Bool → SstM Bool
  | [], failed => pure failed
  | i :: is, failed => do
    let res ← M.attempt (sstFlashEraseBlock i)
    sstCoreWipeAll.eraseBlocks is (failed || !res.isOk)

/-- Write the descriptors of the dedicated data blocks. -/
def sstCoreWipeAll.initBlocks : List Nat → SstM Unit
  | [] => pure ()
  | i :: is => do
    M.orElse (sstMblockUpdateScratchBlockMeta (i + 1)
      { physId := i + cfg.initDblockStart, dataStart := 0, freeSize := cfg.blockSize })
      .systemError
    sstCoreWipeAll.initBlocks is

/-- Clear the object table. -/
def sstCoreWipeAll.initObjects : List Nat → SstM Unit
  | [] => pure ()
  | i :: is => do
    M.orElse (sstMblockUpdateScratchObjectMeta cfg i
      { lblock := 0, dataIndex := 0, curSize := 0, maxSize := 0, uniqueId := 0 }) .systemError
    sstCoreWipeAll.initObjects is

/-- The part of `sst_core_wipe_all` that builds the new metadata block, once both metadata
blocks are erased. -/
def sstCoreWipeAll.build : SstM Unit := do
  modifyHeader fun h => { h with
    activeSwapCount := 0
    scratchIdx := cfg.initScratchDblock
    fsVersion := sstSupportedVersion }
  M.modifyMem fun r => { r with ctx := { r.ctx with
    scratchMetablock := sstMetadataBlock1, activeMetablock := sstMetadataBlock0 } }
  -- the descriptor of logical block 0; its result is not checked
  let _ ← M.attempt (sstMblockUpdateScratchBlockMeta sstLogicalDblock0
    { physId := sstMetadataBlock0, dataStart := cfg.allMetadataSize,
      freeSize := sub32 cfg.blockSize cfg.allMetadataSize })
  -- `for (i = SST_INIT_DBLOCK_START; i < SST_NUM_DEDICATED_DBLOCKS; i++)`
  let failed ← sstCoreWipeAll.eraseBlocks
    (List.range' cfg.initDblockStart (cfg.numDedicatedDblocks - cfg.initDblockStart)) false
  if failed then
    M.fail .systemError
  else
    sstCoreWipeAll.initBlocks cfg (List.range cfg.numDedicatedDblocks)
    sstCoreWipeAll.initObjects cfg (List.range cfg.numAssets)
    M.orElse (sstMetaWriteScratchMetaHeader cfg) .systemError
    sstMetaSwapMetablocks

/-- The active metadata block, when one is found, is erased last. -/
def sstCoreWipeAll : SstM Unit := do
  let res ← M.attempt (sstInitGetActiveMetablock cfg)
  let r ← M.getMem
  let metablockToEraseFirst :=
    match res with
    | .ok _ => r.ctx.scratchMetablock
    | .error _ => sstMetadataBlock0
  sstFlashEraseBlock metablockToEraseFirst
  sstFlashEraseBlock (sstOtherMetaBlock metablockToEraseFirst)
  sstCoreWipeAll.build cfg

end Tfm.Sst
