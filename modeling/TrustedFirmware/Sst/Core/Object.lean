import TrustedFirmware.Sst.Core.Meta

/-!
# Secure storage core — objects

The object operations of `sst_core.c`: lookup, create, write, delete, read.

Each operation looks at the active tables, builds a new metadata block (and, for data outside of
logical block 0, a new data block) in the scratch blocks, and commits with
`sst_meta_update_finalize`. Result codes are checked and mapped as in the source, with the
exceptions that the source makes: a delete drops the codes of its table writes and of the commit.
-/

namespace Tfm.Sst

open Word32 BlockFlash Device

variable (cfg : Config)

/-! ## Reservation and lookup

Objects are found by a scan over the table, in the order of the indices; a slot is taken from the
first block that has room. -/

/-- The scan of `sst_meta_reserve_object` over the logical blocks `is`. -/
def sstMetaReserveObjectFrom (size sizeInFlash : Nat) : List Nat → SstM (Assetmeta × BlockMetadata)
  | [] => M.fail .storageSystemFull
  | i :: is => do
    let blockMeta ← M.orElse (sstMetaReadBlockMetadata cfg i) .systemError
    if blockMeta.freeSize ≥ sizeInFlash then
      pure ({ lblock := i, dataIndex := sub32 cfg.blockSize blockMeta.freeSize, curSize := 0,
              maxSize := size, uniqueId := sstInvalidUuid },
        { blockMeta with freeSize := sub32 blockMeta.freeSize sizeInFlash })
    else
      sstMetaReserveObjectFrom size sizeInFlash is

/-- `sst_meta_reserve_object`. -/
def sstMetaReserveObject (size : Nat) : SstM (Assetmeta × BlockMetadata) :=
  sstMetaReserveObjectFrom cfg size (sstGetAlignedFlashBytes cfg size)
    (List.range cfg.numActiveDblocks)

/-- The scan of `sst_core_get_object_idx` over the indices `is`. -/
def sstCoreGetObjectIdxFrom (objUuid : UInt32) : List Nat → SstM Nat
  | [] => M.fail .assetNotFound
  | i :: is => do
    let tmpMetadata ← M.orElse (sstMetaReadObjectMeta cfg i) .systemError
    if tmpMetadata.uniqueId = objUuid then pure i else sstCoreGetObjectIdxFrom objUuid is

/-- `sst_core_get_object_idx`. -/
def sstCoreGetObjectIdx (objUuid : UInt32) : SstM Nat :=
  sstCoreGetObjectIdxFrom cfg objUuid (List.range cfg.numAssets)

/-- `sst_core_object_exist`. -/
def sstCoreObjectExist (objUuid : UInt32) : SstM Unit := do
  let _ ← M.orElse (sstCoreGetObjectIdx cfg objUuid) .assetNotFound
  pure ()

/-! ## Create

A slot at the end of a block, and a free table entry. Both are looked for before the results are
examined. -/

/-- The part of `sst_core_object_create` that runs once a slot and a table entry are found. -/
def sstCoreObjectCreate.commit (objectIndex : Nat) (objectMeta : Assetmeta)
    (blockMeta : BlockMetadata) : SstM Unit := do
  M.orElse (sstMblockUpdateScratchObjectMeta cfg objectIndex objectMeta) .systemError
  let scratchMetablock ← sstMetaCurMetaScratch
  -- logical block 0 moves with the metadata
  let blockMeta := if objectMeta.lblock = sstLogicalDblock0 then
    { blockMeta with physId := scratchMetablock } else blockMeta
  M.orElse (sstMblockUpdateScratchBlockMeta objectMeta.lblock blockMeta) .systemError
  M.orElse (sstMblockCopyRemainingObjectMeta cfg objectIndex) .systemError
  M.orElse (sstMblockCopyRemainingBlockMeta cfg objectMeta.lblock) .systemError
  M.orElse (sstMblockMigrateDataToScratch cfg) .systemError
  M.orElse (sstMetaUpdateFinalize cfg) .systemError

/-- `sst_core_object_create`; it does not look whether the id is in use. -/
def sstCoreObjectCreate (objectUuid size : UInt32) : SstM Unit := do
  let reserved ← M.attempt (sstMetaReserveObject cfg size.toNat)
  let objectIndex ← sstGetFreeObjectIndex cfg
  match reserved with
  | .error _ => M.fail .storageSystemFull
  | .ok (objectMeta, blockMeta) =>
    if objectIndex = sstMetadataInvalidIndex then
      M.fail .storageSystemFull
    else
      sstCoreObjectCreate.commit cfg objectIndex
        { objectMeta with uniqueId := objectUuid, curSize := 0, maxSize := size.toNat } blockMeta

/-! ## Information

The sizes that the table has. -/

/-- `struct sst_core_obj_info_t`. -/
structure CoreObjInfo where
  sizeCurrent : Nat
  sizeMax : Nat
  deriving DecidableEq, Repr

/-- `sst_core_object_get_info`. -/
def sstCoreObjectGetInfo (objectUuid : UInt32) : SstM CoreObjInfo := do
  let objectIndex ← M.orElse (sstCoreGetObjectIdx cfg objectUuid) .assetNotFound
  let tmpMetadata ← sstMetaReadObjectMeta cfg objectIndex
  if objectUuid ≠ tmpMetadata.uniqueId then
    M.fail .assetNotFound
  else
    pure { sizeCurrent := tmpMetadata.curSize, sizeMax := tmpMetadata.maxSize }

/-! ## Write

The whole object is programmed again, in its slot in the scratch block. -/

/-- The buffer `sst_core_object_write` programs, and the new current size. The plain build
merges the new bytes into the stored content, in a buffer of `SST_ALIGNED_MAX_OBJECT_SIZE`
bytes; the encrypted build takes the caller's buffer. -/
def sstCoreObjectWrite.prepare (objectMeta : Assetmeta) (data : List UInt8) (offset size : Nat) :
    SstM (List UInt8 × Nat) := do
  if cfg.encryption then
    pure (data, size)
  else
    let empty := List.replicate cfg.alignedMaxObjectSize 0
    let current ←
      if objectMeta.curSize > 0 then
        sstBlockObjectReadRaw cfg objectMeta 0 objectMeta.curSize
      else
        pure []
    -- the stored size is not compared with the size of the buffer
    let plainText ← M.ofExcept (memcpyInto empty 0 current)
    let offset := if cfg.enablePartialAssetRw then offset else 0
    let curSize := if add32 offset size > objectMeta.curSize then add32 offset size
      else objectMeta.curSize
    let plainText ← M.ofExcept (memcpyInto plainText offset (bufBytes data size))
    pure (plainText, curSize)

/-- The part of `sst_core_object_write` after the new data block is assembled: the scratch
data block becomes the active one, and the metadata is updated and committed. -/
def sstCoreObjectWrite.commit (objectIndex : Nat) (objectMeta : Assetmeta)
    (blockMeta : BlockMetadata) : SstM Unit := do
  let curPhysBlock := blockMeta.physId
  let scratch ← sstMetaCurDataScratch objectMeta.lblock
  sstMetaSetDataScratch curPhysBlock objectMeta.lblock
  M.orElse (sstMblockUpdateScratchBlockMeta objectMeta.lblock
    { blockMeta with physId := scratch }) .systemError
  M.orElse (sstMblockUpdateScratchObjectMeta cfg objectIndex objectMeta) .systemError
  M.orElse (sstMblockCopyRemainingBlockMeta cfg objectMeta.lblock) .systemError
  M.orElse (sstMblockCopyRemainingObjectMeta cfg objectIndex) .systemError
  if objectMeta.lblock ≠ sstLogicalDblock0 then
    M.orElse (sstMblockMigrateDataToScratch cfg) .systemError
  sstMetaUpdateFinalize cfg

/-- `sst_core_object_write`. -/
def sstCoreObjectWrite (objectUuid : UInt32) (data : List UInt8) (offset size : UInt32) :
    SstM Unit := do
  let objectIndex ← M.orElse (sstCoreGetObjectIdx cfg objectUuid) .assetNotFound
  let objectMeta ← M.orElse (sstMetaReadObjectMeta cfg objectIndex) .assetNotFound
  let blockMeta ← M.orElse (sstMetaReadBlockMetadata cfg objectMeta.lblock) .systemError
  if cfg.enablePartialAssetRw ∧ offset.toNat > objectMeta.curSize then
    M.fail .paramError
  else
    let (preparedBuf, curSize) ←
      sstCoreObjectWrite.prepare cfg objectMeta data offset.toNat size.toNat
    let alignFlashNbrBytes := sstGetAlignedFlashBytes cfg curSize
    M.orElse (sstDblockUpdateScratch cfg objectMeta.lblock blockMeta preparedBuf
      objectMeta.dataIndex alignFlashNbrBytes) .systemError
    sstCoreObjectWrite.commit cfg objectIndex { objectMeta with curSize := curSize } blockMeta

/-! ## Delete

The slot is closed: what lies behind it in its block moves down, and the table entries with it. -/

/-- Rewrite the block descriptors for a deletion: the block's data is moved to the scratch
block without the deleted bytes, and the two blocks are swapped. On an error the scratch
pointer is switched back. -/
def sstCompactDblock (lblock objSize srcOffset dstOffset size : Nat) : SstM Unit := do
  let blockMeta ← sstMetaReadBlockMetadata cfg lblock
  let freeSize := add32 blockMeta.freeSize objSize
  let scratchDblockId ← sstMetaCurDataScratch lblock
  if size > 0 then
    M.orElse (sstFlashBlockToBlockMove scratchDblockId dstOffset blockMeta.physId srcOffset size)
      .systemError
  if dstOffset > blockMeta.dataStart then
    M.orElse (sstFlashBlockToBlockMove scratchDblockId blockMeta.dataStart blockMeta.physId
      blockMeta.dataStart (sub32 dstOffset blockMeta.dataStart)) .systemError
  sstMetaSetDataScratch blockMeta.physId lblock
  let res ← M.attempt (sstMblockUpdateScratchBlockMeta lblock
    { blockMeta with physId := scratchDblockId, freeSize := freeSize })
  match res with
  | .error e =>
    sstMetaSetDataScratch scratchDblockId lblock
    M.fail e
  | .ok _ =>
    let res ← M.attempt (sstMblockCopyRemainingBlockMeta cfg lblock)
    match res with
    | .error e =>
      sstMetaSetDataScratch scratchDblockId lblock
      M.fail e
    | .ok _ => pure ()

/-- The deleted object: index, logical block, position and size of its slot. -/
structure DeletedSlot where
  index : Nat
  lblock : Nat
  dataIndex : Nat
  slotSize : Nat

/-- The table entry after the deletion of `del`: entries behind the slot move down. -/
def DeletedSlot.shift (del : DeletedSlot) (objMeta : Assetmeta) : Assetmeta :=
  if objMeta.lblock = del.lblock ∧ objMeta.dataIndex > del.dataIndex then
    { objMeta with dataIndex := sub32 objMeta.dataIndex del.slotSize }
  else objMeta

/-- The first byte to move, after an entry was seen. -/
def DeletedSlot.srcOffset (del : DeletedSlot) (srcOffset : Nat) (objMeta : Assetmeta) : Nat :=
  if objMeta.lblock = del.lblock ∧ objMeta.dataIndex > del.dataIndex
      ∧ srcOffset > objMeta.dataIndex then
    objMeta.dataIndex
  else srcOffset

/-- The number of bytes to move, after an entry was seen. -/
def DeletedSlot.nbrBytes (del : DeletedSlot) (nbrBytes : Nat) (objMeta : Assetmeta) : Nat :=
  if objMeta.lblock = del.lblock ∧ objMeta.dataIndex > del.dataIndex then
    add32 nbrBytes (sstGetAlignedFlashBytes cfg objMeta.maxSize)
  else nbrBytes

/-- The loop of `sst_core_object_delete` over the table indices `is`: every other entry is
rewritten in the scratch block, and the range to move is collected. The result of the
rewrite is not checked. -/
def sstCoreObjectDelete.scan (del : DeletedSlot) : List Nat → Nat → Nat → SstM (Nat × Nat)
  | [], srcOffset, nbrBytesToMove => pure (srcOffset, nbrBytesToMove)
  | i :: is, srcOffset, nbrBytesToMove =>
    if i = del.index then
      sstCoreObjectDelete.scan del is srcOffset nbrBytesToMove
    else do
      let objectMeta ← sstMetaReadObjectMeta cfg i
      let _ ← M.attempt (sstMblockUpdateScratchObjectMeta cfg i (del.shift objectMeta))
      sstCoreObjectDelete.scan del is (del.srcOffset srcOffset objectMeta)
        (del.nbrBytes cfg nbrBytesToMove objectMeta)

/-- The result of the commit is not checked. -/
def sstCoreObjectDelete (objectUuid : UInt32) : SstM Unit := do
  let delObjIndex ← M.orElse (sstCoreGetObjectIdx cfg objectUuid) .assetNotFound
  let objectMeta ← sstMetaReadObjectMeta cfg delObjIndex
  match sstUtilsValidateUuid objectMeta.uniqueId with
  | .error _ => M.fail .assetNotFound
  | .ok _ =>
    let del : DeletedSlot := ⟨delObjIndex, objectMeta.lblock, objectMeta.dataIndex,
      sstGetAlignedFlashBytes cfg objectMeta.maxSize⟩
    let _ ← M.attempt (sstMblockUpdateScratchObjectMeta cfg delObjIndex
      { objectMeta with uniqueId := sstInvalidUuid, lblock := 0, maxSize := 0, curSize := 0 })
    let (srcOffset, nbrBytesToMove) ←
      sstCoreObjectDelete.scan cfg del (List.range cfg.numAssets) cfg.blockSize 0
    sstCompactDblock cfg del.lblock del.slotSize srcOffset del.dataIndex nbrBytesToMove
    let _ ← M.attempt (sstMetaUpdateFinalize cfg)
    pure ()

/-! ## Read

Reads stay inside of the current size. -/

/-- `sst_core_object_read`. -/
def sstCoreObjectRead (objectUuid : UInt32) (offset size : UInt32) : SstM (List UInt8) := do
  let objectIndex ← M.orElse (sstCoreGetObjectIdx cfg objectUuid) .assetNotFound
  let tmpMetadata ← M.orElse (sstMetaReadObjectMeta cfg objectIndex) .systemError
  if objectUuid ≠ tmpMetadata.uniqueId then
    M.fail .assetNotFound
  else
    match sstUtilsCheckContainedIn 0 tmpMetadata.curSize offset.toNat size.toNat with
    | .error _ => M.fail .paramError
    | .ok _ => M.orElse (sstBlockObjectReadRaw cfg tmpMetadata offset.toNat size.toNat) .systemError

end Tfm.Sst
