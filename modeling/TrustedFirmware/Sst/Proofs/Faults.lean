import TrustedFirmware.Lib.FaultPrefix
import TrustedFirmware.Sst.Proofs.Step

/-!
# Flash faults

Which flash errors the functions of the core report. A function that checks every result code is
strict: it stops at a failed call, and when it returns success, none of its calls has failed. Under
any fault schedule such a function that succeeds has run as without faults (`Strict.exec_of_ok`).

* Create and write are strict (`strict_create`, `strict_write`).
* Delete is not: it drops the results of its table writes and of the commit, as the source does.
  What can still be said about it is in `TrustedFirmware.Sst.Proofs.ReadFaults`.
* The lookups that answer with an invalid index or block id instead of an error are strict on the
  valid answers (`StrictOn`), and their callers refuse the invalid ones.
-/

namespace Tfm.Sst

open Word32 BlockFlash Device

variable {cfg : Config} {I : Ram → Flash → Prop}

/-- When `m` returns a value in `P`, none of its calls has failed. -/
abbrev ReportsAll {α : Type} (P : α → Prop) (m : SstM α) : Prop :=
  Reports device (fun _ => False) P m

/-- `m` stops at a failed call, and when it returns a value in `P`, none of its calls has failed. -/
abbrev StrictOn {α : Type} (P : α → Prop) (m : SstM α) : Prop := Stops device P m

/-- `m` stops at a failed call, and when it succeeds, none of its calls has failed. -/
abbrev Strict {α : Type} (m : SstM α) : Prop := StrictOn (fun _ => True) m

/-- A function that reports every failure, and succeeds under faults, has run as without faults. -/
theorem exec_of_reportsAll {α : Type} {m : SstM α} {fails : Nat → Bool} {n : Nat} {r r' : Ram}
    {f : Flash} {v : Except SstErr α} {a : α} {w : List Call} (hm : ReportsAll (fun _ => True) m)
    (hdoes : Does m r f v r' w) (hok : (exec device fails n m r f).val = .ok a) :
    v = .ok a ∧ (exec device fails n m r f).mem = r'
      ∧ (exec device fails n m r f).dev = device.replay w f := by
  have heq : exec device fails n m r f = run m r f :=
    exec_eq_noFaults (fun c hc => hm fails n r f a hok trivial c hc) 0
  rw [heq] at hok ⊢
  exact ⟨(hdoes.val_eq 0).symm.trans hok, hdoes.mem_eq 0, hdoes.dev_eq 0⟩

/-- A strict function that succeeds under faults has run as without faults. -/
theorem Strict.exec_eq {α : Type} {m : SstM α} {fails : Nat → Bool} {n : Nat} {r : Ram} {f : Flash}
    {a : α} (hm : Strict m) (hok : (exec device fails n m r f).val = .ok a) :
    exec device fails n m r f = run m r f := hm.exec_eq_of_mem trivial hok 0

/-- The same, with the result read off the fault-free description of the function. -/
theorem Strict.exec_of_ok {α : Type} {m : SstM α} {fails : Nat → Bool} {n : Nat} {r r' : Ram}
    {f : Flash} {v : Except SstErr α} {a : α} {w : List Call} (hm : Strict m)
    (hdoes : Does m r f v r' w) (hok : (exec device fails n m r f).val = .ok a) :
    v = .ok a ∧ (exec device fails n m r f).mem = r'
      ∧ (exec device fails n m r f).dev = device.replay w f :=
  exec_of_reportsAll hm.reports hdoes hok

/-! ## Functions that only read

These hold under every fault schedule and every invariant, because nothing is written: whatever a
failed read returns, memory and flash stay as they are. -/

/-- `m` changes neither memory nor flash. -/
abbrev ReadsOnly {α : Type} (m : SstM α) : Prop := ∀ I, Yields device I (fun _ => True) m

/-- A flash read, failed or not, changes nothing. -/
theorem readsOnly_flashRead (b off n : Nat) : ReadsOnly (sstFlashRead b off n) :=
  fun _ => Yields.call _ (fun _ _ h => h) fun _ _ _ => trivial

theorem readsOnly_readObjectMeta (i : Nat) : ReadsOnly (sstMetaReadObjectMeta cfg i) := by
  refine fun I => Yields.bind (Yields.getMem_bind fun r _ => Yields.pure (V := fun _ => True) trivial)
    fun b _ => (readsOnly_flashRead _ _ _ I).bind fun bytes _ => ?_
  -- whether the record is validated depends on the build
  dsimp only
  split
  · exact (Yields.ofExcept fun _ _ => trivial).bind (V := fun _ => True) fun _ _ => Yields.pure trivial
  · exact Yields.pure trivial

theorem readsOnly_readBlockMetadata (l : Nat) : ReadsOnly (sstMetaReadBlockMetadata cfg l) := by
  refine fun I => Yields.bind (Yields.getMem_bind fun r _ => Yields.pure (V := fun _ => True) trivial)
    fun b _ => (readsOnly_flashRead _ _ _ I).bind fun bytes _ => ?_
  dsimp only
  split
  · exact (Yields.ofExcept fun _ _ => trivial).bind (V := fun _ => True) fun _ _ => Yields.pure trivial
  · exact Yields.pure trivial

theorem readsOnly_dblockLoToPhy (l : Nat) : ReadsOnly (sstDblockLoToPhy cfg l) := by
  refine fun I => (readsOnly_readBlockMetadata l I).attempt.bind fun v _ => ?_
  -- a failed read becomes an invalid block id
  cases v with
  | ok b => exact Yields.pure trivial
  | error e => exact Yields.pure trivial

theorem readsOnly_blockObjectReadRaw (e : Assetmeta) (off size : Nat) :
    ReadsOnly (sstBlockObjectReadRaw cfg e off size) := by
  refine fun I => (readsOnly_dblockLoToPhy _ I).bind fun b _ => ?_
  split
  · exact Yields.fail _
  · exact readsOnly_flashRead _ _ _ I

theorem readsOnly_reserveObjectFrom (size sizeInFlash : Nat) (is : List Nat) :
    ReadsOnly (sstMetaReserveObjectFrom cfg size sizeInFlash is) := by
  intro I
  induction is with
  | nil => exact Yields.fail _
  | cons i is ih =>
    refine ((readsOnly_readBlockMetadata i I).orElse _).bind fun b _ => ?_
    split
    · exact Yields.pure trivial
    · exact ih

theorem readsOnly_getFreeObjectIndexFrom (is : List Nat) :
    ReadsOnly (sstGetFreeObjectIndexFrom cfg is) := by
  intro I
  induction is with
  | nil =>
    -- the loop leaves its counter in the result, which may be the last index
    unfold sstGetFreeObjectIndexFrom
    split
    · exact Yields.pure trivial
    · exact Yields.fail _
  | cons i is ih =>
    refine (readsOnly_readObjectMeta i I).attempt.bind fun v _ => ?_
    cases v with
    | ok e =>
      dsimp only
      split
      · exact Yields.pure trivial
      · exact ih
    | error e => exact Yields.pure trivial

/-- The lookup returns an index of the table. -/
theorem yields_getObjectIdxFrom (u : UInt32) (is : List Nat) :
    Yields device I (· ∈ is) (sstCoreGetObjectIdxFrom cfg u is) := by
  induction is with
  | nil => exact Yields.fail _
  | cons i is ih =>
    refine ((readsOnly_readObjectMeta i I).orElse _).bind fun e _ => ?_
    split
    · exact Yields.pure List.mem_cons_self
    · exact ih.mono fun j hj => List.mem_cons_of_mem _ hj

/-- Whatever fails, an index that the lookup returns is one of the table. -/
theorem yields_lookup (u : UInt32) (e : SstErr) :
    Yields device I (· < cfg.numAssets) (M.orElse (sstCoreGetObjectIdx cfg u) e) :=
  ((yields_getObjectIdxFrom u _).mono fun _ hi => List.mem_range.mp hi).orElse e

theorem readsOnly_exist (u : UInt32) : ReadsOnly (sstCoreObjectExist cfg u) :=
  fun _ => (yields_lookup u _).bind fun _ _ => Yields.pure trivial

theorem readsOnly_getInfo (u : UInt32) : ReadsOnly (sstCoreObjectGetInfo cfg u) := by
  refine fun I => (yields_lookup u _).bind fun i _ => (readsOnly_readObjectMeta i I).bind fun e _ => ?_
  split
  · exact Yields.fail _
  · exact Yields.pure trivial

theorem readsOnly_read (u offset size : UInt32) : ReadsOnly (sstCoreObjectRead cfg u offset size) := by
  refine fun I => (yields_lookup u _).bind fun i _ =>
    ((readsOnly_readObjectMeta i I).orElse _).bind fun e _ => ?_
  split
  · exact Yields.fail _
  · split
    · exact Yields.fail _
    · exact (readsOnly_blockObjectReadRaw _ _ _ I).orElse _

theorem readsOnly_prepare (e : Assetmeta) (data : List UInt8) (off size : Nat) :
    ReadsOnly (sstCoreObjectWrite.prepare cfg e data off size) := by
  intro I
  unfold sstCoreObjectWrite.prepare
  split
  · exact Yields.pure trivial
  · -- both branches end in the same two copies into the buffer
    have hrest (current : List UInt8) : Yields device I (fun _ => True) (do
        let plainText ← M.ofExcept (memcpyInto (List.replicate cfg.alignedMaxObjectSize 0) 0 current)
        let offset := if cfg.enablePartialAssetRw then off else 0
        let curSize := if add32 offset size > e.curSize then add32 offset size else e.curSize
        let plainText ← M.ofExcept (memcpyInto plainText offset (bufBytes data size))
        (pure (plainText, curSize) : SstM (List UInt8 × Nat))) :=
      (Yields.ofExcept (V := fun _ => True) fun _ _ => trivial).bind fun _ _ =>
        (Yields.ofExcept (V := fun _ => True) fun _ _ => trivial).bind fun _ _ => Yields.pure trivial
    dsimp only
    split
    · exact (readsOnly_blockObjectReadRaw _ _ _ I).bind fun c _ => hrest c
    · exact (Yields.pure (V := fun _ => True) trivial).bind fun c _ => hrest c

/-- What only reads leaves everything as it is. -/
theorem ReadsOnly.readOnly {α : Type} {m : SstM α} (hm : ReadsOnly m) : ReadOnly device m :=
  fun fails n r f => (hm (fun r' f' => r' = r ∧ f' = f) fails n r f ⟨rfl, rfl⟩).1

/-! ## Calls and records

Each wrapper of a driver function returns the error of its one call. -/

theorem strict_flashRead (b off n : Nat) : Strict (sstFlashRead b off n) := Stops.call _ _

theorem strict_flashWrite (b : Nat) (d : List UInt8) (off : Nat) : Strict (sstFlashWrite b d off) :=
  (Stops.call _ _).bind fun _ => Stops.pure ()

theorem strict_flashMove (dst dstOff src srcOff n : Nat) :
    Strict (sstFlashBlockToBlockMove dst dstOff src srcOff n) :=
  (Stops.call _ _).bind fun _ => Stops.pure ()

theorem strict_flashErase (b : Nat) : Strict (sstFlashEraseBlock b) :=
  (Stops.call _ _).bind fun _ => Stops.pure ()

theorem strict_curMetaScratch : Strict sstMetaCurMetaScratch :=
  Stops.getMem.bind fun _ => Stops.pure _

theorem strict_curMetaActive : Strict sstMetaCurMetaActive :=
  Stops.getMem.bind fun _ => Stops.pure _

theorem strict_curDataScratch (l : Nat) : Strict (sstMetaCurDataScratch l) := by
  refine Stops.getMem.bind fun r => ?_
  split <;> exact Stops.pure _

theorem strict_setDataScratch (index l : Nat) : Strict (sstMetaSetDataScratch index l) := by
  unfold sstMetaSetDataScratch
  split
  · exact Stops.modifyMem _
  · exact Stops.pure ()

theorem strict_readBlockMetadata (l : Nat) : Strict (sstMetaReadBlockMetadata cfg l) := by
  refine strict_curMetaActive.bind fun b => (strict_flashRead _ _ _).bind fun bytes => ?_
  dsimp only
  split
  · exact (Stops.ofExcept _).bind fun _ => Stops.pure _
  · exact Stops.pure _

theorem strict_readObjectMeta (i : Nat) : Strict (sstMetaReadObjectMeta cfg i) := by
  refine strict_curMetaActive.bind fun b => (strict_flashRead _ _ _).bind fun bytes => ?_
  dsimp only
  split
  · exact (Stops.ofExcept _).bind fun _ => Stops.pure _
  · exact Stops.pure _

/-! ## Assembling the scratch blocks

Every step of an operation that fills the scratch blocks passes the first error on, some of them
under another code. -/

theorem strict_updateScratchObjectMeta (i : Nat) (e : Assetmeta) :
    Strict (sstMblockUpdateScratchObjectMeta cfg i e) :=
  strict_curMetaScratch.bind fun _ => strict_flashWrite _ _ _

theorem strict_updateScratchBlockMeta (l : Nat) (b : BlockMetadata) :
    Strict (sstMblockUpdateScratchBlockMeta l b) :=
  strict_curMetaScratch.bind fun _ => strict_flashWrite _ _ _

theorem strict_copyRemainingObjectMeta (i : Nat) :
    Strict (sstMblockCopyRemainingObjectMeta cfg i) := by
  refine strict_curMetaScratch.bind fun s => strict_curMetaActive.bind fun a =>
    (strict_flashMove _ _ _ _ _).bind fun _ => ?_
  dsimp only
  split
  · exact strict_flashMove _ _ _ _ _
  · exact Stops.pure ()

theorem strict_copyRemainingBlockMeta (l : Nat) :
    Strict (sstMblockCopyRemainingBlockMeta cfg l) := by
  refine strict_curMetaScratch.bind fun s => strict_curMetaActive.bind fun a => ?_
  -- a descriptor other than that of block 0 also has block 0 rewritten
  split
  · refine ((strict_readBlockMetadata _).orElse _).bind fun b =>
      ((strict_updateScratchBlockMeta _ _).orElse _).bind fun _ => ?_
    dsimp only
    split
    · exact (strict_flashMove _ _ _ _ _).bind fun _ => strict_flashMove _ _ _ _ _
    · exact strict_flashMove _ _ _ _ _
  · exact strict_flashMove _ _ _ _ _

theorem strict_migrateDataToScratch : Strict (sstMblockMigrateDataToScratch cfg) :=
  strict_curMetaScratch.bind fun _ => strict_curMetaActive.bind fun _ =>
    (strict_readBlockMetadata _).bind fun _ => strict_flashMove _ _ _ _ _

theorem strict_dblockUpdateScratch (l : Nat) (b : BlockMetadata) (data : List UInt8)
    (off size : Nat) : Strict (sstDblockUpdateScratch cfg l b data off size) := by
  refine (strict_curDataScratch l).bind fun s => (strict_flashWrite _ _ _).bind fun _ => ?_
  split
  · exact (strict_flashMove _ _ _ _ _).bind fun _ => strict_flashMove _ _ _ _ _
  · exact strict_flashMove _ _ _ _ _

/-! ## Commit

The header is programmed, the roles of the metadata blocks are swapped in memory, and the old blocks
are erased. The erasures come after the swap: an operation that reports one of their errors has
taken effect. -/

theorem strict_authAndUpdate (b : Nat) : Strict (sstMetaAuthAndUpdate cfg b) := by
  have hiv : Strict sstCryptoGetIv :=
    Stops.getMem.bind fun _ => (Stops.modifyMem _).bind fun _ => Stops.modifyMem _
  exact hiv.bind fun _ => Stops.getMem.bind fun _ => (strict_flashWrite _ _ _).bind fun _ =>
    (strict_flashRead _ _ _).bind fun _ => (Stops.ofExcept _).bind fun _ =>
      (Stops.ofExcept _).bind fun _ => (Stops.modifyMem _).bind fun _ => strict_flashWrite _ _ _

theorem strict_writeScratchMetaHeader : Strict (sstMetaWriteScratchMetaHeader cfg) := by
  refine strict_curMetaScratch.bind fun s => (Stops.modifyMem _).bind fun _ => ?_
  split
  · exact strict_authAndUpdate s
  · exact Stops.getMem.bind fun _ => (strict_flashWrite _ _ _).bind fun _ =>
      strict_flashWrite _ _ _

theorem strict_eraseScratchBlocks : Strict (sstMetaEraseScratchBlocks cfg) := by
  refine strict_curMetaScratch.bind fun s => (strict_flashErase s).bind fun _ => ?_
  split
  · exact (strict_curDataScratch _).bind fun _ => strict_flashErase _
  · exact Stops.pure ()

theorem strict_updateFinalize : Strict (sstMetaUpdateFinalize cfg) :=
  strict_writeScratchMetaHeader.bind fun _ => (Stops.modifyMem _).bind fun _ =>
    strict_eraseScratchBlocks

/-! ## Lookups

Some lookups turn a flash error into an invalid index or id, which the caller then refuses. -/

theorem strict_getObjectIdxFrom (u : UInt32) (is : List Nat) :
    Strict (sstCoreGetObjectIdxFrom cfg u is) := by
  induction is with
  | nil => exact Stops.fail _
  | cons i is ih =>
    refine ((strict_readObjectMeta i).orElse _).bind fun e => ?_
    split
    · exact Stops.pure i
    · exact ih

theorem strict_lookup (u : UInt32) (e : SstErr) :
    Strict (M.orElse (sstCoreGetObjectIdx cfg u) e) := (strict_getObjectIdxFrom u _).orElse e

theorem strict_reserveObjectFrom (size sizeInFlash : Nat) (is : List Nat) :
    Strict (sstMetaReserveObjectFrom cfg size sizeInFlash is) := by
  induction is with
  | nil => exact Stops.fail _
  | cons i is ih =>
    refine ((strict_readBlockMetadata i).orElse _).bind fun b => ?_
    split
    · exact Stops.pure _
    · exact ih

theorem strict_getFreeObjectIndexFrom (is : List Nat) :
    StrictOn (· ≠ sstMetadataInvalidIndex) (sstGetFreeObjectIndexFrom cfg is) := by
  induction is with
  | nil =>
    unfold sstGetFreeObjectIndexFrom
    split
    · exact Stops.pure _
    · exact Stops.fail _
  | cons i is ih =>
    refine Stops.attempt_bind (strict_readObjectMeta i) (fun e => ?_)
      (fun e => Never.pure fun h => h rfl) fun e => ReadOnly.pure _
    dsimp only
    split
    · exact Stops.pure i
    · exact ih

theorem strict_dblockLoToPhy (l : Nat) :
    StrictOn (· ≠ sstBlockInvalidId) (sstDblockLoToPhy cfg l) := by
  exact Stops.attempt_bind (strict_readBlockMetadata l) (fun b => Stops.pure _)
    (fun e => Never.pure fun h => h rfl) fun e => ReadOnly.pure _

theorem strict_blockObjectReadRaw (e : Assetmeta) (off size : Nat) :
    Strict (sstBlockObjectReadRaw cfg e off size) := by
  refine Stops.bind' (strict_dblockLoToPhy e.lblock) ?_ ?_ ?_
  · intro b hb
    rw [if_neg hb]
    exact strict_flashRead _ _ _
  · intro b hb
    rw [if_pos (not_not.mp hb)]
    exact Never.fail _
  · intro b hb
    rw [if_pos (not_not.mp hb)]
    exact ReadOnly.fail _

/-! ## Create and write -/

/-- The second half of a create stops at the first error. -/
theorem strict_create_commit (i : Nat) (e : Assetmeta) (b : BlockMetadata) :
    Strict (sstCoreObjectCreate.commit cfg i e b) :=
  ((strict_updateScratchObjectMeta _ _).orElse _).bind fun _ => strict_curMetaScratch.bind fun _ =>
    ((strict_updateScratchBlockMeta _ _).orElse _).bind fun _ =>
      ((strict_copyRemainingObjectMeta _).orElse _).bind fun _ =>
        ((strict_copyRemainingBlockMeta _).orElse _).bind fun _ =>
          (strict_migrateDataToScratch.orElse _).bind fun _ => strict_updateFinalize.orElse _

/-- A create that succeeds has seen no flash error. -/
theorem strict_create (u size : UInt32) : Strict (sstCoreObjectCreate cfg u size) := by
  refine Stops.attempt_bind (strict_reserveObjectFrom _ _ _) ?_
    (fun e => Never.bind fun _ => Never.fail _) fun e => ?_
  · -- space was found; an invalid index of the free entry is refused
    rintro ⟨e, b⟩
    refine Stops.bind' (strict_getFreeObjectIndexFrom _) ?_ ?_ ?_
    · intro i hi
      dsimp only
      rw [if_neg hi]
      exact strict_create_commit _ _ _
    · intro i hi
      dsimp only
      rw [if_pos (not_not.mp hi)]
      exact Never.fail _
    · intro i hi
      dsimp only
      rw [if_pos (not_not.mp hi)]
      exact ReadOnly.fail _
  · -- without space the free entry is still looked for
    exact (readsOnly_getFreeObjectIndexFrom _).readOnly.bind fun _ => ReadOnly.fail _

/-- Reading the current content stops at an error, and the copies cannot fail on the flash. -/
theorem strict_write_prepare (e : Assetmeta) (data : List UInt8) (off size : Nat) :
    Strict (sstCoreObjectWrite.prepare cfg e data off size) := by
  unfold sstCoreObjectWrite.prepare
  split
  · exact Stops.pure _
  · have hrest (current : List UInt8) : Strict (do
        let plainText ← M.ofExcept (memcpyInto (List.replicate cfg.alignedMaxObjectSize 0) 0 current)
        let offset := if cfg.enablePartialAssetRw then off else 0
        let curSize := if add32 offset size > e.curSize then add32 offset size else e.curSize
        let plainText ← M.ofExcept (memcpyInto plainText offset (bufBytes data size))
        (pure (plainText, curSize) : SstM (List UInt8 × Nat))) :=
      (Stops.ofExcept _).bind fun _ => (Stops.ofExcept _).bind fun _ => Stops.pure _
    dsimp only
    split
    · exact (strict_blockObjectReadRaw _ _ _).bind hrest
    · exact (Stops.pure _).bind hrest

/-- The second half of a write stops at the first error. -/
theorem strict_write_commit (i : Nat) (e : Assetmeta) (b : BlockMetadata) :
    Strict (sstCoreObjectWrite.commit cfg i e b) := by
  refine (strict_curDataScratch _).bind fun d => (strict_setDataScratch _ _).bind fun _ =>
    ((strict_updateScratchBlockMeta _ _).orElse _).bind fun _ =>
      ((strict_updateScratchObjectMeta _ _).orElse _).bind fun _ =>
        ((strict_copyRemainingBlockMeta _).orElse _).bind fun _ =>
          ((strict_copyRemainingObjectMeta _).orElse _).bind fun _ => ?_
  -- data of logical block 0 is part of the metadata block and was written with it
  split
  · exact (strict_migrateDataToScratch.orElse _).bind fun _ => strict_updateFinalize
  · exact strict_updateFinalize

/-- A write that succeeds has seen no flash error. -/
theorem strict_write (u : UInt32) (data : List UInt8) (offset size : UInt32) :
    Strict (sstCoreObjectWrite cfg u data offset size) := by
  refine (strict_lookup u _).bind fun i => ((strict_readObjectMeta i).orElse _).bind fun e =>
    ((strict_readBlockMetadata _).orElse _).bind fun b => ?_
  split
  · exact Stops.fail _
  · exact (strict_write_prepare _ _ _ _).bind fun _ =>
      ((strict_dblockUpdateScratch _ _ _ _ _).orElse _).bind fun _ => strict_write_commit _ _ _

end Tfm.Sst
