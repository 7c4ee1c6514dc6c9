import TrustedFirmware.Lib.FaultAtomicity
import TrustedFirmware.Sst.Proofs.Faults

/-!
# Flash reads that fail

Create, write and delete work on the scratch blocks until the header is written, so they are atomic
when only flash reads fail (`atomicReads_create`, `atomicReads_write`, `atomicReads_delete`): either
a read failed, and the active metadata block and the roles of the metadata blocks are as before
(`Undisturbed`), or the run is the fault-free one.

Two facts about each part of an operation are put together by the rules of
`TrustedFirmware.Lib.FaultAtomicity`.

* It spares the active metadata block, whatever fails (`spares_*`).
* It reports the reads that fail (`reportsReads_*`, or strictness from
  `TrustedFirmware.Sst.Proofs.Faults`).

A delete drops the results of its table writes and of the commit, but the reads among them are
either reported or come before the blocks are swapped.
-/

namespace Tfm.Sst

open Word32 BlockFlash Device

variable {cfg : Config} {I : Ram → Flash → Prop}

/-! ## Assembling the scratch blocks

The functions that fill the scratch blocks program no other block, so that the tables read from the
active block during the operation are those from its beginning. -/

/-- The metadata blocks have the roles `a` and `s`, block `a` holds `row`, and the data scratch
block is in `S`. -/
structure Undisturbed (S : Nat → Prop) (a s : Nat) (row : Row) (r : Ram) (f : Flash) : Prop where
  active : r.ctx.activeMetablock = a
  scratch : r.ctx.scratchMetablock = s
  row : f a = row
  dataScratch : S r.ctx.metaBlockHeader.scratchIdx

/-- `m` leaves the active metadata block alone and returns values in `V`. -/
abbrev Spares (S : Nat → Prop) (a s : Nat) (row : Row) {α : Type} (V : α → Prop) (m : SstM α) :
    Prop :=
  Yields device (Undisturbed S a s row) V m

section Spares

variable {S : Nat → Prop} {a s : Nat} {row : Row}

theorem spares_curMetaScratch : Spares S a s row (· = s) sstMetaCurMetaScratch :=
  Yields.getMem_bind fun _ ⟨_, h⟩ => Yields.pure h.scratch

theorem spares_curMetaActive : Spares S a s row (· = a) sstMetaCurMetaActive :=
  Yields.getMem_bind fun _ ⟨_, h⟩ => Yields.pure h.active

/-- Programming another block. -/
theorem Undisturbed.apply {r : Ram} {f : Flash} {c : Call} (h : Undisturbed S a s row r f)
    (hc : c.target ≠ some a) : Undisturbed S a s row r (device.next c f) :=
  ⟨h.active, h.scratch, (apply_of_target_ne hc).trans h.row, h.dataScratch⟩

theorem spares_flashWrite {b : Nat} (hb : b ≠ a) (d : List UInt8) (off : Nat) :
    Spares S a s row (fun _ => True) (sstFlashWrite b d off) :=
  (Yields.call (V := fun _ => True) _ (fun _ _ h => h.apply fun he => hb (Option.some.inj he))
    fun _ _ _ => trivial).bind fun _ _ => Yields.pure trivial

theorem spares_flashMove {dst : Nat} (hdst : dst ≠ a) (dstOff src srcOff n : Nat) :
    Spares S a s row (fun _ => True) (sstFlashBlockToBlockMove dst dstOff src srcOff n) :=
  (Yields.call (V := fun _ => True) _ (fun _ _ h => h.apply fun he => hdst (Option.some.inj he))
    fun _ _ _ => trivial).bind fun _ _ => Yields.pure trivial

/-- The active metadata block is read as it was. -/
theorem spares_readActive (off n : Nat) :
    Spares S a s row (· = row.get off n) (sstFlashRead a off n) :=
  Yields.call _ (fun _ _ h => h) fun _ f h => by rw [device_resp, Call.resp, h.row]

theorem spares_readObjectMeta {i : Nat} (hi : i < cfg.numAssets) :
    Spares S a s row (· = (tablesOf cfg row).obj i) (sstMetaReadObjectMeta cfg i) := by
  refine spares_curMetaActive.bind fun b hb => ?_
  subst hb
  refine (spares_readActive _ _).bind fun bytes hbytes => ?_
  -- the bytes come from the active block, which is still `row`
  have he : Assetmeta.decode bytes = (tablesOf cfg row).obj i := by
    rw [tablesOf_obj hi, hbytes, sstMetaObjectMetaOffset_eq cfg hi.le]
  dsimp only
  rw [he]
  split
  · exact (Yields.ofExcept (V := fun _ => True) fun _ _ => trivial).bind fun _ _ => Yields.pure rfl
  · exact Yields.pure rfl

theorem spares_readBlockMetadata {l : Nat} (hl : l < cfg.numActiveDblocks) :
    Spares S a s row (· = (tablesOf cfg row).blk l) (sstMetaReadBlockMetadata cfg l) := by
  refine spares_curMetaActive.bind fun b hb => ?_
  subst hb
  refine (spares_readActive _ _).bind fun bytes hbytes => ?_
  have he : BlockMetadata.decode bytes = (tablesOf cfg row).blk l := by
    rw [tablesOf_blk hl, hbytes, sstMetaBlockMetaOffset_eq cfg hl.le]
  dsimp only
  rw [he]
  split
  · exact (Yields.ofExcept (V := fun _ => True) fun _ _ => trivial).bind fun _ _ => Yields.pure rfl
  · exact Yields.pure rfl

variable (has : s ≠ a)
include has

theorem spares_updateScratchObjectMeta (i : Nat) (e : Assetmeta) :
    Spares S a s row (fun _ => True) (sstMblockUpdateScratchObjectMeta cfg i e) :=
  spares_curMetaScratch.bind fun _ hb => spares_flashWrite (hb ▸ has) _ _

theorem spares_updateScratchBlockMeta (l : Nat) (b : BlockMetadata) :
    Spares S a s row (fun _ => True) (sstMblockUpdateScratchBlockMeta l b) :=
  spares_curMetaScratch.bind fun _ hb => spares_flashWrite (hb ▸ has) _ _

theorem spares_copyRemainingObjectMeta (i : Nat) :
    Spares S a s row (fun _ => True) (sstMblockCopyRemainingObjectMeta cfg i) := by
  refine spares_curMetaScratch.bind fun b hb => spares_curMetaActive.bind fun _ _ =>
    (spares_flashMove (hb ▸ has) _ _ _ _).bind fun _ _ => ?_
  dsimp only
  split
  · exact spares_flashMove (hb ▸ has) _ _ _ _
  · exact Yields.pure trivial

theorem spares_copyRemainingBlockMeta (l : Nat) :
    Spares S a s row (fun _ => True) (sstMblockCopyRemainingBlockMeta cfg l) := by
  refine spares_curMetaScratch.bind fun b hb => spares_curMetaActive.bind fun _ _ => ?_
  have hba : b ≠ a := hb ▸ has
  split
  · refine ((readsOnly_readBlockMetadata _ _).orElse _).bind fun _ _ =>
      ((spares_updateScratchBlockMeta has _ _).orElse _).bind fun _ _ => ?_
    dsimp only
    split
    · exact (spares_flashMove hba _ _ _ _).bind fun _ _ => spares_flashMove hba _ _ _ _
    · exact spares_flashMove hba _ _ _ _
  · exact spares_flashMove hba _ _ _ _

theorem spares_migrateDataToScratch :
    Spares S a s row (fun _ => True) (sstMblockMigrateDataToScratch cfg) :=
  spares_curMetaScratch.bind fun _ hb => spares_curMetaActive.bind fun _ _ =>
    (readsOnly_readBlockMetadata _ _).bind fun _ _ => spares_flashMove (hb ▸ has) _ _ _ _

theorem spares_writeScratchMetaHeader :
    Spares S a s row (fun _ => True) (sstMetaWriteScratchMetaHeader cfg) := by
  refine spares_curMetaScratch.bind fun b hb =>
    (Yields.modifyMem fun _ _ h => ⟨h.active, h.scratch, h.row, h.dataScratch⟩).bind fun _ _ => ?_
  have hba : b ≠ a := hb ▸ has
  -- with encryption the header is programmed in two parts around the computation of the tag
  split
  · have hiv : Spares S a s row (fun _ => True) sstCryptoGetIv :=
      Yields.getMem_bind fun _ _ =>
        (Yields.modifyMem fun _ _ h => ⟨h.active, h.scratch, h.row, h.dataScratch⟩).bind fun _ _ =>
          Yields.modifyMem fun _ _ h => ⟨h.active, h.scratch, h.row, h.dataScratch⟩
    exact hiv.bind fun _ _ => Yields.getMem_bind fun _ _ =>
      (spares_flashWrite hba _ _).bind fun _ _ => (readsOnly_flashRead _ _ _ _).bind fun _ _ =>
        (Yields.ofExcept (V := fun _ => True) fun _ _ => trivial).bind fun _ _ =>
          (Yields.ofExcept (V := fun _ => True) fun _ _ => trivial).bind fun _ _ =>
            (Yields.modifyMem fun _ _ h => ⟨h.active, h.scratch, h.row, h.dataScratch⟩).bind
              fun _ _ => spares_flashWrite hba _ _
  · exact Yields.getMem_bind fun _ _ => (spares_flashWrite hba _ _).bind fun _ _ =>
      spares_flashWrite hba _ _

end Spares

/-! ## Data blocks

With more than two blocks the data scratch block, too, must be other than the active metadata block.
`S` is the set of blocks it is known to be in. -/

section Data

variable {S : Nat → Prop} {a s : Nat} {row : Row} (hs : s ≠ a)
  (hS : 2 < cfg.totalNumOfBlocks → ∀ d, S d → d ≠ a)
include hs hS

/-- The block that data is assembled in is not the active metadata block. -/
theorem spares_curDataScratch {l : Nat} (hl : l < cfg.numActiveDblocks) :
    Spares S a s row (fun b => b ≠ a ∧ (l ≠ 0 → S b)) (sstMetaCurDataScratch l) := by
  refine Yields.getMem_bind fun r ⟨f, h⟩ => ?_
  split
  · rename_i hl0
    exact Yields.pure ⟨h.scratch ▸ hs, fun hne => absurd hl0 hne⟩
  · rename_i hne
    exact Yields.pure ⟨hS (two_lt_blocks_of_pos (Nat.pos_of_ne_zero hne) hl) _ h.dataScratch,
      fun _ => h.dataScratch⟩

omit hs hS in
/-- The vacated block becomes the data scratch block. -/
theorem spares_setDataScratch {index l : Nat} (h : l ≠ 0 → S index) :
    Spares S a s row (fun _ => True) (sstMetaSetDataScratch index l) := by
  unfold sstMetaSetDataScratch
  split
  · rename_i hne
    exact Yields.modifyMem fun _ _ hU => ⟨hU.active, hU.scratch, hU.row, h hne⟩
  · exact Yields.pure trivial

theorem spares_dblockUpdateScratch {l : Nat} (hl : l < cfg.numActiveDblocks) (b : BlockMetadata)
    (data : List UInt8) (off size : Nat) :
    Spares S a s row (fun _ => True) (sstDblockUpdateScratch cfg l b data off size) := by
  refine (spares_curDataScratch hs hS hl).bind fun d hd =>
    (spares_flashWrite hd.1 _ _).bind fun _ _ => ?_
  split
  · exact (spares_flashMove hd.1 _ _ _ _).bind fun _ _ => spares_flashMove hd.1 _ _ _ _
  · exact spares_flashMove hd.1 _ _ _ _

theorem spares_compactDblock {l : Nat} (hl : l < cfg.numActiveDblocks)
    (hhome : l ≠ 0 → S ((tablesOf cfg row).blk l).physId) (objSize src dst size : Nat) :
    Spares S a s row (fun _ => True) (sstCompactDblock cfg l objSize src dst size) := by
  refine (spares_readBlockMetadata hl).bind fun b hb => (spares_curDataScratch hs hS hl).bind
    fun d hd => ?_
  subst hb
  have hset : Spares S a s row (fun _ => True)
      (sstMetaSetDataScratch ((tablesOf cfg row).blk l).physId l) :=
    spares_setDataScratch hhome
  have hback : Spares S a s row (fun _ => True) (sstMetaSetDataScratch d l) :=
    spares_setDataScratch hd.2
  have hmove (dstOff src srcOff n : Nat) : Spares S a s row (fun _ => True)
      (M.orElse (sstFlashBlockToBlockMove d dstOff src srcOff n) .systemError) :=
    (spares_flashMove hd.1 _ _ _ _).orElse _
  refine Yields.when_bind (fun _ => hmove _ _ _ _) (Yields.when_bind (fun _ => hmove _ _ _ _) ?_)
  -- the descriptors, once the data has moved
  refine hset.bind fun _ _ => (spares_updateScratchBlockMeta hs _ _).attempt.bind fun v _ => ?_
  -- the source puts the old scratch block back before it returns an error
  cases v with
  | error e => exact hback.bind fun _ _ => Yields.fail e
  | ok _ =>
    refine (spares_copyRemainingBlockMeta hs l).attempt.bind fun v _ => ?_
    cases v with
    | error e => exact hback.bind fun _ _ => Yields.fail e
    | ok _ => exact Yields.pure trivial

end Data

/-- The rewriting of the table keeps to the scratch block. -/
theorem spares_scan {S : Nat → Prop} {a s : Nat} {row : Row} (hs : s ≠ a) (del : DeletedSlot) (is : List Nat)
    (src n : Nat) : Spares S a s row (fun _ => True) (sstCoreObjectDelete.scan cfg del is src n) := by
  induction is generalizing src n with
  | nil => exact Yields.pure trivial
  | cons i is ih =>
    rw [sstCoreObjectDelete.scan]
    split
    · exact ih _ _
    · exact (readsOnly_readObjectMeta i _).bind fun e _ =>
        (spares_updateScratchObjectMeta hs _ _).attempt.bind fun _ _ => ih _ _

/-! ## Reads that are reported

A delete may ignore a failed table write, so it is not strict, but it still reports failed reads. -/

/-- When `m` returns a value in `P`, none of its reads has failed. -/
abbrev ReportsReads {α : Type} (P : α → Prop) (m : SstM α) : Prop :=
  Reports device (fun c => ¬ c.readsFlash = true) P m

theorem StrictOn.reads {α : Type} {P : α → Prop} {m : SstM α} (hm : StrictOn P m) :
    ReportsReads P m :=
  hm.reports.mono fun _ h => h.elim

/-- A table write may be dropped, it does not read. -/
theorem reportsReads_updateScratchObjectMeta (i : Nat) (e : Assetmeta) :
    ReportsReads (fun _ => True) (M.attempt (sstMblockUpdateScratchObjectMeta cfg i e)) := by
  refine Reports.drop (I := fun _ _ => True) (fun _ _ => trivial) ?_
  exact Always.bind (Always.getMem_bind fun _ _ => Always.pure _) fun _ =>
    Always.bind (Always.call _ (fun _ _ h => h) (by simp [Call.readsFlash])) fun _ => Always.pure _

/-- The loop of a delete reads every entry with a check, and drops only the results of writes. -/
theorem reportsReads_scan (del : DeletedSlot) (is : List Nat) (src n : Nat) :
    ReportsReads (fun _ => True) (sstCoreObjectDelete.scan cfg del is src n) := by
  induction is generalizing src n with
  | nil => exact Reports.pure _
  | cons i is ih =>
    rw [sstCoreObjectDelete.scan]
    split
    · exact ih _ _
    · exact (strict_readObjectMeta i).reads.bind fun e =>
        (reportsReads_updateScratchObjectMeta _ _).bind fun _ => ih _ _

theorem reportsReads_compactDblock (l objSize src dst size : Nat) :
    ReportsReads (fun _ => True) (sstCompactDblock cfg l objSize src dst size) := by
  refine (strict_readBlockMetadata l).reads.bind fun b => (strict_curDataScratch l).reads.bind
    fun d => ?_
  have hmove (dstOff src srcOff n : Nat) : ReportsReads (fun _ => True)
      (M.orElse (sstFlashBlockToBlockMove d dstOff src srcOff n) .systemError) :=
    (strict_flashMove _ _ _ _ _).reads.orElse _
  refine Reports.when_bind (hmove _ _ _ _) (Reports.when_bind (hmove _ _ _ _) ?_)
  refine (strict_setDataScratch _ _).reads.bind fun _ =>
    (strict_updateScratchBlockMeta _ _).reads.attempt_bind (fun _ => ?_)
      fun e => Never.bind fun _ => Never.fail e
  -- the error is reported after the scratch block is put back
  exact (strict_copyRemainingBlockMeta l).reads.attempt_bind (fun _ => Reports.pure ())
    fun e => Never.bind fun _ => Never.fail e

/-! ## The operations are atomic

Each operation is a sequence of parts that spare the active block, up to the commit. The commit
reads once, for the tag, before it swaps the blocks. -/

/-- Block `d` is a data block, if the build has any. -/
def DataBlock (cfg : Config) (d : Nat) : Prop :=
  2 < cfg.totalNumOfBlocks → 2 ≤ d ∧ d < cfg.totalNumOfBlocks

/-- Reads that fail leave the active metadata block in place. -/
abbrev AtomicReads (cfg : Config) (a s : Nat) (row : Row) {α : Type} (m : SstM α) : Prop :=
  Atomic device (fun c => c.readsFlash = true) (Undisturbed (DataBlock cfg) a s row) m

section Atomic

variable {a s : Nat} {row : Row} (hs : s ≠ a)
include hs

/-- After the swap the commit only erases. -/
theorem atomicReads_updateFinalize : AtomicReads cfg a s row (sstMetaUpdateFinalize cfg) := by
  refine Atomic.bind (spares_writeScratchMetaHeader hs) strict_writeScratchMetaHeader.reads
    fun _ _ => Atomic.of_reliable ?_
  have herase (b : Nat) : Always device (fun _ _ => True) (fun c => ¬ c.readsFlash = true)
      (sstFlashEraseBlock b) :=
    (Always.call _ (fun _ _ h => h) (by simp [Call.readsFlash])).bind fun _ => Always.pure ()
  refine Always.bind (Always.modifyMem fun _ _ h => h) fun _ =>
    Always.bind (Always.getMem_bind fun _ _ => Always.pure _) fun _ => (herase _).bind fun _ => ?_
  split
  · refine Always.bind (Always.getMem_bind fun _ _ => ?_) fun _ => herase _
    split <;> exact Always.pure _
  · exact Always.pure ()

theorem atomicReads_create_commit (i : Nat) (e : Assetmeta) (b : BlockMetadata) :
    AtomicReads cfg a s row (sstCoreObjectCreate.commit cfg i e b) :=
  Atomic.bind ((spares_updateScratchObjectMeta hs _ _).orElse _)
    ((strict_updateScratchObjectMeta _ _).reads.orElse _) fun _ _ =>
  Atomic.bind spares_curMetaScratch strict_curMetaScratch.reads fun _ _ =>
  Atomic.bind ((spares_updateScratchBlockMeta hs _ _).orElse _)
    ((strict_updateScratchBlockMeta _ _).reads.orElse _) fun _ _ =>
  Atomic.bind ((spares_copyRemainingObjectMeta hs _).orElse _)
    ((strict_copyRemainingObjectMeta _).reads.orElse _) fun _ _ =>
  Atomic.bind ((spares_copyRemainingBlockMeta hs _).orElse _)
    ((strict_copyRemainingBlockMeta _).reads.orElse _) fun _ _ =>
  Atomic.bind ((spares_migrateDataToScratch hs).orElse _)
    (strict_migrateDataToScratch.reads.orElse _) fun _ _ =>
  (atomicReads_updateFinalize hs).orElse _

/-- A create in which only reads fail takes effect as a whole or not at all. -/
theorem atomicReads_create (u size : UInt32) :
    AtomicReads cfg a s row (sstCoreObjectCreate cfg u size) := by
  refine Atomic.bind' (readsOnly_reserveObjectFrom _ _ _ _).attempt
    (strict_reserveObjectFrom _ _ _).reads.attempt ?_ ?_
  · -- space was found
    rintro _ - ⟨⟨e, b⟩, rfl, -⟩
    refine Atomic.bind' (readsOnly_getFreeObjectIndexFrom _ _)
      (strict_getFreeObjectIndexFrom _).reads ?_ ?_
    · intro i _ hi
      dsimp only
      rw [if_neg hi]
      exact atomicReads_create_commit hs _ _ _
    · intro i _ hi
      dsimp only
      rw [if_pos (not_not.mp hi)]
      exact Yields.fail _
  · intro v _ hv
    cases v with
    | ok x => exact absurd ⟨x, rfl, trivial⟩ hv
    | error e => exact (readsOnly_getFreeObjectIndexFrom _ _).bind fun _ _ => Yields.fail _

variable (ha : a = 0 ∨ a = 1) (hP : Placed cfg (tablesOf cfg row) a)
include ha hP

omit hs hP in
theorem DataBlock.ne_metablock (hN : 2 < cfg.totalNumOfBlocks) (d : Nat) (hd : DataBlock cfg d) :
    d ≠ a := by
  have := hd hN
  omega

omit hs ha in
/-- The home of a logical block other than 0 is a data block. -/
theorem Placed.dataBlock {l : Nat} (hl : l < cfg.numActiveDblocks) (hne : l ≠ 0) :
    DataBlock cfg ((tablesOf cfg row).blk l).physId :=
  fun _ => hP.homes.dataHome l (Nat.pos_of_ne_zero hne) hl

theorem atomicReads_write_commit (i : Nat) {e : Assetmeta} (hl : e.lblock < cfg.numActiveDblocks) :
    AtomicReads cfg a s row
      (sstCoreObjectWrite.commit cfg i e ((tablesOf cfg row).blk e.lblock)) := by
  refine Atomic.bind (spares_curDataScratch hs (DataBlock.ne_metablock ha) hl) (strict_curDataScratch _).reads fun d _ =>
    Atomic.bind (spares_setDataScratch (hP.dataBlock hl)) (strict_setDataScratch _ _).reads
      fun _ _ =>
    Atomic.bind ((spares_updateScratchBlockMeta hs _ _).orElse _)
      ((strict_updateScratchBlockMeta _ _).reads.orElse _) fun _ _ =>
    Atomic.bind ((spares_updateScratchObjectMeta hs _ _).orElse _)
      ((strict_updateScratchObjectMeta _ _).reads.orElse _) fun _ _ =>
    Atomic.bind ((spares_copyRemainingBlockMeta hs _).orElse _)
      ((strict_copyRemainingBlockMeta _).reads.orElse _) fun _ _ =>
    Atomic.bind ((spares_copyRemainingObjectMeta hs _).orElse _)
      ((strict_copyRemainingObjectMeta _).reads.orElse _) fun _ _ => ?_
  split
  · exact Atomic.bind ((spares_migrateDataToScratch hs).orElse _)
      (strict_migrateDataToScratch.reads.orElse _) fun _ _ => atomicReads_updateFinalize hs
  · exact atomicReads_updateFinalize hs

/-- A write in which only reads fail takes effect as a whole or not at all. -/
theorem atomicReads_write (u : UInt32) (data : List UInt8) (offset size : UInt32) :
    AtomicReads cfg a s row (sstCoreObjectWrite cfg u data offset size) := by
  refine Atomic.bind (yields_lookup u _) (strict_lookup u _).reads fun i hi =>
    Atomic.bind ((spares_readObjectMeta hi).orElse _) ((strict_readObjectMeta i).reads.orElse _)
      fun e he => ?_
  -- the entry that was read is the one in the active tables, and its block is in range
  subst he
  have hl := hP.slots.lblock_lt i
  refine Atomic.bind ((spares_readBlockMetadata hl).orElse _)
    ((strict_readBlockMetadata _).reads.orElse _) fun b hb => ?_
  subst hb
  split
  · exact (Yields.fail (V := fun _ => True) _).atomic
  · exact Atomic.bind (readsOnly_prepare _ _ _ _ _) (strict_write_prepare _ _ _ _).reads
      fun x _ => Atomic.bind ((spares_dblockUpdateScratch hs (DataBlock.ne_metablock ha) hl _ _ _ _).orElse _)
        ((strict_dblockUpdateScratch _ _ _ _ _).reads.orElse _) fun _ _ =>
          atomicReads_write_commit hs ha hP i hl

/-- A delete in which only reads fail takes effect as a whole or not at all. -/
theorem atomicReads_delete (u : UInt32) :
    AtomicReads cfg a s row (sstCoreObjectDelete cfg u) := by
  refine Atomic.bind (yields_lookup u _) (strict_lookup u _).reads fun i hi =>
    Atomic.bind (spares_readObjectMeta hi) (strict_readObjectMeta i).reads fun e he => ?_
  subst he
  split
  · exact (Yields.fail (V := fun _ => True) _).atomic
  · exact Atomic.bind (spares_updateScratchObjectMeta hs _ _).attempt
      (reportsReads_updateScratchObjectMeta _ _) fun _ _ =>
      Atomic.bind (spares_scan hs _ _ _ _) (reportsReads_scan _ _ _ _) fun x _ =>
        Atomic.bind (spares_compactDblock hs (DataBlock.ne_metablock ha) (hP.slots.lblock_lt i)
          (hP.dataBlock (hP.slots.lblock_lt i)) _ _ _ _)
          (reportsReads_compactDblock _ _ _ _ _) fun _ _ =>
            -- the result of the commit is dropped
            (atomicReads_updateFinalize hs).attempt.bind_pure ()

end Atomic

end Tfm.Sst
