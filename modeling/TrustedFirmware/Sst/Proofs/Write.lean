import TrustedFirmware.Sst.Proofs.Create

/-!
# Write

A write assembles the data block of the object around the new content, then the tables, and moves
the data of logical block 0 along with them.

* `write_cases`: within the maximum size of the object, a write is refused or commits; it fails with
  a buffer overrun exactly where old content and new bytes exceed the buffer of the plain build.
* `write_outcome_any`: the same for sizes that nobody has checked. What is programmed then is not
  described, only that it stays in the scratch blocks.
-/

namespace Tfm.Sst

open Word32 BlockFlash Device

variable {cfg : Config} {r : Ram} {f : Flash} {a s : Nat} {T : Tables}

/-! ## The content of an object

The plain build reads the object into a buffer and copies the new bytes over it; the encrypted build
takes the buffer of the caller as it is. -/

/-- The content of object `i`. -/
def contentOf (f : Flash) (T : Tables) (i : Nat) : List UInt8 :=
  (f (T.blk (T.obj i).lblock).physId).get (T.obj i).dataIndex (T.obj i).curSize

@[simp] theorem length_contentOf (f : Flash) (T : Tables) (i : Nat) :
    (contentOf f T i).length = (T.obj i).curSize := by simp [contentOf]

/-- The home of a logical block is looked up in the tables. -/
theorem does_dblockLoToPhy (hT : activeTables cfg r f = T) (hv : T.BlkValid cfg) {l : Nat}
    (hl : l < cfg.numActiveDblocks) :
    Does (sstDblockLoToPhy cfg l) r f (.ok (T.blk l).physId) r [] := by
  refine Does.read_bind (does_readBlockMetadata (hT ▸ hv) hl).attempt ?_
  rw [hT]
  exact Does.pure _

/-- Bytes of an object are read from its block. -/
theorem does_blockObjectReadRaw (hT : activeTables cfg r f = T) (hv : T.BlkValid cfg)
    {i off n : Nat} (hl : (T.obj i).lblock < cfg.numActiveDblocks)
    (hoff : (T.obj i).dataIndex + off < 2 ^ 32) :
    Does (sstBlockObjectReadRaw cfg (T.obj i) off n) r f
      (.ok ((f (T.blk (T.obj i).lblock).physId).get ((T.obj i).dataIndex + off) n)) r [] := by
  have hphys : (T.blk (T.obj i).lblock).physId ≠ sstBlockInvalidId := by
    have hN := cfg.totalNumOfBlocks_lt
    have := hv.physId_lt hl
    rw [sstBlockInvalidId]
    omega
  refine Does.read_bind (does_dblockLoToPhy hT hv hl) ?_
  rw [if_neg hphys, add32_eq hoff]
  exact Does.read _ _ _ _

/-! ### The buffer of a write

The source reads the old content into a static buffer and copies the new bytes into it, each with a
check of its own against the size of the buffer. -/

/-- Where in the buffer the plain build puts the new bytes. -/
def writeOffset (cfg : Config) (offset : Nat) : Nat :=
  if cfg.enablePartialAssetRw then offset else 0

/-- The buffer that is programmed, and the new size, given the stored content. -/
def writeBuffer (cfg : Config) (content data : List UInt8) (offset size : Nat) :
    List UInt8 × Nat :=
  if cfg.encryption then (data, size)
  else
    (sstUtilsMemcpy (sstUtilsMemcpy (List.replicate cfg.alignedMaxObjectSize 0) 0 content)
        (writeOffset cfg offset) (bufBytes data size),
      if writeOffset cfg offset + size > content.length then writeOffset cfg offset + size
      else content.length)

/-- The old content and the new bytes fit in the buffer of the plain build. -/
def WriteFits (cfg : Config) (curSize offset size : Nat) : Prop :=
  cfg.encryption = false →
    curSize ≤ cfg.alignedMaxObjectSize ∧ writeOffset cfg offset + size ≤ cfg.alignedMaxObjectSize

instance (cfg : Config) (curSize offset size : Nat) : Decidable (WriteFits cfg curSize offset size) :=
  inferInstanceAs (Decidable (_ → _))

/-- Both copies into a buffer of `n` bytes. -/
theorem memcpyInto_twice (content d : List UInt8) (n pos : Nat) :
    (do let buf ← memcpyInto (List.replicate n 0) 0 content
        memcpyInto buf pos d)
      = if content.length ≤ n ∧ pos + d.length ≤ n then
          .ok (sstUtilsMemcpy (sstUtilsMemcpy (List.replicate n 0) 0 content) pos d)
        else .error .bufferOverrun := by
  have hlen : (List.replicate n (0 : UInt8)).length = n := List.length_replicate
  by_cases h1 : content.length ≤ n
  · have hbuf : (sstUtilsMemcpy (List.replicate n 0) 0 content).length = n := by
      rw [length_sstUtilsMemcpy (by omega), hlen]
    have hcopy : memcpyInto (List.replicate n 0) 0 content
        = .ok (sstUtilsMemcpy (List.replicate n 0) 0 content) := if_pos (by omega)
    rw [hcopy]
    show memcpyInto _ pos d = _
    simp only [memcpyInto, hbuf, h1, true_and]
  · have hcopy : memcpyInto (List.replicate n 0) 0 content = .error .bufferOverrun :=
      if_neg (by omega)
    rw [hcopy, if_neg fun h => h1 h.1]
    rfl

/-- The buffer of a write, or an overrun. -/
theorem does_prepare (hT : activeTables cfg r f = T) {active scratch i : Nat}
    (hL : Layout cfg T active scratch) (hi : T.Live i) (data : List UInt8) {offset size : Nat}
    (hsize : offset + size ≤ (T.obj i).maxSize) :
    Does (sstCoreObjectWrite.prepare cfg (T.obj i) data offset size) r f
      (if WriteFits cfg (T.obj i).curSize offset size then
        .ok (writeBuffer cfg (contentOf f T i) data offset size) else .error .bufferOverrun)
      r [] := by
  have hB := cfg.blockSize_le
  have hU := cfg.flashProgramUnit_pos
  have hmax := hL.slots.rounds i hi
  have hb := hL.slots.slot_bounds hi
  cases hc : cfg.encryption with
  | true =>
    have hfits : WriteFits cfg (T.obj i).curSize offset size := fun h => by rw [hc] at h; cases h
    simp only [sstCoreObjectWrite.prepare, writeBuffer, hc, if_true, hfits]
    exact Does.pure _
  | false =>
    have hadd : add32 (writeOffset cfg offset) size = writeOffset cfg offset + size := by
      refine add32_eq ?_
      unfold writeOffset
      split <;> omega
    have hfits : WriteFits cfg (T.obj i).curSize offset size
        ↔ (T.obj i).curSize ≤ cfg.alignedMaxObjectSize
          ∧ writeOffset cfg offset + size ≤ cfg.alignedMaxObjectSize :=
      ⟨fun h => h hc, fun h _ => h⟩
    -- the two copies, once the content is read
    have hcopies := memcpyInto_twice (contentOf f T i) (bufBytes data size)
      cfg.alignedMaxObjectSize (writeOffset cfg offset)
    simp only [length_contentOf, length_bufBytes, ← hfits] at hcopies
    have hcont : Does (do
        let plainText ← M.ofExcept
          (memcpyInto (List.replicate cfg.alignedMaxObjectSize 0) 0 (contentOf f T i))
        let plainText ← M.ofExcept
          (memcpyInto plainText (writeOffset cfg offset) (bufBytes data size))
        pure (plainText, if add32 (writeOffset cfg offset) size > (T.obj i).curSize then
          add32 (writeOffset cfg offset) size else (T.obj i).curSize) : SstM _) r f
        (if WriteFits cfg (T.obj i).curSize offset size then
          .ok (writeBuffer cfg (contentOf f T i) data offset size) else .error .bufferOverrun)
        r [] := by
      simp only [writeBuffer, hc, Bool.false_eq_true, if_false, length_contentOf, hadd]
      cases h1 : memcpyInto (List.replicate cfg.alignedMaxObjectSize 0) 0 (contentOf f T i) with
      | error e =>
        rw [h1] at hcopies
        have he : (.error e : Except SstErr (List UInt8)) = _ := hcopies
        by_cases hf : WriteFits cfg (T.obj i).curSize offset size
        · rw [if_pos hf] at he
          cases he
        · rw [if_neg hf] at he ⊢
          cases he
          exact Does.bind_error (Does.ofExcept _)
      | ok buf =>
        rw [h1] at hcopies
        have he : memcpyInto buf (writeOffset cfg offset) (bufBytes data size) = _ := hcopies
        refine Does.read_bind (Does.ofExcept _) ?_
        rw [he]
        split
        · exact Does.read_bind (Does.ofExcept _) (Does.pure _)
        · exact Does.bind_error (Does.ofExcept _)
    simp only [sstCoreObjectWrite.prepare, hc, Bool.false_eq_true, if_false]
    -- an empty object is not read, and its content is empty
    by_cases hcur : (T.obj i).curSize > 0
    · rw [if_pos hcur]
      exact Does.read_bind (does_blockObjectReadRaw hT hL.blkValid (hL.slots.lblock_lt i hi)
        (by omega)) hcont
    · have hempty : contentOf f T i = [] := by
        rw [contentOf, show (T.obj i).curSize = 0 by omega, Row.get_zero]
      rw [if_neg hcur]
      exact Does.read_bind (Does.pure _) (hempty ▸ hcont)

/-- A write within the maximum size leaves a size within it. -/
theorem writeBuffer_size_le {active scratch i : Nat} (hL : Layout cfg T active scratch)
    (hi : T.Live i) (f : Flash) (data : List UInt8) {offset size : Nat}
    (hsize : offset + size ≤ (T.obj i).maxSize) :
    (writeBuffer cfg (contentOf f T i) data offset size).2 ≤ (T.obj i).maxSize := by
  have hcur := hL.slots.cur_le i hi
  simp only [writeBuffer, writeOffset]
  split
  · dsimp only
    omega
  · simp only [length_contentOf]
    split <;> split <;> omega

/-! ## The calls of a write

The data is programmed before the tables, and in the case of logical block 0 to the same block,
behind them. -/

/-- The block that receives the data of logical block `l`. -/
def dataScratchOf (s d l : Nat) : Nat := if l = 0 then s else d

/-- The calls of a write before the commit: the data block, then the tables. -/
def writeCalls (cfg : Config) (a s d : Nat) (T : Tables) (i curSize : Nat) (buf : List UInt8) :
    List Call :=
  updateDataCalls cfg (dataScratchOf s d (T.obj i).lblock) (T.blk (T.obj i).lblock) buf
    (T.obj i).dataIndex ++
  ([.write s (blkOff (T.obj i).lblock)
      ((T.written s d i curSize).blk (T.obj i).lblock).encode] ++
  ([.write s (objOff cfg i) ((T.written s d i curSize).obj i).encode] ++
  (copyBlocksCalls cfg a s (T.obj i).lblock (T.blk 0) ++
  (copyObjectsCalls cfg a s i ++
    (if (T.obj i).lblock ≠ 0 then migrateCalls cfg a s (T.blk 0) else [])))))

/-- The data of a live object is programmed to a scratch block, behind the tables if that is
a metadata block, and its block is not a scratch block. -/
theorem Layout.data_target {active d i off : Nat} (hL : Layout cfg T active d) (hi : T.Live i)
    (hoff : (T.blk (T.obj i).lblock).dataStart ≤ off) :
    dataScratchOf s d (T.obj i).lblock = s ∧ sizeofMetadataBlockHeader ≤ off
      ∨ dataScratchOf s d (T.obj i).lblock = d ∧ 2 < cfg.totalNumOfBlocks := by
  rcases Nat.eq_zero_or_pos (T.obj i).lblock with h0 | h0
  · left
    rw [h0, hL.blocks.metaStart] at hoff
    exact ⟨by rw [h0, dataScratchOf, if_pos rfl], header_le_metadata.trans hoff⟩
  · right
    exact ⟨by rw [dataScratchOf, if_neg (by omega)],
      two_lt_blocks_of_pos h0 (hL.slots.lblock_lt i hi)⟩

/-- The data of a live object is copied from a block that is not scratch. -/
theorem Layout.data_source {active d i : Nat} (hL : Layout cfg T active d) (hi : T.Live i)
    (hs : s = 0 ∨ s = 1) (ha : active ≠ s) :
    (T.blk (T.obj i).lblock).physId ≠ s
      ∧ (2 < cfg.totalNumOfBlocks → (T.blk (T.obj i).lblock).physId ≠ d) := by
  rcases Nat.eq_zero_or_pos (T.obj i).lblock with h0 | h0
  · have hmeta := hL.blocks.metaHome
    refine ⟨by rw [h0, hL.home i hi h0]; exact ha, fun hN => ?_⟩
    have := hL.blocks.scratch_ge hN
    rw [h0]
    omega
  · have hl := hL.slots.lblock_lt i hi
    have := (hL.blocks.dataHome _ h0 hl).1
    exact ⟨by omega, fun _ => hL.blocks.scratch_ne _ h0 hl⟩

/-- Assembling the data block programs scratch blocks only. -/
theorem assembles_updateData {active d i : Nat} (hL : Layout cfg T active d) (hi : T.Live i)
    (hs : s = 0 ∨ s = 1) (ha : active ≠ s) (buf : List UInt8) :
    Assembles cfg s d (updateDataCalls cfg (dataScratchOf s d (T.obj i).lblock)
      (T.blk (T.obj i).lblock) buf (T.obj i).dataIndex) := by
  have hb := hL.slots.slot_bounds hi
  have hsrc := hL.data_source hi hs ha
  refine (Assembles.append (.write (hL.data_target hi hb.1)) (.ite fun _ =>
    .move (hL.data_target hi le_rfl) hsrc)).append (.move (hL.data_target hi ?_) hsrc)
  omega

/-! ### The tables of a write -/

/-- The table calls of a write, once the data block is assembled. -/
def writeTableCalls (cfg : Config) (a s d : Nat) (T : Tables) (i curSize : Nat) : List Call :=
  [.write s (blkOff (T.obj i).lblock)
      ((T.written s d i curSize).blk (T.obj i).lblock).encode] ++
  ([.write s (objOff cfg i) ((T.written s d i curSize).obj i).encode] ++
  (copyBlocksCalls cfg a s (T.obj i).lblock (T.blk 0) ++
  (copyObjectsCalls cfg a s i ++
    (if (T.obj i).lblock ≠ 0 then migrateCalls cfg a s (T.blk 0) else []))))

/-- The table calls program the scratch metadata block only. -/
theorem assembles_writeTables {d i curSize : Nat}
    (hsrc : a ≠ s ∧ (2 < cfg.totalNumOfBlocks → a ≠ d)) :
    Assembles cfg s d (writeTableCalls cfg a s d T i curSize) :=
  (assembles_write (header_le_blkOff _)).append ((assembles_write (header_le_objOff _)).append
    ((assembles_copyBlocks hsrc _ _).append ((assembles_copyObjects hsrc _).append
      (.ite fun _ => assembles_migrate hsrc _))))

theorem assembles_writeCalls {active d i curSize : Nat} (hL : Layout cfg T active d)
    (hi : T.Live i) (hs : s = 0 ∨ s = 1)
    (hsrc : active ≠ s ∧ (2 < cfg.totalNumOfBlocks → active ≠ d)) (buf : List UInt8) :
    Assembles cfg s d (writeCalls cfg active s d T i curSize buf) :=
  (assembles_updateData hL hi hs hsrc.1 buf).append (assembles_writeTables hsrc)

/-- A write assembles the tables with the new size and the new place of the data, whatever the
scratch metadata block held before. -/
theorem tablesOf_rowAfter_writeTables {active d i curSize : Nat} (hP : Placed cfg T active)
    (hT : tablesOf cfg (f active) = T) (hi : i < cfg.numAssets) (hs : s = 0 ∨ s = 1)
    (hd : 2 < cfg.totalNumOfBlocks → 2 ≤ d ∧ d < cfg.totalNumOfBlocks) (hcur : curSize < 2 ^ 32)
    (row : Row) :
    tablesOf cfg (rowAfter s f (writeTableCalls cfg active s d T i curSize) row)
      = T.written s d i curSize := by
  have hP' : Placed cfg (T.written s d i curSize) s := hP.written hs hd
  have hl := hP.slots.lblock_lt i
  have hobj : ((T.written s d i curSize).obj i).Fits := by
    have hfits : (T.obj i).Fits := hT ▸ tablesOf_obj_fits _ i
    rw [Tables.written_obj_self]
    exact ⟨hfits.1, hfits.2.1, hcur, hfits.2.2.2⟩
  have hs32 : s < 2 ^ 32 := by omega
  have hmig (row : Row) : tablesOf cfg (rowAfter s f
      (if (T.obj i).lblock ≠ 0 then migrateCalls cfg active s (T.blk 0) else []) row)
        = tablesOf cfg row := by
    split
    · exact tablesOf_rowAfter_migrate _ _
    · rfl
  simp only [writeTableCalls, rowAfter_append, hmig, tablesOf_rowAfter_copyObjects,
    tablesOf_rowAfter_copyBlocks _ hl (hP.blk_fits cfg.numActiveDblocks_pos) hs32,
    rowAfter_write_self, tablesOf_put_obj _ hi hobj,
    tablesOf_put_blk _ hl (hP'.blk_fits hl), hT]
  ext1
  · funext k
    dsimp only
    rw [Tables.setObj_blk, Tables.setBlk_blk]
    by_cases hk : k = (T.obj i).lblock
    · rw [if_pos hk, if_pos hk, hk]
    · rw [if_neg hk]
      by_cases hk0 : k = 0
      · subst hk0
        simp [Tables.written, Tables.relocated, hk]
      · simp [Tables.written, Tables.relocated, hk0, hk]
  · funext j
    dsimp only
    rw [Tables.setObj_obj]
    by_cases hj : j = i
    · rw [if_pos hj, if_pos hj, hj]
    · rw [if_neg hj, Tables.written_obj_ne hj]

/-- The tables after all calls of a write. -/
theorem tablesOf_rowAfter_writeCalls {active d i curSize : Nat} (hL : Layout cfg T active d)
    (hT : tablesOf cfg (f active) = T) (hi : T.Live i) (hs : s = 0 ∨ s = 1)
    (hcur : curSize ≤ (T.obj i).maxSize) (buf : List UInt8) (row : Row) :
    tablesOf cfg (rowAfter s f (writeCalls cfg active s d T i curSize buf) row)
      = T.written s d i curSize := by
  have hmax := hL.slots.rounds i hi
  have hU := cfg.flashProgramUnit_pos
  -- the table calls overwrite whatever the data calls left of the tables
  rw [show writeCalls cfg active s d T i curSize buf = updateDataCalls cfg _ _ buf _
    ++ writeTableCalls cfg active s d T i curSize from rfl, rowAfter_append]
  exact tablesOf_rowAfter_writeTables hL.placed hT (hL.slots.live_lt i hi) hs
    (fun hN => ⟨hL.blocks.scratch_ge hN, hL.blocks.scratch_lt⟩) (by omega) _

/-- Only a logical block other than 0 gives up its block. -/
theorem does_setDataScratch (l phys : Nat) :
    Does (sstMetaSetDataScratch phys l) r f (.ok ())
      (r.withScratch (if l = 0 then r.ctx.metaBlockHeader.scratchIdx else phys)) [] := by
  by_cases hl : l = 0
  · simp only [sstMetaSetDataScratch, sstLogicalDblock0, hl, ne_eq, not_true, if_false, if_true]
    exact Does.pure ()
  · simp only [sstMetaSetDataScratch, sstLogicalDblock0, hl, ne_eq, not_false_eq_true, if_true,
      if_false]
    exact Does.modifyMem _

/-! ## The outcome of a write -/

/-- The second half of a write, after the calls `ds` that assemble the data. -/
theorem commits_write_commit (hm : Running cfg r f) (hc : cfg.CryptoWorks)
    (hT : activeTables cfg r f = T) {i curSize : Nat} (hi : i < cfg.numAssets) {ds : List Call}
    (hds : OnScratch cfg r.ctx.scratchMetablock r.ctx.metaBlockHeader.scratchIdx ds)
    {m : SstM Unit}
    (hdo : ∀ v r' w, Does (sstCoreObjectWrite.commit cfg i { T.obj i with curSize := curSize }
          (T.blk (T.obj i).lblock)) r (device.replay ds f) v r' w →
      Does m r f v r' (ds ++ w)) :
    Commits cfg m r f (T.vacated r.ctx.metaBlockHeader.scratchIdx (T.obj i).lblock)
      (ds ++ writeTableCalls cfg r.ctx.activeMetablock r.ctx.scratchMetablock
        r.ctx.metaBlockHeader.scratchIdx T i curSize) := by
  have hP : Placed cfg T _ := hT ▸ hm.placed
  have hl := hP.slots.lblock_lt i
  have hsrc := hm.source_ok
  refine Commits.of_finalize hc fun r'' w hfin => ?_
  have hblk : (T.written r.ctx.scratchMetablock r.ctx.metaBlockHeader.scratchIdx i curSize).blk
        (T.obj i).lblock
      = { T.blk (T.obj i).lblock with physId := r.ctx.dataScratch (T.obj i).lblock } := by
    simp [Tables.written, Tables.relocated, AssetSystemContext.dataScratch]
  simp only [writeTableCalls, hblk, Tables.written_obj_self, Model.replay_append,
    List.append_assoc] at hfin ⊢
  refine hdo _ _ _ ?_
  refine Does.read_bind (does_curDataScratch _) (Does.read_bind (does_setDataScratch _ _) ?_)
  refine ((does_updateScratchBlockMeta hl.le _).orElse _).bind ?_
  refine ((does_updateScratchObjectMeta hi.le _).orElse _).bind ?_
  -- both read the active tables again, which no call so far has touched
  refine ((does_copyRemainingBlockMeta ?_ hP.blkValid hl).orElse _).bind
    (((does_copyRemainingObjectMeta hi).orElse _).bind
      (Does.when_bind (fun _ => (does_migrateDataToScratch ?_ hP).orElse _) hfin))
  all_goals
    simp only [← Model.replay_append]
    refine OnScratch.activeTables_eq ?_ hsrc hT
  · exact (hds.append (assembles_write (header_le_blkOff _)).onScratch).append
      (assembles_write (header_le_objOff i)).onScratch
  · exact (((hds.append (assembles_write (header_le_blkOff _)).onScratch).append
      (assembles_write (header_le_objOff i)).onScratch).append
        (assembles_copyBlocks hsrc _ _).onScratch).append (assembles_copyObjects hsrc i).onScratch

/-- An id that is found and is not the invalid one belongs to a live object. -/
theorem Tables.live_of_find {u : UInt32} {i : Nat} (hu : u ≠ 0) (h : T.find cfg u = some i) :
    T.Live i := by
  rw [Tables.Live, Tables.uniqueId_of_find h]
  exact hu

/-- The bytes a write of object `i` programs, and the new size. -/
def writtenBytes (cfg : Config) (f : Flash) (T : Tables) (i : Nat) (data : List UInt8)
    (offset size : Nat) : List UInt8 :=
  bufBytes (writeBuffer cfg (contentOf f T i) data offset size).1
    (sstGetAlignedFlashBytes cfg (writeBuffer cfg (contentOf f T i) data offset size).2)

/-- A write is refused, or commits the new content of the object it finds. It runs past the buffer of
the plain build exactly where content and new bytes do not fit in it. -/
theorem write_cases (hm : Mounted cfg r f) (hc : cfg.CryptoWorks)
    (hT : activeTables cfg r f = T) {u : UInt32} (data : List UInt8) {offset size : UInt32}
    (hu : u ≠ 0)
    (hsize : ∀ i, T.find cfg u = some i → offset.toNat + size.toNat ≤ (T.obj i).maxSize) :
    (∃ e, Does (sstCoreObjectWrite cfg u data offset size) r f (.error e) r []
      ∧ (e = .bufferOverrun → ∃ i, T.find cfg u = some i
          ∧ ¬ WriteFits cfg (T.obj i).curSize offset.toNat size.toNat))
    ∨ ∃ i, T.find cfg u = some i ∧
        (cfg.enablePartialAssetRw = true → offset.toNat ≤ (T.obj i).curSize) ∧
        WriteFits cfg (T.obj i).curSize offset.toNat size.toNat ∧
        Commits cfg (sstCoreObjectWrite cfg u data offset size) r f
          (T.vacated r.ctx.metaBlockHeader.scratchIdx (T.obj i).lblock)
          (writeCalls cfg r.ctx.activeMetablock r.ctx.scratchMetablock
            r.ctx.metaBlockHeader.scratchIdx T i
            (writeBuffer cfg (contentOf f T i) data offset.toNat size.toNat).2
            (writtenBytes cfg f T i data offset.toNat size.toNat)) := by
  have hL : Layout cfg T _ _ := hT ▸ hm.layout
  rcases lookup_outcome hT u .assetNotFound with ⟨hlook, -⟩ | ⟨i, hfind, hreach, hlook⟩
  · exact Or.inl ⟨.assetNotFound, Does.bind_error hlook, fun h => by cases h⟩
  · have hi := Tables.live_of_find hu hfind
    have hl := hL.slots.lblock_lt i hi
    have hobj := does_readObjectMeta (r := r) (f := f) (by rw [hT]; exact hreach i le_rfl)
      (hL.slots.live_lt i hi)
    have hblk := does_readBlockMetadata (r := r) (f := f) (by rw [hT]; exact hL.blkValid) hl
    rw [hT] at hobj hblk
    -- a partial write may not leave a gap behind the current content
    by_cases hoff : cfg.enablePartialAssetRw = true ∧ offset.toNat > (T.obj i).curSize
    · refine Or.inl ⟨.paramError, Does.read_bind hlook (Does.read_bind (hobj.orElse _)
        (Does.read_bind (hblk.orElse _) ?_)), fun h => by cases h⟩
      rw [if_pos hoff]
      exact Does.fail _
    · have hprep := does_prepare hT hL hi data (hsize i hfind)
      by_cases hfits : WriteFits cfg (T.obj i).curSize offset.toNat size.toNat
      · rw [if_pos hfits] at hprep
        refine Or.inr ⟨i, hfind, fun hp => Nat.not_lt.mp fun h => hoff ⟨hp, h⟩, hfits, ?_⟩
        have hcur := writeBuffer_size_le hL hi f data (hsize i hfind)
        have hal := aligned_mono cfg hcur (hL.slots.rounds i hi)
        have hb := hL.slots.slot_bounds hi
        have hfree := hL.slots.free_le _ hl
        -- what is programmed stays in the slot, as its size was rounded in the same way
        have hend : (T.obj i).dataIndex + sstGetAlignedFlashBytes cfg
              (writeBuffer cfg (contentOf f T i) data offset.toNat size.toNat).2
            ≤ cfg.blockSize - (T.blk (T.obj i).lblock).freeSize := by
          rw [Tables.slotSize] at hb
          omega
        have hdata := assembles_updateData hL hi hm.scratch_cases hm.source_ok.1
          (writtenBytes cfg f T i data offset.toNat size.toNat)
        refine commits_write_commit hm.running hc hT (hL.slots.live_lt i hi) hdata.onScratch
          fun v r' w hcommit => ?_
        refine Does.read_bind hlook (Does.read_bind (hobj.orElse _)
          (Does.read_bind (hblk.orElse _) ?_))
        rw [if_neg hoff]
        refine Does.read_bind hprep ?_
        exact Does.bind ((does_dblockUpdateScratch _ hend (by omega)).orElse _) hcommit
      · rw [if_neg hfits] at hprep
        refine Or.inl ⟨.bufferOverrun, Does.read_bind hlook (Does.read_bind (hobj.orElse _)
          (Does.read_bind (hblk.orElse _) ?_)), fun _ => ⟨i, hfind, hfits⟩⟩
        rw [if_neg hoff]
        exact Does.bind_error hprep

/-- A write is refused, or commits the new content of the object it finds. -/
theorem write_outcome (hm : Mounted cfg r f) (hc : cfg.CryptoWorks)
    (hT : activeTables cfg r f = T) {u : UInt32} (data : List UInt8) {offset size : UInt32}
    (hu : u ≠ 0)
    (hsize : ∀ i, T.find cfg u = some i → offset.toNat + size.toNat ≤ (T.obj i).maxSize) :
    Refuses (sstCoreObjectWrite cfg u data offset size) r f
    ∨ ∃ i, T.find cfg u = some i ∧
        (cfg.enablePartialAssetRw = true → offset.toNat ≤ (T.obj i).curSize) ∧
        WriteFits cfg (T.obj i).curSize offset.toNat size.toNat ∧
        Commits cfg (sstCoreObjectWrite cfg u data offset size) r f
          (T.vacated r.ctx.metaBlockHeader.scratchIdx (T.obj i).lblock)
          (writeCalls cfg r.ctx.activeMetablock r.ctx.scratchMetablock
            r.ctx.metaBlockHeader.scratchIdx T i
            (writeBuffer cfg (contentOf f T i) data offset.toNat size.toNat).2
            (writtenBytes cfg f T i data offset.toNat size.toNat)) :=
  (write_cases hm hc hT data hu hsize).imp_left fun ⟨e, hdoes, _⟩ => ⟨e, hdoes⟩

/-! ## Writes of any size

The object layer bounds the sizes it writes. Without that bound the data block is assembled by
whatever programs the wrapped arithmetic gives, but in the scratch blocks only, and the tables are
assembled afterwards. -/

/-- Whatever the sizes are, the buffer is prepared without effect, and the new size has 32 bits. -/
theorem prepare_any (hT : activeTables cfg r f = T) (hv : T.BlkValid cfg) {i : Nat}
    (hl : (T.obj i).lblock < cfg.numActiveDblocks) (data : List UInt8) (offset size : UInt32) :
    ∃ v, Does (sstCoreObjectWrite.prepare cfg (T.obj i) data offset.toNat size.toNat) r f v r []
      ∧ ∀ x, v = .ok x → x.2 < 2 ^ 32 := by
  have hfits : (T.obj i).Fits := hT ▸ tablesOf_obj_fits _ i
  cases hc : cfg.encryption with
  | true =>
    simp only [sstCoreObjectWrite.prepare, hc, if_true]
    refine ⟨_, Does.pure _, fun x hx => ?_⟩
    cases hx
    exact size.toNat_lt
  | false =>
    -- the two copies, once the content is read
    have hcopies (content : List UInt8) : ∃ v, Does (do
        let plainText ← M.ofExcept
          (memcpyInto (List.replicate cfg.alignedMaxObjectSize 0) 0 content)
        let plainText ← M.ofExcept
          (memcpyInto plainText (writeOffset cfg offset.toNat) (bufBytes data size.toNat))
        pure (plainText, if add32 (writeOffset cfg offset.toNat) size.toNat > (T.obj i).curSize then
          add32 (writeOffset cfg offset.toNat) size.toNat else (T.obj i).curSize) : SstM _) r f v r []
        ∧ ∀ x, v = .ok x → x.2 < 2 ^ 32 := by
      cases memcpyInto (List.replicate cfg.alignedMaxObjectSize 0) 0 content with
      | error e => exact ⟨_, Does.bind_error (Does.ofExcept _), fun x hx => by cases hx⟩
      | ok buf =>
        have hfirst := Does.ofExcept (r := r) (f := f) (.ok buf : Except SstErr (List UInt8))
        cases h : memcpyInto buf (writeOffset cfg offset.toNat) (bufBytes data size.toNat) with
        | error e =>
          refine ⟨_, Does.read_bind hfirst (?_ : Does _ r f (.error e) r []), fun x hx => by cases hx⟩
          rw [h]
          exact Does.bind_error (Does.ofExcept _)
        | ok buf' =>
          refine ⟨_, Does.read_bind hfirst (?_ : Does _ r f (.ok (buf', if add32
            (writeOffset cfg offset.toNat) size.toNat > (T.obj i).curSize then
              add32 (writeOffset cfg offset.toNat) size.toNat else (T.obj i).curSize)) r []),
            fun x hx => ?_⟩
          · rw [h]
            exact Does.read_bind (Does.ofExcept _) (Does.pure _)
          · cases hx
            dsimp only
            split
            · exact add32_lt _ _
            · exact hfits.2.2.1
    simp only [sstCoreObjectWrite.prepare, hc, Bool.false_eq_true, if_false]
    by_cases hpos : (T.obj i).curSize > 0
    · obtain ⟨v, hv', hlt⟩ := hcopies ((f (T.blk (T.obj i).lblock).physId).get
        ((T.obj i).dataIndex + 0) (T.obj i).curSize)
      rw [if_pos hpos]
      exact ⟨v, Does.read_bind (does_blockObjectReadRaw hT hv hl (by have := hfits.2.1; omega)) hv',
        hlt⟩
    · obtain ⟨v, hv', hlt⟩ := hcopies []
      rw [if_neg hpos]
      exact ⟨v, Does.read_bind (Does.pure _) hv', hlt⟩

/-- Whatever the sizes are, the data calls program the data scratch block only. -/
theorem dblockUpdateScratch_any (cfg : Config) (r : Ram) (f : Flash) (l : Nat) (b : BlockMetadata) (data : List UInt8)
    (off size : Nat) :
    ∃ ds, Does (sstDblockUpdateScratch cfg l b data off size) r f (.ok ()) r ds
      ∧ ∀ c ∈ ds, c.target = some (r.ctx.dataScratch l) := by
  refine ⟨_, Does.read_bind (does_curDataScratch l) (Does.bind (does_flashWrite _ _ _)
    (Does.when_bind (fun _ => does_flashMove _ _ _ _ _) (does_flashMove _ _ _ _ _))), ?_⟩
  intro c hc
  simp only [List.mem_append, List.mem_singleton] at hc
  rcases hc with rfl | hc | rfl
  · rfl
  · split at hc
    · obtain rfl := List.mem_singleton.mp hc
      rfl
    · cases hc
  · rfl

/-- A write of any size is refused, or commits a new size of the object it finds. -/
theorem write_outcome_any (hm : Running cfg r f) (hc : cfg.CryptoWorks)
    (hT : activeTables cfg r f = T) (u : UInt32) (data : List UInt8) (offset size : UInt32) :
    Refuses (sstCoreObjectWrite cfg u data offset size) r f
    ∨ ∃ i cur ds, i < cfg.numAssets ∧ cur < 2 ^ 32
        ∧ OnScratch cfg r.ctx.scratchMetablock r.ctx.metaBlockHeader.scratchIdx ds
        ∧ Commits cfg (sstCoreObjectWrite cfg u data offset size) r f
          (T.vacated r.ctx.metaBlockHeader.scratchIdx (T.obj i).lblock)
          (ds ++ writeTableCalls cfg r.ctx.activeMetablock r.ctx.scratchMetablock
            r.ctx.metaBlockHeader.scratchIdx T i cur) := by
  have hP : Placed cfg T _ := hT ▸ hm.placed
  rcases lookup_outcome hT u .assetNotFound with ⟨hlook, -⟩ | ⟨i, hfind, hreach, hlook⟩
  · exact Or.inl ⟨.assetNotFound, Does.bind_error hlook⟩
  have hiA := Tables.lt_of_find hfind
  have hl := hP.slots.lblock_lt i
  have hobj := does_readObjectMeta (r := r) (f := f) (by rw [hT]; exact hreach i le_rfl) hiA
  have hblk := does_readBlockMetadata (r := r) (f := f) (by rw [hT]; exact hP.blkValid) hl
  rw [hT] at hobj hblk
  -- everything up to the preparation of the buffer
  have hstart {v : Except SstErr Unit} {r' : Ram} {w : List Call}
      (h : Does (if cfg.enablePartialAssetRw = true ∧ offset.toNat > (T.obj i).curSize then
          M.fail .paramError
        else do
          let buf ← sstCoreObjectWrite.prepare cfg (T.obj i) data offset.toNat size.toNat
          M.orElse (sstDblockUpdateScratch cfg (T.obj i).lblock (T.blk (T.obj i).lblock)
            buf.1 (T.obj i).dataIndex (sstGetAlignedFlashBytes cfg buf.2)) .systemError
          sstCoreObjectWrite.commit cfg i { T.obj i with curSize := buf.2 }
            (T.blk (T.obj i).lblock)) r f v r' w) :
      Does (sstCoreObjectWrite cfg u data offset size) r f v r' w :=
    Does.read_bind hlook (Does.read_bind (hobj.orElse _) (Does.read_bind (hblk.orElse _) h))
  by_cases hoff : cfg.enablePartialAssetRw = true ∧ offset.toNat > (T.obj i).curSize
  · refine Or.inl ⟨.paramError, hstart ?_⟩
    rw [if_pos hoff]
    exact Does.fail _
  simp only [if_neg hoff] at hstart
  obtain ⟨v, hprep, hcur⟩ := prepare_any hT hP.blkValid hl data offset size
  -- the copies may overrun the buffer, and the write is refused
  rcases v with e | ⟨buf, cur⟩
  · exact Or.inl ⟨e, hstart (Does.bind_error hprep)⟩
  obtain ⟨ds, hdata, htarget⟩ := dblockUpdateScratch_any cfg r f
    (T.obj i).lblock (T.blk (T.obj i).lblock) buf (T.obj i).dataIndex
    (sstGetAlignedFlashBytes cfg cur)
  have hds : OnScratch cfg r.ctx.scratchMetablock r.ctx.metaBlockHeader.scratchIdx ds := by
    intro c hc' b hb
    rw [htarget c hc', AssetSystemContext.dataScratch] at hb
    obtain rfl := Option.some.inj hb
    split
    · exact Or.inl rfl
    · rename_i hne
      exact Or.inr ⟨rfl, two_lt_blocks_of_pos (Nat.pos_of_ne_zero hne) hl⟩
  refine Or.inr ⟨i, cur, ds, hiA, hcur _ rfl, hds, ?_⟩
  exact commits_write_commit hm hc hT hiA hds fun v r' w hcommit =>
    hstart (Does.read_bind hprep (Does.bind (hdata.orElse _) hcommit))

end Tfm.Sst
