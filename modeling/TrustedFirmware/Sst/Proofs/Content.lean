import TrustedFirmware.Sst.Proofs.Step

/-!
# The data of the objects after an operation

Where the bytes of an object are after a create, a write or a delete, and what they are.

* The table calls never touch the data area (`untouched_*`).
* The data of logical block 0 is carried over by the migration, the data of a rewritten block is
  assembled piece by piece (`rowAfter_updateData`, `rowAfter_compact`), and the other blocks stay
  where they are.
* `Committed.byte_created`, `Committed.byte_written` and `Committed.byte_deleted_same` put this
  together, byte by byte.

A delete of an object outside logical block 0 is the exception: the source does not migrate the data
of logical block 0 then (`Committed.byte_deleted_zero`).
-/

namespace Tfm.Sst

open Word32 BlockFlash Device

variable {cfg : Config} {r : Ram} {f : Flash} {T : Tables} {a s b o : Nat}

/-! ## Table calls leave the data area alone

`o` is a position in block `b`, behind the tables if `b` is the scratch metadata block. -/

section Untouched

variable (ho : b = s → cfg.allMetadataSize ≤ o)
include ho

theorem untouched_objectWrite {i : Nat} (hi : i < cfg.numAssets) (e : Assetmeta) :
    Untouched b o [.write s (objOff cfg i) e.encode] := by
  refine .write fun hb => Or.inr ?_
  have hfit := ho hb.symm
  rw [cfg.allMetadataSize_eq] at hfit
  rw [e.length_encode, sizeofAssetmeta, objOff]
  omega

theorem untouched_blockWrite {l : Nat} (hl : l < cfg.numActiveDblocks) (m : BlockMetadata) :
    Untouched b o [.write s (blkOff l) m.encode] := by
  refine .write fun hb => Or.inr ?_
  have hfit := ho hb.symm
  rw [cfg.allMetadataSize_eq] at hfit
  rw [m.length_encode, sizeofBlockMetadata, blkOff]
  omega

theorem untouched_copyObjects {i : Nat} (hi : i < cfg.numAssets) :
    Untouched b o (copyObjectsCalls cfg a s i) := by
  refine (Untouched.move fun hb => Or.inr ?_).append (.ite fun h => .move fun hb => Or.inr ?_)
  all_goals
    have hfit := ho hb.symm
    rw [cfg.allMetadataSize_eq] at hfit
    rw [objOff]
    omega

theorem untouched_copyBlocks {l : Nat} (hl : l < cfg.numActiveDblocks) (b0 : BlockMetadata) :
    Untouched b o (copyBlocksCalls cfg a s l b0) := by
  have hpos := cfg.numActiveDblocks_pos
  refine (Untouched.ite fun _ => (untouched_blockWrite ho hpos _).append
    (.ite fun _ => .move fun hb => Or.inr ?_)).append (.move fun hb => Or.inr ?_)
  all_goals
    have hfit := ho hb.symm
    rw [cfg.allMetadataSize_eq] at hfit
    rw [blkOff]
    omega

theorem untouched_rewrite {i : Nat} :
    Untouched b o (rewriteCalls cfg s T i (List.range cfg.numAssets)) := by
  intro c hc
  obtain ⟨j, hj, rfl⟩ := List.mem_map.mp hc
  have hjA := List.mem_range.mp (List.mem_of_mem_filter hj)
  exact untouched_objectWrite ho hjA _ _ (List.mem_singleton_self _)

end Untouched

/-! ## Data calls

The block that is read from is not one of the scratch blocks, so its bytes are those from before the
operation. -/

/-- The migration carries the used part of logical block 0 over. -/
theorem rowAfter_migrate {b0 : BlockMetadata} (row : Row) (ho : cfg.allMetadataSize ≤ o)
    (ho' : o < cfg.blockSize - b0.freeSize) :
    rowAfter s f (migrateCalls cfg a s b0) row o = f a o := by
  rw [migrateCalls, rowAfter_move_self, Row.put_of_mem ho (by rw [Row.length_get]; omega),
    Row.getD_get _ _ _ (by omega)]
  congr 1
  omega

/-- A block assembled around the bytes `buf`: these, and otherwise what the block held. -/
theorem rowAfter_updateData {t off : Nat} {m : BlockMetadata} {buf : List UInt8} (row : Row)
    (hoff : m.dataStart ≤ off) (ho : m.dataStart ≤ o) (ho' : o < cfg.blockSize - m.freeSize) :
    rowAfter t f (updateDataCalls cfg t m buf off) row o
      = if off ≤ o ∧ o < off + buf.length then buf.getD (o - off) 0 else f m.physId o := by
  -- the block without the part behind `buf`
  have hfront : rowAfter t f ([.write t off buf] ++ (if m.dataStart < off then
        [.move t m.dataStart m.physId m.dataStart (off - m.dataStart)] else [])) row
      = (row.put off buf).put m.dataStart ((f m.physId).get m.dataStart (off - m.dataStart)) := by
    rw [rowAfter_append, rowAfter_write_self]
    split
    · rw [rowAfter_move_self]
    · rw [show off - m.dataStart = 0 by omega, Row.get_zero, Row.put_nil, rowAfter_nil]
  rw [updateDataCalls, rowAfter_append, hfront, rowAfter_move_self]
  -- three parts: before the new bytes, the new bytes, behind them
  by_cases h1 : o < off
  · rw [if_neg (by omega), Row.put_of_lt (by omega),
      Row.put_of_mem ho (by rw [Row.length_get]; omega), Row.getD_get _ _ _ (by omega)]
    congr 1
    omega
  · by_cases h2 : o < off + buf.length
    · rw [if_pos (by omega), Row.put_of_lt h2, Row.put_of_ge (by rw [Row.length_get]; omega),
        Row.put_of_mem (by omega) h2]
    · rw [if_neg (by omega), Row.put_of_mem (by omega) (by rw [Row.length_get]; omega),
        Row.getD_get _ _ _ (by omega)]
      congr 1
      omega

/-- A compacted block: what lay before the gap, then what is moved down. -/
theorem rowAfter_compact {t src p n : Nat} {m : BlockMetadata} (row : Row)
    (hp : m.dataStart ≤ p) (ho : m.dataStart ≤ o) (ho' : o < p + n) :
    rowAfter t f (compactCalls t m src p n) row o
      = if o < p then f m.physId o else f m.physId (src + (o - p)) := by
  have hback : rowAfter t f (if 0 < n then [.move t p m.physId src n] else []) row
      = row.put p ((f m.physId).get src n) := by
    split
    · rw [rowAfter_move_self]
    · rw [show n = 0 by omega, Row.get_zero, Row.put_nil, rowAfter_nil]
  have hfront (row : Row) : rowAfter t f (if m.dataStart < p then
        [.move t m.dataStart m.physId m.dataStart (p - m.dataStart)] else []) row
      = row.put m.dataStart ((f m.physId).get m.dataStart (p - m.dataStart)) := by
    split
    · rw [rowAfter_move_self]
    · rw [show p - m.dataStart = 0 by omega, Row.get_zero, Row.put_nil, rowAfter_nil]
  -- the part in front is copied last, and ends where the moved part begins
  rw [compactCalls, rowAfter_append, hback, hfront]
  by_cases h : o < p
  · rw [if_pos h, Row.put_of_mem ho (by rw [Row.length_get]; omega),
      Row.getD_get _ _ _ (by omega)]
    congr 1
    omega
  · rw [if_neg h, Row.put_of_ge (by rw [Row.length_get]; omega),
      Row.put_of_mem (by omega) (by rw [Row.length_get]; omega), Row.getD_get _ _ _ (by omega)]

/-! ## Blocks after a commit

The block that a logical block lives in after the commit is named by the new tables. -/

section Committed

variable {d' : Nat} {cs : List Call} {h' : MetadataBlockHeader} {r' : Ram} {f' : Flash}

/-- The new metadata block holds the data that was assembled. -/
theorem Committed.data_zero (hcom : Committed cfg r f d' cs h' r' f')
    (ho : cfg.allMetadataSize ≤ o) :
    f' r.ctx.scratchMetablock o
      = rowAfter r.ctx.scratchMetablock f cs (f r.ctx.scratchMetablock) o := by
  rw [hcom.newRow, headerRow_of_ge (header_le_metadata.trans ho)]

/-- A data block holds what was assembled, unless it is scratch now. -/
theorem Committed.data_pos (hcom : Committed cfg r f d' cs h' r' f') (hm : Mounted cfg r f)
    (hb : 2 ≤ b) (hb' : b ≠ d') : f' b = rowAfter b f cs (f b) :=
  hcom.dataRow b (hm.ne_of_two_le hb).2 (hm.ne_of_two_le hb).1 fun _ => hb'

/-- A data block that is scratch neither before nor now is left alone. -/
theorem Committed.data_kept (hcom : Committed cfg r f d' cs h' r' f') (hm : Mounted cfg r f)
    (hasm : Assembles cfg r.ctx.scratchMetablock r.ctx.metaBlockHeader.scratchIdx cs)
    (hb : 2 ≤ b) (hbd : b ≠ r.ctx.metaBlockHeader.scratchIdx) (hb' : b ≠ d') : f' b = f b := by
  rw [hcom.data_pos hm hb hb', rowAfter_of_target_ne]
  intro c hc ht
  rcases hasm.target hc ht with h | ⟨h, -⟩
  · exact (hm.ne_of_two_le hb).2 h
  · exact hbd h

/-! ### Create -/

/-- A create keeps the bytes of the stored objects. -/
theorem Committed.byte_created {i l size : Nat} {u : UInt32} (hm : Mounted cfg r f)
    (hT : activeTables cfg r f = T)
    (hcom : Committed cfg r f r.ctx.metaBlockHeader.scratchIdx (createCalls cfg
      r.ctx.activeMetablock r.ctx.scratchMetablock T i l size u) h' r' f')
    {j : Nat} (hj : T.Live j) (ho : (T.blk (T.obj j).lblock).dataStart ≤ o)
    (ho' : o < cfg.blockSize - (T.blk (T.obj j).lblock).freeSize) :
    f' ((T.created cfg r.ctx.scratchMetablock i l size u).blk (T.obj j).lblock).physId o
      = f (T.blk (T.obj j).lblock).physId o := by
  have hL : Layout cfg T _ _ := hT ▸ hm.layout
  rcases Nat.eq_zero_or_pos (T.obj j).lblock with h0 | h0
  · -- logical block 0 is migrated from the active block, its home
    have hhome := hL.home j hj h0
    rw [h0] at ho ho' ⊢
    rw [hL.blocks.metaStart] at ho
    show f' r.ctx.scratchMetablock o = _
    rw [hcom.data_zero ho, hhome, createCalls]
    simp only [rowAfter_append]
    exact rowAfter_migrate _ ho ho'
  · -- a dedicated block is neither programmed nor moved
    have hl := hL.slots.lblock_lt j hj
    have hphys : ((T.created cfg r.ctx.scratchMetablock i l size u).blk (T.obj j).lblock).physId
        = (T.blk (T.obj j).lblock).physId := by
      simp only [Tables.created, Tables.relocated]
      rw [if_neg (by omega)]
      split
      · rename_i he
        rw [he]
      · rfl
    have hne := hL.blocks.scratch_ne _ h0 hl
    rw [hphys, hcom.data_kept hm (assembles_create hm.source_ok) (hL.blocks.dataHome _ h0 hl).1
      hne hne]

/-! ### Write -/

/-- A write programs the bytes `buf` at the position of its object and keeps all others. -/
theorem Committed.byte_written {i curSize : Nat} {buf : List UInt8} (hm : Mounted cfg r f)
    (hT : activeTables cfg r f = T) (hi : T.Live i)
    (hcom : Committed cfg r f (T.vacated r.ctx.metaBlockHeader.scratchIdx (T.obj i).lblock)
      (writeCalls cfg r.ctx.activeMetablock r.ctx.scratchMetablock
        r.ctx.metaBlockHeader.scratchIdx T i curSize buf) h' r' f')
    {j : Nat} (hj : T.Live j) (ho : (T.blk (T.obj j).lblock).dataStart ≤ o)
    (ho' : o < cfg.blockSize - (T.blk (T.obj j).lblock).freeSize) :
    f' ((T.written r.ctx.scratchMetablock r.ctx.metaBlockHeader.scratchIdx i curSize).blk
        (T.obj j).lblock).physId o
      = if (T.obj j).lblock = (T.obj i).lblock
            ∧ (T.obj i).dataIndex ≤ o ∧ o < (T.obj i).dataIndex + buf.length then
          buf.getD (o - (T.obj i).dataIndex) 0
        else f (T.blk (T.obj j).lblock).physId o := by
  have hL : Layout cfg T _ _ := hT ▸ hm.layout
  have hli := hL.slots.lblock_lt i hi
  have hlj := hL.slots.lblock_lt j hj
  have hiA := hL.slots.live_lt i hi
  have hb := hL.slots.slot_bounds hi
  -- what the table calls leave of a block that the data calls have assembled
  have htables (b : Nat) (hbo : b = r.ctx.scratchMetablock → cfg.allMetadataSize ≤ o)
      (hmig : b = r.ctx.scratchMetablock → (T.obj i).lblock = 0) :
      rowAfter b f (writeCalls cfg r.ctx.activeMetablock r.ctx.scratchMetablock
          r.ctx.metaBlockHeader.scratchIdx T i curSize buf) (f b) o
        = rowAfter b f (updateDataCalls cfg (dataScratchOf r.ctx.scratchMetablock
            r.ctx.metaBlockHeader.scratchIdx (T.obj i).lblock) (T.blk (T.obj i).lblock) buf
            (T.obj i).dataIndex) (f b) o := by
    rw [writeCalls, rowAfter_append, rowAfter_untouched]
    refine (untouched_blockWrite hbo hli _).append ((untouched_objectWrite hbo hiA _).append
      ((untouched_copyBlocks hbo hli _).append ((untouched_copyObjects hbo hiA).append
        (.ite fun hne => .move fun hbs => absurd (hmig hbs.symm) hne))))
  rcases Nat.eq_zero_or_pos (T.obj j).lblock with h0 | h0
  · have hhome := hL.home j hj h0
    rw [h0] at ho ho' ⊢
    have ho0 := ho
    rw [hL.blocks.metaStart] at ho0
    show f' r.ctx.scratchMetablock o = _
    rw [hcom.data_zero ho0]
    by_cases hi0 : (T.obj i).lblock = 0
    · -- the written object is in logical block 0 as well
      rw [htables _ (fun _ => ho0) (fun _ => hi0), hi0]
      rw [hi0] at hb
      simp only [dataScratchOf, if_true, true_and]
      exact rowAfter_updateData _ hb.1 ho ho'
    · rw [if_neg fun h => hi0 h.1.symm, writeCalls, if_pos hi0]
      simp only [rowAfter_append]
      rw [rowAfter_migrate _ ho0 ho', hhome]
  · have hj0 : (T.obj j).lblock ≠ 0 := by omega
    have hN := two_lt_blocks_of_pos h0 hlj
    by_cases hij : (T.obj j).lblock = (T.obj i).lblock
    · -- the block has moved to the scratch block
      have hphys : ((T.written r.ctx.scratchMetablock r.ctx.metaBlockHeader.scratchIdx i
          curSize).blk (T.obj j).lblock).physId = r.ctx.metaBlockHeader.scratchIdx := by
        simp only [Tables.written, Tables.relocated]
        rw [if_neg hj0, if_pos hij]
      have hge := hL.blocks.scratch_ge hN
      have hne := hL.blocks.scratch_ne_vacated h0 hlj
      rw [hij] at hne
      have hds : r.ctx.metaBlockHeader.scratchIdx ≠ r.ctx.scratchMetablock :=
        (hm.ne_of_two_le hge).2
      rw [hphys, hcom.data_pos hm hge hne,
        htables _ (fun h => absurd h hds) (fun h => absurd h hds), ← hij, dataScratchOf,
        if_neg hj0]
      rw [← hij] at hb
      simp only [true_and]
      exact rowAfter_updateData _ hb.1 ho ho'
    · -- another dedicated block stays where it is
      have hphys : ((T.written r.ctx.scratchMetablock r.ctx.metaBlockHeader.scratchIdx i
          curSize).blk (T.obj j).lblock).physId = (T.blk (T.obj j).lblock).physId := by
        simp only [Tables.written, Tables.relocated]
        rw [if_neg hj0, if_neg hij]
      rw [if_neg fun h => hij h.1, hphys, hcom.data_kept hm
        (assembles_writeCalls hL hi hm.scratch_cases hm.source_ok buf)
        (hL.blocks.dataHome _ h0 hlj).1 (hL.blocks.scratch_ne _ h0 hlj)
        (hL.blocks.physId_ne_vacated h0 hlj hli hij)]

/-! ### Delete

The variables fix a delete of the live object `i` that has committed. -/

section Delete

variable {i : Nat} (hm : Mounted cfg r f) (hT : activeTables cfg r f = T) (hi : T.Live i)
  (hcom : Committed cfg r f (T.vacated r.ctx.metaBlockHeader.scratchIdx (T.obj i).lblock)
    (deleteCalls cfg r.ctx.activeMetablock r.ctx.scratchMetablock
      r.ctx.metaBlockHeader.scratchIdx T i) h' r' f')
include hm hT hi hcom

/-- The block of the deleted object is compacted. -/
theorem Committed.byte_deleted_same (ho : (T.blk (T.obj i).lblock).dataStart ≤ o)
    (ho' : o < (T.obj i).dataIndex + (T.movedRange cfg i).2) :
    f' ((T.deleted cfg r.ctx.scratchMetablock r.ctx.metaBlockHeader.scratchIdx i).blk
        (T.obj i).lblock).physId o
      = if o < (T.obj i).dataIndex then f (T.blk (T.obj i).lblock).physId o
        else f (T.blk (T.obj i).lblock).physId
          ((T.movedRange cfg i).1 + (o - (T.obj i).dataIndex)) := by
  have hL : Layout cfg T _ _ := hT ▸ hm.layout
  have hli := hL.slots.lblock_lt i hi
  have hiA := hL.slots.live_lt i hi
  have hb := hL.slots.slot_bounds hi
  -- the compaction decides, the table calls around it leave the data area alone
  have htables (b : Nat) (hbo : b = r.ctx.scratchMetablock → cfg.allMetadataSize ≤ o)
      (hb : b = dataScratchOf r.ctx.scratchMetablock r.ctx.metaBlockHeader.scratchIdx
        (T.obj i).lblock) (hstart : (T.blk (T.obj i).lblock).dataStart ≤ (T.obj i).dataIndex) :
      rowAfter b f (deleteCalls cfg r.ctx.activeMetablock r.ctx.scratchMetablock
          r.ctx.metaBlockHeader.scratchIdx T i) (f b) o
        = if o < (T.obj i).dataIndex then f (T.blk (T.obj i).lblock).physId o
          else f (T.blk (T.obj i).lblock).physId
            ((T.movedRange cfg i).1 + (o - (T.obj i).dataIndex)) := by
    rw [deleteCalls, rowAfter_append, rowAfter_append, rowAfter_append, rowAfter_untouched
      ((untouched_blockWrite hbo hli _).append (untouched_copyBlocks hbo hli _)), ← hb]
    exact rowAfter_compact _ hstart ho ho'
  -- the block is compacted into the scratch metadata block, or into the data scratch block
  rcases Nat.eq_zero_or_pos (T.obj i).lblock with h0 | h0
  · have hphys : ((T.deleted cfg r.ctx.scratchMetablock r.ctx.metaBlockHeader.scratchIdx i).blk
        (T.obj i).lblock).physId = r.ctx.scratchMetablock := by
      simp only [Tables.deleted, Tables.relocated]
      rw [if_pos h0]
    have ho0 : cfg.allMetadataSize ≤ o := by
      rw [h0, hL.blocks.metaStart] at ho
      exact ho
    rw [hphys, hcom.data_zero ho0]
    exact htables _ (fun _ => ho0) (by rw [h0, dataScratchOf, if_pos rfl]) hb.1
  · have hi0 : (T.obj i).lblock ≠ 0 := by omega
    have hphys : ((T.deleted cfg r.ctx.scratchMetablock r.ctx.metaBlockHeader.scratchIdx i).blk
        (T.obj i).lblock).physId = r.ctx.metaBlockHeader.scratchIdx := by
      simp only [Tables.deleted, Tables.relocated]
      rw [if_neg hi0, if_pos trivial]
    have hge := hL.blocks.scratch_ge (two_lt_blocks_of_pos h0 hli)
    have hds : r.ctx.metaBlockHeader.scratchIdx ≠ r.ctx.scratchMetablock :=
      (hm.ne_of_two_le hge).2
    rw [hphys, hcom.data_pos hm hge (hL.blocks.scratch_ne_vacated h0 hli)]
    exact htables _ (fun h => absurd h hds) (by rw [dataScratchOf, if_neg hi0]) hb.1

/-- The other dedicated blocks stay as they are. -/
theorem Committed.row_deleted_other {k : Nat} (hk0 : 0 < k) (hk : k < cfg.numActiveDblocks)
    (hki : k ≠ (T.obj i).lblock) :
    f' ((T.deleted cfg r.ctx.scratchMetablock r.ctx.metaBlockHeader.scratchIdx i).blk k).physId
      = f (T.blk k).physId := by
  have hL : Layout cfg T _ _ := hT ▸ hm.layout
  have hphys : ((T.deleted cfg r.ctx.scratchMetablock r.ctx.metaBlockHeader.scratchIdx i).blk
      k).physId = (T.blk k).physId := by
    simp only [Tables.deleted, Tables.relocated]
    rw [if_neg (by omega), if_neg hki]
  rw [hphys, hcom.data_kept hm (assembles_deleteCalls hL hi hm.scratch_cases hm.source_ok)
    (hL.blocks.dataHome _ hk0 hk).1 (hL.blocks.scratch_ne _ hk0 hk)
    (hL.blocks.physId_ne_vacated hk0 hk (hL.slots.lblock_lt i hi) hki)]

/-- Unless the deleted object is in logical block 0, nothing is copied to the data area of
the new metadata block. -/
theorem Committed.byte_deleted_zero (h0 : (T.obj i).lblock ≠ 0)
    (ho : cfg.allMetadataSize ≤ o) :
    f' ((T.deleted cfg r.ctx.scratchMetablock r.ctx.metaBlockHeader.scratchIdx i).blk 0).physId o
      = f r.ctx.scratchMetablock o := by
  have hL : Layout cfg T _ _ := hT ▸ hm.layout
  have hli := hL.slots.lblock_lt i hi
  have hiA := hL.slots.live_lt i hi
  have hds := (hm.scratchIdx_ne (two_lt_blocks_of_pos (by omega) hli)).2
  have hbo (_ : r.ctx.scratchMetablock = r.ctx.scratchMetablock) : cfg.allMetadataSize ≤ o := ho
  show f' r.ctx.scratchMetablock o = _
  rw [hcom.data_zero ho, rowAfter_untouched]
  rw [deleteCalls, dataScratchOf, if_neg h0]
  exact (untouched_objectWrite hbo hiA _).append ((untouched_rewrite hbo).append
    (((Untouched.ite fun _ => .move fun h => absurd h hds).append
      (.ite fun _ => .move fun h => absurd h hds)).append ((untouched_blockWrite hbo hli _).append
        (untouched_copyBlocks hbo hli _))))

end Delete

end Committed

end Tfm.Sst
