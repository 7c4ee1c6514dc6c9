import TrustedFirmware.Sst.Proofs.Commit

/-!
# Create

What the object operations do on a mounted store without faults: either they return an error and
leave everything as it is, or they commit new tables. The calls are listed in the order in which the
core issues them, and the tables of the new metadata block are the updates of
`TrustedFirmware.Sst.Proofs.Layout`.

This module has what the operations share, and create.

* `Mounted` is the state in which the layout invariant holds, `Running` the weaker one after
  operations that flash errors have cut short.
* `create_outcome`: a create is refused exactly when there is no room, and otherwise takes the first
  entry and the first block with room.
-/

namespace Tfm.Sst

open Word32 BlockFlash Device

variable {cfg : Config} {r : Ram} {f : Flash}

/-- The core is running on a consistent store: the active and the scratch metadata block are
0 and 1 in some order, and the tables of the active one satisfy the layout invariant. -/
structure Mounted (cfg : Config) (r : Ram) (f : Flash) : Prop where
  metablocks : (r.ctx.activeMetablock = 0 ∧ r.ctx.scratchMetablock = 1)
    ∨ (r.ctx.activeMetablock = 1 ∧ r.ctx.scratchMetablock = 0)
  layout : Layout cfg (activeTables cfg r f) r.ctx.activeMetablock
    r.ctx.metaBlockHeader.scratchIdx

namespace Mounted

variable (h : Mounted cfg r f)
include h

theorem active_ne_scratch : r.ctx.activeMetablock ≠ r.ctx.scratchMetablock := by
  rcases h.metablocks with ⟨ha, hs⟩ | ⟨ha, hs⟩ <;> omega

/-- The scratch metadata block is block 0 or block 1. -/
theorem scratch_cases : r.ctx.scratchMetablock = 0 ∨ r.ctx.scratchMetablock = 1 := by
  rcases h.metablocks with ⟨ha, hs⟩ | ⟨ha, hs⟩
  · exact Or.inr hs
  · exact Or.inl hs

/-- A block with an index from 2 on is not a metadata block. -/
theorem ne_of_two_le {b : Nat} (hb : 2 ≤ b) :
    b ≠ r.ctx.activeMetablock ∧ b ≠ r.ctx.scratchMetablock := by
  rcases h.metablocks with ⟨ha, hs⟩ | ⟨ha, hs⟩ <;> omega

/-- The data scratch block is no metadata block. -/
theorem scratchIdx_ne (hN : 2 < cfg.totalNumOfBlocks) :
    r.ctx.metaBlockHeader.scratchIdx ≠ r.ctx.activeMetablock
      ∧ r.ctx.metaBlockHeader.scratchIdx ≠ r.ctx.scratchMetablock :=
  h.ne_of_two_le (h.layout.blocks.scratch_ge hN)

end Mounted

/-- The core is running, possibly after operations that were cut short by errors: the metadata
blocks are known, the active tables place the objects, and the data scratch block is some data
block. -/
structure Running (cfg : Config) (r : Ram) (f : Flash) : Prop where
  metablocks : (r.ctx.activeMetablock = 0 ∧ r.ctx.scratchMetablock = 1)
    ∨ (r.ctx.activeMetablock = 1 ∧ r.ctx.scratchMetablock = 0)
  placed : Placed cfg (activeTables cfg r f) r.ctx.activeMetablock
  dataScratch : 2 < cfg.totalNumOfBlocks → 2 ≤ r.ctx.metaBlockHeader.scratchIdx
    ∧ r.ctx.metaBlockHeader.scratchIdx < cfg.totalNumOfBlocks

/-- A mounted store is a running one. -/
theorem Mounted.running (h : Mounted cfg r f) : Running cfg r f :=
  ⟨h.metablocks, h.layout.placed,
    fun hN => ⟨h.layout.blocks.scratch_ge hN, h.layout.blocks.scratch_lt⟩⟩

namespace Running

variable (h : Running cfg r f)
include h

theorem scratch_cases : r.ctx.scratchMetablock = 0 ∨ r.ctx.scratchMetablock = 1 := by
  rcases h.metablocks with ⟨ha, hs⟩ | ⟨ha, hs⟩
  · exact Or.inr hs
  · exact Or.inl hs

theorem ne_of_two_le {b : Nat} (hb : 2 ≤ b) :
    b ≠ r.ctx.activeMetablock ∧ b ≠ r.ctx.scratchMetablock := by
  rcases h.metablocks with ⟨ha, hs⟩ | ⟨ha, hs⟩ <;> omega

/-- Where the tables are copied from is not scratch. -/
theorem source_ok : r.ctx.activeMetablock ≠ r.ctx.scratchMetablock
    ∧ (2 < cfg.totalNumOfBlocks →
        r.ctx.activeMetablock ≠ r.ctx.metaBlockHeader.scratchIdx) := by
  refine ⟨?_, fun hN => (h.ne_of_two_le (h.dataScratch hN).1).1.symm⟩
  rcases h.metablocks with ⟨ha, hs⟩ | ⟨ha, hs⟩ <;> omega

end Running

/-- The active tables do not change while only other blocks are programmed. -/
theorem activeTables_replay {cs : List Call} {T : Tables} (hT : activeTables cfg r f = T)
    (h : ∀ c ∈ cs, c.target ≠ some r.ctx.activeMetablock) :
    activeTables cfg r (device.replay cs f) = T := by
  rw [activeTables, replay_of_target_ne h]
  exact hT

/-! ## Table calls

Create and write program one entry and one descriptor and copy the others. -/

variable {a s : Nat} {T : Tables}

/-- A program of a scratch block is part of an assembly. -/
theorem Assembles.write {t d off : Nat} {bytes : List UInt8}
    (ht : t = s ∧ sizeofMetadataBlockHeader ≤ off ∨ t = d ∧ 2 < cfg.totalNumOfBlocks) :
    Assembles cfg s d [.write t off bytes] := by
  intro c hc
  obtain rfl := List.mem_singleton.mp hc
  exact ⟨⟨t, off, _, rfl, ht⟩, fun src hsrc => by cases hsrc⟩

/-- A copy from another block to a scratch block is part of an assembly. -/
theorem Assembles.move {t d src off off' n : Nat}
    (ht : t = s ∧ sizeofMetadataBlockHeader ≤ off ∨ t = d ∧ 2 < cfg.totalNumOfBlocks)
    (hsrc : src ≠ s ∧ (2 < cfg.totalNumOfBlocks → src ≠ d)) :
    Assembles cfg s d [.move t off src off' n] := by
  intro c hc
  obtain rfl := List.mem_singleton.mp hc
  exact ⟨⟨t, off, _, rfl, ht⟩, fun src' hsrc' => by cases hsrc'; exact hsrc⟩

theorem assembles_write {d off : Nat} {bytes : List UInt8}
    (ho : sizeofMetadataBlockHeader ≤ off) : Assembles cfg s d [.write s off bytes] :=
  .write (Or.inl ⟨rfl, ho⟩)

theorem assembles_move {d src off off' n : Nat} (ho : sizeofMetadataBlockHeader ≤ off)
    (hsrc : src ≠ s ∧ (2 < cfg.totalNumOfBlocks → src ≠ d)) :
    Assembles cfg s d [.move s off src off' n] :=
  .move (Or.inl ⟨rfl, ho⟩) hsrc

theorem header_le_objOff (i : Nat) : sizeofMetadataBlockHeader ≤ objOff cfg i := by
  simp only [sizeofMetadataBlockHeader, objOff]
  omega

theorem header_le_blkOff (l : Nat) : sizeofMetadataBlockHeader ≤ blkOff l := by
  simp only [sizeofMetadataBlockHeader, blkOff]
  omega

theorem header_le_metadata : sizeofMetadataBlockHeader ≤ cfg.allMetadataSize := by
  rw [cfg.allMetadataSize_eq, sizeofMetadataBlockHeader]
  omega

section Assembles

variable {d : Nat} (hsrc : a ≠ s ∧ (2 < cfg.totalNumOfBlocks → a ≠ d))
include hsrc

theorem assembles_copyObjects (i : Nat) : Assembles cfg s d (copyObjectsCalls cfg a s i) :=
  (assembles_move (header_le_objOff 0) hsrc).append
    (Assembles.ite fun _ => assembles_move (header_le_objOff _) hsrc)

theorem assembles_copyBlocks (l : Nat) (b0 : BlockMetadata) :
    Assembles cfg s d (copyBlocksCalls cfg a s l b0) :=
  (Assembles.ite fun _ => (assembles_write (header_le_blkOff 0)).append
    (Assembles.ite fun _ => assembles_move (header_le_blkOff 1) hsrc)).append
    (assembles_move (header_le_blkOff _) hsrc)

theorem assembles_migrate (b0 : BlockMetadata) : Assembles cfg s d (migrateCalls cfg a s b0) :=
  assembles_move header_le_metadata hsrc

end Assembles

/-! ## Create

The order of the calls is that of the source: entry, descriptor, the other entries, the other
descriptors, the data of logical block 0. -/

/-- The calls of a create before the commit. -/
def createCalls (cfg : Config) (a s : Nat) (T : Tables) (i l size : Nat) (u : UInt32) :
    List Call :=
  [.write s (objOff cfg i) ((T.created cfg s i l size u).obj i).encode] ++
  ([.write s (blkOff l) ((T.created cfg s i l size u).blk l).encode] ++
  (copyObjectsCalls cfg a s i ++ (copyBlocksCalls cfg a s l (T.blk 0) ++
    migrateCalls cfg a s (T.blk 0))))

theorem assembles_create {d i l size : Nat} {u : UInt32}
    (hsrc : a ≠ s ∧ (2 < cfg.totalNumOfBlocks → a ≠ d)) :
    Assembles cfg s d (createCalls cfg a s T i l size u) :=
  (assembles_write (header_le_objOff _)).append ((assembles_write (header_le_blkOff _)).append
    ((assembles_copyObjects hsrc _).append ((assembles_copyBlocks hsrc _ _).append
      (assembles_migrate hsrc _))))

@[simp] theorem rowAfter_write_self (row : Row) (off : Nat) (bytes : List UInt8) :
    rowAfter s f [.write s off bytes] row = row.put off bytes := by
  simp [Call.onRow]

@[simp] theorem rowAfter_move_self (row : Row) (off src off' n : Nat) :
    rowAfter s f [.move s off src off' n] row = row.put off ((f src).get off' n) := by
  simp [Call.onRow]

theorem tablesOf_rowAfter_migrate (b0 : BlockMetadata) (row : Row) :
    tablesOf cfg (rowAfter s f (migrateCalls cfg a s b0) row) = tablesOf cfg row := by
  rw [migrateCalls, rowAfter_move_self, tablesOf_put_outside _ (Or.inr le_rfl)]

/-- A create assembles the tables with the new object. -/
theorem tablesOf_rowAfter_create {i l size : Nat} {u : UInt32} (row : Row)
    (hT : tablesOf cfg (f a) = T) (hs : s < 2 ^ 32) (hi : i < cfg.numAssets)
    (hl : l < cfg.numActiveDblocks) (he : ((T.created cfg s i l size u).obj i).Fits)
    (hb : ((T.created cfg s i l size u).blk l).Fits) :
    tablesOf cfg (rowAfter s f (createCalls cfg a s T i l size u) row)
      = T.created cfg s i l size u := by
  have hb0 : (T.blk 0).Fits := hT ▸ tablesOf_blk_fits _ 0
  simp only [createCalls, rowAfter_append, tablesOf_rowAfter_migrate,
    tablesOf_rowAfter_copyBlocks _ hl hb0 hs, tablesOf_rowAfter_copyObjects, rowAfter_write_self,
    tablesOf_put_blk _ hl hb, tablesOf_put_obj _ hi he, hT]
  -- the calls name each record once, so the order in which they are programmed does not matter
  ext1
  · funext k
    dsimp only
    rw [Tables.setBlk_blk]
    by_cases hk : k = l
    · rw [if_pos hk, if_pos hk, hk]
    · rw [if_neg hk]
      by_cases hk0 : k = 0
      · simp [Tables.created, Tables.relocated, hk0, show ¬ 0 = l from fun h => hk (hk0.trans h)]
      · simp [Tables.created, Tables.relocated, hk0, hk]
  · funext j
    dsimp only
    rw [Tables.setBlk_obj, Tables.setObj_obj]
    by_cases hj : j = i
    · rw [if_pos hj, if_pos hj, hj]
    · rw [if_neg hj, Tables.created_obj_ne hj]

/-- The reserved slot, without wrap-around. -/
theorem reserved_eq {active l size : Nat} (hP : Placed cfg T active)
    (hl : l < cfg.numActiveDblocks)
    (hfit : sstGetAlignedFlashBytes cfg size ≤ (T.blk l).freeSize) :
    T.reserved cfg l size =
      ({ lblock := l, dataIndex := cfg.blockSize - (T.blk l).freeSize, curSize := 0,
         maxSize := size, uniqueId := sstInvalidUuid },
       { T.blk l with freeSize := (T.blk l).freeSize - sstGetAlignedFlashBytes cfg size }) := by
  have hB := cfg.blockSize_le
  have hfree := hP.slots.free_le _ hl
  rw [Tables.reserved, sub32_eq (by omega) (by omega), sub32_eq hfit (by omega)]

/-- Where the tables are copied from is not scratch. -/
theorem Mounted.source_ok (h : Mounted cfg r f) :
    r.ctx.activeMetablock ≠ r.ctx.scratchMetablock
      ∧ (2 < cfg.totalNumOfBlocks →
          r.ctx.activeMetablock ≠ r.ctx.metaBlockHeader.scratchIdx) :=
  h.running.source_ok

/-- Assembling the scratch blocks leaves the active tables alone. -/
theorem OnScratch.activeTables_eq {d : Nat} {cs : List Call}
    (h : OnScratch cfg s d cs)
    (hsrc : r.ctx.activeMetablock ≠ s ∧ (2 < cfg.totalNumOfBlocks → r.ctx.activeMetablock ≠ d))
    (hT : activeTables cfg r f = T) : activeTables cfg r (device.replay cs f) = T := by
  rw [activeTables, h.row_eq f hsrc.1 hsrc.2]
  exact hT

theorem Assembles.activeTables_eq {d : Nat} {cs : List Call}
    (h : Assembles cfg s d cs)
    (hsrc : r.ctx.activeMetablock ≠ s ∧ (2 < cfg.totalNumOfBlocks → r.ctx.activeMetablock ≠ d))
    (hT : activeTables cfg r f = T) : activeTables cfg r (device.replay cs f) = T :=
  h.onScratch.activeTables_eq hsrc hT

/-- The second half of a create. -/
theorem commits_create_commit (hm : Running cfg r f) (hc : cfg.CryptoWorks)
    (hT : activeTables cfg r f = T) {i l size : Nat} {u : UInt32} (hi : i < cfg.numAssets)
    (hl : l < cfg.numActiveDblocks) :
    Commits cfg (sstCoreObjectCreate.commit cfg i
        { lblock := l, dataIndex := cfg.blockSize - (T.blk l).freeSize, curSize := 0,
          maxSize := size, uniqueId := u }
        { T.blk l with freeSize := (T.blk l).freeSize - sstGetAlignedFlashBytes cfg size }) r f
      r.ctx.metaBlockHeader.scratchIdx
      (createCalls cfg r.ctx.activeMetablock r.ctx.scratchMetablock T i l size u) := by
  have hP : Placed cfg T _ := hT ▸ hm.placed
  have hsrc := hm.source_ok
  refine Commits.of_finalize hc fun r'' w hfin => ?_
  -- a descriptor of logical block 0 is programmed with its new home at once
  have hblk : (T.created cfg r.ctx.scratchMetablock i l size u).blk l
      = if l = 0 then
          { T.blk l with
            physId := r.ctx.scratchMetablock
            freeSize := (T.blk l).freeSize - sstGetAlignedFlashBytes cfg size }
        else { T.blk l with
            freeSize := (T.blk l).freeSize - sstGetAlignedFlashBytes cfg size } := by
    simp only [Tables.created, Tables.relocated]
    split <;> simp
  simp only [createCalls, Tables.created_obj_self, hblk, Model.replay_append,
    List.append_assoc] at hfin ⊢
  refine ((does_updateScratchObjectMeta hi.le _).orElse _).bind ?_
  refine Does.read_bind does_curMetaScratch ?_
  refine ((does_updateScratchBlockMeta hl.le _).orElse _).bind ?_
  refine ((does_copyRemainingObjectMeta hi).orElse _).bind ?_
  -- the descriptor of logical block 0 is read twice more, from the block that stays as it is
  refine ((does_copyRemainingBlockMeta ?_ hP.blkValid hl).orElse _).bind
    (((does_migrateDataToScratch ?_ hP).orElse _).bind (hfin.orElse _))
  all_goals
    simp only [← Model.replay_append]
    refine Assembles.activeTables_eq ?_ hsrc hT
  · exact ((assembles_write (header_le_objOff i)).append
      (assembles_write (header_le_blkOff l))).append (assembles_copyObjects hsrc i)
  · exact (((assembles_write (header_le_objOff i)).append
      (assembles_write (header_le_blkOff l))).append (assembles_copyObjects hsrc i)).append
      (assembles_copyBlocks hsrc l _)

/-- The entry and the logical block a create may take. -/
structure Tables.CanCreate (cfg : Config) (T : Tables) (i l size : Nat) : Prop where
  entry_lt : i < cfg.numAssets
  entry_free : ¬ T.Live i
  /-- The scan for the entry got to it. -/
  reaches : T.Reaches cfg i
  block_lt : l < cfg.numActiveDblocks
  fits : sstGetAlignedFlashBytes cfg size ≤ (T.blk l).freeSize

/-- A create finds a table entry, in reach of its scan and with an index that is not reserved, and
a logical block with enough room. -/
def Tables.HasRoom (cfg : Config) (T : Tables) (size : Nat) : Prop :=
  (∃ i < cfg.numAssets, i < sstMetadataInvalidIndex ∧ ¬ T.Live i ∧ T.Reaches cfg i)
    ∧ ∃ l < cfg.numActiveDblocks, sstGetAlignedFlashBytes cfg size ≤ (T.blk l).freeSize

/-- A block that was found is in range and has room. -/
theorem Tables.lt_of_firstFit {l size : Nat} (h : T.firstFit cfg size = some l) :
    l < cfg.numActiveDblocks ∧ sstGetAlignedFlashBytes cfg size ≤ (T.blk l).freeSize :=
  ⟨List.mem_range.mp (List.mem_of_find?_eq_some h), by simpa using List.find?_some h⟩

/-- Without a block that fits there is no room. -/
theorem Tables.not_hasRoom_of_firstFit {size : Nat} (h : T.firstFit cfg size = none) :
    ¬ T.HasRoom cfg size := by
  rintro ⟨-, l, hl, hfit⟩
  have := List.find?_eq_none.mp h l (List.mem_range.mpr hl)
  simp only [decide_eq_true_eq] at this
  exact this hfit

/-- A create is refused, for lack of room, or takes a free entry and the first block with room. -/
theorem create_outcome (hm : Running cfg r f) (hc : cfg.CryptoWorks)
    (hT : activeTables cfg r f = T) (u size : UInt32) :
    Refuses (sstCoreObjectCreate cfg u size) r f ∧ ¬ T.HasRoom cfg size.toNat
      ∨ ∃ i l, T.CanCreate cfg i l size.toNat ∧ T.HasRoom cfg size.toNat ∧
        Commits cfg (sstCoreObjectCreate cfg u size) r f r.ctx.metaBlockHeader.scratchIdx
          (createCalls cfg r.ctx.activeMetablock r.ctx.scratchMetablock T i l size.toNat u) := by
  have hP : Placed cfg T _ := hT ▸ hm.placed
  have hres := (does_reserveObject (hT ▸ hP.blkValid) size.toNat).attempt
  have hrange : ∀ i ∈ List.range (min cfg.numAssets 0x10000), i < cfg.numAssets := by
    intro i hi
    have := List.mem_range.mp hi
    omega
  have hidx := getFreeObjectIndexFrom_outcome (r := r) (f := f) _ List.pairwise_lt_range hrange
  rw [hT] at hres hidx
  -- the source looks for the entry even when no block has room, so the entry decides first
  rcases hidx with ⟨hnone, hidx⟩ | ⟨i, hmem, hid, hfirst, hreach, hidx⟩
  · have hroom : ¬ T.HasRoom cfg size.toNat := by
      rintro ⟨⟨i, hi, hinv, hlive, hreach⟩, -⟩
      rw [sstMetadataInvalidIndex] at hinv
      exact hnone ⟨i, List.mem_range.mpr (by omega), not_not.mp hlive, fun j _ hj => hreach j hj⟩
    rcases hidx with ⟨e, hidx⟩ | hidx
    · exact Or.inl ⟨⟨e, Does.read_bind hres (Does.bind_error hidx)⟩, hroom⟩
    · refine Or.inl ⟨⟨.storageSystemFull, Does.read_bind hres (Does.read_bind hidx ?_)⟩, hroom⟩
      cases T.firstFit cfg size.toNat with
      | none => exact Does.fail _
      | some l => exact Does.fail _
  · have hi := hrange i hmem
    have hmin := List.mem_range.mp hmem
    have hpass : T.Reaches cfg i := fun j hj => hreach j (List.mem_range.mpr (by omega)) hj
    cases hfit : T.firstFit cfg size.toNat with
    | none =>
      left
      rw [hfit] at hres
      exact ⟨⟨.storageSystemFull, Does.read_bind hres (Does.read_bind hidx (Does.fail _))⟩,
        Tables.not_hasRoom_of_firstFit hfit⟩
    | some l =>
      obtain ⟨hl, hle⟩ := Tables.lt_of_firstFit hfit
      rw [hfit] at hres
      simp only [reserved_eq hP hl hle] at hres
      by_cases hinv : i = sstMetadataInvalidIndex
      · left
        refine ⟨⟨.storageSystemFull, Does.read_bind hres (Does.read_bind hidx ?_)⟩, ?_⟩
        · simp only [hinv, if_true]
          exact Does.fail _
        · -- entry 0xFFFF is the first free one
          rintro ⟨⟨j, hj, hji, hlive, -⟩, -⟩
          exact hlive (hfirst j (List.mem_range.mpr (by omega)) (by omega))
      · right
        rw [sstMetadataInvalidIndex] at hinv
        refine ⟨i, l, ⟨hi, fun h => h hid, hpass, hl, hle⟩, ⟨⟨i, hi, ?_, fun h => h hid, hpass⟩,
          l, hl, hle⟩, ?_⟩
        · rw [sstMetadataInvalidIndex]
          omega
        · obtain ⟨h', iv, hnext, hauth, hdoes⟩ := commits_create_commit hm hc hT (u := u) hi hl
          refine ⟨h', iv, hnext, hauth, Does.read_bind hres (Does.read_bind hidx ?_)⟩
          simp only [sstMetadataInvalidIndex, hinv, if_false]
          exact hdoes

end Tfm.Sst
