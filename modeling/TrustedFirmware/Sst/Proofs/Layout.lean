import TrustedFirmware.Lib.Tiling
import TrustedFirmware.Sst.Proofs.Reads

/-!
# The layout invariant

What the tables of a consistent store say about the flash area.

* `BlocksOk` gives each physical block a role. Logical block 0 shares a metadata block with the
  tables, every other logical block has a data block of its own, and one data block is scratch.
* `SlotsOk` says how the objects fill a logical block: their slots tile the used part of the data
  area, without gaps and without overlap.
* `Layout` is both, and that the objects of logical block 0 lie next to the active tables.

The validators of the core accept such tables unless an object is larger than `SST_MAX_OBJECT_SIZE`
(`Layout.accepted_iff`), and the three ways in which the core rewrites the tables keep the invariant
(`Layout.created`, `Layout.written`, `Layout.deleted`).

An operation that a flash error cuts short can break the tiling and the pairing of blocks. `Placed`
is the part that survives: slots do not overlap and stay in the used part of their block. The same
three lemmas hold for it with weaker hypotheses.
-/

namespace Tfm.Sst

open Word32 BlockFlash Device Tiling

variable {cfg : Config} {T T' : Tables} {active scratch : Nat}

/-! ## The invariant

An entry of the object table is live when its id is not `SST_INVALID_UUID`. Nothing is required of
the position of a free entry, because a deletion leaves the old one behind. -/

/-- The table entry is in use. -/
def Tables.Live (T : Tables) (i : Nat) : Prop := (T.obj i).uniqueId ≠ sstInvalidUuid

instance (T : Tables) (i : Nat) : Decidable (T.Live i) := inferInstanceAs (Decidable (_ ≠ _))

/-- The bytes reserved for an object. -/
def Tables.slotSize (cfg : Config) (T : Tables) (i : Nat) : Nat :=
  sstGetAlignedFlashBytes cfg (T.obj i).maxSize

/-- The live objects of a logical block. -/
def Tables.objectsOf (cfg : Config) (T : Tables) (l : Nat) : Finset Nat :=
  (Finset.range cfg.numAssets).filter fun i => T.Live i ∧ (T.obj i).lblock = l

/-- Roles of the physical blocks: logical block 0 lives in a metadata block, every other
logical block has a block of its own, and the scratch block is none of these. -/
structure BlocksOk (cfg : Config) (T : Tables) (scratch : Nat) : Prop where
  metaHome : (T.blk 0).physId = 0 ∨ (T.blk 0).physId = 1
  metaStart : (T.blk 0).dataStart = cfg.allMetadataSize
  dataHome : ∀ l, 0 < l → l < cfg.numActiveDblocks →
    2 ≤ (T.blk l).physId ∧ (T.blk l).physId < cfg.totalNumOfBlocks
  dataStart : ∀ l, 0 < l → l < cfg.numActiveDblocks → (T.blk l).dataStart = 0
  dataInj : ∀ l k, 0 < l → l < cfg.numActiveDblocks → 0 < k → k < cfg.numActiveDblocks →
    (T.blk l).physId = (T.blk k).physId → l = k
  scratch_lt : scratch < cfg.totalNumOfBlocks
  scratch_ge : 2 < cfg.totalNumOfBlocks → 2 ≤ scratch
  scratch_ne : ∀ l, 0 < l → l < cfg.numActiveDblocks → (T.blk l).physId ≠ scratch

/-- Slots of the objects: in every logical block they tile the used part of the data area,
which starts and ends at multiples of the program unit. -/
structure SlotsOk (cfg : Config) (T : Tables) : Prop where
  live_lt : ∀ i, T.Live i → i < cfg.numAssets
  lblock_lt : ∀ i, T.Live i → (T.obj i).lblock < cfg.numActiveDblocks
  cur_le : ∀ i, T.Live i → (T.obj i).curSize ≤ (T.obj i).maxSize
  max_pos : ∀ i, T.Live i → 0 < (T.obj i).maxSize
  /-- Rounding the size up to the program unit does not wrap. -/
  rounds : ∀ i, T.Live i → (T.obj i).maxSize + cfg.flashProgramUnit ≤ 2 ^ 32
  unused : ∀ i, ¬ T.Live i →
    (T.obj i).lblock = 0 ∧ (T.obj i).curSize = 0 ∧ (T.obj i).maxSize = 0
  free_le : ∀ l, l < cfg.numActiveDblocks →
    (T.blk l).dataStart + (T.blk l).freeSize ≤ cfg.blockSize
  tiles : ∀ l, l < cfg.numActiveDblocks →
    Tiles (T.objectsOf cfg l) (fun i => (T.obj i).dataIndex) (T.slotSize cfg)
      (T.blk l).dataStart (cfg.blockSize - (T.blk l).freeSize)
  index_aligned : ∀ i, T.Live i → cfg.flashProgramUnit ∣ (T.obj i).dataIndex
  end_aligned : ∀ l, l < cfg.numActiveDblocks →
    cfg.flashProgramUnit ∣ cfg.blockSize - (T.blk l).freeSize

/-- The layout invariant of a store whose active metadata block is `active`. -/
structure Layout (cfg : Config) (T : Tables) (active scratch : Nat) : Prop where
  blocks : BlocksOk cfg T scratch
  slots : SlotsOk cfg T
  /-- Objects of logical block 0 are stored next to the active tables. -/
  home : ∀ i, T.Live i → (T.obj i).lblock = 0 → (T.blk 0).physId = active

/-! ### What the scratch block does not matter for

The validators do not look at the scratch block and do not compare blocks with each other, so they
accept under `HomesOk` alone. `SlotsApart` is what remains of `SlotsOk` when space may be lost. -/

/-- Homes of the logical blocks, each for itself. -/
structure HomesOk (cfg : Config) (T : Tables) : Prop where
  metaHome : (T.blk 0).physId = 0 ∨ (T.blk 0).physId = 1
  metaStart : (T.blk 0).dataStart = cfg.allMetadataSize
  dataHome : ∀ l, 0 < l → l < cfg.numActiveDblocks →
    2 ≤ (T.blk l).physId ∧ (T.blk l).physId < cfg.totalNumOfBlocks
  dataStart : ∀ l, 0 < l → l < cfg.numActiveDblocks → (T.blk l).dataStart = 0

theorem BlocksOk.homes (h : BlocksOk cfg T scratch) : HomesOk cfg T :=
  ⟨h.metaHome, h.metaStart, h.dataHome, h.dataStart⟩

theorem Tables.mem_objectsOf {l i : Nat} :
    i ∈ T.objectsOf cfg l ↔ i < cfg.numAssets ∧ T.Live i ∧ (T.obj i).lblock = l := by
  simp [Tables.objectsOf]

namespace SlotsOk

variable (h : SlotsOk cfg T)
include h

/-- A live object belongs to its logical block. -/
theorem mem_objectsOf_self {i : Nat} (hi : T.Live i) : i ∈ T.objectsOf cfg (T.obj i).lblock :=
  Tables.mem_objectsOf.mpr ⟨h.live_lt i hi, hi, rfl⟩

/-- The slot has room for the maximum size: rounding up does not wrap. -/
theorem maxSize_le_slotSize {i : Nat} (hi : T.Live i) : (T.obj i).maxSize ≤ T.slotSize cfg i :=
  le_aligned cfg (h.rounds i hi)

/-- A slot lies in the used part of its block. -/
theorem slot_bounds {i : Nat} (hi : T.Live i) :
    (T.blk (T.obj i).lblock).dataStart ≤ (T.obj i).dataIndex
      ∧ (T.obj i).dataIndex + T.slotSize cfg i
          ≤ cfg.blockSize - (T.blk (T.obj i).lblock).freeSize :=
  (h.tiles _ (h.lblock_lt i hi)).bounds (h.mem_objectsOf_self hi)

/-- The slots of two objects of a block are disjoint. -/
theorem slot_disjoint {i j : Nat} (hi : T.Live i) (hj : T.Live j) (hij : i ≠ j)
    (hl : (T.obj j).lblock = (T.obj i).lblock) :
    (T.obj i).dataIndex + T.slotSize cfg i ≤ (T.obj j).dataIndex
      ∨ (T.obj j).dataIndex + T.slotSize cfg j ≤ (T.obj i).dataIndex :=
  (h.tiles _ (h.lblock_lt i hi)).disjoint i (h.mem_objectsOf_self hi) j
    (hl ▸ h.mem_objectsOf_self hj) hij

end SlotsOk

/-- Block descriptors laid out this way pass the validator of the core. -/
theorem HomesOk.blkValid (h : HomesOk cfg T)
    (hfree : ∀ l < cfg.numActiveDblocks,
      (T.blk l).dataStart + (T.blk l).freeSize ≤ cfg.blockSize) : T.BlkValid cfg := by
  have hN := cfg.two_le_blocks
  have hoff : sstMetaObjectMetaOffset cfg cfg.numAssets = cfg.allMetadataSize := by
    rw [sstMetaObjectMetaOffset_eq cfg le_rfl, objOff_numAssets]
  intro l hl
  have hfree := hfree l hl
  simp only [sstMetaValidateBlockMeta, sstUtilsCheckContainedIn, sstMetadataBlock0,
    sstMetadataBlock1, hoff]
  -- block 0 must be a metadata block with its data behind the tables, the others must not
  rcases Nat.eq_zero_or_pos l with rfl | hpos
  · have hhome := h.metaHome
    rw [if_neg (by omega), if_neg (by omega)]
    simp [hhome, h.metaStart]
  · have hhome := h.dataHome l hpos hl
    rw [if_neg (by omega), if_neg (by omega)]
    have hne : ¬ ((T.blk l).physId = 0 ∨ (T.blk l).physId = 1) := by omega
    simp [hne, h.dataStart l hpos hl]

/-! ### What survives a flash error

Slots that do not overlap, in blocks that exist: enough for reads to return bytes of the object
only. -/

/-- Slots of live objects of any size: they do not overlap and lie in the used part of their
block. Space may be lost, and nothing is known about free entries but their block. -/
structure SlotsApart (cfg : Config) (T : Tables) : Prop where
  live_lt : ∀ i, T.Live i → i < cfg.numAssets
  lblock_lt : ∀ i, (T.obj i).lblock < cfg.numActiveDblocks
  free_le : ∀ l, l < cfg.numActiveDblocks →
    (T.blk l).dataStart + (T.blk l).freeSize ≤ cfg.blockSize
  bounds : ∀ i, T.Live i → (T.blk (T.obj i).lblock).dataStart ≤ (T.obj i).dataIndex
    ∧ (T.obj i).dataIndex + T.slotSize cfg i ≤ cfg.blockSize - (T.blk (T.obj i).lblock).freeSize
  apart : ∀ i j, T.Live i → T.Live j → i ≠ j → (T.obj j).lblock = (T.obj i).lblock →
    (T.obj i).dataIndex + T.slotSize cfg i ≤ (T.obj j).dataIndex
      ∨ (T.obj j).dataIndex + T.slotSize cfg j ≤ (T.obj i).dataIndex

theorem SlotsOk.slotsApart (h : SlotsOk cfg T) : SlotsApart cfg T where
  live_lt := h.live_lt
  lblock_lt i := by
    by_cases hi : T.Live i
    · exact h.lblock_lt i hi
    · rw [(h.unused i hi).1]
      exact cfg.numActiveDblocks_pos
  free_le := h.free_le
  bounds _ hi := h.slot_bounds hi
  apart _ _ hi hj hij hl := h.slot_disjoint hi hj hij hl

/-- The part of the layout invariant that survives an operation cut short by an error, whatever
the operations were: blocks may have been mixed up, sizes may have wrapped. -/
structure Placed (cfg : Config) (T : Tables) (active : Nat) : Prop where
  homes : HomesOk cfg T
  slots : SlotsApart cfg T
  home : ∀ i, T.Live i → (T.obj i).lblock = 0 → (T.blk 0).physId = active

theorem Layout.placed (h : Layout cfg T active scratch) : Placed cfg T active :=
  ⟨h.blocks.homes, h.slots.slotsApart, h.home⟩

/-- Placed tables pass the validator of the block descriptors. -/
theorem Placed.blkValid (h : Placed cfg T active) : T.BlkValid cfg :=
  h.homes.blkValid h.slots.free_le

/-- The fields of a placed descriptor fit their 32 bits. -/
theorem Placed.blk_fits (h : Placed cfg T active) {l : Nat} (hl : l < cfg.numActiveDblocks) :
    (T.blk l).Fits := by
  have hB := cfg.blockSize_le
  have hN := cfg.totalNumOfBlocks_lt
  have hfree := h.slots.free_le l hl
  refine ⟨?_, by omega, by omega⟩
  rcases Nat.eq_zero_or_pos l with rfl | hl0
  · have := h.homes.metaHome
    omega
  · have := (h.homes.dataHome l hl0 hl).2
    omega

theorem Layout.blkValid (h : Layout cfg T active scratch) : T.BlkValid cfg := h.placed.blkValid

/-! ### The validators -/

/-- An entry laid out this way passes the validator exactly when it is free or its size is at
most `SST_MAX_OBJECT_SIZE`. -/
theorem Layout.validateObjectMeta_eq (h : Layout cfg T active scratch) (i : Nat) :
    sstMetaValidateObjectMeta cfg (T.obj i)
      = if T.Live i ∧ cfg.maxObjectSize < (T.obj i).maxSize then .error .assetNotFound
        else .ok () := by
  have hoff : sstMetaObjectMetaOffset cfg cfg.numAssets = cfg.allMetadataSize := by
    rw [sstMetaObjectMetaOffset_eq cfg le_rfl, objOff_numAssets]
  simp only [sstMetaValidateObjectMeta, sstUtilsCheckContainedIn, sstUtilsValidateUuid, hoff,
    sstLogicalDblock0]
  by_cases hlive : T.Live i
  · have hl := h.slots.lblock_lt i hlive
    have hcur := h.slots.cur_le i hlive
    have hb := h.slots.slot_bounds hlive
    have hslot := h.slots.maxSize_le_slotSize hlive
    rw [if_neg (by omega), if_neg (show ¬ (T.obj i).uniqueId = sstInvalidUuid from hlive)]
    dsimp only
    -- every later check of the validator is about bounds that the slot keeps
    by_cases hmax : cfg.maxObjectSize < (T.obj i).maxSize
    · rw [if_pos hmax, if_pos ⟨hlive, hmax⟩]
    · rw [if_neg hmax, if_neg (by omega), if_neg, if_neg (by omega), if_neg fun hc => hmax hc.2]
      rintro ⟨hz, hlt⟩
      rw [hz, h.blocks.metaStart] at hb
      omega
  · have hl := (h.slots.unused i hlive).1
    have hpos := cfg.numActiveDblocks_pos
    have hid : (T.obj i).uniqueId = sstInvalidUuid := not_not.mp hlive
    have hnot : ¬ (T.Live i ∧ cfg.maxObjectSize < (T.obj i).maxSize) := fun hc => hlive hc.1
    rw [if_neg (by omega), if_pos hid, if_neg hnot]

/-- The record of entry `i` can be read unless it is live and too large. -/
theorem Layout.passes_iff (h : Layout cfg T active scratch) (i : Nat) :
    T.Passes cfg i ↔ (cfg.validateMetadataFromFlash = true → T.Live i →
      (T.obj i).maxSize ≤ cfg.maxObjectSize) := by
  rw [Tables.Passes, h.validateObjectMeta_eq]
  refine imp_congr_right fun _ => ?_
  by_cases hc : T.Live i ∧ cfg.maxObjectSize < (T.obj i).maxSize
  · rw [if_pos hc]
    exact ⟨fun h => (by cases h), fun h => absurd (h hc.1) (by omega)⟩
  · rw [if_neg hc]
    exact ⟨fun _ hl => Nat.not_lt.mp fun hlt => hc ⟨hl, hlt⟩, fun _ => rfl⟩

/-- No object is larger than `SST_MAX_OBJECT_SIZE`. -/
def Tables.Sized (cfg : Config) (T : Tables) : Prop :=
  ∀ i, T.Live i → (T.obj i).maxSize ≤ cfg.maxObjectSize

/-- Every record passes the validator of the core. -/
def Tables.Valid (cfg : Config) (T : Tables) : Prop :=
  T.BlkValid cfg ∧ ∀ i < cfg.numAssets, sstMetaValidateObjectMeta cfg (T.obj i) = .ok ()

/-- Without objects that are too large every record is valid. -/
theorem Layout.valid (h : Layout cfg T active scratch) (hs : T.Sized cfg) : T.Valid cfg := by
  refine ⟨h.blkValid, fun i _ => ?_⟩
  rw [h.validateObjectMeta_eq, if_neg fun hc => ?_]
  have := hs i hc.1
  omega

theorem Tables.Valid.accepted (h : T.Valid cfg) : T.Accepted cfg := fun i hi _ => h.2 i hi

/-- A build that validates records accepts the tables exactly when no object is too large. -/
theorem Layout.accepted_iff (h : Layout cfg T active scratch) :
    T.Accepted cfg ↔ (cfg.validateMetadataFromFlash = true → T.Sized cfg) := by
  constructor
  · exact fun hacc hval i hi => (h.passes_iff i).mp (hacc i (h.slots.live_lt i hi)) hval hi
  · exact fun hs i _ => (h.passes_iff i).mpr fun hval hi => hs hval i hi

theorem Layout.blk_fits (h : Layout cfg T active scratch) {l : Nat}
    (hl : l < cfg.numActiveDblocks) : (T.blk l).Fits := h.placed.blk_fits hl

/-- The fields of a live entry fit their 32 bits, so encoding it loses nothing. -/
theorem Layout.obj_fits (h : Layout cfg T active scratch) {i : Nat} (hi : T.Live i) :
    (T.obj i).Fits := by
  have hB := cfg.blockSize_le
  have hU := cfg.flashProgramUnit_pos
  have hmeta := allMetadataSize_lt cfg
  rw [cfg.allMetadataSize_eq] at hmeta
  have hl := h.slots.lblock_lt i hi
  have hcur := h.slots.cur_le i hi
  have hmax := h.slots.rounds i hi
  have hb := h.slots.slot_bounds hi
  exact ⟨by omega, by omega, by omega, by omega⟩

/-! ## Updates of the tables

Every operation assembles new tables in the scratch metadata block `s`, which becomes the
home of logical block 0; an operation that rewrites the data of another logical block `l`
moves it to the data scratch block `d`. -/

/-- The block table after logical block `l` has moved to `d`, with a new free size. -/
def Tables.relocated (T : Tables) (s l d freeSize : Nat) (k : Nat) : BlockMetadata where
  physId := if k = 0 then s else if k = l then d else (T.blk k).physId
  dataStart := (T.blk k).dataStart
  freeSize := if k = l then freeSize else (T.blk k).freeSize

/-- The tables after entry `i` is given to a new object of logical block `l`, whose data
stays where it is. -/
def Tables.created (cfg : Config) (T : Tables) (s i l size : Nat) (u : UInt32) : Tables where
  blk := T.relocated s l (T.blk l).physId
    ((T.blk l).freeSize - sstGetAlignedFlashBytes cfg size)
  obj := Function.update T.obj i
    { lblock := l, dataIndex := cfg.blockSize - (T.blk l).freeSize, curSize := 0,
      maxSize := size, uniqueId := u }

/-- The tables after object `i` was written and now has `curSize` bytes. -/
def Tables.written (T : Tables) (s d i curSize : Nat) : Tables where
  blk := T.relocated s (T.obj i).lblock d (T.blk (T.obj i).lblock).freeSize
  obj := Function.update T.obj i { T.obj i with curSize := curSize }

/-- The slot of object `i`, as `sst_core_object_delete` collects it. -/
def Tables.deletedSlot (cfg : Config) (T : Tables) (i : Nat) : DeletedSlot :=
  ⟨i, (T.obj i).lblock, (T.obj i).dataIndex, T.slotSize cfg i⟩

/-- The entry that a deletion leaves: the position stays behind. -/
def Assetmeta.cleared (e : Assetmeta) : Assetmeta :=
  { e with uniqueId := sstInvalidUuid, lblock := 0, maxSize := 0, curSize := 0 }

/-- The tables after object `i` was deleted. -/
def Tables.deleted (cfg : Config) (T : Tables) (s d i : Nat) : Tables where
  blk := T.relocated s (T.obj i).lblock d
    ((T.blk (T.obj i).lblock).freeSize + T.slotSize cfg i)
  obj j := if j = i then (T.obj i).cleared else (T.deletedSlot cfg i).shift (T.obj j)

/-- The data scratch block after logical block `l` has moved to `scratch`. -/
def Tables.vacated (T : Tables) (scratch l : Nat) : Nat :=
  if l = 0 then scratch else (T.blk l).physId

/-! ## Blocks that change roles

A block that was scratch takes over a logical block, and the block that had it becomes scratch. -/

/-- Only with more than two blocks there are logical blocks besides 0. -/
theorem two_lt_blocks_of_pos {l : Nat} (hpos : 0 < l) (hl : l < cfg.numActiveDblocks) :
    2 < cfg.totalNumOfBlocks := by
  rw [cfg.numActiveDblocks_eq] at hl
  have := cfg.two_le_blocks
  split at hl <;> omega

/-- Moving logical block `l` to the scratch block permutes the roles. -/
theorem BlocksOk.relocate {s l : Nat} (h : BlocksOk cfg T scratch) (hs : s = 0 ∨ s = 1)
    (hl : l < cfg.numActiveDblocks)
    (hphys : ∀ k < cfg.numActiveDblocks, (T'.blk k).physId
      = if k = 0 then s else if k = l then scratch else (T.blk k).physId)
    (hstart : ∀ k < cfg.numActiveDblocks, (T'.blk k).dataStart = (T.blk k).dataStart) :
    BlocksOk cfg T' (T.vacated scratch l) := by
  have hpos := cfg.numActiveDblocks_pos
  have hphys0 : (T'.blk 0).physId = s := by rw [hphys 0 hpos, if_pos rfl]
  -- a dedicated block keeps its place, or is the one that moved
  have hside (k : Nat) (hk0 : 0 < k) (hk : k < cfg.numActiveDblocks) :
      (k = l ∧ (T'.blk k).physId = scratch)
        ∨ (k ≠ l ∧ (T'.blk k).physId = (T.blk k).physId) := by
    rw [hphys k hk, if_neg (by omega)]
    by_cases hkl : k = l
    · exact Or.inl ⟨hkl, if_pos hkl⟩
    · exact Or.inr ⟨hkl, if_neg hkl⟩
  refine
    { metaHome := by rw [hphys0]; exact hs
      metaStart := by rw [hstart 0 hpos, h.metaStart]
      dataHome := ?_, dataStart := ?_, dataInj := ?_, scratch_lt := ?_, scratch_ge := ?_,
      scratch_ne := ?_ }
  · intro k hk0 hk
    have hN := two_lt_blocks_of_pos hk0 hk
    rcases hside k hk0 hk with ⟨-, he⟩ | ⟨-, he⟩ <;> rw [he]
    · exact ⟨h.scratch_ge hN, h.scratch_lt⟩
    · exact h.dataHome k hk0 hk
  · intro k hk0 hk
    rw [hstart k hk, h.dataStart k hk0 hk]
  · -- two logical blocks in one physical block: either the scratch block was in use before, or they
    -- were one block already
    intro k j hk0 hk hj0 hj heq
    rcases hside k hk0 hk with ⟨hkl, hke⟩ | ⟨hkl, hke⟩ <;>
      rcases hside j hj0 hj with ⟨hjl, hje⟩ | ⟨hjl, hje⟩ <;> rw [hke, hje] at heq
    · rw [hkl, hjl]
    · exact absurd heq.symm (h.scratch_ne j hj0 hj)
    · exact absurd heq (h.scratch_ne k hk0 hk)
    · exact h.dataInj k j hk0 hk hj0 hj heq
  · -- the block left behind is the new scratch block; if only block 0 moved, the data scratch block
    -- stays
    rcases Nat.eq_zero_or_pos l with rfl | hl0
    · exact h.scratch_lt
    · rw [Tables.vacated, if_neg (by omega)]
      exact (h.dataHome l hl0 hl).2
  · intro hN
    rcases Nat.eq_zero_or_pos l with rfl | hl0
    · exact h.scratch_ge hN
    · rw [Tables.vacated, if_neg (by omega)]
      exact (h.dataHome l hl0 hl).1
  · intro k hk0 hk
    rcases Nat.eq_zero_or_pos l with rfl | hl0
    · rcases hside k hk0 hk with ⟨hkl, -⟩ | ⟨-, hke⟩
      · omega
      · rw [hke]
        exact h.scratch_ne k hk0 hk
    · rw [Tables.vacated, if_neg (by omega)]
      rcases hside k hk0 hk with ⟨-, hke⟩ | ⟨hkl, hke⟩ <;> rw [hke]
      · exact (h.scratch_ne l hl0 hl).symm
      · exact fun heq => hkl (h.dataInj k l hk0 hk hl0 hl heq)

/-- A block that is vacated is none of the blocks that stay. -/
theorem BlocksOk.physId_ne_vacated (h : BlocksOk cfg T scratch) {k l : Nat} (hk0 : 0 < k)
    (hk : k < cfg.numActiveDblocks) (hl : l < cfg.numActiveDblocks) (hkl : k ≠ l) :
    (T.blk k).physId ≠ T.vacated scratch l := by
  unfold Tables.vacated
  split
  · exact h.scratch_ne k hk0 hk
  · exact fun heq => hkl (h.dataInj k l hk0 hk (by omega) hl heq)

theorem BlocksOk.scratch_ne_vacated (h : BlocksOk cfg T scratch) {l : Nat} (hl0 : 0 < l)
    (hl : l < cfg.numActiveDblocks) : scratch ≠ T.vacated scratch l := by
  rw [Tables.vacated, if_neg (by omega)]
  exact (h.scratch_ne l hl0 hl).symm

/-! ### The tables after a create

The new object gets the first bytes of the free part of its block, rounded up to the program unit,
so that the tiling grows at its end by one slot. -/

section Created

variable {s i l size : Nat} {u : UInt32}

theorem Tables.created_obj_self : (T.created cfg s i l size u).obj i
    = { lblock := l, dataIndex := cfg.blockSize - (T.blk l).freeSize, curSize := 0,
        maxSize := size, uniqueId := u } := Function.update_self ..

theorem Tables.created_obj_ne {j : Nat} (hj : j ≠ i) :
    (T.created cfg s i l size u).obj j = T.obj j := Function.update_of_ne hj ..

/-- The new entry is live, and the others are as before. -/
theorem Tables.created_live (hu : u ≠ 0) {j : Nat} :
    (T.created cfg s i l size u).Live j ↔ j = i ∨ T.Live j := by
  by_cases hj : j = i
  · subst hj
    simpa [Tables.Live, Tables.created_obj_self, sstInvalidUuid] using hu
  · simp [Tables.Live, Tables.created_obj_ne hj, hj]

/-- The block of the new object has one object more. -/
theorem Tables.created_objectsOf (hu : u ≠ 0) (hi : i < cfg.numAssets) (hfree : ¬ T.Live i)
    (k : Nat) : (T.created cfg s i l size u).objectsOf cfg k
      = if k = l then insert i (T.objectsOf cfg k) else T.objectsOf cfg k := by
  ext j
  rw [Tables.mem_objectsOf, Tables.created_live hu]
  by_cases hj : j = i
  · subst hj
    rw [Tables.created_obj_self]
    by_cases hk : k = l
    · simp [hk, hi]
    · simp [hk, Tables.mem_objectsOf, hfree, Ne.symm hk]
  · rw [Tables.created_obj_ne hj]
    by_cases hk : k = l <;> simp [hk, hj, Tables.mem_objectsOf]

/-- A new object takes the first bytes of the free part. -/
theorem SlotsOk.created (h : SlotsOk cfg T) (hu : u ≠ 0) (hi : i < cfg.numAssets)
    (hfree : ¬ T.Live i) (hl : l < cfg.numActiveDblocks) (hsize : 0 < size)
    (hmax : size + cfg.flashProgramUnit ≤ 2 ^ 32)
    (hfit : sstGetAlignedFlashBytes cfg size ≤ (T.blk l).freeSize) :
    SlotsOk cfg (T.created cfg s i l size u) := by
  have hal := le_aligned cfg hmax
  have hfl := h.free_le l hl
  have hend : cfg.blockSize - ((T.blk l).freeSize - sstGetAlignedFlashBytes cfg size)
      = cfg.blockSize - (T.blk l).freeSize + sstGetAlignedFlashBytes cfg size := by omega
  have hlive {j : Nat} (hj : (T.created cfg s i l size u).Live j) : j = i ∨ (j ≠ i ∧ T.Live j) := by
    by_cases hji : j = i
    · exact Or.inl hji
    · exact Or.inr ⟨hji, ((Tables.created_live hu).mp hj).resolve_left hji⟩
  refine
    { live_lt := ?_, lblock_lt := ?_, cur_le := ?_, max_pos := ?_, rounds := ?_, unused := ?_,
      free_le := ?_, tiles := ?_, index_aligned := ?_, end_aligned := ?_ }
  · intro j hj
    rcases hlive hj with rfl | ⟨_, hj⟩
    · exact hi
    · exact h.live_lt j hj
  · intro j hj
    rcases hlive hj with rfl | ⟨hji, hj⟩
    · rw [Tables.created_obj_self]; exact hl
    · rw [Tables.created_obj_ne hji]; exact h.lblock_lt j hj
  · intro j hj
    rcases hlive hj with rfl | ⟨hji, hj⟩
    · rw [Tables.created_obj_self]; exact Nat.zero_le _
    · rw [Tables.created_obj_ne hji]; exact h.cur_le j hj
  · intro j hj
    rcases hlive hj with rfl | ⟨hji, hj⟩
    · rw [Tables.created_obj_self]; exact hsize
    · rw [Tables.created_obj_ne hji]; exact h.max_pos j hj
  · intro j hj
    rcases hlive hj with rfl | ⟨hji, hj⟩
    · rw [Tables.created_obj_self]; exact hmax
    · rw [Tables.created_obj_ne hji]; exact h.rounds j hj
  · intro j hj
    rw [Tables.created_live hu, not_or] at hj
    rw [Tables.created_obj_ne hj.1]
    exact h.unused j hj.2
  · intro k hk
    have := h.free_le k hk
    simp only [Tables.created, Tables.relocated]
    split
    · subst k; omega
    · exact this
  · intro k hk
    -- in the block of the new object the tiling is extended at its end; in the others no slot
    -- changed
    rw [Tables.created_objectsOf hu hi hfree]
    by_cases hkl : k = l
    · subst hkl
      have hnot : i ∉ T.objectsOf cfg k := fun hm => hfree (Tables.mem_objectsOf.mp hm).2.1
      have hne {j : Nat} (hj : j ∈ T.objectsOf cfg k) : j ≠ i := fun he => hnot (he ▸ hj)
      have hslot : (T.created cfg s i k size u).slotSize cfg i = sstGetAlignedFlashBytes cfg size := by
        rw [Tables.slotSize, Tables.created_obj_self]
      have hused : cfg.blockSize - ((T.created cfg s i k size u).blk k).freeSize
          = cfg.blockSize - (T.blk k).freeSize + (T.created cfg s i k size u).slotSize cfg i := by
        rw [hslot, ← hend]
        simp [Tables.created, Tables.relocated]
      rw [if_pos rfl, hused]
      refine (h.tiles k hk).insert hnot (fun j hj => ?_) (fun j hj => ?_) ?_ (by omega)
      · rw [Tables.created_obj_ne (hne hj)]
      · rw [Tables.slotSize, Tables.created_obj_ne (hne hj), Tables.slotSize]
      · rw [Tables.created_obj_self]
    · rw [if_neg hkl]
      simp only [Tables.created, Tables.relocated, if_neg hkl]
      refine (h.tiles k hk).congr (fun j hj => ?_) (fun j hj => ?_)
      all_goals
        have hji : j ≠ i := fun he => hfree (he ▸ (Tables.mem_objectsOf.mp hj).2.1)
        simp [Tables.slotSize, Function.update_of_ne hji]
  · intro j hj
    rcases hlive hj with rfl | ⟨hji, hj⟩
    · rw [Tables.created_obj_self]; exact h.end_aligned l hl
    · rw [Tables.created_obj_ne hji]; exact h.index_aligned j hj
  · intro k hk
    simp only [Tables.created, Tables.relocated]
    split
    · -- the end of the used part moves by a multiple of the program unit
      subst k
      rw [hend]
      exact Nat.dvd_add (h.end_aligned l hl) (dvd_aligned cfg hmax)
    · exact h.end_aligned k hk

end Created

/-! ### The tables after a write

A write changes the current size only. The slot of an object has room for its maximum size from the
start. -/

section Written

variable {s d i curSize : Nat}

theorem Tables.written_obj_self :
    (T.written s d i curSize).obj i = { T.obj i with curSize := curSize } :=
  Function.update_self ..

theorem Tables.written_obj_ne {j : Nat} (hj : j ≠ i) :
    (T.written s d i curSize).obj j = T.obj j := Function.update_of_ne hj ..

/-- A write changes the current size of one entry, and nothing else about the entries. -/
theorem Tables.written_obj (T : Tables) (s d i curSize j : Nat) :
    ∃ c, (T.written s d i curSize).obj j = { T.obj j with curSize := c }
      ∧ (c = (T.obj j).curSize ∨ (j = i ∧ c = curSize)) := by
  by_cases hj : j = i
  · subst hj
    exact ⟨curSize, Tables.written_obj_self, Or.inr ⟨rfl, rfl⟩⟩
  · exact ⟨_, Tables.written_obj_ne hj, Or.inl rfl⟩

theorem Tables.written_live {j : Nat} : (T.written s d i curSize).Live j ↔ T.Live j := by
  obtain ⟨c, hc, -⟩ := T.written_obj s d i curSize j
  rw [Tables.Live, hc, Tables.Live]

/-- A write within the maximum size keeps the slots. -/
theorem SlotsOk.written (h : SlotsOk cfg T) (hi : T.Live i)
    (hcur : curSize ≤ (T.obj i).maxSize) : SlotsOk cfg (T.written s d i curSize) := by
  have hfree (k : Nat) : ((T.written s d i curSize).blk k).freeSize = (T.blk k).freeSize := by
    simp only [Tables.written, Tables.relocated]
    split
    · subst k; rfl
    · rfl
  have hobj := T.written_obj s d i curSize
  have hof (k : Nat) : (T.written s d i curSize).objectsOf cfg k = T.objectsOf cfg k := by
    ext j
    obtain ⟨c, hc, -⟩ := hobj j
    rw [Tables.mem_objectsOf, Tables.mem_objectsOf, Tables.written_live, hc]
  refine
    { live_lt := fun j hj => h.live_lt j (Tables.written_live.mp hj)
      lblock_lt := fun j hj => ?_, cur_le := fun j hj => ?_, max_pos := fun j hj => ?_,
      rounds := fun j hj => ?_, unused := fun j hj => ?_,
      free_le := fun k hk => by rw [hfree k]; exact h.free_le k hk
      tiles := fun k hk => ?_, index_aligned := fun j hj => ?_,
      end_aligned := fun k hk => by rw [hfree k]; exact h.end_aligned k hk }
  · obtain ⟨c, hc, -⟩ := hobj j
    rw [hc]
    exact h.lblock_lt j (Tables.written_live.mp hj)
  · obtain ⟨c, hc, rfl | ⟨rfl, rfl⟩⟩ := hobj j <;> rw [hc]
    · exact h.cur_le j (Tables.written_live.mp hj)
    · exact hcur
  · obtain ⟨c, hc, -⟩ := hobj j
    rw [hc]
    exact h.max_pos j (Tables.written_live.mp hj)
  · obtain ⟨c, hc, -⟩ := hobj j
    rw [hc]
    exact h.rounds j (Tables.written_live.mp hj)
  · have hj' : ¬ T.Live j := fun hl => hj (Tables.written_live.mpr hl)
    have hji : j ≠ i := fun he => hj' (he ▸ hi)
    rw [Tables.written_obj_ne hji]
    exact h.unused j hj'
  · rw [hof k, hfree k]
    refine (h.tiles k hk).congr (fun j _ => ?_) (fun j _ => ?_)
    all_goals
      obtain ⟨c, hc, -⟩ := hobj j
      simp only [Tables.slotSize, hc]
  · obtain ⟨c, hc, -⟩ := hobj j
    rw [hc]
    exact h.index_aligned j (Tables.written_live.mp hj)

end Written

/-! ### The tables after a delete

The objects behind the deleted one move down by the size of its slot, and the free part grows by as
much. -/

section Deleted

variable {s d i : Nat}

theorem Tables.deleted_obj_self : (T.deleted cfg s d i).obj i = (T.obj i).cleared := if_pos rfl

theorem Tables.deleted_obj_ne {j : Nat} (hj : j ≠ i) :
    (T.deleted cfg s d i).obj j = (T.deletedSlot cfg i).shift (T.obj j) := if_neg hj

/-- Shifting an entry changes its position only. -/
theorem DeletedSlot.shift_eq (del : DeletedSlot) (e : Assetmeta) :
    ∃ x, del.shift e = { e with dataIndex := x } := by
  rw [DeletedSlot.shift]
  split
  · exact ⟨_, rfl⟩
  · exact ⟨e.dataIndex, rfl⟩

/-- Exactly the deleted entry is no longer live. -/
theorem Tables.deleted_live {j : Nat} :
    (T.deleted cfg s d i).Live j ↔ j ≠ i ∧ T.Live j := by
  by_cases hj : j = i
  · subst hj
    simp [Tables.Live, Tables.deleted_obj_self, Assetmeta.cleared]
  · obtain ⟨x, hx⟩ := (T.deletedSlot cfg i).shift_eq (T.obj j)
    simp [Tables.Live, Tables.deleted_obj_ne hj, hx, hj]

/-- An object behind the slot of its block moves down by the size of the slot; the others
stay. -/
theorem SlotsApart.shift_dataIndex (h : SlotsApart cfg T) {j : Nat} (hi : T.Live i)
    (hj : T.Live j) :
    ((T.deletedSlot cfg i).shift (T.obj j)).dataIndex
      = if (T.obj j).lblock = (T.obj i).lblock ∧ (T.obj i).dataIndex < (T.obj j).dataIndex then
          (T.obj j).dataIndex - T.slotSize cfg i
        else (T.obj j).dataIndex := by
  simp only [DeletedSlot.shift, Tables.deletedSlot, gt_iff_lt]
  by_cases hc : (T.obj j).lblock = (T.obj i).lblock ∧ (T.obj i).dataIndex < (T.obj j).dataIndex
  · have hij : i ≠ j := fun he => absurd hc.2 (by rw [he]; exact lt_irrefl _)
    have hap := h.apart i j hi hj hij hc.1
    have hb := h.bounds j hj
    have hB := cfg.blockSize_le
    rw [if_pos hc, if_pos hc]
    -- the objects do not overlap, so the subtraction does not wrap
    exact sub32_eq (by omega) (by omega)
  · rw [if_neg hc, if_neg hc]

/-- The block of the deleted object has one object less. -/
theorem Tables.deleted_objectsOf (hi : T.Live i) (k : Nat) :
    (T.deleted cfg s d i).objectsOf cfg k
      = if k = (T.obj i).lblock then (T.objectsOf cfg k).erase i else T.objectsOf cfg k := by
  ext j
  rw [Tables.mem_objectsOf, Tables.deleted_live]
  by_cases hj : j = i
  · subst hj
    by_cases hk : k = (T.obj j).lblock
    · simp [hk]
    · simp [hk, Tables.mem_objectsOf, Ne.symm hk]
  · obtain ⟨x, hx⟩ := (T.deletedSlot cfg i).shift_eq (T.obj j)
    rw [Tables.deleted_obj_ne hj, hx]
    by_cases hk : k = (T.obj i).lblock <;> simp [hk, hj, Tables.mem_objectsOf]

/-- The gap a deleted object leaves is closed. -/
theorem SlotsOk.deleted (h : SlotsOk cfg T) (hi : T.Live i) :
    SlotsOk cfg (T.deleted cfg s d i) := by
  have hl := h.lblock_lt i hi
  have hsb := h.slot_bounds hi
  have hfl := h.free_le _ hl
  have hend : cfg.blockSize - ((T.blk (T.obj i).lblock).freeSize + T.slotSize cfg i)
      = cfg.blockSize - (T.blk (T.obj i).lblock).freeSize - T.slotSize cfg i := by omega
  have hfree (k : Nat) : ((T.deleted cfg s d i).blk k).freeSize
      = if k = (T.obj i).lblock then (T.blk (T.obj i).lblock).freeSize + T.slotSize cfg i
        else (T.blk k).freeSize := rfl
  have hmem := h.mem_objectsOf_self hi
  -- all fields of a surviving entry but the position are as before
  have hobj {j : Nat} (hji : j ≠ i) := (T.deletedSlot cfg i).shift_eq (T.obj j)
  refine
    { live_lt := fun j hj => h.live_lt j (Tables.deleted_live.mp hj).2
      lblock_lt := fun j hj => ?_, cur_le := fun j hj => ?_, max_pos := fun j hj => ?_,
      rounds := fun j hj => ?_, unused := fun j hj => ?_, free_le := fun k hk => ?_,
      tiles := fun k hk => ?_, index_aligned := fun j hj => ?_, end_aligned := fun k hk => ?_ }
  · obtain ⟨hji, hj⟩ := Tables.deleted_live.mp hj
    obtain ⟨x, hx⟩ := hobj hji
    rw [Tables.deleted_obj_ne hji, hx]
    exact h.lblock_lt j hj
  · obtain ⟨hji, hj⟩ := Tables.deleted_live.mp hj
    obtain ⟨x, hx⟩ := hobj hji
    rw [Tables.deleted_obj_ne hji, hx]
    exact h.cur_le j hj
  · obtain ⟨hji, hj⟩ := Tables.deleted_live.mp hj
    obtain ⟨x, hx⟩ := hobj hji
    rw [Tables.deleted_obj_ne hji, hx]
    exact h.max_pos j hj
  · obtain ⟨hji, hj⟩ := Tables.deleted_live.mp hj
    obtain ⟨x, hx⟩ := hobj hji
    rw [Tables.deleted_obj_ne hji, hx]
    exact h.rounds j hj
  · by_cases hji : j = i
    · subst hji
      rw [Tables.deleted_obj_self]
      exact ⟨rfl, rfl, rfl⟩
    · obtain ⟨x, hx⟩ := hobj hji
      rw [Tables.deleted_obj_ne hji, hx]
      exact h.unused j fun hlive => hj (Tables.deleted_live.mpr ⟨hji, hlive⟩)
  · have := h.free_le k hk
    rw [hfree]
    show (T.blk k).dataStart + _ ≤ _
    split
    · subst k; omega
    · exact this
  · rw [Tables.deleted_objectsOf hi, hfree]
    show Tiles _ _ _ (T.blk k).dataStart _
    -- the tiling loses a slot in the block of the deleted object; elsewhere no position changes
    by_cases hk' : k = (T.obj i).lblock
    · subst hk'
      rw [if_pos rfl, if_pos rfl, hend]
      refine (h.tiles _ hl).erase hmem (fun j hj hji => ?_) (fun j hj hji => ?_)
      · obtain ⟨-, hlive, hlb⟩ := Tables.mem_objectsOf.mp hj
        rw [Tables.deleted_obj_ne hji, h.slotsApart.shift_dataIndex hi hlive]
        simp only [hlb, true_and]
      · obtain ⟨x, hx⟩ := hobj hji
        rw [Tables.slotSize, Tables.deleted_obj_ne hji, hx, Tables.slotSize]
    · rw [if_neg hk', if_neg hk']
      refine (h.tiles k hk).congr (fun j hj => ?_) (fun j hj => ?_)
      all_goals
        obtain ⟨-, hlive, hlb⟩ := Tables.mem_objectsOf.mp hj
        have hji : j ≠ i := fun he => hk' (by rw [← hlb, he])
      · rw [Tables.deleted_obj_ne hji, h.slotsApart.shift_dataIndex hi hlive, if_neg]
        exact fun hc => hk' (by rw [← hlb, hc.1])
      · obtain ⟨x, hx⟩ := hobj hji
        rw [Tables.slotSize, Tables.deleted_obj_ne hji, hx, Tables.slotSize]
  · obtain ⟨hji, hj⟩ := Tables.deleted_live.mp hj
    rw [Tables.deleted_obj_ne hji, h.slotsApart.shift_dataIndex hi hj]
    split
    · exact Nat.dvd_sub (h.index_aligned j hj) (dvd_aligned cfg (h.rounds i hi))
    · exact h.index_aligned j hj
  · rw [hfree]
    split
    · rw [hend]
      exact Nat.dvd_sub (h.end_aligned _ hl) (dvd_aligned cfg (h.rounds i hi))
    · exact h.end_aligned k hk

end Deleted

/-! ### The invariant after an operation

A create leaves the data blocks where they are. Write and delete move the block of the object to the
data scratch block and leave its old block as the new scratch block. -/

variable {s i : Nat}

/-- A create changes the home of logical block 0 only. -/
theorem BlocksOk.created {l size : Nat} {u : UInt32} (h : BlocksOk cfg T scratch)
    (hs : s = 0 ∨ s = 1) : BlocksOk cfg (T.created cfg s i l size u) scratch := by
  refine h.relocate (l := 0) hs cfg.numActiveDblocks_pos (fun k _ => ?_) (fun k _ => rfl)
  simp only [Tables.created, Tables.relocated]
  by_cases hk0 : k = 0
  · rw [if_pos hk0, if_pos hk0]
  · rw [if_neg hk0, if_neg hk0, if_neg hk0]
    split
    · subst k; rfl
    · rfl

/-- A create keeps the layout invariant. -/
theorem Layout.created {l size : Nat} {u : UInt32} (h : Layout cfg T active scratch)
    (hs : s = 0 ∨ s = 1) (hu : u ≠ 0) (hi : i < cfg.numAssets) (hfree : ¬ T.Live i)
    (hl : l < cfg.numActiveDblocks) (hsize : 0 < size) (hmax : size + cfg.flashProgramUnit ≤ 2 ^ 32)
    (hfit : sstGetAlignedFlashBytes cfg size ≤ (T.blk l).freeSize) :
    Layout cfg (T.created cfg s i l size u) s scratch where
  blocks := h.blocks.created hs
  slots := h.slots.created hu hi hfree hl hsize hmax hfit
  home _ _ _ := rfl

/-- A write keeps the layout invariant. -/
theorem Layout.written {curSize : Nat} (h : Layout cfg T active scratch) (hs : s = 0 ∨ s = 1)
    (hi : T.Live i) (hcur : curSize ≤ (T.obj i).maxSize) :
    Layout cfg (T.written s scratch i curSize) s (T.vacated scratch (T.obj i).lblock) where
  blocks := h.blocks.relocate hs (h.slots.lblock_lt i hi) (fun _ _ => rfl) (fun _ _ => rfl)
  slots := h.slots.written hi hcur
  home _ _ _ := rfl

/-- A delete keeps the layout invariant. -/
theorem Layout.deleted (h : Layout cfg T active scratch) (hs : s = 0 ∨ s = 1) (hi : T.Live i) :
    Layout cfg (T.deleted cfg s scratch i) s (T.vacated scratch (T.obj i).lblock) where
  blocks := h.blocks.relocate hs (h.slots.lblock_lt i hi) (fun _ _ => rfl) (fun _ _ => rfl)
  slots := h.slots.deleted hi
  home _ _ _ := rfl

/-! ### Placement after an operation

The same for `Placed`. The size of a new object may have wrapped when it was rounded, and the data
scratch block may be the home of another block; neither makes slots overlap. -/

/-- Moving a logical block to another data block. -/
theorem HomesOk.relocated {l d freeSize : Nat} (h : HomesOk cfg T) (hs : s = 0 ∨ s = 1)
    (hd : 0 < l → l < cfg.numActiveDblocks → 2 ≤ d ∧ d < cfg.totalNumOfBlocks)
    (hblk : T'.blk = T.relocated s l d freeSize) : HomesOk cfg T' := by
  have hstart (k : Nat) : (T'.blk k).dataStart = (T.blk k).dataStart := by
    rw [hblk]
    rfl
  refine ⟨?_, ?_, fun k hk0 hk => ?_, fun k hk0 hk => ?_⟩
  · rw [hblk]
    exact hs
  · rw [hstart, h.metaStart]
  · have hphys : (T'.blk k).physId = if k = l then d else (T.blk k).physId := by
      rw [hblk]
      exact if_neg (by omega)
    rw [hphys]
    split
    · rename_i hkl
      subst hkl
      exact hd hk0 hk
    · exact h.dataHome k hk0 hk
  · rw [hstart, h.dataStart k hk0 hk]

/-- A new slot begins behind all the others of its block, whatever its size. -/
theorem SlotsApart.created {l size : Nat} {u : UInt32} (h : SlotsApart cfg T)
    (hi : i < cfg.numAssets) (hl : l < cfg.numActiveDblocks)
    (hfit : sstGetAlignedFlashBytes cfg size ≤ (T.blk l).freeSize) :
    SlotsApart cfg (T.created cfg s i l size u) := by
  have hfl := h.free_le l hl
  have hfree (k : Nat) : ((T.created cfg s i l size u).blk k).freeSize
      = if k = l then (T.blk l).freeSize - sstGetAlignedFlashBytes cfg size
        else (T.blk k).freeSize := rfl
  have hstart (k : Nat) : ((T.created cfg s i l size u).blk k).dataStart = (T.blk k).dataStart := rfl
  have hself : (T.created cfg s i l size u).slotSize cfg i = sstGetAlignedFlashBytes cfg size := by
    rw [Tables.slotSize, Tables.created_obj_self]
  have hlive {j : Nat} (hji : j ≠ i) (hj : (T.created cfg s i l size u).Live j) : T.Live j := by
    rwa [Tables.Live, Tables.created_obj_ne hji] at hj
  have hslot {j : Nat} (hji : j ≠ i) :
      (T.created cfg s i l size u).slotSize cfg j = T.slotSize cfg j := by
    rw [Tables.slotSize, Tables.created_obj_ne hji, Tables.slotSize]
  -- the new slot begins where the used part ended
  have hnew {j : Nat} (hji : j ≠ i) (hj : T.Live j) (hjl : (T.obj j).lblock = l) :
      (T.obj j).dataIndex + T.slotSize cfg j ≤ cfg.blockSize - (T.blk l).freeSize :=
    hjl ▸ (h.bounds j hj).2
  refine ⟨fun j hj => ?_, fun j => ?_, fun k hk => ?_, fun j hj => ?_,
    fun j k hj hk hjk hlb => ?_⟩
  · by_cases hji : j = i
    · exact hji ▸ hi
    · exact h.live_lt j (hlive hji hj)
  · by_cases hji : j = i
    · rw [hji, Tables.created_obj_self]
      exact hl
    · rw [Tables.created_obj_ne hji]
      exact h.lblock_lt j
  · have := h.free_le k hk
    rw [hfree, hstart]
    split
    · subst k; omega
    · exact this
  · by_cases hji : j = i
    · subst hji
      rw [hself, Tables.created_obj_self, hstart, hfree, if_pos rfl]
      dsimp only
      omega
    · have hb := h.bounds j (hlive hji hj)
      rw [hslot hji, Tables.created_obj_ne hji, hstart, hfree]
      split
      · rename_i hjl
        rw [hjl] at hb ⊢
        omega
      · exact hb
  · by_cases hji : j = i
    · subst hji
      have hkj : k ≠ j := fun he => hjk he.symm
      rw [Tables.created_obj_self, Tables.created_obj_ne hkj] at hlb ⊢
      rw [hself, hslot hkj]
      exact Or.inr (hnew hkj (hlive hkj hk) hlb)
    · -- one of the two is the new object, or neither is
      by_cases hki : k = i
      · subst hki
        rw [Tables.created_obj_self, Tables.created_obj_ne hji] at hlb ⊢
        rw [hself, hslot hji]
        exact Or.inl (hnew hji (hlive hji hj) hlb.symm)
      · rw [Tables.created_obj_ne hji, Tables.created_obj_ne hki] at hlb ⊢
        rw [hslot hji, hslot hki]
        exact h.apart j k (hlive hji hj) (hlive hki hk) hjk hlb

/-- A write moves no slot. -/
theorem SlotsApart.written {d curSize : Nat} (h : SlotsApart cfg T) :
    SlotsApart cfg (T.written s d i curSize) := by
  have hfree (k : Nat) : ((T.written s d i curSize).blk k).freeSize = (T.blk k).freeSize := by
    simp only [Tables.written, Tables.relocated]
    split
    · subst k; rfl
    · rfl
  have hstart (k : Nat) : ((T.written s d i curSize).blk k).dataStart = (T.blk k).dataStart := rfl
  have hobj := T.written_obj s d i curSize
  have hslot (j : Nat) : (T.written s d i curSize).slotSize cfg j = T.slotSize cfg j := by
    obtain ⟨c, hc, -⟩ := hobj j
    rw [Tables.slotSize, hc, Tables.slotSize]
  refine ⟨fun j hj => h.live_lt j (Tables.written_live.mp hj), fun j => ?_, fun k hk => ?_,
    fun j hj => ?_, fun j k hj hk hjk hlb => ?_⟩
  · obtain ⟨c, hc, -⟩ := hobj j
    rw [hc]
    exact h.lblock_lt j
  · rw [hfree, hstart]
    exact h.free_le k hk
  · obtain ⟨c, hc, -⟩ := hobj j
    rw [hslot, hfree, hstart, hc]
    exact h.bounds j (Tables.written_live.mp hj)
  · obtain ⟨c, hc, -⟩ := hobj j
    obtain ⟨c', hc', -⟩ := hobj k
    rw [hc, hc'] at hlb ⊢
    rw [hslot, hslot]
    exact h.apart j k (Tables.written_live.mp hj) (Tables.written_live.mp hk) hjk hlb

/-- Slots that move down by the size of a deleted slot stay apart. -/
theorem SlotsApart.deleted {d : Nat} (h : SlotsApart cfg T) (hi : T.Live i) :
    SlotsApart cfg (T.deleted cfg s d i) := by
  have hb := h.bounds i hi
  have hfl := h.free_le _ (h.lblock_lt i)
  have hfree (k : Nat) : ((T.deleted cfg s d i).blk k).freeSize
      = if k = (T.obj i).lblock then (T.blk (T.obj i).lblock).freeSize + T.slotSize cfg i
        else (T.blk k).freeSize := rfl
  have hstart (k : Nat) : ((T.deleted cfg s d i).blk k).dataStart = (T.blk k).dataStart := rfl
  have hlb {j : Nat} (hji : j ≠ i) : ((T.deleted cfg s d i).obj j).lblock = (T.obj j).lblock := by
    obtain ⟨x, hx⟩ := (T.deletedSlot cfg i).shift_eq (T.obj j)
    rw [Tables.deleted_obj_ne hji, hx]
  have hslot {j : Nat} (hji : j ≠ i) :
      (T.deleted cfg s d i).slotSize cfg j = T.slotSize cfg j := by
    obtain ⟨x, hx⟩ := (T.deletedSlot cfg i).shift_eq (T.obj j)
    rw [Tables.slotSize, Tables.deleted_obj_ne hji, hx, Tables.slotSize]
  have hidx {j : Nat} (hji : j ≠ i) (hj : T.Live j) : ((T.deleted cfg s d i).obj j).dataIndex
      = if (T.obj j).lblock = (T.obj i).lblock ∧ (T.obj i).dataIndex < (T.obj j).dataIndex then
          (T.obj j).dataIndex - T.slotSize cfg i
        else (T.obj j).dataIndex := by
    rw [Tables.deleted_obj_ne hji, h.shift_dataIndex hi hj]
  refine ⟨fun j hj => h.live_lt j (Tables.deleted_live.mp hj).2, fun j => ?_, fun k hk => ?_,
    fun j hj => ?_, fun j k hj hk hjk hl => ?_⟩
  · by_cases hji : j = i
    · rw [hji, Tables.deleted_obj_self]
      exact cfg.numActiveDblocks_pos
    · rw [hlb hji]
      exact h.lblock_lt j
  · have := h.free_le k hk
    rw [hfree, hstart]
    split
    · subst k; omega
    · exact this
  · obtain ⟨hji, hj⟩ := Tables.deleted_live.mp hj
    have hbj := h.bounds j hj
    rw [hslot hji, hlb hji, hidx hji hj, hstart, hfree]
    by_cases hl : (T.obj j).lblock = (T.obj i).lblock
    · have hap := h.apart i j hi hj (Ne.symm hji) hl
      rw [hl] at hbj ⊢
      simp only [true_and, if_true]
      split <;> omega
    · rw [if_neg hl, if_neg fun hc => hl hc.1]
      exact hbj
  · obtain ⟨hji, hj⟩ := Tables.deleted_live.mp hj
    obtain ⟨hki, hk⟩ := Tables.deleted_live.mp hk
    rw [hlb hji, hlb hki] at hl
    have hap := h.apart j k hj hk hjk hl
    rw [hslot hji, hslot hki, hidx hji hj, hidx hki hk, hl]
    -- both objects lie before the deleted slot, both behind it, or one on each side
    by_cases hli : (T.obj j).lblock = (T.obj i).lblock
    · have hij := h.apart i j hi hj (Ne.symm hji) hli
      have hik := h.apart i k hi hk (Ne.symm hki) (hl.trans hli)
      simp only [hli, true_and]
      split <;> split <;> omega
    · rw [if_neg fun hc => hli hc.1, if_neg fun hc => hli hc.1]
      exact hap

namespace Placed

variable (h : Placed cfg T active) (hs : s = 0 ∨ s = 1)
include h hs

theorem created {l size : Nat} {u : UInt32} (hi : i < cfg.numAssets)
    (hl : l < cfg.numActiveDblocks)
    (hfit : sstGetAlignedFlashBytes cfg size ≤ (T.blk l).freeSize) :
    Placed cfg (T.created cfg s i l size u) s where
  homes := h.homes.relocated hs (h.homes.dataHome l) rfl
  slots := h.slots.created hi hl hfit
  home _ _ _ := rfl

theorem written {d curSize : Nat} (hd : 2 < cfg.totalNumOfBlocks → 2 ≤ d ∧ d < cfg.totalNumOfBlocks) :
    Placed cfg (T.written s d i curSize) s where
  homes := h.homes.relocated hs (fun h0 hl => hd (two_lt_blocks_of_pos h0 hl)) rfl
  slots := h.slots.written
  home _ _ _ := rfl

theorem deleted {d : Nat} (hd : 2 < cfg.totalNumOfBlocks → 2 ≤ d ∧ d < cfg.totalNumOfBlocks)
    (hi : T.Live i) : Placed cfg (T.deleted cfg s d i) s where
  homes := h.homes.relocated hs (fun h0 hl => hd (two_lt_blocks_of_pos h0 hl)) rfl
  slots := h.slots.deleted hi
  home _ _ _ := rfl

end Placed

end Tfm.Sst
