import TrustedFirmware.Sst.Proofs.Mount

/-!
# Wiping the store

`sst_core_wipe_all` erases both metadata blocks and builds a new metadata block in block 1, whose
tables are `emptyTables`. The data blocks it erases are those of its loop only (`mem_wipedBlocks`):
the bounds of the loop leave out the scratch block and the last blocks.

The result of the first table write, that of the descriptor of logical block 0, is dropped by the
source. `wipeCallsUnder` has the calls of a wipe in which this write may have failed; `wipeCalls` is
the case in which it has not.
-/

namespace Tfm.Sst

open Word32 BlockFlash Device Tiling

variable {cfg : Config} {r : Ram} {f : Flash}

/-! ## The tables of an empty store

Every entry is free and every logical block is empty. -/

/-- The tables that a wipe writes. -/
def emptyTables (cfg : Config) : Tables where
  blk l :=
    if l = 0 then
      { physId := 0, dataStart := cfg.allMetadataSize,
        freeSize := cfg.blockSize - cfg.allMetadataSize }
    else if l < cfg.numActiveDblocks then
      { physId := l - 1 + cfg.initDblockStart, dataStart := 0, freeSize := cfg.blockSize }
    else ⟨0, 0, 0⟩
  obj _ := ⟨0, 0, 0, 0, 0⟩

theorem emptyTables_not_live (i : Nat) : ¬ (emptyTables cfg).Live i := fun h => h rfl

theorem emptyTables_blk_pos {l : Nat} (h0 : 0 < l) (hl : l < cfg.numActiveDblocks) :
    (emptyTables cfg).blk l
      = { physId := l - 1 + cfg.initDblockStart, dataStart := 0, freeSize := cfg.blockSize } := by
  show (if l = 0 then _ else _) = _
  rw [if_neg (by omega), if_pos hl]

theorem initDblockStart_eq (hN : 2 < cfg.totalNumOfBlocks) : cfg.initDblockStart = 3 :=
  if_neg (by omega)

/-- The tables of an empty store satisfy the layout invariant. -/
theorem emptyTables_layout (active : Nat) :
    Layout cfg (emptyTables cfg) active cfg.initScratchDblock where
  blocks :=
    { metaHome := Or.inl rfl
      metaStart := rfl
      dataHome := fun l h0 hl => by
        have hN := two_lt_blocks_of_pos h0 hl
        have hnb := cfg.numActiveDblocks_eq
        rw [emptyTables_blk_pos h0 hl, initDblockStart_eq hN]
        rw [if_neg (by omega)] at hnb
        show 2 ≤ l - 1 + 3 ∧ l - 1 + 3 < cfg.totalNumOfBlocks
        omega
      dataStart := fun l h0 hl => by rw [emptyTables_blk_pos h0 hl]
      dataInj := fun l k hl0 hl hk0 hk h => by
        rw [emptyTables_blk_pos hl0 hl, emptyTables_blk_pos hk0 hk] at h
        have h' : l - 1 + cfg.initDblockStart = k - 1 + cfg.initDblockStart := h
        omega
      scratch_lt := by
        have := cfg.two_le_blocks
        unfold BuildOptions.initScratchDblock
        split <;> omega
      scratch_ge := fun hN => by
        unfold BuildOptions.initScratchDblock
        rw [if_neg (by omega)]
      scratch_ne := fun l h0 hl => by
        have hN := two_lt_blocks_of_pos h0 hl
        rw [emptyTables_blk_pos h0 hl, initDblockStart_eq hN]
        unfold BuildOptions.initScratchDblock
        rw [if_neg (by omega)]
        show l - 1 + 3 ≠ 2
        omega }
  slots :=
    { live_lt := fun i h => absurd h (emptyTables_not_live i)
      lblock_lt := fun i h => absurd h (emptyTables_not_live i)
      cur_le := fun i h => absurd h (emptyTables_not_live i)
      max_pos := fun i h => absurd h (emptyTables_not_live i)
      rounds := fun i h => absurd h (emptyTables_not_live i)
      unused := fun i _ => ⟨rfl, rfl, rfl⟩
      free_le := fun l hl => by
        have := cfg.metadata_fits
        rcases Nat.eq_zero_or_pos l with rfl | h0
        · show cfg.allMetadataSize + (cfg.blockSize - cfg.allMetadataSize) ≤ cfg.blockSize
          omega
        · rw [emptyTables_blk_pos h0 hl]
          exact (Nat.zero_add _).le
      tiles := fun l hl => by
        -- no objects tile an empty used part
        have hnone : (emptyTables cfg).objectsOf cfg l = ∅ := by
          ext i
          simp [Tables.mem_objectsOf, emptyTables_not_live]
        have hend : cfg.blockSize - ((emptyTables cfg).blk l).freeSize
            = ((emptyTables cfg).blk l).dataStart := by
          have := cfg.metadata_fits
          rcases Nat.eq_zero_or_pos l with rfl | h0
          · show cfg.blockSize - (cfg.blockSize - cfg.allMetadataSize) = cfg.allMetadataSize
            omega
          · rw [emptyTables_blk_pos h0 hl]
            exact Nat.sub_self _
        rw [hnone, hend]
        exact Tiles.empty _ _ _
      index_aligned := fun i h => absurd h (emptyTables_not_live i)
      end_aligned := fun l hl => by
        have hfit := cfg.metadata_fits
        rcases Nat.eq_zero_or_pos l with rfl | h0
        · show cfg.flashProgramUnit ∣ cfg.blockSize - (cfg.blockSize - cfg.allMetadataSize)
          rw [show cfg.blockSize - (cfg.blockSize - cfg.allMetadataSize)
            = cfg.allMetadataSize by omega, cfg.allMetadataSize_eq]
          rcases cfg.unit_ok with h | h | h <;> rw [h] <;> omega
        · rw [emptyTables_blk_pos h0 hl]
          show cfg.flashProgramUnit ∣ cfg.blockSize - cfg.blockSize
          rw [Nat.sub_self]
          exact Nat.dvd_zero _ }
  home i h := absurd h (emptyTables_not_live i)

/-! ## The calls of a wipe

The three loops of the source and the parts around them. -/

/-- The blocks of the erase loop, `SST_INIT_DBLOCK_START` up to but not including
`SST_NUM_DEDICATED_DBLOCKS`. -/
def wipedBlocks (cfg : Config) : List Nat :=
  List.range' cfg.initDblockStart (cfg.numDedicatedDblocks - cfg.initDblockStart)

/-- The calls that build the new metadata block, up to its header. -/
def wipeBuildCalls (cfg : Config) : List Call :=
  [.write 1 (blkOff 0) ((emptyTables cfg).blk 0).encode] ++
  ((wipedBlocks cfg).map Call.erase ++
  (blockWrites 1 (emptyTables cfg).blk ((List.range cfg.numDedicatedDblocks).map (· + 1)) ++
    objectWrites cfg 1 (emptyTables cfg).obj (List.range cfg.numAssets)))

/-- All calls of a wipe that erases the metadata block `x` first. -/
def wipeCalls (cfg : Config) (x : Nat) (h : MetadataBlockHeader) : List Call :=
  [.erase x] ++ ([.erase (sstOtherMetaBlock x)] ++ (wipeBuildCalls cfg ++ headerCalls cfg 1 h))

/-- The erase loop, with no failure to remember. -/
theorem does_eraseBlocks (is : List Nat) :
    Does (sstCoreWipeAll.eraseBlocks is false) r f (.ok false) r (is.map Call.erase) := by
  induction is generalizing f with
  | nil => exact Does.pure _
  | cons i is ih => exact Does.bind (does_flashErase i).attempt ih

theorem does_initBlocks (hs : r.ctx.scratchMetablock = 1) (is : List Nat)
    (his : ∀ i ∈ is, i + 1 < cfg.numActiveDblocks) :
    Does (sstCoreWipeAll.initBlocks cfg is) r f (.ok ()) r
      (blockWrites 1 (emptyTables cfg).blk (is.map (· + 1))) := by
  induction is generalizing f with
  | nil => exact Does.pure ()
  | cons i is ih =>
    have hi := his i List.mem_cons_self
    have hw := (does_updateScratchBlockMeta (r := r) (f := f) hi.le
      ((emptyTables cfg).blk (i + 1))).orElse .systemError
    rw [hs] at hw
    rw [emptyTables_blk_pos (Nat.succ_pos i) hi] at hw
    have hall := hw.bind (k := fun _ => sstCoreWipeAll.initBlocks cfg is)
      (ih fun j hj => his j (List.mem_cons_of_mem _ hj))
    -- the loop counts from 0, the descriptors from 1
    have hcalls : blockWrites 1 (emptyTables cfg).blk ((i :: is).map (· + 1))
        = [.write 1 (blkOff (i + 1))
            ({ physId := i + 1 - 1 + cfg.initDblockStart, dataStart := 0,
               freeSize := cfg.blockSize } : BlockMetadata).encode]
          ++ blockWrites 1 (emptyTables cfg).blk (is.map (· + 1)) := by
      simp [blockWrites, emptyTables_blk_pos (Nat.succ_pos i) hi]
    rw [hcalls]
    exact hall

theorem does_initObjects (hs : r.ctx.scratchMetablock = 1) (is : List Nat)
    (his : ∀ i ∈ is, i < cfg.numAssets) :
    Does (sstCoreWipeAll.initObjects cfg is) r f (.ok ()) r
      (objectWrites cfg 1 (emptyTables cfg).obj is) := by
  induction is generalizing f with
  | nil => exact Does.pure ()
  | cons i is ih =>
    have hi := his i List.mem_cons_self
    have hw := (does_updateScratchObjectMeta (r := r) (f := f) hi.le
      ⟨0, 0, 0, 0, 0⟩).orElse .systemError
    rw [hs] at hw
    exact hw.bind (ih fun j hj => his j (List.mem_cons_of_mem _ hj))

/-- The header a wipe starts from. -/
def MetadataBlockHeader.fresh (cfg : Config) (h : MetadataBlockHeader) : MetadataBlockHeader :=
  { h with
    activeSwapCount := 0
    scratchIdx := cfg.initScratchDblock
    fsVersion := sstSupportedVersion }

/-- The memory after a wipe. -/
def Ram.wiped (h : MetadataBlockHeader) (iv : Vector UInt8 12) : Ram where
  ctx := { metaBlockHeader := h, activeMetablock := 1, scratchMetablock := 0 }
  cryptoIvBuf := iv

/-- The calls of a wipe behind the descriptor of logical block 0, up to the header. -/
def wipeTailCalls (cfg : Config) : List Call :=
  (wipedBlocks cfg).map Call.erase ++
  (blockWrites 1 (emptyTables cfg).blk ((List.range cfg.numDedicatedDblocks).map (· + 1)) ++
    objectWrites cfg 1 (emptyTables cfg).obj (List.range cfg.numAssets))

theorem wipeBuildCalls_eq : wipeBuildCalls cfg
    = [.write 1 (blkOff 0) ((emptyTables cfg).blk 0).encode] ++ wipeTailCalls cfg := rfl

/-- The write of the descriptor of logical block 0, or nothing when it failed. -/
def descriptorCalls (cfg : Config) (failed : Bool) : List Call :=
  if failed then [] else [.write 1 (blkOff 0) ((emptyTables cfg).blk 0).encode]

/-- The calls of a wipe that goes on although the write of the descriptor of logical block 0
may have failed. -/
def wipeCallsUnder (cfg : Config) (failed : Bool) (x : Nat) (h : MetadataBlockHeader) : List Call :=
  [.erase x] ++ ([.erase (sstOtherMetaBlock x)] ++
    (descriptorCalls cfg failed ++ (wipeTailCalls cfg ++ headerCalls cfg 1 h)))

theorem wipeCallsUnder_false (x : Nat) (h : MetadataBlockHeader) :
    wipeCallsUnder cfg false x h = wipeCalls cfg x h := by
  rw [wipeCallsUnder, wipeCalls, wipeBuildCalls_eq, List.append_assoc]
  rfl

/-! ### The build of the new metadata block -/

/-- The part of a wipe behind the descriptor of logical block 0. -/
def wipeTail (cfg : Config) : SstM Unit := do
  let failed ← sstCoreWipeAll.eraseBlocks (wipedBlocks cfg) false
  if failed then
    M.fail .systemError
  else
    sstCoreWipeAll.initBlocks cfg (List.range cfg.numDedicatedDblocks)
    sstCoreWipeAll.initObjects cfg (List.range cfg.numAssets)
    M.orElse (sstMetaWriteScratchMetaHeader cfg) .systemError
    sstMetaSwapMetablocks

/-- The memory while a wipe builds the new metadata block. -/
def Ram.wiping (cfg : Config) (r : Ram) : Ram :=
  { r with ctx := { metaBlockHeader := r.ctx.metaBlockHeader.fresh cfg
                    activeMetablock := 0
                    scratchMetablock := 1 } }

theorem does_wipeTail (hc : cfg.CryptoWorks) (r : Ram) (f : Flash) :
    ∃ h' iv, HeaderNext cfg (r.ctx.metaBlockHeader.fresh cfg) h'
      ∧ Authentic cfg h' (device.replay (wipeTailCalls cfg ++ headerCalls cfg 1 h') f 1)
      ∧ Does (wipeTail cfg) (r.wiping cfg) f (.ok ()) (Ram.wiped h' iv)
          (wipeTailCalls cfg ++ headerCalls cfg 1 h') := by
  obtain ⟨h', iv, hnext, hauth, hdoes⟩ := does_writeScratchMetaHeader (r := r.wiping cfg)
    (f := device.replay (wipeTailCalls cfg) f) hc
  refine ⟨h', iv, hnext, ?_, ?_⟩
  · rw [Model.replay_append]
    exact hauth
  · have hded : ∀ i ∈ List.range cfg.numDedicatedDblocks, i + 1 < cfg.numActiveDblocks := by
      intro i hi
      have := List.mem_range.mp hi
      show i + 1 < cfg.numDedicatedDblocks + 1
      omega
    simp only [wipeTailCalls, List.append_assoc, Model.replay_append] at hdoes ⊢
    have hend := (hdoes.orElse .systemError).bind (k := fun _ => sstMetaSwapMetablocks)
      (Does.modifyMem _)
    rw [List.append_nil] at hend
    exact Does.bind (does_eraseBlocks (wipedBlocks cfg)) (Does.bind (does_initBlocks rfl _ hded)
      (Does.bind (does_initObjects rfl _ fun i hi => List.mem_range.mp hi) hend))

/-- The descriptor of logical block 0 that a wipe writes. -/
theorem emptyTables_blk_zero : (emptyTables cfg).blk 0
    = { physId := sstMetadataBlock0, dataStart := cfg.allMetadataSize,
        freeSize := sub32 cfg.blockSize cfg.allMetadataSize } := by
  have hB := cfg.blockSize_le
  rw [sub32_eq cfg.metadata_fits (by omega)]
  rfl

theorem does_wipe_build (hc : cfg.CryptoWorks) :
    ∃ h' iv, HeaderNext cfg (r.ctx.metaBlockHeader.fresh cfg) h'
      ∧ Authentic cfg h' (device.replay (wipeBuildCalls cfg ++ headerCalls cfg 1 h') f 1)
      ∧ Does (sstCoreWipeAll.build cfg) r f (.ok ()) (Ram.wiped h' iv)
          (wipeBuildCalls cfg ++ headerCalls cfg 1 h') := by
  obtain ⟨h', iv, hnext, hauth, hdoes⟩ := does_wipeTail hc r
    (device.replay [.write 1 (blkOff 0) ((emptyTables cfg).blk 0).encode] f)
  refine ⟨h', iv, hnext, ?_, ?_⟩
  · rw [wipeBuildCalls, List.append_assoc, Model.replay_append]
    exact hauth
  · have hdesc := (does_updateScratchBlockMeta (r := r.wiping cfg) (f := f)
      cfg.numActiveDblocks_pos.le ((emptyTables cfg).blk 0)).attempt.bind
      (k := fun _ => wipeTail cfg) hdoes
    rw [wipeBuildCalls, List.append_assoc]
    rw [emptyTables_blk_zero] at hdesc ⊢
    exact Does.read_bind (Does.modifyMem _) (Does.read_bind (Does.modifyMem _) hdesc)

/-- A wipe without faults. -/
theorem does_wipe (hc : cfg.CryptoWorks) (r : Ram) (f : Flash) :
    ∃ x h0 h' iv, (x = 0 ∨ x = 1) ∧ HeaderNext cfg (MetadataBlockHeader.fresh cfg h0) h'
      ∧ Authentic cfg h' (device.replay (wipeCalls cfg x h') f 1)
      ∧ Does (sstCoreWipeAll cfg) r f (.ok ()) (Ram.wiped h' iv) (wipeCalls cfg x h') := by
  have hbuild (r1 : Ram) (x : Nat) := does_wipe_build (r := r1)
    (f := device.replay [.erase (sstOtherMetaBlock x)] (device.replay [.erase x] f)) hc
  have hauth (x : Nat) (h' : MetadataBlockHeader) :
      device.replay (wipeCalls cfg x h') f
        = device.replay (wipeBuildCalls cfg ++ headerCalls cfg 1 h')
            (device.replay [.erase (sstOtherMetaBlock x)] (device.replay [.erase x] f)) := by
    rw [wipeCalls, Model.replay_append, Model.replay_append]
  -- which metadata block is erased first depends on what can be loaded
  rcases getActiveMetablock_outcome cfg r f with ⟨e, hget⟩ | ⟨b, hb, -, hget⟩
  · obtain ⟨h', iv, hnext, ha, hdoes⟩ := hbuild r 0
    exact ⟨0, _, h', iv, Or.inl rfl, hnext, by rw [hauth]; exact ha,
      Does.read_bind hget.attempt (Does.read_bind Does.getMem ((does_flashErase _).bind
        ((does_flashErase _).bind hdoes)))⟩
  · obtain ⟨h', iv, hnext, ha, hdoes⟩ := hbuild (r.withMetablock b) (sstOtherMetaBlock b)
    exact ⟨sstOtherMetaBlock b, _, h', iv, otherMetaBlock_cases _, hnext, by rw [hauth]; exact ha,
      Does.read_bind hget.attempt (Does.read_bind Does.getMem ((does_flashErase _).bind
        ((does_flashErase _).bind hdoes)))⟩

/-! ## The flash after a wipe

A wipe copies from nowhere, so every row can be computed on its own. -/

/-- The erase loop starts at block 3 and stops before block `N - 3`. -/
theorem mem_wipedBlocks {b : Nat} :
    b ∈ wipedBlocks cfg ↔ 3 ≤ b ∧ b + 3 < cfg.totalNumOfBlocks := by
  unfold wipedBlocks BuildOptions.numDedicatedDblocks BuildOptions.initDblockStart
  rw [List.mem_range'_1]
  split <;> omega

theorem rowAfter_erase (b x : Nat) (row : Row) :
    rowAfter b f [.erase x] row = if x = b then Row.erased else row := rfl

theorem rowAfter_erases (b : Nat) (xs : List Nat) (row : Row) :
    rowAfter b f (xs.map Call.erase) row = if b ∈ xs then Row.erased else row := by
  induction xs generalizing row with
  | nil => simp
  | cons x xs ih =>
    show rowAfter b f (xs.map Call.erase) (if x = b then Row.erased else row) = _
    rw [ih]
    by_cases hx : x = b
    · simp [hx]
    · simp [hx, Ne.symm hx]

theorem rowAfter_blockWrites_ne {b s : Nat} (hb : b ≠ s) (e : Nat → BlockMetadata)
    (is : List Nat) (row : Row) : rowAfter b f (blockWrites s e is) row = row := by
  refine rowAfter_of_target_ne (fun c hc => ?_) row
  obtain ⟨l, -, rfl⟩ := List.mem_map.mp hc
  simpa [Call.target] using hb.symm

theorem rowAfter_objectWrites_ne {b s : Nat} (hb : b ≠ s) (e : Nat → Assetmeta)
    (is : List Nat) (row : Row) : rowAfter b f (objectWrites cfg s e is) row = row := by
  refine rowAfter_of_target_ne (fun c hc => ?_) row
  obtain ⟨l, -, rfl⟩ := List.mem_map.mp hc
  simpa [Call.target] using hb.symm

theorem rowAfter_headerCalls_ne {b s : Nat} (hb : b ≠ s) (h : MetadataBlockHeader) (row : Row) :
    rowAfter b f (headerCalls cfg s h) row = row := by
  refine rowAfter_of_target_ne (fun c hc => ?_) row
  rw [target_headerCalls hc]
  simpa using hb.symm

theorem sourcesIn_wipeCallsUnder {failed : Bool} {x : Nat} {h : MetadataBlockHeader} :
    SourcesIn (fun _ => False) (wipeCallsUnder cfg failed x h) := by
  intro c hc
  refine ⟨fun src hsrc => ?_, fun _ _ h => h⟩
  simp only [wipeCallsUnder, descriptorCalls, wipeTailCalls, List.mem_append, List.mem_singleton,
    List.mem_map, blockWrites, objectWrites, List.mem_ite_nil_left] at hc
  rcases hc with rfl | rfl | ⟨-, rfl⟩ | (⟨_, -, rfl⟩ | ⟨_, -, rfl⟩ | ⟨_, -, rfl⟩) | hc
  · cases hsrc
  · cases hsrc
  · cases hsrc
  · cases hsrc
  · cases hsrc
  · cases hsrc
  · exact (sourcesIn_headerCalls c hc).1 src hsrc

theorem sourcesIn_wipeCalls {x : Nat} {h : MetadataBlockHeader} :
    SourcesIn (fun _ => False) (wipeCalls cfg x h) := by
  rw [← wipeCallsUnder_false]
  exact sourcesIn_wipeCallsUnder

theorem sourcesIn_wipeBuildCalls : SourcesIn (fun _ => False) (wipeBuildCalls cfg) :=
  fun c hc => sourcesIn_wipeCalls (x := 0) (h := ⟨⟨default, default⟩, 0, 0, 0, default⟩) c
    (List.mem_append_right _ (List.mem_append_right _ (List.mem_append_left _ hc)))

theorem rowAfter_descriptorCalls_ne {b : Nat} (hb : b ≠ 1) (failed : Bool) (row : Row) :
    rowAfter b f (descriptorCalls cfg failed) row = row := by
  cases failed with
  | true => rfl
  | false => exact if_neg fun he => hb he.symm

/-- The flash after a wipe: block 0 is erased, block 1 holds the new metadata, and of the
other blocks those of the erase loop are erased. -/
theorem replay_wipeCallsUnder {x : Nat} (hx : x = 0 ∨ x = 1) (failed : Bool)
    (h : MetadataBlockHeader) (f : Flash) (b : Nat) :
    device.replay (wipeCallsUnder cfg failed x h) f b
      = if b = 0 then Row.erased
        else if b = 1 then headerRow cfg h
          (rowAfter 1 f (descriptorCalls cfg failed ++ wipeTailCalls cfg) Row.erased)
        else if b ∈ wipedBlocks cfg then Row.erased else f b := by
  have hboth (row : Row) (hb : b = 0 ∨ b = 1) :
      rowAfter b f [.erase (sstOtherMetaBlock x)] (rowAfter b f [.erase x] row) = Row.erased := by
    rw [rowAfter_erase, rowAfter_erase]
    rcases hx with rfl | rfl <;> rcases hb with rfl | rfl <;> rfl
  rw [replay_eq_rowAfter sourcesIn_wipeCallsUnder]
  simp only [wipeCallsUnder, rowAfter_append]
  -- the tables and the header go to block 1 only
  by_cases hb1 : b = 1
  · subst hb1
    rw [hboth _ (Or.inr rfl), rowAfter_headerCalls]
    rfl
  · simp only [wipeTailCalls, rowAfter_append, rowAfter_headerCalls_ne hb1,
      rowAfter_objectWrites_ne hb1, rowAfter_blockWrites_ne hb1, rowAfter_erases,
      rowAfter_descriptorCalls_ne hb1]
    by_cases hb0 : b = 0
    · rw [if_pos hb0, hboth _ (Or.inl hb0), ite_self]
    · rw [if_neg hb0, if_neg hb1]
      have hother : sstOtherMetaBlock x ≠ b := by
        rcases otherMetaBlock_cases x with h | h <;> omega
      have hxb : x ≠ b := by omega
      rw [rowAfter_erase, rowAfter_erase, if_neg hother, if_neg hxb]

theorem replay_wipeCalls {x : Nat} (hx : x = 0 ∨ x = 1) (h : MetadataBlockHeader) (f : Flash)
    (b : Nat) :
    device.replay (wipeCalls cfg x h) f b
      = if b = 0 then Row.erased
        else if b = 1 then headerRow cfg h (rowAfter 1 f (wipeBuildCalls cfg) Row.erased)
        else if b ∈ wipedBlocks cfg then Row.erased else f b := by
  rw [← wipeCallsUnder_false, replay_wipeCallsUnder hx]
  rfl

theorem emptyTables_fits (l : Nat) (hl : l < cfg.numActiveDblocks) :
    ((emptyTables cfg).blk l).Fits :=
  (emptyTables_layout 0).blk_fits hl

/-! ### The tables after a wipe -/

/-- Behind the descriptor of logical block 0 a wipe writes the tables of an empty store. -/
theorem tablesOf_rowAfter_wipeTail (row : Row) :
    tablesOf cfg (rowAfter 1 f (wipeTailCalls cfg) row)
      = (emptyTables cfg).setBlk 0 ((tablesOf cfg row).blk 0) := by
  have hded {l : Nat} : l ∈ (List.range cfg.numDedicatedDblocks).map (· + 1)
      ↔ l ≠ 0 ∧ l < cfg.numActiveDblocks := by
    rw [List.mem_map, show cfg.numActiveDblocks = cfg.numDedicatedDblocks + 1 from rfl]
    constructor
    · rintro ⟨i, hi, rfl⟩
      have := List.mem_range.mp hi
      omega
    · intro h
      exact ⟨l - 1, List.mem_range.mpr (by omega), by omega⟩
  -- the erase loop starts behind the metadata blocks
  have herase (row : Row) : rowAfter 1 f ((wipedBlocks cfg).map Call.erase) row = row := by
    rw [rowAfter_erases, if_neg]
    rw [mem_wipedBlocks]
    omega
  have hobj (i : Nat) : ((emptyTables cfg).obj i).Fits := by
    show Assetmeta.Fits ⟨0, 0, 0, 0, 0⟩
    exact ⟨by decide, by decide, by decide, by decide⟩
  simp only [wipeTailCalls, rowAfter_append,
    tablesOf_rowAfter_objectWrites _ _ (fun j hj => List.mem_range.mp hj) hobj,
    tablesOf_rowAfter_blockWrites _ _ (fun l hl => (hded.mp hl).2)
      (fun l hl => emptyTables_fits l (hded.mp hl).2), herase]
  ext1
  · funext l
    rw [Tables.setBlk_blk]
    dsimp only
    by_cases hl0 : l = 0
    · rw [if_pos hl0, if_neg fun hl => (hded.mp hl).1 hl0, hl0]
    · rw [if_neg hl0]
      by_cases hl : l < cfg.numActiveDblocks
      · rw [if_pos (hded.mpr ⟨hl0, hl⟩)]
      · rw [if_neg fun h => hl (hded.mp h).2]
        simp [tablesOf, emptyTables, hl0, hl]
  · funext i
    show (if i ∈ _ then _ else _) = _
    by_cases hi : i < cfg.numAssets
    · rw [if_pos (List.mem_range.mpr hi)]
      rfl
    · rw [if_neg (fun h => hi (List.mem_range.mp h))]
      simp [Tables.setBlk, tablesOf, hi, emptyTables]

/-- A wipe writes the tables of an empty store. -/
theorem tablesOf_rowAfter_wipeBuild (row : Row) :
    tablesOf cfg (rowAfter 1 f (wipeBuildCalls cfg) row) = emptyTables cfg := by
  have hpos := cfg.numActiveDblocks_pos
  rw [wipeBuildCalls_eq, rowAfter_append, tablesOf_rowAfter_wipeTail, rowAfter_write_self,
    tablesOf_put_blk _ hpos (emptyTables_fits 0 hpos), Tables.setBlk_blk, if_pos rfl, Tables.setBlk,
    Function.update_eq_self]

end Tfm.Sst
