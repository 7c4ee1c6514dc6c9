import TrustedFirmware.Sst.Proofs.Write

/-!
# Delete

A delete rewrites the whole object table entry by entry and, in the same pass, collects the range of
bytes that has to move down. `Tables.movedRange` is that pass as a function of the table; the number
of bytes it collects is exactly what lies behind the deleted slot (`Layout.movedRange_snd`), the
source offset is the smallest position recorded in any entry behind the deleted one
(`Tables.movedRange_fst`).

A free entry keeps the position it had and counts with size 0. It can therefore set the source
offset, but only to a position inside the deleted slot or behind it.

`delete_outcome` has a case that create and write do not have: a build that validates records can
meet one it rejects in the middle of the pass, when part of the scratch block is programmed
(`Aborts`).
-/

namespace Tfm.Sst

open Word32 BlockFlash Device Tiling

variable {cfg : Config} {r : Ram} {f : Flash} {a s : Nat} {T : Tables}

/-! ## The pass over the table

One step of the loop of `sst_core_object_delete`, and the whole loop by induction on the entries
that are left. -/

/-- One step of the pass: source offset and number of bytes after entry `j` was seen. -/
def Tables.scanStep (cfg : Config) (T : Tables) (i : Nat) (x : Nat × Nat) (j : Nat) :
    Nat × Nat :=
  if j = i then x
  else ((T.deletedSlot cfg i).srcOffset x.1 (T.obj j),
    (T.deletedSlot cfg i).nbrBytes cfg x.2 (T.obj j))

/-- The range to move when object `i` is deleted: source offset and number of bytes. -/
def Tables.movedRange (cfg : Config) (T : Tables) (i : Nat) : Nat × Nat :=
  (List.range cfg.numAssets).foldl (T.scanStep cfg i) (cfg.blockSize, 0)

/-- The calls that rewrite the entries `is`. -/
def rewriteCalls (cfg : Config) (s : Nat) (T : Tables) (i : Nat) (is : List Nat) : List Call :=
  objectWrites cfg s (fun j => (T.deletedSlot cfg i).shift (T.obj j)) (is.filter (· ≠ i))

theorem assembles_rewrite {d i : Nat} (is : List Nat) :
    Assembles cfg s d (rewriteCalls cfg s T i is) := by
  intro c hc
  obtain ⟨j, -, rfl⟩ := List.mem_map.mp hc
  exact assembles_write (header_le_objOff j) _ (List.mem_singleton_self _)

/-- The pass over the table collects the range, or stops at an entry that is not accepted. -/
theorem scan_outcome (hsrc : r.ctx.activeMetablock ≠ r.ctx.scratchMetablock)
    (hT : activeTables cfg r f = T) {i : Nat} (is : List Nat)
    (his : ∀ j ∈ is, j < cfg.numAssets) (x : Nat × Nat) :
    (∃ e js, Does (sstCoreObjectDelete.scan cfg (T.deletedSlot cfg i) is x.1 x.2) r f (.error e) r
        (rewriteCalls cfg r.ctx.scratchMetablock T i js) ∧ ¬ T.Accepted cfg)
      ∨ Does (sstCoreObjectDelete.scan cfg (T.deletedSlot cfg i) is x.1 x.2) r f
          (.ok (is.foldl (T.scanStep cfg i) x)) r
          (rewriteCalls cfg r.ctx.scratchMetablock T i is)
        ∧ ∀ j ∈ is, j ≠ i → T.Passes cfg j := by
  -- over the entries that are left; the flash changes with each one that is rewritten
  induction is generalizing f x with
  | nil => exact Or.inr ⟨Does.pure _, fun j hj => by cases hj⟩
  | cons j is ih =>
    have hj := his j List.mem_cons_self
    have his' := fun k hk => his k (List.mem_cons_of_mem _ hk)
    rw [sstCoreObjectDelete.scan, show (T.deletedSlot cfg i).index = i from rfl]
    by_cases hji : j = i
    · have hcalls : rewriteCalls cfg r.ctx.scratchMetablock T i (j :: is)
          = rewriteCalls cfg r.ctx.scratchMetablock T i is := by
        simp [rewriteCalls, objectWrites, hji]
      rw [if_pos hji, hcalls, List.foldl_cons, Tables.scanStep, if_pos hji]
      rcases ih hT his' x with h | ⟨h, hall⟩
      · exact Or.inl h
      · refine Or.inr ⟨h, fun k hk hki => ?_⟩
        rcases List.mem_cons.mp hk with rfl | hk
        · exact absurd hji hki
        · exact hall k hk hki
    · have hcalls (js : List Nat) : rewriteCalls cfg r.ctx.scratchMetablock T i (j :: js)
          = [.write r.ctx.scratchMetablock (objOff cfg j)
              ((T.deletedSlot cfg i).shift (T.obj j)).encode]
            ++ rewriteCalls cfg r.ctx.scratchMetablock T i js := by
        simp [rewriteCalls, objectWrites, hji]
      rw [if_neg hji, hcalls, List.foldl_cons, Tables.scanStep, if_neg hji]
      -- an entry that is rejected ends the pass with some entries already programmed
      by_cases hp : T.Passes cfg j
      · have hread := does_readObjectMeta (r := r) (f := f) (by rw [hT]; exact hp) hj
        rw [hT] at hread
        have hwrite := (does_updateScratchObjectMeta (r := r) (f := f) hj.le
          ((T.deletedSlot cfg i).shift (T.obj j))).attempt
        have hT' : activeTables cfg r (device.replay [.write r.ctx.scratchMetablock (objOff cfg j)
            ((T.deletedSlot cfg i).shift (T.obj j)).encode] f) = T :=
          activeTables_replay hT fun c hc => by
            obtain rfl := List.mem_singleton.mp hc
            simpa [Call.target] using hsrc.symm
        rcases ih hT' his' ((T.deletedSlot cfg i).srcOffset x.1 (T.obj j),
            (T.deletedSlot cfg i).nbrBytes cfg x.2 (T.obj j)) with ⟨e, js, h, hacc⟩ | ⟨h, hall⟩
        · refine Or.inl ⟨e, j :: js, ?_, hacc⟩
          rw [hcalls]
          exact Does.read_bind hread (Does.bind hwrite h)
        · refine Or.inr ⟨Does.read_bind hread (Does.bind hwrite h), fun k hk hki => ?_⟩
          rcases List.mem_cons.mp hk with rfl | hk
          · exact hp
          · exact hall k hk hki
      · obtain ⟨e, h⟩ := does_readObjectMeta_error (r := r) (f := f) (by rw [hT]; exact hp) hj
        exact Or.inl ⟨e, [], Does.bind_error h, fun hacc => hp (hacc j hj)⟩

/-! ### The range it collects

The pass sums up sizes in 32 bits; the tiling bounds the sum by the block size, so it does not wrap. -/

/-- Entry `j` lies behind object `i` in its logical block. -/
def Tables.Behind (T : Tables) (i j : Nat) : Prop :=
  (T.obj j).lblock = (T.obj i).lblock ∧ (T.obj i).dataIndex < (T.obj j).dataIndex

instance (T : Tables) (i j : Nat) : Decidable (T.Behind i j) :=
  inferInstanceAs (Decidable (_ ∧ _))

theorem Tables.not_behind_self (T : Tables) (i : Nat) : ¬ T.Behind i i :=
  fun h => lt_irrefl _ h.2

theorem Tables.Behind.ne {i j : Nat} (h : T.Behind i j) : i ≠ j :=
  fun he => T.not_behind_self i (he ▸ h)

/-- A live object behind the slot starts at its end at the earliest. -/
theorem SlotsOk.end_le_of_behind (h : SlotsOk cfg T) {i j : Nat} (hi : T.Live i) (hj : T.Live j)
    (hb : T.Behind i j) : (T.obj i).dataIndex + T.slotSize cfg i ≤ (T.obj j).dataIndex := by
  have hpos := h.max_pos j hj
  have hslot := h.maxSize_le_slotSize hj
  have hlt := hb.2
  rcases h.slot_disjoint hi hj hb.ne hb.1 with hd | hd <;> omega

/-- One step adds the slot of an entry behind the deleted one. -/
theorem Tables.scanStep_snd {i j : Nat} (x : Nat × Nat) :
    (T.scanStep cfg i x j).2 = if T.Behind i j then add32 x.2 (T.slotSize cfg j) else x.2 := by
  simp only [Tables.scanStep]
  by_cases hj : j = i
  · rw [if_pos hj, if_neg (hj ▸ T.not_behind_self i)]
  · rw [if_neg hj]
    rfl

/-- One step keeps the smallest position seen so far. -/
theorem Tables.scanStep_fst {i j : Nat} (x : Nat × Nat) :
    (T.scanStep cfg i x j).1
      = if T.Behind i j ∧ (T.obj j).dataIndex < x.1 then (T.obj j).dataIndex else x.1 := by
  simp only [Tables.scanStep]
  by_cases hj : j = i
  · subst hj
    rw [if_pos rfl, if_neg fun h => T.not_behind_self j h.1]
  · rw [if_neg hj, DeletedSlot.srcOffset]
    simp only [Tables.Behind, and_assoc]
    rfl

/-- Free entries have no size, so only live objects are counted. -/
theorem SlotsOk.slotSize_unused (h : SlotsOk cfg T) {j : Nat} (hj : ¬ T.Live j) :
    T.slotSize cfg j = 0 := by
  rw [Tables.slotSize, (h.unused j hj).2.2, aligned_zero]

/-- The bytes that move are those behind the slot. -/
theorem Layout.movedRange_snd {active scratch i : Nat} (hL : Layout cfg T active scratch)
    (hi : T.Live i) :
    (T.movedRange cfg i).2 = cfg.blockSize - (T.blk (T.obj i).lblock).freeSize
      - ((T.obj i).dataIndex + T.slotSize cfg i) := by
  have hB := cfg.blockSize_le
  -- the live objects behind `i`, and the sum of their slots
  have hsum := (hL.slots.tiles _ (hL.slots.lblock_lt i hi)).sum_behind
    (hL.slots.mem_objectsOf_self hi)
  have hall : ∑ j ∈ (T.objectsOf cfg (T.obj i).lblock).filter
        (fun j => (T.obj i).dataIndex < (T.obj j).dataIndex), T.slotSize cfg j
      = ∑ j ∈ Finset.range cfg.numAssets, if T.Behind i j then T.slotSize cfg j else 0 := by
    rw [Tables.objectsOf, Finset.filter_filter, Finset.sum_filter]
    refine Finset.sum_congr rfl fun j _ => ?_
    by_cases hlive : T.Live j
    · exact if_congr (by simp [hlive, Tables.Behind]) rfl rfl
    · simp [hlive, hL.slots.slotSize_unused hlive]
  rw [hall] at hsum
  rw [← hsum, Tables.movedRange]
  -- the pass over the first `n` entries adds up their share; nothing wraps
  suffices h : ∀ n ≤ cfg.numAssets, ((List.range n).foldl (T.scanStep cfg i) (cfg.blockSize, 0)).2
      = ∑ j ∈ Finset.range n, if T.Behind i j then T.slotSize cfg j else 0 from
    h _ le_rfl
  intro n hn
  induction n with
  | zero => simp
  | succ n ih =>
    have hle : ∑ j ∈ Finset.range (n + 1), (if T.Behind i j then T.slotSize cfg j else 0)
        ≤ ∑ j ∈ Finset.range cfg.numAssets, if T.Behind i j then T.slotSize cfg j else 0 :=
      Finset.sum_le_sum_of_subset (Finset.range_subset_range.mpr hn)
    rw [hsum, Finset.sum_range_succ] at hle
    rw [List.range_succ, List.foldl_append, List.foldl_cons, List.foldl_nil, Tables.scanStep_snd,
      ih (by omega), Finset.sum_range_succ]
    split
    · rename_i hb
      rw [if_pos hb] at hle
      exact add32_eq (by omega)
    · rfl

/-- The source offset is the smallest position of an entry behind the deleted one. -/
theorem Tables.movedRange_fst (cfg : Config) (T : Tables) (i : Nat) :
    (T.movedRange cfg i).1 ≤ cfg.blockSize
      ∧ (∀ j < cfg.numAssets, T.Behind i j → (T.movedRange cfg i).1 ≤ (T.obj j).dataIndex)
      ∧ ((T.movedRange cfg i).1 = cfg.blockSize
          ∨ ∃ j < cfg.numAssets, T.Behind i j ∧ (T.movedRange cfg i).1 = (T.obj j).dataIndex) := by
  rw [Tables.movedRange]
  -- over the number of entries that were seen
  induction cfg.numAssets with
  | zero => simp
  | succ n ih =>
    obtain ⟨hle, hmin, hex⟩ := ih
    rw [List.range_succ, List.foldl_append, List.foldl_cons, List.foldl_nil, Tables.scanStep_fst]
    split
    · rename_i hb
      refine ⟨by omega, fun j hj hbj => ?_, Or.inr ⟨n, by omega, hb.1, rfl⟩⟩
      rcases Nat.lt_succ_iff_lt_or_eq.mp hj with hj | rfl
      · exact hb.2.le.trans (hmin j hj hbj)
      · exact le_rfl
    · rename_i hb
      refine ⟨hle, fun j hj hbj => ?_, ?_⟩
      · rcases Nat.lt_succ_iff_lt_or_eq.mp hj with hj | rfl
        · exact hmin j hj hbj
        · exact Nat.not_lt.mp fun h => hb ⟨hbj, h⟩
      · rcases hex with hex | ⟨j, hj, hbj, he⟩
        · exact Or.inl hex
        · exact Or.inr ⟨j, by omega, hbj, he⟩

/-- If anything lies behind the slot, an entry records where that begins. -/
theorem Layout.movedRange_fst_le {active scratch i : Nat} (hL : Layout cfg T active scratch)
    (hi : T.Live i) (hn : 0 < (T.movedRange cfg i).2) :
    (T.obj i).dataIndex < (T.movedRange cfg i).1
      ∧ (T.movedRange cfg i).1 ≤ (T.obj i).dataIndex + T.slotSize cfg i := by
  obtain ⟨hle, hmin, hex⟩ := T.movedRange_fst cfg i
  have hb := hL.slots.slot_bounds hi
  have hslot := hL.slots.maxSize_le_slotSize hi
  have hpos := hL.slots.max_pos i hi
  rw [hL.movedRange_snd hi] at hn
  -- the object right behind the deleted one is live, and the pass has seen it
  obtain ⟨j, hj, hidx⟩ := (hL.slots.tiles _ (hL.slots.lblock_lt i hi)).exists_next
    (hL.slots.mem_objectsOf_self hi) (by omega)
  obtain ⟨hjA, -, hjl⟩ := Tables.mem_objectsOf.mp hj
  refine ⟨?_, hidx ▸ hmin j hjA ⟨hjl, by omega⟩⟩
  rcases hex with he | ⟨k, -, hk, he⟩
  · omega
  · rw [he]
    exact hk.2

/-! ## The calls of a delete

The data of logical block 0 is compacted into the scratch metadata block; if the deleted object lies
elsewhere, nothing is migrated, as in the source. -/

/-- The calls that move the data of a block together. -/
def compactCalls (dst : Nat) (b : BlockMetadata) (src p n : Nat) : List Call :=
  (if 0 < n then [.move dst p b.physId src n] else []) ++
  (if b.dataStart < p then
    [.move dst b.dataStart b.physId b.dataStart (p - b.dataStart)] else [])

/-- The calls of a delete before the commit. -/
def deleteCalls (cfg : Config) (a s d : Nat) (T : Tables) (i : Nat) : List Call :=
  [.write s (objOff cfg i) (T.obj i).cleared.encode] ++
  (rewriteCalls cfg s T i (List.range cfg.numAssets) ++
  (compactCalls (dataScratchOf s d (T.obj i).lblock) (T.blk (T.obj i).lblock)
    (T.movedRange cfg i).1 (T.obj i).dataIndex (T.movedRange cfg i).2 ++
  ([.write s (blkOff (T.obj i).lblock) ((T.deleted cfg s d i).blk (T.obj i).lblock).encode] ++
    copyBlocksCalls cfg a s (T.obj i).lblock (T.blk 0))))

/-- Moving the data together is part of an assembly. -/
theorem assembles_compact {active d i : Nat} (hL : Layout cfg T active d) (hi : T.Live i)
    (hs : s = 0 ∨ s = 1) (ha : active ≠ s) (src n : Nat) :
    Assembles cfg s d (compactCalls (dataScratchOf s d (T.obj i).lblock)
      (T.blk (T.obj i).lblock) src (T.obj i).dataIndex n) := by
  have hb := hL.slots.slot_bounds hi
  have hsrc := hL.data_source hi hs ha
  exact (Assembles.ite fun _ => .move (hL.data_target hi hb.1) hsrc).append
    (.ite fun _ => .move (hL.data_target hi le_rfl) hsrc)

theorem assembles_deleteCalls {active d i : Nat} (hL : Layout cfg T active d)
    (hi : T.Live i) (hs : s = 0 ∨ s = 1)
    (hsrc : active ≠ s ∧ (2 < cfg.totalNumOfBlocks → active ≠ d)) :
    Assembles cfg s d (deleteCalls cfg active s d T i) :=
  (assembles_write (header_le_objOff _)).append ((assembles_rewrite _).append
    ((assembles_compact hL hi hs hsrc.1 _ _).append ((assembles_write (header_le_blkOff _)).append
      (assembles_copyBlocks hsrc _ _))))

/-- Where the data of a dedicated logical block is stored does not matter. -/
theorem fillsScratch_compact {active d i : Nat} (hP : Placed cfg T active) (hi : T.Live i)
    (hsrc : active ≠ s ∧ (2 < cfg.totalNumOfBlocks → active ≠ d))
    (hsd : 2 < cfg.totalNumOfBlocks → d ≠ s) (src n : Nat) :
    FillsScratch cfg s d (compactCalls (dataScratchOf s d (T.obj i).lblock)
      (T.blk (T.obj i).lblock) src (T.obj i).dataIndex n) := by
  -- data of block 0 is copied from the active block; other data may come from any block
  rcases Nat.eq_zero_or_pos (T.obj i).lblock with h0 | h0
  · have hb := (hP.slots.bounds i hi).1
    rw [h0, hP.homes.metaStart] at hb
    rw [h0, dataScratchOf, if_pos rfl, compactCalls, hP.home i hi h0, hP.homes.metaStart]
    exact ((Assembles.ite fun _ => assembles_move (header_le_metadata.trans hb) hsrc).append
      (.ite fun _ => assembles_move header_le_metadata hsrc)).fills
  · have hN := two_lt_blocks_of_pos h0 (hP.slots.lblock_lt i)
    refine FillsScratch.of_target hN (hsd hN) fun c hc => ?_
    rw [dataScratchOf, if_neg (by omega)] at hc
    simp only [compactCalls, List.mem_append] at hc
    rcases hc with hc | hc <;> split at hc
    all_goals first
      | cases hc; done
      | obtain rfl := List.mem_singleton.mp hc
        rfl

/-- Even when blocks are mixed up, a delete programs scratch blocks only. -/
theorem fillsScratch_deleteCalls {active d i : Nat} (hP : Placed cfg T active) (hi : T.Live i)
    (hsrc : active ≠ s ∧ (2 < cfg.totalNumOfBlocks → active ≠ d))
    (hsd : 2 < cfg.totalNumOfBlocks → d ≠ s) :
    FillsScratch cfg s d (deleteCalls cfg active s d T i) :=
  (assembles_write (header_le_objOff _)).fills.append ((assembles_rewrite _).fills.append
    ((fillsScratch_compact hP hi hsrc hsd _ _).append
      ((assembles_write (header_le_blkOff _)).fills.append (assembles_copyBlocks hsrc _ _).fills)))

/-- A row that receives the data of a logical block keeps its tables. -/
theorem tablesOf_rowAfter_compact {active d i : Nat} (hP : Placed cfg T active)
    (hi : T.Live i) (hsd : 2 < cfg.totalNumOfBlocks → d ≠ s) (src n : Nat) (row : Row) :
    tablesOf cfg (rowAfter s f (compactCalls (dataScratchOf s d (T.obj i).lblock)
      (T.blk (T.obj i).lblock) src (T.obj i).dataIndex n) row) = tablesOf cfg row := by
  have hb := hP.slots.bounds i hi
  -- the data lies behind the tables, or in another block
  rcases Nat.eq_zero_or_pos (T.obj i).lblock with h0 | h0
  · rw [h0, hP.homes.metaStart] at hb
    simp only [compactCalls, h0, dataScratchOf, if_true, rowAfter_append, hP.homes.metaStart]
    split <;> split <;>
      simp only [rowAfter_move_self, rowAfter_nil, tablesOf_put_outside _ (Or.inr hb.1),
        tablesOf_put_outside _ (Or.inr (le_refl cfg.allMetadataSize))]
  · have hne : d ≠ s := hsd (two_lt_blocks_of_pos h0 (hP.slots.lblock_lt i))
    rw [rowAfter_of_target_ne]
    intro c hc
    rw [dataScratchOf, if_neg (by omega)] at hc
    simp only [compactCalls, List.mem_append] at hc
    rcases hc with hc | hc <;> split at hc
    all_goals first
      | cases hc; done
      | obtain rfl := List.mem_singleton.mp hc
        simpa [Call.target] using hne

/-- A delete assembles the tables without the object. -/
theorem tablesOf_rowAfter_delete {active d i : Nat} (hP : Placed cfg T active)
    (hT : tablesOf cfg (f active) = T) (hi : T.Live i) (hs : s = 0 ∨ s = 1)
    (hd : 2 < cfg.totalNumOfBlocks → 2 ≤ d ∧ d < cfg.totalNumOfBlocks) (row : Row) :
    tablesOf cfg (rowAfter s f (deleteCalls cfg active s d T i) row) = T.deleted cfg s d i := by
  have hP' := hP.deleted hs hd hi
  have hl := hP.slots.lblock_lt i
  have hiA := hP.slots.live_lt i hi
  have hsd (hN : 2 < cfg.totalNumOfBlocks) : d ≠ s := by
    have := hd hN
    omega
  have hs32 : s < 2 ^ 32 := by omega
  have hobj (j : Nat) : (T.obj j).Fits := hT ▸ tablesOf_obj_fits _ j
  have hclear : (T.obj i).cleared.Fits :=
    ⟨by simp [Assetmeta.cleared], (hobj i).2.1, by simp [Assetmeta.cleared],
      by simp [Assetmeta.cleared]⟩
  -- a position that wraps still fits its 32 bits
  have hshift (j : Nat) : ((T.deletedSlot cfg i).shift (T.obj j)).Fits := by
    rw [DeletedSlot.shift]
    split
    · exact ⟨(hobj j).1, sub32_lt _ _, (hobj j).2.2⟩
    · exact hobj j
  have hmem : ∀ j ∈ (List.range cfg.numAssets).filter (· ≠ i), j < cfg.numAssets :=
    fun j hj => List.mem_range.mp (List.mem_of_mem_filter hj)
  simp only [deleteCalls, rowAfter_append,
    tablesOf_rowAfter_copyBlocks _ hl (hP.blk_fits cfg.numActiveDblocks_pos) hs32,
    rowAfter_write_self, tablesOf_put_blk _ hl (hP'.blk_fits hl),
    tablesOf_rowAfter_compact hP hi hsd,
    rewriteCalls, tablesOf_rowAfter_objectWrites _ _ hmem hshift,
    tablesOf_put_obj _ hiA hclear, hT]
  ext1
  · funext k
    dsimp only
    rw [Tables.setBlk_blk]
    by_cases hk : k = (T.obj i).lblock
    · rw [if_pos hk, if_pos hk, hk]
    · rw [if_neg hk]
      by_cases hk0 : k = 0
      · subst hk0
        simp [Tables.deleted, Tables.relocated, hk]
      · simp [Tables.deleted, Tables.relocated, hk0, hk]
  · funext j
    dsimp only
    rw [Tables.setBlk_obj]
    dsimp only
    simp only [Tables.setObj_obj, List.mem_filter, List.mem_range, decide_eq_true_eq]
    by_cases hj : j = i
    · subst hj
      simp [Tables.deleted]
    · by_cases hjA : j < cfg.numAssets
      · simp [Tables.deleted, hj, hjA]
      · have hz (row : Row) : (tablesOf cfg row).obj j = ⟨0, 0, 0, 0, 0⟩ := if_neg hjA
        simp [Tables.deleted, hj, hjA, hz, ← hT, DeletedSlot.shift]

/-! ## The outcome of a delete

The scan decides: if it runs to its end, everything behind it succeeds without faults. -/

/-- Compaction without faults. -/
theorem does_compactDblock (hm : Running cfg r f) (hT : activeTables cfg r f = T) {i : Nat}
    (hi : T.Live i) (src n : Nat) :
    Does (sstCompactDblock cfg (T.obj i).lblock (T.slotSize cfg i) src (T.obj i).dataIndex n) r f
      (.ok ()) (r.withScratch (T.vacated r.ctx.metaBlockHeader.scratchIdx (T.obj i).lblock))
      (compactCalls (r.ctx.dataScratch (T.obj i).lblock) (T.blk (T.obj i).lblock) src
          (T.obj i).dataIndex n ++
        ([.write r.ctx.scratchMetablock (blkOff (T.obj i).lblock)
            ((T.deleted cfg r.ctx.scratchMetablock r.ctx.metaBlockHeader.scratchIdx i).blk
              (T.obj i).lblock).encode] ++
          copyBlocksCalls cfg r.ctx.activeMetablock r.ctx.scratchMetablock (T.obj i).lblock
            (T.blk 0))) := by
  have hP : Placed cfg T _ := hT ▸ hm.placed
  have hsrc := hm.source_ok
  have hl := hP.slots.lblock_lt i
  have hB := cfg.blockSize_le
  have hb := hP.slots.bounds i hi
  have hfree := hP.slots.free_le _ hl
  have hadd : add32 (T.blk (T.obj i).lblock).freeSize (T.slotSize cfg i)
      = (T.blk (T.obj i).lblock).freeSize + T.slotSize cfg i := add32_eq (by omega)
  have hsub : sub32 (T.obj i).dataIndex (T.blk (T.obj i).lblock).dataStart
      = (T.obj i).dataIndex - (T.blk (T.obj i).lblock).dataStart := sub32_eq hb.1 (by omega)
  have hblk : (T.deleted cfg r.ctx.scratchMetablock r.ctx.metaBlockHeader.scratchIdx i).blk
        (T.obj i).lblock
      = { T.blk (T.obj i).lblock with
          physId := r.ctx.dataScratch (T.obj i).lblock
          freeSize := (T.blk (T.obj i).lblock).freeSize + T.slotSize cfg i } := by
    simp [Tables.deleted, Tables.relocated, AssetSystemContext.dataScratch]
  have hread := does_readBlockMetadata (hT ▸ hP.blkValid) hl
  rw [hT] at hread
  refine Does.read_bind hread (Does.read_bind (does_curDataScratch _) ?_)
  -- the descriptor is programmed after the scratch block has changed roles
  simp only [hadd, hsub, hblk, compactCalls, List.append_assoc]
  refine Does.when_bind (fun _ => (does_flashMove _ _ _ _ _).orElse _)
    (Does.when_bind (fun _ => (does_flashMove _ _ _ _ _).orElse _)
      (Does.read_bind (does_setDataScratch _ _)
        (Does.bind (does_updateScratchBlockMeta hl.le _).attempt ?_)))
  rw [← List.append_nil (copyBlocksCalls _ _ _ _ _)]
  refine Does.bind (does_copyRemainingBlockMeta ?_ hP.blkValid hl).attempt (Does.pure ())
  have hdata := (fillsScratch_compact hP hi hsrc
    (fun hN => (hm.ne_of_two_le (hm.dataScratch hN).1).2) src n).onScratch.activeTables_eq hsrc hT
  simp only [compactCalls, Model.replay_append] at hdata
  exact (assembles_write (header_le_blkOff _)).activeTables_eq hsrc hdata

/-- Without faults `m` returns an error after it has programmed the scratch blocks at most. -/
def Aborts (cfg : Config) (m : SstM Unit) (r : Ram) (f : Flash) : Prop :=
  ∃ e w, Does m r f (.error e) r w
    ∧ Assembles cfg r.ctx.scratchMetablock r.ctx.metaBlockHeader.scratchIdx w

/-- A refusal is an abort that has programmed nothing. -/
theorem Refuses.aborts {m : SstM Unit} (h : Refuses m r f) : Aborts cfg m r f := by
  obtain ⟨e, h⟩ := h
  exact ⟨e, [], h, Assembles.nil⟩

/-- A delete fails, or commits the tables without the object. It reads every entry, so it
commits only if all are accepted. -/
theorem delete_outcome (hm : Running cfg r f) (hc : cfg.CryptoWorks)
    (hT : activeTables cfg r f = T) (u : UInt32) :
    Aborts cfg (sstCoreObjectDelete cfg u) r f
        ∧ (T.Accepted cfg → (u = 0 ∨ T.find cfg u = none)
          ∧ Refuses (sstCoreObjectDelete cfg u) r f)
      ∨ ∃ i, u ≠ 0 ∧ T.find cfg u = some i ∧ T.Accepted cfg ∧
        Commits cfg (sstCoreObjectDelete cfg u) r f
          (T.vacated r.ctx.metaBlockHeader.scratchIdx (T.obj i).lblock)
          (deleteCalls cfg r.ctx.activeMetablock r.ctx.scratchMetablock
            r.ctx.metaBlockHeader.scratchIdx T i) := by
  have hsrc := hm.source_ok
  rcases lookup_outcome hT u .assetNotFound with ⟨hlook, hnone⟩ | ⟨i, hfind, hreach, hlook⟩
  · have href : Refuses (sstCoreObjectDelete cfg u) r f := ⟨.assetNotFound, Does.bind_error hlook⟩
    exact Or.inl ⟨href.aborts, fun hacc => ⟨Or.inr (hacc.find_eq_none hnone), href⟩⟩
  have hiA := Tables.lt_of_find hfind
  have hpass := hreach i le_rfl
  have hid := Tables.uniqueId_of_find hfind
  have hobj := does_readObjectMeta (r := r) (f := f) (by rw [hT]; exact hpass) hiA
  rw [hT] at hobj
  by_cases hu : u = 0
  · have href : Refuses (sstCoreObjectDelete cfg u) r f := by
      refine ⟨.assetNotFound, Does.read_bind hlook (Does.read_bind hobj ?_)⟩
      simp only [sstUtilsValidateUuid, hid, hu, sstInvalidUuid, if_true]
      exact Does.fail _
    exact Or.inl ⟨href.aborts, fun _ => ⟨Or.inl hu, href⟩⟩
  -- everything up to the pass over the table
  have hstart {v : Except SstErr Unit} {r' : Ram} {w : List Call}
      (h : Does (do
          let range ← sstCoreObjectDelete.scan cfg (T.deletedSlot cfg i)
            (List.range cfg.numAssets) cfg.blockSize 0
          sstCompactDblock cfg (T.obj i).lblock (T.slotSize cfg i) range.1 (T.obj i).dataIndex
            range.2
          let _ ← M.attempt (sstMetaUpdateFinalize cfg)
          pure ()) r (device.replay [.write r.ctx.scratchMetablock (objOff cfg i)
            (T.obj i).cleared.encode] f) v r' w) :
      Does (sstCoreObjectDelete cfg u) r f v r'
        ([.write r.ctx.scratchMetablock (objOff cfg i) (T.obj i).cleared.encode] ++ w) := by
    refine Does.read_bind hlook (Does.read_bind hobj ?_)
    simp only [sstUtilsValidateUuid, hid, hu, sstInvalidUuid, if_false]
    exact Does.bind (does_updateScratchObjectMeta hiA.le _).attempt h
  have hT1 : activeTables cfg r (device.replay
      [.write r.ctx.scratchMetablock (objOff cfg i) (T.obj i).cleared.encode] f) = T :=
    (assembles_write (header_le_objOff i)).activeTables_eq hsrc hT
  -- the pass stops at a rejected entry, or gets through
  rcases scan_outcome hsrc.1 hT1 (List.range cfg.numAssets) (fun j hj => List.mem_range.mp hj)
    (cfg.blockSize, 0) with ⟨e, js, hscan, hacc⟩ | ⟨hscan, hall⟩
  · exact Or.inl ⟨⟨e, _, hstart (Does.bind_error hscan),
      (assembles_write (header_le_objOff i)).append (assembles_rewrite js)⟩,
      fun h => absurd h hacc⟩
  · refine Or.inr ⟨i, hu, hfind, fun j hj => ?_, Commits.of_finalize hc fun r'' w hfin => ?_⟩
    · by_cases hji : j = i
      · exact hji ▸ hpass
      · exact hall j (List.mem_range.mpr hj) hji
    · have hi := Tables.live_of_find hu hfind
      simp only [deleteCalls, Model.replay_append, List.append_assoc] at hfin ⊢
      have hT2 := (assembles_rewrite (T := T) (i := i)
        (List.range cfg.numAssets)).activeTables_eq hsrc hT1
      refine hstart (Does.bind hscan ?_)
      have hm2 : Running cfg r _ := ⟨hm.metablocks, by rw [hT2, ← hT]; exact hm.placed,
        hm.dataScratch⟩
      have hcomp := does_compactDblock hm2 hT2 hi (T.movedRange cfg i).1 (T.movedRange cfg i).2
      -- the result of the commit is dropped
      have hend := Does.bind (k := fun _ => pure ()) hfin.attempt (Does.pure ())
      rw [List.append_nil] at hend
      simp only [← List.append_assoc] at hcomp ⊢
      refine hcomp.bind ?_
      simp only [Model.replay_append]
      exact hend

end Tfm.Sst
