import TrustedFirmware.Lib.EraseDiscipline
import TrustedFirmware.Sst.Proofs.Step

/-!
# What an operation programs

The calls of a successful operation, one shape for each kind (`Op.Assembly`), and what they program:
every byte of the scratch blocks at most once (`Op.Assembly.fills`).

A metadata block is cut into regions: one record, the other records of its table, the data area.
Each list of calls of an operation fills one region, and regions of different lists are disjoint.
-/

namespace Tfm.Sst

open Word32 BlockFlash Device

variable {cfg : Config} {r : Ram} {f : Flash} {T : Tables} {a s d : Nat}

/-! ## The calls of an operation

The constructors carry what the lists of calls depend on, and nothing about how the operation got
there. -/

/-- The calls by which an operation assembles the scratch blocks `s` and `d`, when the tables
are `T` and the active metadata block is `a`. -/
inductive Op.Assembly (cfg : Config) (T : Tables) (a s d : Nat) : Op → List Call → Prop where
  | create {u size : UInt32} {i l : Nat} (hcan : T.CanCreate cfg i l size.toNat) :
      Op.Assembly cfg T a s d (.create u size) (createCalls cfg a s T i l size.toNat u)
  | write {u : UInt32} {data : List UInt8} {offset size : UInt32} {i curSize : Nat}
      {buf : List UInt8} (hi : T.Live i) (hcur : curSize ≤ (T.obj i).maxSize)
      (hbuf : buf.length = sstGetAlignedFlashBytes cfg curSize) :
      Op.Assembly cfg T a s d (.write u data offset size) (writeCalls cfg a s d T i curSize buf)
  | delete {u : UInt32} {i : Nat} (hi : T.Live i) :
      Op.Assembly cfg T a s d (.delete u) (deleteCalls cfg a s d T i)

/-- An operation that succeeds commits one of these. -/
theorem Op.assembly_of_ok (hm : Mounted cfg r f) (hc : cfg.CryptoWorks) (op : Op)
    (hpre : op.Pre cfg (activeTables cfg r f)) (hok : (run (op.prog cfg) r f).val = .ok ()) :
    ∃ T' d' cs, op.Assembly cfg (activeTables cfg r f) r.ctx.activeMetablock
        r.ctx.scratchMetablock r.ctx.metaBlockHeader.scratchIdx cs
      ∧ Plan cfg (op.prog cfg) r f T' d' cs := by
  -- a refusal contradicts success, in each case
  cases op with
  | create u size =>
    rcases create_outcome hm.running hc rfl u size with ⟨h, -⟩ | ⟨i, l, hcan, -, hcom⟩
    · have habort : Aborts cfg (sstCoreObjectCreate cfg u size) r f := h.aborts
      exact absurd hok habort.run_ne_ok
    · exact ⟨_, _, _, .create hcan, createPlan hm rfl hpre.1 hpre.2.1 hpre.2.2 hcan hcom⟩
  | write u data offset size =>
    rcases write_outcome hm hc rfl data hpre.1 hpre.2 with h | ⟨i, hfind, -, -, hcom⟩
    · have habort : Aborts cfg (sstCoreObjectWrite cfg u data offset size) r f := h.aborts
      exact absurd hok habort.run_ne_ok
    · have hi := Tables.live_of_find hpre.1 hfind
      have hcur := writeBuffer_size_le hm.layout hi f data (hpre.2 i hfind)
      exact ⟨_, _, _, .write hi hcur (length_bufBytes _ _), writePlan hm rfl hi hcur hcom⟩
  | delete u =>
    rcases delete_outcome hm.running hc rfl u with h | ⟨i, hu, hfind, -, hcom⟩
    · exact absurd hok h.1.run_ne_ok
    · have hi := Tables.live_of_find hu hfind
      exact ⟨_, _, _, .delete hi, deletePlan hm rfl hi hcom⟩

/-! ## Regions of the scratch blocks

A region is a set of pairs of block and offset. -/

/-- The table entry of an object. -/
def objEntry (cfg : Config) (s i : Nat) : Region :=
  {x | x.1 = s ∧ objOff cfg i ≤ x.2 ∧ x.2 < objOff cfg i + 20}

/-- The entries of the other objects. -/
def objOthers (cfg : Config) (s i : Nat) : Region :=
  {x | x.1 = s ∧ objOff cfg 0 ≤ x.2 ∧ x.2 < cfg.allMetadataSize
    ∧ (x.2 < objOff cfg i ∨ objOff cfg i + 20 ≤ x.2)}

/-- The descriptor of a logical block. -/
def blkEntry (s l : Nat) : Region := {x | x.1 = s ∧ blkOff l ≤ x.2 ∧ x.2 < blkOff l + 12}

/-- The descriptors of the other logical blocks. -/
def blkOthers (cfg : Config) (s l : Nat) : Region :=
  {x | x.1 = s ∧ blkOff 0 ≤ x.2 ∧ x.2 < objOff cfg 0 ∧ (x.2 < blkOff l ∨ blkOff l + 12 ≤ x.2)}

/-- The data area of a block. -/
def dataArea (b start : Nat) : Region := {x | x.1 = b ∧ start ≤ x.2}

/-- The scratch blocks behind the header. -/
def scratchArea (cfg : Config) (s d : Nat) : Region :=
  {x | x.1 = s ∧ sizeofMetadataBlockHeader ≤ x.2 ∨ x.1 = d ∧ 2 < cfg.totalNumOfBlocks}

/-! ### What the lists of calls fill

One lemma for each list of calls that an operation is put together from. -/

theorem fills_objEntry (i : Nat) (e : Assetmeta) :
    Fills (objEntry cfg s i) [.write s (objOff cfg i) e.encode] :=
  .single fun x hx => by
    rw [mem_range_write] at hx
    exact hx

theorem fills_blkEntry (l : Nat) (b : BlockMetadata) :
    Fills (blkEntry s l) [.write s (blkOff l) b.encode] :=
  .single fun x hx => by
    rw [mem_range_write] at hx
    exact hx

/-- The copies of the entries fill the table around entry `i`. -/
theorem fills_copyObjects {i : Nat} (hi : i < cfg.numAssets) :
    Fills (objOthers cfg s i) (copyObjectsCalls cfg a s i) := by
  have hall := cfg.allMetadataSize_eq
  refine Fills.mono ((Fills.single subset_rfl).append
    (.ite fun _ => .single subset_rfl) (Set.disjoint_left.mpr fun x hx hx' => ?_)) fun x hx => ?_
  · rw [mem_range_move] at hx hx'
    simp only [objOff] at hx hx'
    omega
  · show x.1 = s ∧ _
    rcases hx with hx | hx <;> rw [mem_range_move] at hx <;> simp only [objOff] at hx ⊢ <;> omega

/-- The copies of the descriptors fill the table around that of block `l`. -/
theorem fills_copyBlocks {l : Nat} (hl : l < cfg.numActiveDblocks) (b0 : BlockMetadata) :
    Fills (blkOthers cfg s l) (copyBlocksCalls cfg a s l b0) := by
  -- the descriptors before `l`, of which that of logical block 0 is written
  have hbefore : Fills {x | x.1 = s ∧ blkOff 0 ≤ x.2 ∧ x.2 < blkOff l}
      (if l ≠ 0 then
        [Call.write s (blkOff 0) { b0 with physId := s }.encode] ++
        (if 1 < l then [Call.move s (blkOff 1) a (blkOff 1) (12 * (l - 1))] else [])
      else []) := by
    refine .ite fun hl0 => Fills.mono ((fills_blkEntry 0 _).append (.ite fun _ => .single subset_rfl)
      (Set.disjoint_left.mpr fun x hx hx' => ?_)) fun x hx => ?_
    · rw [mem_range_move] at hx'
      obtain ⟨-, -, hx⟩ := hx
      simp only [blkOff] at hx hx'
      omega
    · show x.1 = s ∧ _
      rcases hx with ⟨hs, h1, h2⟩ | hx
      · simp only [blkOff] at h1 h2 ⊢
        omega
      · rw [mem_range_move] at hx
        simp only [blkOff] at hx ⊢
        omega
  refine Fills.mono (hbefore.append (.single subset_rfl)
    (Set.disjoint_left.mpr fun x hx hx' => ?_)) fun x hx => ?_
  · rw [mem_range_move] at hx'
    obtain ⟨-, -, hx⟩ := hx
    simp only [blkOff] at hx hx'
    omega
  · show x.1 = s ∧ _
    rcases hx with ⟨hs, h1, h2⟩ | hx
    · simp only [blkOff, objOff] at h1 h2 ⊢
      omega
    · rw [mem_range_move] at hx
      simp only [blkOff, objOff] at hx ⊢
      omega

/-- The migration fills the data area behind the tables. -/
theorem fills_migrate (b0 : BlockMetadata) :
    Fills (dataArea s cfg.allMetadataSize) (migrateCalls cfg a s b0) :=
  .single fun x hx => by
    rw [mem_range_move] at hx
    exact ⟨hx.1, hx.2.1⟩

/-- The new bytes and the parts around them do not overlap. -/
theorem fills_updateData {dst off : Nat} {b : BlockMetadata} {buf : List UInt8}
    (hoff : b.dataStart ≤ off) : Fills (dataArea dst b.dataStart) (updateDataCalls cfg dst b buf off) := by
  refine Fills.mono (((Fills.single subset_rfl).append (.ite fun _ => .single subset_rfl)
    (Set.disjoint_left.mpr fun x hx hx' => ?_)).append (.single subset_rfl)
    (Set.disjoint_left.mpr fun x hx hx' => ?_)) fun x hx => ?_
  · rw [mem_range_write] at hx
    rw [mem_range_move] at hx'
    omega
  · rw [mem_range_move] at hx'
    rcases hx with hx | hx
    · rw [mem_range_write] at hx
      omega
    · rw [mem_range_move] at hx
      omega
  · show x.1 = dst ∧ b.dataStart ≤ x.2
    rcases hx with (hx | hx) | hx
    · rw [mem_range_write] at hx
      omega
    · rw [mem_range_move] at hx
      omega
    · rw [mem_range_move] at hx
      omega

/-- The part before the gap and the part that moves down do not overlap. -/
theorem fills_compact {dst src p n : Nat} {b : BlockMetadata} (hp : b.dataStart ≤ p) :
    Fills (dataArea dst b.dataStart) (compactCalls dst b src p n) := by
  refine Fills.mono ((Fills.ite fun _ => .single subset_rfl).append
    (.ite fun _ => .single subset_rfl) (Set.disjoint_left.mpr fun x hx hx' => ?_)) fun x hx => ?_
  · rw [mem_range_move] at hx hx'
    omega
  · show x.1 = dst ∧ b.dataStart ≤ x.2
    rcases hx with hx | hx <;> rw [mem_range_move] at hx <;> omega

theorem fills_objectWrites (e : Nat → Assetmeta) {js : List Nat} (hnd : js.Nodup) :
    Fills {x | ∃ j ∈ js, x ∈ objEntry cfg s j} (objectWrites cfg s e js) := by
  -- each entry has a region of its own, so the next one is disjoint from those before
  induction js with
  | nil => exact .nil
  | cons j js ih =>
    obtain ⟨hj, hnd⟩ := List.nodup_cons.mp hnd
    refine Fills.mono ((fills_objEntry j (e j)).append (ih hnd)
      (Set.disjoint_left.mpr fun x hx hx' => ?_)) fun x hx => ?_
    · obtain ⟨k, hk, -, hx'⟩ := hx'
      obtain ⟨-, hx⟩ := hx
      have hne : j ≠ k := fun h => hj (h ▸ hk)
      simp only [objOff] at hx hx'
      omega
    · rcases hx with hx | ⟨k, hk, hx⟩
      · exact ⟨j, List.mem_cons_self, hx⟩
      · exact ⟨k, List.mem_cons_of_mem _ hk, hx⟩

/-- A delete rewrites the entries other than `i` one by one. -/
theorem fills_rewrite (i : Nat) :
    Fills (objOthers cfg s i) (rewriteCalls cfg s T i (List.range cfg.numAssets)) := by
  refine (fills_objectWrites _ (List.nodup_range.filter _)).mono fun x hx => ?_
  obtain ⟨j, hj, hs, hx⟩ := hx
  simp only [List.mem_filter, List.mem_range, ne_eq, decide_not, Bool.not_eq_eq_eq_not,
    Bool.not_true, decide_eq_false_iff_not] at hj
  have hall := cfg.allMetadataSize_eq
  show x.1 = s ∧ _
  simp only [objOff] at hx ⊢
  omega

/-! ## Operations

For each operation the regions of its lists, in order, are disjoint from one another. -/

/-- The regions of a metadata block, in order: the header, the descriptors, the entries. -/
theorem region_offsets (cfg : Config) (i l : Nat) :
    blkOff 0 = 36 ∧ blkOff l = 36 + 12 * l ∧ objOff cfg 0 = 36 + 12 * cfg.numActiveDblocks
      ∧ objOff cfg i = 36 + 12 * cfg.numActiveDblocks + 20 * i
      ∧ cfg.allMetadataSize = 36 + 12 * cfg.numActiveDblocks + 20 * cfg.numAssets :=
  ⟨rfl, rfl, rfl, rfl, cfg.allMetadataSize_eq⟩

/-- A create programs every byte at most once. -/
theorem fills_create {i l size : Nat} {u : UInt32} (hi : i < cfg.numAssets)
    (hl : l < cfg.numActiveDblocks) :
    Fills (scratchArea cfg s d) (createCalls cfg a s T i l size u) := by
  obtain ⟨hb0, hbl, ho0, hoi, hall⟩ := region_offsets cfg i l
  refine Fills.mono ((fills_objEntry i _).append ((fills_blkEntry l _).append
    ((fills_copyObjects hi).append ((fills_copyBlocks hl _).append (fills_migrate _)
      ?_) ?_) ?_) ?_) fun x hx => Or.inl ?_
  · refine Set.disjoint_left.mpr ?_
    rintro x ⟨-, -, hx, -⟩ ⟨-, hx'⟩
    omega
  · refine Set.disjoint_left.mpr ?_
    rintro x ⟨-, hx, hx1, -⟩ (⟨-, -, hx', -⟩ | ⟨-, hx'⟩) <;> omega
  · refine Set.disjoint_left.mpr ?_
    rintro x ⟨-, hx, hx1⟩ (⟨-, hx', -⟩ | ⟨-, -, -, hx'⟩ | ⟨-, hx'⟩) <;> omega
  · refine Set.disjoint_left.mpr ?_
    rintro x ⟨-, hx, hx1⟩ (⟨-, -, hx'⟩ | ⟨-, -, -, hx'⟩ | ⟨-, -, hx', -⟩ | ⟨-, hx'⟩) <;> omega
  · -- all regions lie behind the header
    rw [sizeofMetadataBlockHeader]
    rcases hx with ⟨hs, hx, -⟩ | ⟨hs, hx, -⟩ | ⟨hs, hx, -⟩ | ⟨hs, hx, -⟩ | ⟨hs, hx⟩ <;> omega

/-- The block that receives data is the scratch metadata block, behind the tables, or the
data scratch block. -/
theorem Layout.dataArea_cases {i : Nat} (hL : Layout cfg T a d) (hi : T.Live i) :
    (T.obj i).lblock = 0 ∧ dataArea (dataScratchOf s d (T.obj i).lblock)
        (T.blk (T.obj i).lblock).dataStart = dataArea s cfg.allMetadataSize
      ∨ (T.obj i).lblock ≠ 0 ∧ 2 < cfg.totalNumOfBlocks
        ∧ dataArea (dataScratchOf s d (T.obj i).lblock) (T.blk (T.obj i).lblock).dataStart
          = dataArea d (T.blk (T.obj i).lblock).dataStart := by
  rcases Nat.eq_zero_or_pos (T.obj i).lblock with h0 | h0
  · left
    rw [h0, dataScratchOf, if_pos rfl, hL.blocks.metaStart]
    exact ⟨rfl, rfl⟩
  · right
    rw [dataScratchOf, if_neg (by omega)]
    exact ⟨by omega, two_lt_blocks_of_pos h0 (hL.slots.lblock_lt i hi), rfl⟩

/-- A write programs every byte at most once. -/
theorem fills_write {i curSize : Nat} {buf : List UInt8} (hL : Layout cfg T a d)
    (hi : T.Live i) (hsd : 2 < cfg.totalNumOfBlocks → d ≠ s) :
    Fills (scratchArea cfg s d) (writeCalls cfg a s d T i curSize buf) := by
  have hiA := hL.slots.live_lt i hi
  have hl := hL.slots.lblock_lt i hi
  obtain ⟨hb0, hbl, ho0, hoi, hall⟩ := region_offsets cfg i (T.obj i).lblock
  have hdata : Fills (dataArea (dataScratchOf s d (T.obj i).lblock)
      (T.blk (T.obj i).lblock).dataStart) (updateDataCalls cfg
        (dataScratchOf s d (T.obj i).lblock) (T.blk (T.obj i).lblock) buf (T.obj i).dataIndex) :=
    fills_updateData (hL.slots.slot_bounds hi).1
  have hmig : Fills {x | (T.obj i).lblock ≠ 0 ∧ x ∈ dataArea s cfg.allMetadataSize}
      (if (T.obj i).lblock ≠ 0 then migrateCalls cfg a s (T.blk 0) else []) :=
    .ite fun h0 => (fills_migrate _).mono fun x hx => ⟨h0, hx⟩
  refine Fills.mono (hdata.append ((fills_blkEntry _ _).append ((fills_objEntry i _).append
    ((fills_copyBlocks hl _).append ((fills_copyObjects hiA).append hmig
      ?_) ?_) ?_) ?_) ?_) fun x hx => ?_
  · refine Set.disjoint_left.mpr ?_
    rintro x ⟨-, -, hx, -⟩ ⟨-, -, hx'⟩
    omega
  · refine Set.disjoint_left.mpr ?_
    rintro x ⟨-, hx, hx1, -⟩ (⟨-, hx', -⟩ | ⟨-, -, hx'⟩) <;> omega
  · refine Set.disjoint_left.mpr ?_
    rintro x ⟨-, hx, hx1⟩ (⟨-, -, hx', -⟩ | ⟨-, -, -, hx'⟩ | ⟨-, -, hx'⟩) <;> omega
  · refine Set.disjoint_left.mpr ?_
    rintro x ⟨-, hx, hx1⟩ (⟨-, hx', -⟩ | ⟨-, -, -, hx'⟩ | ⟨-, hx', -⟩ | ⟨-, -, hx'⟩) <;> omega
  · refine Set.disjoint_left.mpr fun x hx hx' => ?_
    rcases hL.dataArea_cases (s := s) hi with ⟨h0, hdst⟩ | ⟨-, hN, hdst⟩ <;> rw [hdst] at hx
    · -- data and tables share the scratch metadata block
      obtain ⟨-, hx⟩ := hx
      rcases hx' with ⟨-, -, hx'⟩ | ⟨-, -, hx'⟩ | ⟨-, -, hx', -⟩ | ⟨-, -, hx', -⟩ | ⟨h, -⟩ <;> omega
    · have := hsd hN
      obtain ⟨hx, -⟩ := hx
      rcases hx' with ⟨hx', -⟩ | ⟨hx', -⟩ | ⟨hx', -⟩ | ⟨hx', -⟩ | ⟨-, hx', -⟩ <;> omega
  · rcases hx with hx | hx
    · rcases hL.dataArea_cases (s := s) hi with ⟨-, hdst⟩ | ⟨-, hN, hdst⟩ <;> rw [hdst] at hx
      · exact Or.inl ⟨hx.1, header_le_metadata.trans hx.2⟩
      · exact Or.inr ⟨hx.1, hN⟩
    · left
      rw [sizeofMetadataBlockHeader]
      rcases hx with ⟨hs, hx, -⟩ | ⟨hs, hx, -⟩ | ⟨hs, hx, -⟩ | ⟨hs, hx, -⟩ | ⟨-, hs, hx⟩ <;> omega

/-- A delete programs every byte at most once. -/
theorem fills_delete {i : Nat} (hL : Layout cfg T a d) (hi : T.Live i)
    (hsd : 2 < cfg.totalNumOfBlocks → d ≠ s) :
    Fills (scratchArea cfg s d) (deleteCalls cfg a s d T i) := by
  have hiA := hL.slots.live_lt i hi
  have hl := hL.slots.lblock_lt i hi
  obtain ⟨hb0, hbl, ho0, hoi, hall⟩ := region_offsets cfg i (T.obj i).lblock
  have hdata : Fills (dataArea (dataScratchOf s d (T.obj i).lblock)
      (T.blk (T.obj i).lblock).dataStart) (compactCalls (dataScratchOf s d (T.obj i).lblock)
        (T.blk (T.obj i).lblock) (T.movedRange cfg i).1 (T.obj i).dataIndex
        (T.movedRange cfg i).2) := fills_compact (hL.slots.slot_bounds hi).1
  -- data in the scratch metadata block lies behind the tables
  have hsep : ∀ x ∈ dataArea (dataScratchOf s d (T.obj i).lblock)
      (T.blk (T.obj i).lblock).dataStart, x.1 = s → cfg.allMetadataSize ≤ x.2 := by
    intro x hx hs
    rcases hL.dataArea_cases (s := s) hi with ⟨-, hdst⟩ | ⟨-, hN, hdst⟩ <;> rw [hdst] at hx
    · exact hx.2
    · exact absurd (hx.1.symm.trans hs) (hsd hN)
  refine Fills.mono ((fills_objEntry i _).append ((fills_rewrite i).append (hdata.append
    ((fills_blkEntry _ _).append (fills_copyBlocks hl _) ?_) ?_) ?_) ?_) fun x hx => ?_
  · refine Set.disjoint_left.mpr ?_
    rintro x ⟨-, hx, hx1⟩ ⟨-, -, -, hx'⟩
    omega
  · refine Set.disjoint_left.mpr fun x hx hx' => ?_
    have hsep := hsep x hx
    rcases hx' with ⟨hs, -, hx'⟩ | ⟨hs, -, hx', -⟩ <;> have := hsep hs <;> omega
  · refine Set.disjoint_left.mpr ?_
    rintro x ⟨hs, hx, hx1, -⟩ (hx' | ⟨-, -, hx'⟩ | ⟨-, -, hx', -⟩)
    · have := hsep x hx' hs
      omega
    · omega
    · omega
  · refine Set.disjoint_left.mpr ?_
    rintro x ⟨hs, hx, hx1⟩ (⟨-, -, -, hx'⟩ | hx' | ⟨-, -, hx'⟩ | ⟨-, -, hx', -⟩)
    · omega
    · have := hsep x hx' hs
      omega
    · omega
    · omega
  · rcases hx with hx | hx | hx | hx | hx
    · exact Or.inl ⟨hx.1, (header_le_objOff i).trans hx.2.1⟩
    · exact Or.inl ⟨hx.1, (header_le_objOff 0).trans hx.2.1⟩
    · rcases hL.dataArea_cases (s := s) hi with ⟨-, hdst⟩ | ⟨-, hN, hdst⟩ <;> rw [hdst] at hx
      · exact Or.inl ⟨hx.1, header_le_metadata.trans hx.2⟩
      · exact Or.inr ⟨hx.1, hN⟩
    · exact Or.inl ⟨hx.1, (header_le_blkOff _).trans hx.2.1⟩
    · exact Or.inl ⟨hx.1, (header_le_blkOff 0).trans hx.2.1⟩

/-- An operation programs every byte of the scratch blocks at most once. -/
theorem Op.Assembly.fills {op : Op} {cs : List Call} (h : op.Assembly cfg T a s d cs)
    (hL : Layout cfg T a d) (hsd : 2 < cfg.totalNumOfBlocks → d ≠ s) :
    Fills (scratchArea cfg s d) cs := by
  cases h with
  | create hcan => exact fills_create hcan.entry_lt hcan.block_lt
  | write hi _ _ => exact fills_write hL hi hsd
  | delete hi => exact fills_delete hL hi hsd

end Tfm.Sst
