import TrustedFirmware.Sst.Properties.EraseBeforeProgram

/-!
# The program unit

Object slots and table records are multiples of the program unit of the flash, and so is every range
the core programs, with one exception: the plain build programs the header of a metadata block as 33
bytes followed by the single byte of the swap count. All calls are aligned exactly in the encrypted
build, or when the program unit is one byte (**`aligned_callRun_iff`**).
-/

namespace Tfm.Sst

open Word32 BlockFlash Device

variable {cfg : Config} {r r' : Ram} {f f' : Flash} {T : Tables} {a s d : Nat}

/-! ## Aligned calls

How alignment composes along a list of calls. -/

/-- Every range that is programmed starts at a multiple of `u` and has a multiple of `u`
bytes. -/
def AllAligned (u : Nat) (cs : List Call) : Prop :=
  ∀ c ∈ cs, ∀ b off n, c.programs = some (b, off, n) → u ∣ off ∧ u ∣ n

namespace AllAligned

variable {u : Nat} {cs ds : List Call}

theorem nil : AllAligned u [] := fun _ hc => (List.not_mem_nil hc).elim

theorem append (h : AllAligned u cs) (h' : AllAligned u ds) : AllAligned u (cs ++ ds) := by
  intro c hc
  rcases List.mem_append.mp hc with hc | hc
  · exact h c hc
  · exact h' c hc

/-- A call that is made under a condition need be aligned only then. -/
theorem ite {p : Prop} [Decidable p] (h : p → AllAligned u cs) :
    AllAligned u (if p then cs else []) := by
  split
  · exact h ‹_›
  · exact nil

/-- A single write. -/
theorem write {b off : Nat} {bytes : List UInt8} (ho : u ∣ off) (hn : u ∣ bytes.length) :
    AllAligned u [.write b off bytes] := by
  intro c hc b' off' n hp
  rw [List.mem_singleton.mp hc] at hp
  cases hp
  exact ⟨ho, hn⟩

/-- A single move: only the destination is programmed. -/
theorem move {b off src srcOff n : Nat} (ho : u ∣ off) (hn : u ∣ n) :
    AllAligned u [.move b off src srcOff n] := by
  intro c hc b' off' n' hp
  rw [List.mem_singleton.mp hc] at hp
  cases hp
  exact ⟨ho, hn⟩

theorem of_erases (h : ∀ c ∈ cs, c.programs = none) : AllAligned u cs := by
  intro c hc b off n hp
  rw [h c hc] at hp
  cases hp

/-- Reads program nothing. -/
theorem filter_modifies (h : AllAligned u (cs.filter Call.modifies)) : AllAligned u cs := by
  intro c hc b off n hp
  refine h c (List.mem_filter.mpr ⟨hc, ?_⟩) b off n hp
  cases c with
  | read | erase => cases hp
  | write | move => rfl

end AllAligned

/-! ## The pieces of an operation

All records are multiples of four bytes, and so of every program unit. Positions of objects and ends
of the used parts are aligned by the layout invariant. -/

/-- The program unit is 1, 2 or 4 bytes. -/
theorem unit_dvd_of_four {n : Nat} (h : 4 ∣ n) : cfg.flashProgramUnit ∣ n :=
  Dvd.dvd.trans (by rcases cfg.unit_ok with hu | hu | hu <;> rw [hu] <;> decide) h

theorem unit_dvd_objOff (i : Nat) : cfg.flashProgramUnit ∣ objOff cfg i :=
  unit_dvd_of_four (by simp only [objOff]; omega)

theorem unit_dvd_blkOff (l : Nat) : cfg.flashProgramUnit ∣ blkOff l :=
  unit_dvd_of_four (by simp only [blkOff]; omega)

theorem unit_dvd_metadata : cfg.flashProgramUnit ∣ cfg.allMetadataSize :=
  unit_dvd_of_four (by rw [cfg.allMetadataSize_eq]; omega)

theorem aligned_objWrite (i : Nat) (e : Assetmeta) :
    AllAligned cfg.flashProgramUnit [.write s (objOff cfg i) e.encode] :=
  .write (unit_dvd_objOff i) (unit_dvd_of_four (by simp [sizeofAssetmeta]))

theorem aligned_blkWrite (l : Nat) (b : BlockMetadata) :
    AllAligned cfg.flashProgramUnit [.write s (blkOff l) b.encode] :=
  .write (unit_dvd_blkOff l) (unit_dvd_of_four (by simp [sizeofBlockMetadata]))

theorem aligned_objectWrites (e : Nat → Assetmeta) (is : List Nat) :
    AllAligned cfg.flashProgramUnit (objectWrites cfg s e is) := by
  intro c hc
  obtain ⟨j, -, rfl⟩ := List.mem_map.mp hc
  exact aligned_objWrite j (e j) _ (List.mem_singleton_self _)

theorem aligned_blockWrites (b : Nat → BlockMetadata) (is : List Nat) :
    AllAligned cfg.flashProgramUnit (blockWrites s b is) := by
  intro c hc
  obtain ⟨l, -, rfl⟩ := List.mem_map.mp hc
  exact aligned_blkWrite l (b l) _ (List.mem_singleton_self _)

/-- The object table is copied around the new record. -/
theorem aligned_copyObjects (i : Nat) :
    AllAligned cfg.flashProgramUnit (copyObjectsCalls cfg a s i) :=
  (AllAligned.move (unit_dvd_objOff 0) (unit_dvd_of_four (by omega))).append
    (.ite fun _ => .move (unit_dvd_objOff _) (unit_dvd_of_four (by omega)))

/-- The block table is copied around the new record. -/
theorem aligned_copyBlocks (l : Nat) (b0 : BlockMetadata) :
    AllAligned cfg.flashProgramUnit (copyBlocksCalls cfg a s l b0) :=
  (AllAligned.ite fun _ => (aligned_blkWrite 0 _).append
    (.ite fun _ => .move (unit_dvd_blkOff 1) (unit_dvd_of_four (by omega)))).append
    (.move (unit_dvd_blkOff _) (unit_dvd_of_four (by omega)))

section Data

variable (hL : Layout cfg T a d)
include hL

/-- Data starts behind the tables, or at the start of its block. -/
theorem Layout.unit_dvd_dataStart {l : Nat} (hl : l < cfg.numActiveDblocks) :
    cfg.flashProgramUnit ∣ (T.blk l).dataStart := by
  rcases Nat.eq_zero_or_pos l with rfl | h0
  · rw [hL.blocks.metaStart]
    exact unit_dvd_metadata
  · rw [hL.blocks.dataStart l h0 hl]
    exact Nat.dvd_zero _

/-- The data of logical block 0 moves along with the tables. -/
theorem aligned_migrate : AllAligned cfg.flashProgramUnit (migrateCalls cfg a s (T.blk 0)) := by
  have hend := hL.slots.end_aligned 0 cfg.numActiveDblocks_pos
  refine .move unit_dvd_metadata ?_
  rw [Nat.sub_right_comm]
  exact Nat.dvd_sub hend unit_dvd_metadata

/-- A write copies what lies before the object and behind it. -/
theorem aligned_updateData {i dst : Nat} (hi : T.Live i) {buf : List UInt8}
    (hbuf : cfg.flashProgramUnit ∣ buf.length) :
    AllAligned cfg.flashProgramUnit (updateDataCalls cfg dst (T.blk (T.obj i).lblock) buf
      (T.obj i).dataIndex) := by
  have hl := hL.slots.lblock_lt i hi
  have hidx := hL.slots.index_aligned i hi
  have hstart := hL.unit_dvd_dataStart hl
  -- the buffer is rounded up, so what follows it starts aligned
  have hafter := Nat.dvd_add hidx hbuf
  exact ((AllAligned.write hidx hbuf).append (.ite fun _ => .move hstart (Nat.dvd_sub hidx hstart))).append
    (.move hafter (Nat.dvd_sub (hL.slots.end_aligned _ hl) hafter))

/-- A delete moves what lies behind the object, by its slot. -/
theorem aligned_compact {i dst src : Nat} (hi : T.Live i) :
    AllAligned cfg.flashProgramUnit (compactCalls dst (T.blk (T.obj i).lblock) src
      (T.obj i).dataIndex (T.movedRange cfg i).2) := by
  have hl := hL.slots.lblock_lt i hi
  have hidx := hL.slots.index_aligned i hi
  have hstart := hL.unit_dvd_dataStart hl
  -- the slot is the maximum size rounded up
  have hslot : cfg.flashProgramUnit ∣ T.slotSize cfg i := dvd_aligned cfg (hL.slots.rounds i hi)
  refine (AllAligned.ite fun _ => .move hidx ?_).append
    (.ite fun _ => .move hstart (Nat.dvd_sub hidx hstart))
  rw [hL.movedRange_snd hi]
  exact Nat.dvd_sub (hL.slots.end_aligned _ hl) (Nat.dvd_add hidx hslot)

/-- The scratch blocks are assembled by aligned calls in every build. -/
theorem Op.Assembly.aligned {op : Op} {cs : List Call} (h : op.Assembly cfg T a s d cs) :
    AllAligned cfg.flashProgramUnit cs := by
  cases h with
  | create hcan => exact (aligned_objWrite _ _).append ((aligned_blkWrite _ _).append
      ((aligned_copyObjects _).append ((aligned_copyBlocks _ _).append (aligned_migrate hL))))
  | write hi hcur hbuf =>
    have hrounds := hL.slots.rounds _ hi
    have hbuf : cfg.flashProgramUnit ∣ _ := hbuf ▸ dvd_aligned cfg (by omega)
    exact (aligned_updateData hL hi hbuf).append ((aligned_blkWrite _ _).append
      ((aligned_objWrite _ _).append ((aligned_copyBlocks _ _).append
        ((aligned_copyObjects _).append (.ite fun _ => aligned_migrate hL)))))
  | delete hi => exact (aligned_objWrite _ _).append ((aligned_objectWrites _ _).append
      ((aligned_compact hL hi).append ((aligned_blkWrite _ _).append (aligned_copyBlocks _ _))))

end Data

/-! ## The header

The one place where builds differ. -/

/-- The builds whose header calls are aligned. -/
def BuildOptions.AlignedHeader (cfg : BuildOptions) : Prop :=
  cfg.encryption = true ∨ cfg.flashProgramUnit = 1

/-- The header is programmed by aligned calls in the builds that say so. -/
theorem aligned_headerCalls_iff (h : MetadataBlockHeader) :
    AllAligned cfg.flashProgramUnit (headerCalls cfg s h) ↔ cfg.AlignedHeader := by
  cases hc : cfg.encryption with
  | true =>
    refine iff_of_true ?_ (Or.inl hc)
    rw [headerCalls, if_pos hc]
    exact (AllAligned.write (unit_dvd_of_four (by decide))
      (unit_dvd_of_four (by simp [sizeofMetadataBlockHeader, sstTagLenBytes]))).append
      (.write (Nat.dvd_zero _) (unit_dvd_of_four (by simp)))
  | false =>
    rw [headerCalls, hc, if_neg (by decide)]
    constructor
    · intro hal
      -- the write of the swap count is one byte long
      exact Or.inr (Nat.dvd_one.mp (hal _ (List.mem_cons_of_mem _ List.mem_cons_self) _ _ _ rfl).2)
    · intro hu
      have hu : cfg.flashProgramUnit = 1 := hu.resolve_left (by simp [hc])
      rw [hu]
      exact fun c _ b off n _ => ⟨Nat.one_dvd _, Nat.one_dvd _⟩

/-! ## Runs

The calls of whole runs, collected one after the other. -/

/-- Runs that start with a wipe, with the calls issued: wipes, prepares (in place, whatever
they return, or after a reset) and successful operations. -/
inductive CallRun (cfg : Config) : Ram → Flash → List Call → Prop where
  | start (r : Ram) (f : Flash) :
      CallRun cfg (run (sstCoreWipeAll cfg) r f).mem (run (sstCoreWipeAll cfg) r f).dev
        (effects (run (sstCoreWipeAll cfg) r f).log)
  | wipe {r : Ram} {f : Flash} {cs : List Call} (h : CallRun cfg r f cs) :
      CallRun cfg (run (sstCoreWipeAll cfg) r f).mem (run (sstCoreWipeAll cfg) r f).dev
        (cs ++ effects (run (sstCoreWipeAll cfg) r f).log)
  | prepare {r : Ram} {f : Flash} {cs : List Call} (h : CallRun cfg r f cs) :
      CallRun cfg (run (sstCorePrepare cfg) r f).mem (run (sstCorePrepare cfg) r f).dev
        (cs ++ effects (run (sstCorePrepare cfg) r f).log)
  | boot {r : Ram} {f : Flash} {cs : List Call} (r0 : Ram) (h : CallRun cfg r f cs)
      (hok : (run (sstCorePrepare cfg) r0 f).val = .ok ()) :
      CallRun cfg (run (sstCorePrepare cfg) r0 f).mem (run (sstCorePrepare cfg) r0 f).dev
        (cs ++ effects (run (sstCorePrepare cfg) r0 f).log)
  | step {r : Ram} {f : Flash} {cs : List Call} (op : Op) (h : CallRun cfg r f cs)
      (hpre : op.Pre cfg (activeTables cfg r f)) (hok : (run (op.prog cfg) r f).val = .ok ()) :
      CallRun cfg (run (op.prog cfg) r f).mem (run (op.prog cfg) r f).dev
        (cs ++ effects (run (op.prog cfg) r f).log)

/-- The store is kept along a run of calls. -/
theorem CallRun.kept (hc : cfg.CryptoWorks) {cs : List Call} (h : CallRun cfg r f cs) :
    Kept cfg r f := by
  induction h with
  | start r f => exact kept_of_wipe hc r f
  | wipe _ _ => exact kept_of_wipe hc _ _
  | prepare _ ih => exact ih.prepare
  | boot r0 _ hok ih => exact ih.loadable.kept_of_prepare hok
  | step op _ hpre _ ih => exact ih.call hc op hpre

theorem aligned_prepare (r : Ram) (f : Flash) :
    AllAligned cfg.flashProgramUnit (effects (run (sstCorePrepare cfg) r f).log) := by
  apply AllAligned.filter_modifies
  rcases prepare_outcome cfg r f with ⟨e, hdoes⟩ | ⟨b, iv, -, -, hdoes⟩ <;>
    obtain ⟨log, hexec, hlog, -⟩ := hdoes.exec_eq 0 <;> rw [run, hexec, hlog]
  · exact .nil
  · refine .of_erases fun c hc => ?_
    rcases mem_eraseCalls.mp hc with rfl | ⟨rfl, -⟩ <;> rfl

theorem aligned_wipe (hc : cfg.CryptoWorks) (hh : cfg.AlignedHeader) (r : Ram) (f : Flash) :
    AllAligned cfg.flashProgramUnit (effects (run (sstCoreWipeAll cfg) r f).log) := by
  obtain ⟨x, h0, h', iv, -, -, -, hwipe⟩ := does_wipe hc r f
  obtain ⟨log, hexec, hlog, -⟩ := hwipe.exec_eq 0
  apply AllAligned.filter_modifies
  rw [run, hexec, hlog]
  have herase (is : List Nat) : AllAligned cfg.flashProgramUnit (is.map Call.erase) :=
    .of_erases fun c hc => by
      obtain ⟨i, -, rfl⟩ := List.mem_map.mp hc
      rfl
  exact (herase [x]).append ((herase [sstOtherMetaBlock x]).append
    (((aligned_blkWrite 0 _).append ((herase _).append ((aligned_blockWrites _ _).append
      (aligned_objectWrites _ _)))).append ((aligned_headerCalls_iff h').mpr hh)))

/-- An operation that succeeds is its assembly, the header, and erases. -/
theorem Mounted.aligned_of_ok (hm : Mounted cfg r f) (hc : cfg.CryptoWorks)
    (hh : cfg.AlignedHeader) (op : Op) (hpre : op.Pre cfg (activeTables cfg r f))
    (hok : (run (op.prog cfg) r f).val = .ok ()) :
    AllAligned cfg.flashProgramUnit (effects (run (op.prog cfg) r f).log) := by
  obtain ⟨T', d', cs, hasm, p⟩ := op.assembly_of_ok hm hc hpre hok
  obtain ⟨h', iv, -, -, hdoes⟩ := p.commits
  obtain ⟨log, hexec, hlog, -⟩ := hdoes.exec_eq 0
  apply AllAligned.filter_modifies
  rw [run, hexec, hlog, commitCalls]
  refine (hasm.aligned hm.layout).append (((aligned_headerCalls_iff h').mpr hh).append
    (.of_erases fun c hc => ?_))
  rcases mem_eraseCalls.mp hc with rfl | ⟨rfl, -⟩ <;> rfl

/-- By induction on the run. -/
theorem CallRun.aligned (hc : cfg.CryptoWorks) (hh : cfg.AlignedHeader) {cs : List Call}
    (h : CallRun cfg r f cs) : AllAligned cfg.flashProgramUnit cs := by
  induction h with
  | start r f => exact aligned_wipe hc hh r f
  | wipe _ ih => exact ih.append (aligned_wipe hc hh _ _)
  | prepare _ ih => exact ih.append (aligned_prepare _ _)
  | boot r0 _ _ ih => exact ih.append (aligned_prepare _ _)
  | step op h hpre hok ih => exact ih.append ((h.kept hc).aligned_of_ok hc hh op hpre hok)

/-- **Program unit.** Every range that is programmed in every run of a build is aligned to the
program unit, exactly when the build is encrypted or the unit is one byte. -/
theorem aligned_callRun_iff (hc : cfg.CryptoWorks) :
    (∀ r f cs, CallRun cfg r f cs → AllAligned cfg.flashProgramUnit cs)
      ↔ cfg.encryption = true ∨ cfg.flashProgramUnit = 1 := by
  constructor
  · intro hall
    -- the header that the first wipe programs decides
    have hwipe := hall _ _ _ (.start Ram.zero Flash.blank)
    obtain ⟨x, h0, h', iv, -, -, -, hdoes⟩ := does_wipe hc Ram.zero Flash.blank
    obtain ⟨log, hexec, hlog, -⟩ := hdoes.exec_eq 0
    rw [run, hexec] at hwipe
    refine (aligned_headerCalls_iff (s := 1) h').mp fun c hc => hwipe c ?_
    have hmem : c ∈ (effects log).filter Call.modifies := by
      rw [hlog]
      exact List.mem_append_right _ (List.mem_append_right _ (List.mem_append_right _ hc))
    exact (List.mem_filter.mp hmem).1
  · -- conversely every part of every run is aligned
    exact fun hh r f cs h => h.aligned hc hh

/-- A plain build for a flash with a program unit of four bytes. -/
def wordConfig : Config where
  totalNumOfBlocks := 2
  blockSize := 180
  numAssets := 1
  maxAssetSize := 1
  flashProgramUnit := 4
  encryption := false
  validateMetadataFromFlash := true
  enablePartialAssetRw := true
  crypto := ⟨.ok (), fun _ _ _ => .error (.mbedtls 0), fun _ _ _ _ => .error (.mbedtls 0)⟩
  blocks_ok := by decide
  unit_ok := by decide
  largest_asset_fits := by decide
  asset_fits_in_data_area := by decide
  metadata_fits := by decide
  area_addressable := by decide

/-- One build with a program unit of one byte, and one with four. -/
theorem aligned_callRun_iff_small :
    (∀ r f cs, CallRun smallConfig r f cs → AllAligned smallConfig.flashProgramUnit cs)
      ∧ ¬ ∀ r f cs, CallRun wordConfig r f cs → AllAligned wordConfig.flashProgramUnit cs :=
  ⟨(aligned_callRun_iff fun h => by cases h).mpr (Or.inr rfl),
    fun h => absurd ((aligned_callRun_iff fun h => by cases h).mp h) (by decide)⟩

set_option maxRecDepth 100000 in
/-- The first wipe programs 33 bytes at the start of block 1. -/
theorem wipe_programs_unaligned :
    ∃ r f cs, CallRun wordConfig r f cs
      ∧ ∃ c ∈ cs, c.programs = some (1, 0, 33) ∧ ¬ wordConfig.flashProgramUnit ∣ 33 :=
  ⟨_, _, _, .start Ram.zero Flash.blank, by decide +kernel⟩

end Tfm.Sst
