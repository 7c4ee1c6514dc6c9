import TrustedFirmware.Sst.Properties.LayoutInvariant

/-!
# Preparing the store from any flash

`sst_core_prepare` acts on whatever the two metadata blocks hold: it takes the latest block whose
header is valid and erases the other metadata block and, with dedicated data blocks, the block
`scratch_idx` of the header. The header is valid if its version and its swap count are;
`scratch_idx` is not looked at, nor is the block table. So the blocks that are erased are spare
blocks only if the contents of the flash say so.
-/

namespace Tfm.Sst

open Word32 BlockFlash Device

variable {cfg : Config} {r : Ram} {f : Flash}

/-! ## Spare blocks

A block may be erased without loss if the tables that the prepare makes active do not use it. -/

/-- The block `b` exists, is not the metadata block `active`, and the block table of `active`
assigns it to no logical block. -/
structure Spare (cfg : Config) (f : Flash) (active b : Nat) : Prop where
  lt : b < cfg.totalNumOfBlocks
  ne_active : b ≠ active
  unassigned : ∀ l < cfg.numActiveDblocks, ((tablesOf cfg (f active)).blk l).physId ≠ b

/-- The prepare reports an error, or erases spare blocks only. -/
def ErasesOnlySpare (cfg : Config) (r : Ram) (f : Flash) : Prop :=
  (∃ e, (run (sstCorePrepare cfg) r f).val = .error e) ∨
    ∀ b, .erase b ∈ effects (run (sstCorePrepare cfg) r f).log →
      Spare cfg f (run (sstCorePrepare cfg) r f).mem.ctx.activeMetablock b

/-! ## The erases of a prepare -/

/-- What is erased is among the programs and erases of a run. -/
theorem erase_mem_effects {α : Type} {m : SstM α} {v : Except SstErr α} {r' : Ram} {w : List Call}
    (h : Does m r f v r' w) (b : Nat) : .erase b ∈ effects (run m r f).log ↔ .erase b ∈ w := by
  obtain ⟨log, hrun, hw, -⟩ := h.exec_eq 0
  rw [run, hrun, ← hw, List.mem_filter]
  exact (and_iff_left rfl).symm

theorem mem_prepareCalls {active b : Nat} :
    .erase b ∈ prepareCalls cfg f active ↔
      b = sstOtherMetaBlock active ∨
      2 < cfg.totalNumOfBlocks ∧ b = (headerOf (f active)).scratchIdx := by
  unfold prepareCalls eraseCalls
  by_cases hN : 2 < cfg.totalNumOfBlocks
  · simp [hN]
  · simp [hN]

/-- The other metadata block is spare unless it is assigned. -/
theorem spare_otherMetaBlock {active : Nat} (hactive : active = 0 ∨ active = 1) :
    Spare cfg f active (sstOtherMetaBlock active) ↔
      ∀ l < cfg.numActiveDblocks,
        ((tablesOf cfg (f active)).blk l).physId ≠ sstOtherMetaBlock active := by
  refine ⟨Spare.unassigned, fun h => ⟨?_, ?_, h⟩⟩
  · have hblocks := cfg.two_le_blocks
    rcases otherMetaBlock_cases active with hother | hother <;> omega
  · rcases hactive with rfl | rfl <;> decide

/-- **Recovery.** In the plain build, a prepare fails or erases spare blocks only, if and only if the
metadata block it makes active (there may be none) does not assign the other metadata block and, with
dedicated data blocks, records a spare block as `scratch_idx`. -/
theorem prepare_erases_only_spare_iff (hplain : cfg.encryption = false) (r : Ram) (f : Flash) :
    ErasesOnlySpare cfg r f ↔
      ∀ active n, sstMetaCandidate (headerOf (f 0)) (headerOf (f 1)) = some (active, n) →
        (∀ l < cfg.numActiveDblocks,
          ((tablesOf cfg (f active)).blk l).physId ≠ sstOtherMetaBlock active) ∧
        (2 < cfg.totalNumOfBlocks → Spare cfg f active (headerOf (f active)).scratchIdx) := by
  unfold ErasesOnlySpare
  cases hcand : sstMetaCandidate (headerOf (f 0)) (headerOf (f 1)) with
  | none =>
    -- no header is valid
    refine iff_of_true (.inl ⟨.systemError, ?_⟩) fun active n h => by cases h
    have hnone : Does (sstCorePrepare cfg) r f (.error .systemError) r [] :=
      Does.bind_error ((does_getActiveMetablock_none hcand).orElse_error _)
    exact hnone.val_eq 0
  | some x =>
    obtain ⟨active, n⟩ := x
    have hactive := (candidate_valid hcand).1
    -- the plain build never fails once a header is valid
    have hload := does_prepare_plain (r := r) hplain hcand
    have hval : ¬ ∃ e, (run (sstCorePrepare cfg) r f).val = .error e := by
      rintro ⟨e, he⟩
      rw [run, hload.val_eq 0] at he
      cases he
    have hmem : (run (sstCorePrepare cfg) r f).mem.ctx.activeMetablock = active := by
      rw [run, hload.mem_eq 0]
      rfl
    rw [or_iff_right hval, hmem]
    simp only [erase_mem_effects hload, mem_prepareCalls, Option.some.injEq, Prod.mk.injEq]
    constructor
    · -- the two blocks that are erased, one by one
      rintro hspare _ _ ⟨rfl, rfl⟩
      exact ⟨(hspare _ (.inl rfl)).unassigned, fun hN => hspare _ (.inr ⟨hN, rfl⟩)⟩
    · intro hspare b hb
      obtain ⟨hother, hscratch⟩ := hspare active n ⟨rfl, rfl⟩
      rcases hb with rfl | ⟨hN, rfl⟩
      · exact (spare_otherMetaBlock hactive).mpr hother
      · exact hscratch hN

set_option maxRecDepth 100000 in
/-- A store with an object is prepared by erasing spare blocks. -/
theorem prepare_erases_only_spare_of_oneObject :
    ErasesOnlySpare smallConfig Ram.zero oneObjectStore.dev := by
  refine (prepare_erases_only_spare_iff rfl _ _).mpr fun active n h => ?_
  have hcand : sstMetaCandidate (headerOf (oneObjectStore.dev 0)) (headerOf (oneObjectStore.dev 1))
      = some (0, 1) := by decide +kernel
  rw [hcand] at h
  cases h
  exact ⟨by decide +kernel, fun _ => ⟨by decide +kernel, by decide +kernel, by decide +kernel⟩⟩

/-! ## Flash that was never wiped -/

/-- Flash that holds zeros, but for the version in the first header. -/
def Flash.versionOnly : Flash := fun b o => if b = 0 ∧ o = 32 then 1 else 0

set_option maxRecDepth 100000 in
/-- The header with the version alone is accepted, and the metadata block that is made active by it
is erased: it is the block number 0 which the header records as `scratch_idx`. -/
theorem prepare_erases_active_metablock :
    (run (sstCorePrepare smallConfig) Ram.zero Flash.versionOnly).mem.ctx.activeMetablock = 0 ∧
      .erase 0 ∈ effects (run (sstCorePrepare smallConfig) Ram.zero Flash.versionOnly).log ∧
      ¬ ErasesOnlySpare smallConfig Ram.zero Flash.versionOnly := by
  have hactive : (run (sstCorePrepare smallConfig) Ram.zero Flash.versionOnly).mem.ctx.activeMetablock
      = 0 := by decide +kernel
  have herase : .erase 0 ∈
      effects (run (sstCorePrepare smallConfig) Ram.zero Flash.versionOnly).log := by decide +kernel
  have hok : (run (sstCorePrepare smallConfig) Ram.zero Flash.versionOnly).val = .ok () := by
    decide +kernel
  refine ⟨hactive, herase, ?_⟩
  rintro (⟨e, he⟩ | hspare)
  · rw [hok] at he
    cases he
  · exact (hspare 0 herase).ne_active hactive.symm

end Tfm.Sst
