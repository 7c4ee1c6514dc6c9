import TrustedFirmware.Boot.Proofs.FreshTrailer

/-!
# Stages of a swap

A swap exchanges what the slots hold below its extent, in ranges from the last sector to the first.
The status bytes count the steps, three for a range, and `Stage` says what the areas hold when they
count to `3 * i + s`: the ranges before `i` are exchanged, and the step `s` of range `i` can be made
again from the beginning. Before the first status byte the swap is pending.

The states between two status bytes, as `Content` has them for range `i`:

* `s = 0`: everything from `bound i` on is exchanged, nothing below;
* `s = 1`: the range of slot 1 is saved in scratch, and may be half overwritten in slot 1;
* `s = 2`: the range of slot 1 is the old one, and slot 0 may be half overwritten.

A byte that may be torn is in neither half of `Split`, and its value is found elsewhere: in slot 0
for `s = 1`, in scratch for `s = 2`. That is why every step can be repeated.
-/

namespace Tfm.Boot

open Device LinearFlash Word32
open BlockFlash (Row erasedByte)

/-- A swap: what the slots hold in the beginning, and its size. -/
structure SwapJob (cfg : BootConfig) where
  old : Row
  new : Row
  swapSize : Nat
  size_lt : swapSize < 2 ^ 32
  fits : (swapSize - 1) / cfg.sectorSize < cfg.sectors
  ranges_le : ((swapSize - 1) / cfg.sectorSize + cfg.scratchSectors) / cfg.scratchSectors ≤ 255
  flag : new (bootImageOkOff cfg.toFlashMap .image1) = bootFlagSet
    ∨ new (bootImageOkOff cfg.toFlashMap .image1) = bootFlagUnset

namespace SwapJob

variable {cfg : BootConfig} (job : SwapJob cfg)

/-- The flag `image_ok`, which moves to slot 0 with the image. -/
def imageOk : UInt8 := job.new (bootImageOkOff cfg.toFlashMap .image1)

/-! ## Ranges

Arithmetic of the ranges. Range `i` ends at `bound i` and starts at `bound (i + 1)`; a range has as
many sectors as scratch, but the last one, at the start of the slot, may have fewer. Only range 0
can reach the trailer, and then it is copied up to the trailer only. -/

/-- The last sector that is swapped. -/
def last : Nat := (job.swapSize - 1) / cfg.sectorSize

/-- The number of sectors that are left after some ranges. -/
def left (i : Nat) : Nat := job.last + 1 - i * cfg.scratchSectors

/-- Where the ranges end that are left. -/
def bound (i : Nat) : Nat := job.left i * cfg.sectorSize

/-- The number of ranges. -/
def ranges : Nat := (job.last + cfg.scratchSectors) / cfg.scratchSectors

/-- The last sector of the slot is swapped, and with it the place of the trailer. -/
def UsesScratch : Prop := job.last + 1 = cfg.sectors

instance : Decidable job.UsesScratch := inferInstanceAs (Decidable (_ = _))

/-- What is exchanged is below. -/
def extent : Nat := if job.UsesScratch then cfg.statusOff .image0 else job.bound 0

theorem last_lt : job.last < cfg.sectors := job.fits

theorem left_zero : job.left 0 = job.last + 1 := by
  rw [left, Nat.zero_mul, Nat.sub_zero]

/-- A range takes as many sectors as scratch has. -/
theorem left_succ (i : Nat) : job.left (i + 1) = job.left i - cfg.scratchSectors := by
  rw [left, left, Nat.succ_mul, Nat.sub_add_eq]

theorem left_ranges : job.left job.ranges = 0 := by
  have hpos := cfg.scratch_pos
  have h := Nat.div_add_mod (job.last + cfg.scratchSectors) cfg.scratchSectors
  have hlt := Nat.mod_lt (job.last + cfg.scratchSectors) hpos
  unfold left ranges
  rw [Nat.mul_comm]
  omega

theorem left_pos {i : Nat} (h : i < job.ranges) : 0 < job.left i := by
  have hpos := cfg.scratch_pos
  have hle : (i + 1) * cfg.scratchSectors ≤ job.last + cfg.scratchSectors :=
    (Nat.le_div_iff_mul_le hpos).mp h
  rw [Nat.succ_mul] at hle
  unfold left
  omega

theorem ranges_pos : 0 < job.ranges := by
  refine Nat.div_pos ?_ cfg.scratch_pos
  omega

theorem bound_succ_le (i : Nat) : job.bound (i + 1) ≤ job.bound i := by
  refine Nat.mul_le_mul_right _ ?_
  rw [left_succ]
  exact Nat.sub_le _ _

/-- The last range starts at the start of the slot. -/
theorem bound_ranges : job.bound job.ranges = 0 := by
  rw [bound, left_ranges, Nat.zero_mul]

/-- No more sectors are left than there are. -/
theorem left_le (i : Nat) : job.left i ≤ cfg.sectors := by
  have h := job.last_lt
  unfold left
  omega

theorem bound_le (i : Nat) : job.bound i ≤ cfg.faSize .image0 := by
  rw [cfg.size_image0]
  exact Nat.mul_le_mul_right _ (job.left_le i)

/-- Only the first range can reach the last sector. -/
theorem bound_le_of {i : Nat} (h : i ≠ 0 ∨ ¬ job.UsesScratch) :
    job.bound i ≤ (cfg.sectors - 1) * cfg.sectorSize := by
  refine Nat.mul_le_mul_right _ ?_
  have hlt := job.last_lt
  have hpos := cfg.scratch_pos
  rcases h with h | h
  · obtain ⟨j, rfl⟩ : ∃ j, i = j + 1 := ⟨i - 1, by omega⟩
    rw [left, Nat.succ_mul]
    omega
  · unfold UsesScratch at h
    unfold left
    omega

/-- Other ranges lie in front of the trailer. -/
theorem bound_le_statusOff {i : Nat} (h : i ≠ 0 ∨ ¬ job.UsesScratch) :
    job.bound i ≤ cfg.statusOff .image0 :=
  Nat.le_trans (job.bound_le_of h) (cfg.lastSector_le_statusOff .image0)

/-- The trailers of both slots start at the same offset. -/
theorem statusOff_image1 : cfg.statusOff .image1 = cfg.statusOff .image0 := by
  show cfg.faSize .image1 - bootSlotsTrailerSz cfg.programUnit
    = cfg.faSize .image0 - bootSlotsTrailerSz cfg.programUnit
  rw [cfg.size_image0, cfg.size_image1]

theorem extent_le : job.extent ≤ cfg.statusOff .image0 := by
  unfold extent
  split
  · exact Nat.le_refl _
  · exact job.bound_le_statusOff (Or.inr ‹_›)

theorem extent_le_bound : job.extent ≤ job.bound 0 := by
  unfold extent
  split
  · rename_i h
    have hb : job.bound 0 = cfg.faSize .image0 := by
      rw [bound, left_zero, cfg.size_image0, h]
    rw [hb]
    exact Nat.sub_le _ _
  · exact Nat.le_refl _

/-- All ranges but the first are exchanged as a whole. -/
theorem bound_le_extent (i : Nat) : job.bound (i + 1) ≤ job.extent := by
  unfold extent
  split
  · exact job.bound_le_statusOff (Or.inl (Nat.succ_ne_zero i))
  · refine Nat.mul_le_mul_right _ ?_
    unfold left
    omega

/-- The size of a range in sectors. -/
def count (i : Nat) : Nat := job.left i - job.left (i + 1)

theorem count_le (i : Nat) : job.count i ≤ cfg.scratchSectors := by
  rw [count, left_succ]
  omega

theorem bound_eq (i : Nat) : job.bound i = job.bound (i + 1) + job.count i * cfg.sectorSize := by
  have hle : job.left (i + 1) ≤ job.left i := by
    rw [left_succ]
    exact Nat.sub_le _ _
  rw [bound, bound, count, ← Nat.add_mul]
  congr 1
  omega

/-- Where the bytes of a range end that are copied. -/
def copyEnd (i : Nat) : Nat := min (job.bound i) job.extent

/-- The range `i`. -/
def range (i : Nat) : SwapRange :=
  ⟨job.bound (i + 1), job.count i * cfg.sectorSize, job.copyEnd i - job.bound (i + 1)⟩

/-- The bytes of a range that are copied. -/
theorem copyEnd_ge (i : Nat) : job.bound (i + 1) ≤ job.copyEnd i :=
  Nat.le_min.mpr ⟨job.bound_succ_le i, job.bound_le_extent i⟩

/-- A range that does not reach the trailer is copied as a whole. -/
theorem copyEnd_eq {i : Nat} (h : i ≠ 0 ∨ ¬ job.UsesScratch) : job.copyEnd i = job.bound i := by
  refine Nat.min_eq_left ?_
  by_cases hu : job.UsesScratch
  · unfold extent
    rw [if_pos hu]
    exact job.bound_le_statusOff h
  · rcases Nat.eq_zero_or_pos i with rfl | hi
    · unfold extent
      rw [if_neg hu]
    · obtain ⟨j, rfl⟩ : ∃ j, i = j + 1 := ⟨i - 1, by omega⟩
      exact job.bound_le_extent j

theorem bound_mod (i : Nat) : job.bound i % cfg.sectorSize = 0 := Nat.mul_mod_left _ _

theorem bound_mod_unit (i : Nat) : job.bound i % cfg.programUnit = 0 :=
  cfg.mod_unit (Nat.mod_eq_zero_of_dvd (Nat.dvd_mul_left_of_dvd (Nat.dvd_of_mod_eq_zero cfg.sector_aligned) _))

theorem extent_mod : job.extent % cfg.programUnit = 0 := by
  unfold extent
  split
  · exact cfg.statusOff_mod .image0
  · exact job.bound_mod_unit 0

/-- What is copied is made of program units. -/
theorem copySz_mod (i : Nat) : (job.range i).copySz % cfg.programUnit = 0 := by
  refine Nat.mod_eq_zero_of_dvd (Nat.dvd_sub (Nat.dvd_of_mod_eq_zero ?_)
    (Nat.dvd_of_mod_eq_zero (job.bound_mod_unit _)))
  rcases Nat.le_total (job.bound i) job.extent with h | h
  · rw [copyEnd, Nat.min_eq_left h]
    exact job.bound_mod_unit i
  · rw [copyEnd, Nat.min_eq_right h]
    exact job.extent_mod

/-- The bytes that are copied. -/
theorem imgOff_add_copySz (i : Nat) : job.bound (i + 1) + (job.range i).copySz = job.copyEnd i :=
  Nat.add_sub_cancel' (job.copyEnd_ge i)

theorem copyEnd_le (i : Nat) : job.copyEnd i ≤ job.bound i := Nat.min_le_left _ _

theorem copySz_le (i : Nat) : (job.range i).copySz ≤ job.count i * cfg.sectorSize := by
  have h1 := job.imgOff_add_copySz i
  have h2 := job.copyEnd_le i
  have h3 := job.bound_eq i
  omega

theorem count_mul_le (i : Nat) : job.count i * cfg.sectorSize ≤ cfg.faSize .imageScratch := by
  rw [cfg.size_scratch]
  exact Nat.mul_le_mul_right _ (job.count_le i)

/-- There are enough status bytes for all ranges. -/
theorem ranges_lt : 3 * job.ranges < bootStatusEntries .image0 := by
  have h : job.ranges ≤ 255 := job.ranges_le
  show 3 * job.ranges < 768
  omega

/-! ## What the areas hold

The invariant of a swap, from its parts: what each slot holds (`Slot0`, `Slot1`), what is saved in
scratch (`Saved`), and what the trailers record (`Record`, `Recorded`). -/

/-- A slot is `f` below `lo` and `g` from `hi` on, as far as it is exchanged at all. -/
def Split (a : FlashArea) (f g : Row) (lo hi : Nat) (V : Areas) : Prop :=
  ∀ x < job.extent, (x < lo → V a x = f x) ∧ (hi ≤ x → V a x = g x)

/-- Slot 0 is as it was below `lo`, and exchanged from `hi` on. -/
def Slot0 (lo hi : Nat) (V : Areas) : Prop := job.Split .image0 job.old job.new lo hi V

/-- Slot 1 is as it was below `lo`, and exchanged from `hi` on. -/
def Slot1 (lo hi : Nat) (V : Areas) : Prop := job.Split .image1 job.new job.old lo hi V

/-- The range `i` of slot 1 is saved in scratch. -/
def Saved (i : Nat) (V : Areas) : Prop :=
  ∀ x, job.bound (i + 1) ≤ x → x < job.copyEnd i → V .imageScratch (x - job.bound (i + 1)) = job.new x

/-- The trailer of an area records `k` steps. -/
structure Record (a : FlashArea) (k : Nat) (V : Areas) : Prop where
  fields : Fields cfg a job.imageOk job.swapSize V
  status : StatusAt cfg V a k

/-- While slot 0 cannot hold the record, scratch does. -/
def Recorded (k : Nat) (V : Areas) : Prop :=
  -- the record moves to slot 0 at the end of the first range, when both may hold it
  if job.UsesScratch ∧ k ≤ 2 then
    job.Record .imageScratch k V ∧ (cfg.magicOf V .image0 ≠ .good ∨ k = 2 ∧ job.Record .image0 k V)
  else job.Record .image0 k V

/-- The contents of the slots at step `s` of the range `i`. -/
def Content (i : Nat) : Nat → Areas → Prop
  | 0, V => job.Slot0 (job.bound i) (job.bound i) V ∧ job.Slot1 (job.bound i) (job.bound i) V
  | 1, V =>
    job.Slot0 (job.bound i) (job.bound i) V ∧ job.Slot1 (job.bound (i + 1)) (job.bound i) V
      ∧ job.Saved i V
  | _, V =>
    job.Slot0 (job.bound (i + 1)) (job.bound i) V
      ∧ job.Slot1 (job.bound (i + 1)) (job.bound (i + 1)) V ∧ job.Saved i V

/-- The status bytes count to `3 * i + s`. -/
structure Stage (i s : Nat) (V : Areas) : Prop where
  content : job.Content i s V
  recorded : job.Recorded (3 * i + s) V
  cleared : 2 ≤ 3 * i + s → cfg.magicOf V .image1 = .unset

/-- A trailer of slot 0 in which no swap is under way. -/
def SlotIdle (cfg : BootConfig) (V : Areas) : Prop :=
  cfg.magicOf V .image0 ≠ .bad → cfg.copyDoneOf V .image0 = bootFlagUnset → StatusAt cfg V .image0 0

/-- No status is found. If the swap will use the scratch area for its status, slot 0 must not have a
trailer of its own, which would be found first. -/
structure Idle (V : Areas) : Prop where
  slot : SlotIdle cfg V
  fresh : job.UsesScratch → cfg.magicOf V .image0 ≠ .good
  scratch : job.UsesScratch → cfg.magicOf V .imageScratch = .good → StatusAt cfg V .imageScratch 0
  plain : ¬ job.UsesScratch → cfg.magicOf V .imageScratch ≠ .good

/-- Nothing is exchanged yet. A first range that fills the scratch area must not look like a trailer
there. -/
structure Pending (V : Areas) : Prop where
  data0 : job.Slot0 (job.bound 0) (job.bound 0) V
  data1 : V .image1 = job.new
  idle : job.Idle V
  plain : ¬ job.UsesScratch → job.count 0 = cfg.scratchSectors →
    job.new.get (job.bound 0 - bootMagicSz) bootMagicSz ≠ bootImgMagic

/-- A swap that has begun. -/
structure Underway (V : Areas) (i s : Nat) : Prop where
  stage : job.Stage i s V
  begun : 0 < 3 * i + s
  state_le : s ≤ 2
  idx_le : i ≤ job.ranges
  idx_lt : 0 < s → i < job.ranges

/-- The swap can be carried on. -/
def Resumable (V : Areas) : Prop := job.Pending V ∨ ∃ i s, job.Underway V i s

end SwapJob

end Tfm.Boot
