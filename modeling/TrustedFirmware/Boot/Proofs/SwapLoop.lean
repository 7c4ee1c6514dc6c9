import TrustedFirmware.Boot.Proofs.SwapSteps

/-!
# The loop over the ranges

`boot_copy_image` walks through the ranges of the swap, skips those that were exchanged before, and
goes on with the step that the status names.

* One range (`wpa_bootSwapSectors`): the three steps, entered at the one that the status names.
* The loop (`wpa_swapLoop`): by induction on the sectors that are left.
* `wpa_bootCopyImage_pending` and `wpa_bootCopyImage_underway`: a swap that begins takes its size
  from the images, one that is resumed from the trailer.
-/

namespace Tfm.Boot

open Device LinearFlash Word32
open BlockFlash (Row erasedByte)

namespace SwapJob

variable {cfg : BootConfig} {job : SwapJob cfg} {r : BootLoaderState} {V W : Areas} {i s : Nat}

/-! ## One range

The arithmetic of `boot_swap_sectors` is that of the ranges of the job: which sectors it takes,
whether it reaches the trailer, and how much is copied. -/

/-- Where the status says the swap is. -/
def At (job : SwapJob cfg) (i s : Nat) (V : Areas) : Prop :=
  i = 0 ∧ s = 0 ∧ job.Pending V ∨ 0 < 3 * i + s ∧ job.Stage i s V

/-- The range `i` is exchanged. -/
def RangeDone (job : SwapJob cfg) (i : Nat) (r : BootLoaderState) (bs : BootStatus) (r' : BootLoaderState)
    (V : Areas) : Prop :=
  bs.idx = i + 1 ∧ bs.state = 0 ∧ bs.swapSize = job.swapSize ∧ r' = r ∧ job.Stage (i + 1) 0 V

theorem wpa_swapState2 {bs : BootStatus} (h : job.Stage i 2 V) (hi : i < job.ranges) (hidx : bs.idx = i)
    (huse : bs.useScratch = decide (i = 0 ∧ job.UsesScratch)) (hsize : bs.swapSize = job.swapSize) :
    Wpa cfg job.Resumable (swapState2 cfg.toFlashMap (job.range i) bs) (job.RangeDone i r) r V := by
  by_cases hu : i = 0 ∧ job.UsesScratch
  · -- the record is in scratch, and moves
    obtain ⟨rfl, hu⟩ := hu
    refine (wpa_swapState2_scratch h hu hidx (huse.trans (decide_eq_true ⟨rfl, hu⟩)) hsize).mono ?_
    rintro bs' r' W - ⟨rfl, rfl, hW⟩
    exact ⟨rfl, rfl, hsize, rfl, hW⟩
  · have hplain : i ≠ 0 ∨ ¬ job.UsesScratch := by
      rcases Nat.eq_zero_or_pos i with h0 | h0
      · exact Or.inr fun h => hu ⟨h0, h⟩
      · exact Or.inl (by omega)
    refine (wpa_swapState2_slot h hi hplain hidx (huse.trans (decide_eq_false hu))).mono ?_
    rintro bs' r' W - ⟨rfl, rfl, hW⟩
    exact ⟨rfl, rfl, hsize, rfl, hW⟩

/-- From step 1 on. -/
theorem wpa_swapState1_next {bs : BootStatus} (h : job.Stage i 1 V) (hi : i < job.ranges)
    (hr : HasSectors cfg r) (hidx : bs.idx = i) (huse : bs.useScratch = decide (i = 0 ∧ job.UsesScratch))
    (hsize : bs.swapSize = job.swapSize) :
    Wpa cfg job.Resumable (swapState1 cfg.toFlashMap (job.range i) bs >>= fun bs =>
      if bs.state = 2 then swapState2 cfg.toFlashMap (job.range i) bs else pure bs) (job.RangeDone i r) r V := by
  refine Wpa.bind ((wpa_swapState1 h hi hr hidx huse).mono ?_)
  rintro bs' r' W - ⟨rfl, rfl, hW⟩
  exact wpa_swapState2 hW hi hidx huse hsize

/-! ### Sizes of ranges

What the source computes for a range is what the description of the swap has for it. -/

theorem left_succ_lt (hi : i < job.ranges) : job.left (i + 1) < cfg.sectors := by
  have h1 := job.left_pos hi
  have h2 := job.left_succ i
  have h3 := job.left_le i
  have h4 := cfg.scratch_pos
  omega

/-- A range that does not reach the trailer is copied as a whole. -/
theorem copySz_of_plain (h : i ≠ 0 ∨ ¬ job.UsesScratch) :
    (job.range i).copySz = job.count i * cfg.sectorSize := by
  have h1 := job.imgOff_add_copySz i
  have h2 := job.bound_eq i
  rw [job.copyEnd_eq h] at h1
  omega

/-- The range of the trailer is copied up to it. -/
theorem copySz_of_usesScratch (hu : job.UsesScratch) :
    (job.range 0).copySz = job.count 0 * cfg.sectorSize - bootSlotsTrailerSz cfg.programUnit := by
  have h1 : job.bound 1 + (job.range 0).copySz = job.copyEnd 0 := job.imgOff_add_copySz 0
  have h2 : job.bound 0 = job.bound 1 + job.count 0 * cfg.sectorSize := job.bound_eq 0
  have h3 : job.copyEnd 0 = job.extent := Nat.min_eq_right job.extent_le_bound
  have h4 : job.extent = cfg.faSize .image0 - bootSlotsTrailerSz cfg.programUnit := by
    unfold extent
    rw [if_pos hu]
    rfl
  have h5 : job.bound 0 = cfg.faSize .image0 := by
    rw [bound, left_zero, cfg.size_image0, hu]
  omega

/-- The trailer is in the range if and only if the range comes first and reaches the last sector. -/
theorem reaches_iff (i : Nat) :
    (cfg.sectors - 1) * cfg.sectorSize < job.bound (i + 1) + job.count i * cfg.sectorSize
      ↔ i = 0 ∧ job.UsesScratch := by
  rw [← job.bound_eq i]
  constructor
  · intro hlt
    refine Decidable.byContradiction fun hne => ?_
    have hplain : i ≠ 0 ∨ ¬ job.UsesScratch := by
      rcases Nat.eq_zero_or_pos i with h0 | h0
      · exact Or.inr fun h => hne ⟨h0, h⟩
      · exact Or.inl (by omega)
    exact Nat.not_lt.mpr (job.bound_le_of hplain) hlt
  · rintro ⟨rfl, hu⟩
    rw [bound, left_zero, hu]
    exact Nat.mul_lt_mul_of_pos_right (Nat.sub_lt cfg.sectors_pos Nat.zero_lt_one) cfg.sectorSize_pos

theorem count_pos (hi : i < job.ranges) : 0 < job.count i := by
  have h1 := job.left_pos hi
  have h2 := job.left_succ i
  have h3 := cfg.scratch_pos
  unfold count
  omega

/-- The size that `boot_swap_sectors` computes is the one of the range. -/
theorem copySz_eq (hi : i < job.ranges) :
    (if (cfg.sectors - 1) * cfg.sectorSize
        < job.left (i + 1) * cfg.sectorSize + job.count i * cfg.sectorSize then
      sub32 (job.count i * cfg.sectorSize) (bootSlotsTrailerSz (bootWriteSz cfg.toFlashMap))
    else job.count i * cfg.sectorSize) = (job.range i).copySz := by
  change (if (cfg.sectors - 1) * cfg.sectorSize < job.bound (i + 1) + _ then _ else _) = _
  by_cases hu : i = 0 ∧ job.UsesScratch
  · rw [if_pos ((reaches_iff i).mpr hu), cfg.writeSz_eq]
    obtain ⟨rfl, hu⟩ := hu
    have h1 := cfg.trailer_fits
    have h2 : 1 * cfg.sectorSize ≤ job.count 0 * cfg.sectorSize :=
      Nat.mul_le_mul_right _ (count_pos hi)
    have h3 := job.bound_eq 0
    have h4 := job.bound_le 0
    have h5 := cfg.area_in_flash .image0
    have h6 := cfg.flash_addressable
    -- the difference does not wrap: a range has at least one sector, and a trailer fits into one
    rw [sub32_eq (by omega) (by omega), copySz_of_usesScratch hu]
  · rw [if_neg fun h => hu ((reaches_iff i).mp h)]
    refine (copySz_of_plain ?_).symm
    rcases Nat.eq_zero_or_pos i with h0 | h0
    · exact Or.inr fun h => hu ⟨h0, h⟩
    · exact Or.inl (by omega)

/-- Scratch holds the status of the first range if it is not copied as a whole. -/
theorem useScratch_eq (hi : i < job.ranges) :
    decide (i = 0 ∧ (job.range i).copySz ≠ job.count i * cfg.sectorSize)
      = decide (i = 0 ∧ job.UsesScratch) := by
  refine decide_eq_decide.mpr (and_congr_right fun h0 => ?_)
  subst h0
  constructor
  · intro hne
    exact Decidable.byContradiction fun hu => hne (copySz_of_plain (Or.inr hu))
  · intro hu
    have h1 := cfg.trailerSz_slots
    have h2 : 1 * cfg.sectorSize ≤ job.count 0 * cfg.sectorSize :=
      Nat.mul_le_mul_right _ (count_pos hi)
    have h3 := cfg.sectorSize_pos
    rw [copySz_of_usesScratch hu]
    omega

/-! ### The three steps -/

/-- Step 0, of the first range or of a later one. -/
theorem wpa_swapState0 {bs : BootStatus} (h : job.At i 0 V) (hi : i < job.ranges) (hr : HasSectors cfg r)
    (hidx : bs.idx = i) (huse : bs.useScratch = decide (i = 0 ∧ job.UsesScratch))
    (hsize : bs.swapSize = job.swapSize) :
    Wpa cfg job.Resumable (swapState0 cfg.toFlashMap (job.range i) bs)
      (fun bs' r' W => bs' = { bs with state := 1 } ∧ r' = r ∧ job.Stage i 1 W) r V := by
  rcases h with ⟨rfl, _, h⟩ | ⟨hpos, h⟩
  · refine wpa_swapState0_first h hr hidx (huse.trans ?_) hsize
    exact decide_eq_decide.mpr (and_iff_right rfl)
  · exact wpa_swapState0_later h (by omega) hi hidx (huse.trans (decide_eq_false fun h => by omega))

/-- A range is exchanged, from the step on that the status names. -/
theorem wpa_bootSwapSectors {bs : BootStatus} (h : job.At i s V) (hi : i < job.ranges) (hs : s ≤ 2)
    (hr : HasSectors cfg r) (hidx : bs.idx = i) (hstate : bs.state = s)
    (hsize : bs.swapSize = job.swapSize) :
    Wpa cfg job.Resumable (bootSwapSectors cfg.toFlashMap (job.left (i + 1)) (job.count i * cfg.sectorSize) bs)
      (job.RangeDone i r) r V := by
  have hJ : job.Resumable V := by
    rcases h with ⟨_, _, h⟩ | ⟨hpos, h⟩
    · exact Or.inl h
    · exact underway h hpos hs hi
  obtain ⟨idx, state, useScratch, swapSize⟩ := bs
  obtain rfl : idx = i := hidx
  obtain rfl : state = s := hstate
  change swapSize = job.swapSize at hsize
  have hsectors := cfg.sectors_pos
  unfold bootSwapSectors
  refine Sees.getMem.wpa_bind hJ ((sees_bootImgSectorOff hr.img0 (left_succ_lt hi)).wpa_bind hJ ?_)
  rw [hr.img0, length_sectorList]
  refine (sees_bootImgSectorOff hr.img0 (by omega)).wpa_bind hJ ?_
  have hrange : (⟨job.left (idx + 1) * cfg.sectorSize, job.count idx * cfg.sectorSize,
      (job.range idx).copySz⟩ : SwapRange) = job.range idx := rfl
  simp only [copySz_eq hi, useScratch_eq hi, hrange]
  -- the step at which the loop body is entered
  obtain rfl | rfl | rfl : state = 0 ∨ state = 1 ∨ state = 2 := by omega
  · rw [if_pos rfl]
    refine Wpa.bind ((wpa_swapState0 h hi hr rfl rfl hsize).mono ?_)
    rintro bs' r' W - ⟨rfl, rfl, hW⟩
    exact wpa_swapState1_next hW hi hr rfl rfl hsize
  · have hstage : job.Stage idx 1 V := h.elim (fun h => absurd h.2.1 (by decide)) fun h => h.2
    exact (Sees.pure _).wpa_bind hJ (wpa_swapState1_next hstage hi hr rfl rfl hsize)
  · have hstage : job.Stage idx 2 V := h.elim (fun h => absurd h.2.1 (by decide)) fun h => h.2
    exact (Sees.pure _).wpa_bind hJ ((Sees.pure _).wpa_bind hJ (wpa_swapState2 hstage hi rfl rfl hsize))

/-! ## The loop

The loop goes down from the last sector, one range at a time. A resumed loop passes over the ranges
before the index of the status without looking at the flash. -/

/-- As many sectors as fit into the scratch area. -/
theorem sees_copySzLoop {slot : ImageSlot} (hslot : slot.sectors = cfg.sectorList) {n c : Nat}
    (hn : n ≤ cfg.sectors) (hc : c ≤ cfg.scratchSectors) :
    Sees cfg (copySzLoop slot (cfg.faSize .imageScratch) n (c * cfg.sectorSize)) r V
      ((c + min (cfg.scratchSectors - c) n) * cfg.sectorSize, n - (cfg.scratchSectors - c)) := by
  -- by induction on the sectors; `c` of them are taken, and scratch holds no more than it has
  induction n generalizing c with
  | zero =>
    rw [copySzLoop, Nat.min_zero, Nat.add_zero, Nat.zero_sub]
    exact Sees.pure _
  | succ n ih =>
    rw [copySzLoop]
    refine (sees_bootImgSectorSize hslot (by omega)).bind ?_
    rw [cfg.size_scratch, ← Nat.succ_mul]
    by_cases hfull : c = cfg.scratchSectors
    · rw [if_pos (Nat.mul_lt_mul_of_pos_right (by omega) cfg.sectorSize_pos), hfull, Nat.sub_self,
        Nat.zero_min, Nat.add_zero, Nat.sub_zero]
      exact Sees.pure _
    · rw [if_neg (Nat.not_lt.mpr (Nat.mul_le_mul_right _ (by omega))), ← cfg.size_scratch]
      have hmin : c + 1 + min (cfg.scratchSectors - (c + 1)) n = c + min (cfg.scratchSectors - c) (n + 1) := by
        omega
      have hsub : n - (cfg.scratchSectors - (c + 1)) = n + 1 - (cfg.scratchSectors - c) := by omega
      rw [← hmin, ← hsub]
      exact ih (by omega) (by omega)

theorem sees_bootCopySz (hr : HasSectors cfg r) {n : Nat} (hn : job.left i = n + 1) :
    Sees cfg (bootCopySz cfg.toFlashMap n) r V (job.count i * cfg.sectorSize, job.left (i + 1)) := by
  have h1 := job.left_succ i
  have h2 := job.left_le i
  have hloop : Sees cfg (copySzLoop r.img0 (cfg.faSize .imageScratch) (n + 1) (0 * cfg.sectorSize)) r V _ :=
    sees_copySzLoop hr.img0 (by omega) (Nat.zero_le _)
  have hcount : 0 + min (cfg.scratchSectors - 0) (n + 1) = job.count i := by
    unfold count
    omega
  have hleft : n + 1 - (cfg.scratchSectors - 0) = job.left (i + 1) := by omega
  rw [hcount, hleft, Nat.zero_mul] at hloop
  exact Sees.getMem.bind hloop

/-- The swap is complete. -/
def Swapped (job : SwapJob cfg) (V : Areas) : Prop := job.Stage job.ranges 0 V

/-- Wherever the status says the swap is, it can be resumed. -/
theorem At.resumable (h : job.At i s V) (hs : s ≤ 2) (hi : i ≤ job.ranges) (hi' : 0 < s → i < job.ranges) :
    job.Resumable V := by
  rcases h with ⟨_, _, h⟩ | ⟨hpos, h⟩
  · exact Or.inl h
  · exact Or.inr ⟨i, s, h, hpos, hs, hi, hi'⟩

/-- No sector is left behind the last range. -/
theorem ranges_le_of_left (h : job.left i = 0) : job.ranges ≤ i := by
  refine Nat.le_of_not_lt fun hlt => ?_
  have hpos := job.left_pos hlt
  omega

/-- A sector is left in front of it. -/
theorem lt_ranges_of_left (h : 0 < job.left i) : i < job.ranges := by
  refine Nat.lt_of_not_le fun hle => ?_
  have hmul := Nat.mul_le_mul_right cfg.scratchSectors hle
  have hzero := job.left_ranges
  unfold left at hzero h
  omega

/-- No sector is left. -/
theorem wpa_swapLoop_end {bs : BootStatus} {fuel : Nat} (h : job.At bs.idx bs.state V)
    (hidx : bs.idx = job.ranges) (hlast : 0 < bs.state → bs.idx < job.ranges) (j : Nat) :
    Wpa cfg job.Resumable (swapLoop cfg.toFlashMap fuel 0 j bs) (fun _ r' W => r' = r ∧ job.Swapped W) r V := by
  have hstate : bs.state = 0 := by omega
  have hpos := job.ranges_pos
  have hJ := h.resumable (by omega) (by omega) hlast
  have hloop : swapLoop cfg.toFlashMap fuel 0 j bs = pure bs := by
    cases fuel with
    | zero => rfl
    | succ fuel => rfl
  rw [hidx, hstate] at h
  rw [hloop]
  exact Wpa.pure hJ ⟨rfl, h.elim (fun h => by omega) fun h => h.2⟩

/-- Ranges that were exchanged before are skipped. The induction is on the sectors that are left; `j` is
the range the loop is at. -/
theorem wpa_swapLoop {bs : BootStatus} {fuel j : Nat} (h : job.At bs.idx bs.state V)
    (hstate : bs.state ≤ 2) (hidx : bs.idx ≤ job.ranges) (hlast : 0 < bs.state → bs.idx < job.ranges)
    (hr : HasSectors cfg r) (hsize : bs.swapSize = job.swapSize) (hj : j ≤ bs.idx)
    (hfuel : job.left j ≤ fuel) :
    Wpa cfg job.Resumable (swapLoop cfg.toFlashMap fuel (job.left j) j bs)
      (fun _ r' W => r' = r ∧ job.Swapped W) r V := by
  induction fuel generalizing j V bs with
  | zero =>
    have hleft : job.left j = 0 := by omega
    have hend := ranges_le_of_left hleft
    rw [hleft]
    exact wpa_swapLoop_end h (by omega) hlast j
  | succ fuel ih =>
    have hJ := h.resumable hstate hidx hlast
    cases hleft : job.left j with
    | zero =>
      have hend := ranges_le_of_left hleft
      exact wpa_swapLoop_end h (by omega) hlast j
    | succ n =>
      have hlt : j < job.ranges := lt_ranges_of_left (by omega)
      have hnext : job.left (j + 1) ≤ fuel := by
        have h1 := job.left_succ j
        have h2 := cfg.scratch_pos
        omega
      rw [swapLoop]
      refine (sees_bootCopySz hr hleft).wpa_bind hJ ?_
      by_cases hskip : bs.idx ≤ j
      · -- the range that the status is at: it is exchanged, and the status moves on with the loop
        obtain rfl : bs.idx = j := Nat.le_antisymm hskip hj
        rw [if_pos hskip]
        refine Wpa.bind ((wpa_bootSwapSectors h hlt hstate hr rfl rfl hsize).mono ?_)
        rintro bs' r' W - ⟨hidx', hstate', hsize', rfl, hW⟩
        refine ih ?_ (by omega) (by omega) (by omega) hsize' (by omega) hnext
        rw [hidx', hstate']
        exact Or.inr ⟨by omega, hW⟩
      · rw [if_neg hskip]
        exact (Sees.pure _).wpa_bind hJ (ih h hstate hidx hlast hsize (by omega) hnext)

/-! ## `boot_copy_image`

The size decides where the loop starts. -/

/-- The last sector that a swap of some size needs. -/
theorem sees_lastSector {copySize size idx : Nat} {sectors : List FlashSector}
    (hsectors : ∀ sector ∈ sectors, sector.fsSize = cfg.sectorSize) (hsize : size = idx * cfg.sectorSize)
    (hlo : idx ≤ (copySize - 1) / cfg.sectorSize)
    (hhi : (copySize - 1) / cfg.sectorSize < idx + sectors.length) :
    Sees cfg (lastSector copySize sectors size idx) r V ((copySize - 1) / cfg.sectorSize) := by
  induction sectors generalizing size idx with
  | nil => exact absurd hhi (by rw [List.length_nil]; omega)
  | cons sector sectors ih =>
    have hpos := cfg.sectorSize_pos
    -- sector `idx` is the last one if the sectors up to it hold the size
    have hlt : (copySize - 1) / cfg.sectorSize < idx + 1 ↔ copySize ≤ size + sector.fsSize := by
      rw [Nat.div_lt_iff_lt_mul hpos, hsectors sector List.mem_cons_self, hsize, Nat.succ_mul]
      omega
    rw [lastSector]
    by_cases hstop : copySize ≤ size + sector.fsSize
    · have heq : (copySize - 1) / cfg.sectorSize = idx := by
        have := hlt.mpr hstop
        omega
      rw [if_pos hstop, heq]
      exact Sees.pure _
    · have hnext : ¬ (copySize - 1) / cfg.sectorSize < idx + 1 := fun h => hstop (hlt.mp h)
      rw [if_neg hstop]
      refine ih (fun s hs => hsectors s (List.mem_cons_of_mem _ hs)) ?_ (by omega) ?_
      · rw [hsize, hsectors sector List.mem_cons_self, Nat.succ_mul]
      · rw [List.length_cons] at hhi
        omega

theorem fsSize_sectorList (cfg : BootConfig) {sector : FlashSector} (h : sector ∈ cfg.sectorList) :
    sector.fsSize = cfg.sectorSize := by
  obtain ⟨i, _, rfl⟩ := List.mem_map.mp h
  rfl

/-- What is left of `boot_copy_image` once the size is known. -/
theorem wpa_copyRanges {bs : BootStatus} (h : job.At bs.idx bs.state V) (hstate : bs.state ≤ 2)
    (hidx : bs.idx ≤ job.ranges) (hlast : 0 < bs.state → bs.idx < job.ranges) (hr : HasSectors cfg r) :
    Wpa cfg job.Resumable (M.getMem >>= fun s =>
      lastSector job.swapSize s.img0.sectors 0 0 >>= fun last =>
      swapLoop cfg.toFlashMap (last + 1) (last + 1) 0 { bs with swapSize := job.swapSize } >>= fun _ =>
      pure ()) (fun _ r' W => r' = r ∧ job.Swapped W) r V := by
  have hJ := h.resumable hstate hidx hlast
  have hsees : Sees cfg (lastSector job.swapSize r.img0.sectors 0 0) r V job.last := by
    rw [hr.img0]
    refine sees_lastSector (fun _ => fsSize_sectorList cfg) (Nat.zero_mul _).symm (Nat.zero_le _) ?_
    rw [length_sectorList, Nat.zero_add]
    exact job.fits
  have hloop : Wpa cfg job.Resumable (swapLoop cfg.toFlashMap (job.last + 1) (job.left 0) 0
      { bs with swapSize := job.swapSize }) (fun _ r' W => r' = r ∧ job.Swapped W) r V :=
    wpa_swapLoop h hstate hidx hlast hr rfl (Nat.zero_le _) (Nat.le_of_eq job.left_zero)
  rw [job.left_zero] at hloop
  refine Sees.getMem.wpa_bind hJ (hsees.wpa_bind hJ (Wpa.bind (hloop.mono ?_)))
  rintro _ r' W hJW ⟨rfl, hW⟩
  exact Wpa.pure hJW ⟨rfl, hW⟩

/-- The size of a swap that is under way is in the trailer that records it. -/
theorem Recorded.sees_swapSize {k : Nat} (h : job.Recorded k V) :
    Sees cfg (bootReadSwapSize cfg.toFlashMap) r V job.swapSize := by
  by_cases hu : job.UsesScratch ∧ k ≤ 2
  · -- if slot 0 has a good magic, it has the record as well, and both have the same size
    obtain ⟨hscratch, hslot⟩ := (recorded_scratch hu.1 hu.2).mp h
    refine sees_bootReadSwapSize (fun hgood => ?_) fun _ => ⟨hscratch.fields.magic, hscratch.fields.swapSize⟩
    exact (hslot.resolve_left fun hne => hne hgood).2.fields.swapSize
  · have hslot := (recorded_slot hu).mp h
    exact sees_bootReadSwapSize (fun _ => hslot.fields.swapSize) fun hne => absurd hslot.fields.magic hne

/-- **A swap that begins is completed.** -/
theorem wpa_bootCopyImage_pending {bs : BootStatus} (h : job.Pending V) (hr : HasSectors cfg r)
    (hidx : bs.idx = 0) (hstate : bs.state = 0)
    (hsize : Sees cfg (largestImageSize cfg.toFlashMap) r V job.swapSize) :
    Wpa cfg job.Resumable (bootCopyImage cfg.toFlashMap bs) (fun _ r' W => r' = r ∧ job.Swapped W) r V := by
  unfold bootCopyImage
  simp only [if_pos (And.intro hidx hstate)]
  refine hsize.wpa_bind (Or.inl h) (wpa_copyRanges (Or.inl ⟨hidx, hstate, h⟩) ?_ ?_ ?_ hr)
  · rw [hstate]
    exact Nat.zero_le 2
  · rw [hidx]
    exact Nat.zero_le _
  · rw [hstate]
    exact fun hlt => absurd hlt (Nat.lt_irrefl 0)

/-- **A swap that is resumed is completed.** -/
theorem wpa_bootCopyImage_underway {bs : BootStatus} (h : job.Underway V bs.idx bs.state)
    (hr : HasSectors cfg r) :
    Wpa cfg job.Resumable (bootCopyImage cfg.toFlashMap bs) (fun _ r' W => r' = r ∧ job.Swapped W) r V := by
  have hne : ¬ (bs.idx = 0 ∧ bs.state = 0) := by
    have := h.begun
    omega
  unfold bootCopyImage
  simp only [if_neg hne]
  exact h.stage.recorded.sees_swapSize.assertOk.wpa_bind (Or.inr ⟨_, _, h⟩)
    (wpa_copyRanges (Or.inr ⟨h.begun, h.stage⟩) h.state_le h.idx_le h.idx_lt hr)

end SwapJob

end Tfm.Boot
