import TrustedFirmware.Boot.Proofs.SwapStages

/-!
# The steps of a swap

Every step of `boot_swap_sectors` takes one stage of the swap to the next. In between it changes
only what the stage says nothing about, so that a cut leaves the stage.

* Step 0 (`wpa_swapState0_first`, `wpa_swapState0_later`) saves the range of slot 1 in scratch. For
  the first range it also starts the record: in scratch if the range reaches the trailer of slot 0
  (`wpa_beginScratch`), else in slot 0 (`wpa_beginSlot`).
* Step 1 (`wpa_swapState1`) overwrites the range of slot 1, of which scratch has a copy.
* Step 2 (`wpa_swapState2_slot`, `wpa_swapState2_scratch`) overwrites the range of slot 0, of which
  slot 1 has a copy by now. If the record was kept in scratch, it moves to slot 0
  (`wpa_restoreTrailer`).
-/

namespace Tfm.Boot

open Device LinearFlash Word32
open BlockFlash (Row erasedByte)

namespace SwapJob

variable {cfg : BootConfig} {job : SwapJob cfg} {r : BootLoaderState} {V W : Areas} {a b : FlashArea}
  {i k lo top : Nat}

/-! ## Step 0: the range of slot 1 is saved

Scratch is free in step 0, with one exception: before the swap has begun, what is written there must
not look like the trailer of a swap. -/

/-- A range of slot 1 that was copied to scratch is saved. -/
theorem Replaced.saved (h : Replaced cfg .image1 .imageScratch 0 (job.count i) (job.bound (i + 1))
    (job.range i).copySz V W) (hnew : ∀ x < job.copyEnd i, V .image1 x = job.new x) : job.Saved i W := by
  have hend := job.imgOff_add_copySz i
  intro x hx hx'
  rw [h.copied _ (by omega) (by omega), hnew _ (by omega)]
  congr 1
  omega

/-- A stage behind the first status byte can be resumed. -/
theorem underway (h : job.Stage i k V) (hpos : 0 < 3 * i + k) (hk : k ≤ 2) (hi : i < job.ranges) :
    job.Resumable V := Or.inr ⟨i, k, h, hpos, hk, Nat.le_of_lt hi, fun _ => hi⟩

/-- The later ranges are saved. -/
theorem wpa_swapState0_later {bs : BootStatus} (h : job.Stage i 0 V) (hpos : 0 < i) (hi : i < job.ranges)
    (hidx : bs.idx = i) (huse : bs.useScratch = false) :
    Wpa cfg job.Resumable (swapState0 cfg.toFlashMap (job.range i) bs)
      (fun bs' r' W => bs' = { bs with state := 1 } ∧ r' = r ∧ job.Stage i 1 W) r V := by
  have hcount := job.count_mul_le i
  have hend := job.imgOff_add_copySz i
  have hle := job.copyEnd_le i
  have hbound := job.bound_le i
  have hsize : cfg.faSize .image1 = cfg.faSize .image0 := cfg.size_image1.trans cfg.size_image0.symm
  have hidx0 : bs.idx ≠ 0 := by omega
  have hstage : ∀ U, ChangedIn .imageScratch 0 (0 + job.count i * cfg.sectorSize) V U → job.Stage i 0 U :=
    fun U hU => h.of_scratch hpos (Nat.le_of_lt hi) hU
  unfold swapState0
  simp only [if_neg hidx0]
  refine wpa_replace_free (by decide) (Nat.zero_mod _) (by omega) ?_ (job.copySz_le i) (job.copySz_mod i)
    (fun U hU => underway (hstage U hU) (by omega) (by omega) hi) fun U hU => ?_
  · show job.bound (i + 1) + _ ≤ _
    omega
  · -- the range is saved: the status byte takes the swap to step 1
    have h2 := hstage U hU.changed
    have hsaved : job.Saved i U := hU.saved fun x hx =>
      (h.content.2 x (Nat.lt_of_lt_of_le hx (Nat.min_le_right _ _))).1 (by omega)
    have hu : ¬ (job.UsesScratch ∧ 3 * i + 0 ≤ 2) := by omega
    subst hidx
    exact wpa_advance_slot (k := 3 * bs.idx) huse rfl (Nat.le_succ 1) (Nat.le_of_lt hi) (fun _ => hi)
      (by omega) ((recorded_slot hu).mp h2.recorded) (underway h2 (by omega) (by omega) hi)
      ⟨h2.content.1, h2.content.2.weaken (job.bound_succ_le _) (Nat.le_refl _), hsaved⟩
      fun _ => h2.cleared (by omega)

/-! ### The first range

Before the first range is saved no record has been started: the trailers still ask for the swap
(`Pending`), and an interrupted step is begun again. -/

/-- Before the swap has begun, the scratch area may be used, as long as no step is recorded there. -/
theorem Pending.of_scratch_idle (h : job.Pending V) (hc : ChangedIn .imageScratch lo top V W)
    (hs : job.UsesScratch → cfg.magicOf W .imageScratch = .good → StatusAt cfg W .imageScratch 0)
    (hs' : ¬ job.UsesScratch → cfg.magicOf W .imageScratch ≠ .good) : job.Pending W := by
  have h0 : TrailerEq cfg .image0 V W := hc.trailerEq (Or.inl (by decide))
  have hpos := bootStatusEntries_pos .image0
  refine ⟨h.data0.changed hc (Or.inl (by decide)), ?_, ⟨?_, ?_, hs, hs'⟩, h.plain⟩
  · rw [← h.data1]
    exact funext fun x => hc _ _ (Or.inl (by decide))
  · unfold SlotIdle
    rw [← h0.fields.magicOf, ← h0.fields.copyDoneOf]
    exact fun hm hd => h0.statusAt (by omega) (h.idle.slot hm hd)
  · rw [← h0.fields.magicOf]
    exact h.idle.fresh

/-- The trailer of scratch stays, or does not count. -/
theorem Pending.of_scratch (h : job.Pending V) (hc : ChangedIn .imageScratch lo top V W)
    (hs : TrailerEq cfg .imageScratch V W ∨ cfg.magicOf W .imageScratch ≠ .good) : job.Pending W := by
  refine h.of_scratch_idle hc (fun hu hgood => ?_) fun hu => ?_
  · rcases hs with hs | hs
    · rw [← hs.fields.magicOf] at hgood
      exact hs.statusAt (by decide) (h.idle.scratch hu hgood)
    · exact absurd hgood hs
  · rcases hs with hs | hs
    · rw [← hs.fields.magicOf]
      exact h.idle.plain hu
    · exact hs

/-- If slot 0 cannot hold the trailer, the first range fills the scratch area up to a trailer. -/
theorem count_zero_of_usesScratch (hu : job.UsesScratch) : job.count 0 = cfg.scratchSectors := by
  have h1 := job.left_zero
  have h2 := job.left_succ 0
  have h3 := cfg.scratch_le
  unfold UsesScratch at hu
  unfold count
  omega

/-- Then the first range leaves room for a trailer in scratch. -/
theorem copySz_le_statusOff (hu : job.UsesScratch) :
    (job.range 0).copySz ≤ cfg.statusOff .imageScratch := by
  have h1 := job.imgOff_add_copySz 0
  have h2 : job.copyEnd 0 ≤ job.extent := Nat.min_le_right _ _
  have h3 := job.bound_eq 0
  have h4 := cfg.trailerSz_slots
  have h5 := cfg.trailerSz_scratch
  have h6 : job.extent = cfg.faSize .image0 - bootSlotsTrailerSz cfg.programUnit := by
    unfold extent
    rw [if_pos hu]
    rfl
  have h7 : job.bound 0 = cfg.faSize .image0 := by
    rw [bound, left_zero, cfg.size_image0, hu]
  have h8 : cfg.faSize .imageScratch = job.count 0 * cfg.sectorSize := by
    rw [cfg.size_scratch, count_zero_of_usesScratch hu]
  show _ ≤ cfg.faSize .imageScratch - bootScratchTrailerSz cfg.programUnit
  omega

/-- The erase of scratch takes its trailer or leaves it. -/
theorem Pending.of_erase (h : job.Pending V) (j : Nat) :
    job.Pending (V.erase .imageScratch 0 (j * cfg.sectorSize)) := by
  have hcases := erase_trailer_cases cfg V .imageScratch 0 j
  rw [Nat.zero_mul] at hcases
  refine h.of_scratch (changedIn_erase (Nat.le_refl _) (Nat.le_refl _)) (hcases.imp id fun herased => ?_)
  rw [TrailerErased.magicOf herased]
  decide

/-- The scratch area does not look like a trailer while the first range is copied to it. -/
theorem Pending.of_copied (h : job.Pending V) (hk : k ≤ (job.range 0).copySz) :
    job.Pending ((V.erase .imageScratch 0 (job.count 0 * cfg.sectorSize)).copied .image1 .imageScratch
      (job.bound 1) 0 k) := by
  have h1 := h.of_erase (job.count 0)
  refine h1.of_scratch (changedIn_copied (Nat.le_refl _) (Nat.le_refl _)) ?_
  -- what was copied so far lies in front of the trailer of scratch, or the range fills scratch
  by_cases hle : k ≤ cfg.statusOff .imageScratch
  · exact Or.inl ((changedIn_copied (Nat.le_refl 0) (Nat.le_of_eq (Nat.zero_add k))).trailerEq (Or.inr hle))
  · -- the range reaches the place of the trailer, so it is the whole area
    refine Or.inr ?_
    have hu : ¬ job.UsesScratch := fun hu => hle (Nat.le_trans hk (copySz_le_statusOff hu))
    have hcount : job.count 0 = cfg.scratchSectors := by
      have hlast := cfg.lastSector_le_statusOff .imageScratch
      have hcopy := job.copySz_le 0
      have hmax := job.count_le 0
      refine Nat.le_antisymm hmax (Nat.le_of_not_lt fun hlt => ?_)
      have hmul : job.count 0 * cfg.sectorSize ≤ (cfg.scratchSectors - 1) * cfg.sectorSize :=
        Nat.mul_le_mul_right _ (by omega)
      exact hle (Nat.le_trans (Nat.le_trans hk hcopy) (Nat.le_trans hmul hlast))
    have hsize : job.count 0 * cfg.sectorSize = cfg.faSize .imageScratch := by
      rw [hcount, cfg.size_scratch]
    have hend := job.imgOff_add_copySz 0
    rw [job.copyEnd_eq (Or.inr hu), job.bound_eq 0, hsize] at hend
    have hge := faSize_ge cfg .imageScratch
    -- all is copied: then the last bytes are those of slot 1, which are no magic by assumption;
    -- before that the last byte is erased
    by_cases hall : k = cfg.faSize .imageScratch
    · subst hall
      have hmagic := cfg.magicOff_add .imageScratch
      have hget : ((V.erase .imageScratch 0 (job.count 0 * cfg.sectorSize)).copied .image1 .imageScratch
          (job.bound 1) 0 (cfg.faSize .imageScratch) .imageScratch).get
          (bootMagicOff cfg.toFlashMap .imageScratch) bootMagicSz
          = job.new.get (job.bound 0 - bootMagicSz) bootMagicSz := by
        rw [← h1.data1]
        refine Row.get_congr fun i hi => ?_
        rw [copied_apply (Nat.zero_le _) (by omega)]
        congr 1
        have hb : job.bound 0 = job.bound 1 + job.count 0 * cfg.sectorSize := job.bound_eq 0
        omega
      intro hgood
      unfold BootConfig.magicOf at hgood
      rw [hget] at hgood
      exact h.plain hu hcount (bootMagicCode_eq_good.mp hgood)
    · refine magicOf_ne_good_of_last ?_
      rw [Areas.copied, Areas.put_apply_out (by rw [Row.length_get]; exact Or.inr (by omega)), hsize]
      exact Areas.erase_apply_in (Nat.zero_le _) (by omega)

/-- The first range is saved. -/
theorem wpa_saveFirst {β : Type} {next : Unit → BootM β} {Q : β → BootLoaderState → Areas → Prop}
    (h : job.Pending V)
    (hnext : ∀ W, job.Pending W → job.Saved 0 W → (job.UsesScratch → TrailerErased cfg W .imageScratch) →
      Wpa cfg job.Resumable (next ()) Q r W) :
    Wpa cfg job.Resumable (assertOk (bootEraseSector cfg.toFlashMap .imageScratch 0 (job.range 0).sz)
      >>= fun _ => assertOk (bootCopySector cfg.toFlashMap .image1 .imageScratch (job.range 0).imgOff 0
        (job.range 0).copySz) >>= next) Q r V := by
  have hcount := job.count_mul_le 0
  have hend : job.bound 1 + (job.range 0).copySz = job.copyEnd 0 := job.imgOff_add_copySz 0
  have hle := job.copyEnd_le 0
  have hbound := job.bound_le 0
  have hsize : cfg.faSize .image1 = cfg.faSize .image0 := cfg.size_image1.trans cfg.size_image0.symm
  have hsrc : job.bound 1 + (job.range 0).copySz ≤ cfg.faSize .image1 := by omega
  refine wpa_replace (by decide) (Nat.zero_mod _) (by omega) hsrc (job.copySz_le 0) (job.copySz_mod 0)
    (fun j _ => Or.inl (h.of_erase j)) (fun k hk => Or.inl (h.of_copied hk)) fun hW => ?_
  -- behind the copy scratch is erased, and that is where its trailer will be
  refine hnext _ (h.of_copied (Nat.le_refl _)) (hW.saved fun x _ => by rw [h.data1])
    fun hu x hx hx' => hW.erased x ?_ ?_
  · exact Nat.le_trans (Nat.le_of_eq (Nat.zero_add _)) (Nat.le_trans (copySz_le_statusOff hu) hx)
  · rw [count_zero_of_usesScratch hu, ← cfg.size_scratch]
    omega

/-- A request in slot 1 names the flag that the swap leaves. -/
theorem Pending.imageOkOf (h : job.Pending V) : cfg.imageOkOf V .image1 = job.imageOk := by
  rw [BootConfig.imageOkOf, h.data1]
  rfl

/-! ### The start of the record

The record is started where it survives the following steps, and the last thing written is its
magic. -/

theorem bootStatusInitById_eq (fm : FlashMap) (a : FlashArea) (bs : BootStatus) :
    bootStatusInitById fm a bs = (assertOk (bootReadSwapState fm .image1) >>= fun swapState =>
      writeFields fm a swapState.imageOk bs.swapSize) := rfl

/-- Any change of the fields leaves the swap pending. -/
theorem wpa_bootStatusInitById {bs : BootStatus} {Q : Unit → BootLoaderState → Areas → Prop}
    (h : job.Pending V) (hsize : bs.swapSize = job.swapSize) (herased : TrailerErased cfg V a)
    (hpending : ∀ W, ChangedIn a (bootSwapSizeOff cfg.toFlashMap a) (cfg.faSize a) V W → job.Pending W)
    (hQ : ∀ W, ChangedIn a (bootSwapSizeOff cfg.toFlashMap a) (cfg.faSize a) V W → job.Record a 0 W →
      Q () r W) :
    Wpa cfg job.Resumable (bootStatusInitById cfg.toFlashMap a bs) Q r V := by
  have hentries := bootStatusEntries_pos a
  rw [bootStatusInitById_eq]
  refine sees_bootReadSwapState.assertOk.wpa_bind (Or.inl h) ?_
  show Wpa cfg job.Resumable (writeFields cfg.toFlashMap a (cfg.imageOkOf V .image1) bs.swapSize) Q r V
  rw [h.imageOkOf, hsize]
  refine wpa_writeFields job.flag job.size_lt (fun x => herased.fields)
    (fun W hW _ => Or.inl (hpending W hW)) fun W hW hfields => hQ W hW ⟨hfields, ?_⟩
  exact hW.statusAt (Nat.le_refl _) (by omega) herased.statusAt

/-- Any change behind the extent of slot 0 leaves the swap pending, as long as no step is recorded. -/
theorem Pending.of_image0 (h : job.Pending V) (hu : ¬ job.UsesScratch) (hc : ChangedIn .image0 lo top V W)
    (hlo : job.extent ≤ lo) (hstatus : StatusAt cfg W .image0 0) : job.Pending W := by
  have hs : TrailerEq cfg .imageScratch V W := hc.trailerEq (Or.inl (by decide))
  refine ⟨h.data0.changed hc (Or.inr (Or.inl hlo)), ?_, ⟨fun _ _ => hstatus, fun hu' => absurd hu' hu,
    fun hu' => absurd hu' hu, fun _ => ?_⟩, h.plain⟩
  · rw [← h.data1]
    exact funext fun x => hc _ _ (Or.inl (by decide))
  · rw [← hs.fields.magicOf]
    exact h.idle.plain hu

/-- What the first range looks like when it is saved. -/
theorem Pending.content (h : job.Pending V) (hsaved : job.Saved 0 V) : job.Content 0 1 V := by
  have hext := job.extent_le_bound
  refine ⟨h.data0, fun x hx => ⟨fun _ => ?_, fun hge => ?_⟩, hsaved⟩
  · rw [h.data1]
  · omega

/-- The status of the swap starts in scratch. -/
theorem wpa_beginScratch {bs : BootStatus} (h : job.Pending V) (hsaved : job.Saved 0 V)
    (hu : job.UsesScratch) (herased : TrailerErased cfg V .imageScratch) (hidx : bs.idx = 0)
    (huse : bs.useScratch = true) (hsize : bs.swapSize = job.swapSize) :
    Wpa cfg job.Resumable (bootStatusInitById cfg.toFlashMap .imageScratch bs >>= fun _ =>
      assertOk (bootWriteStatus cfg.toFlashMap { bs with state := 1 }) >>= fun _ =>
      pure { bs with state := 1 })
      (fun bs' r' W => bs' = { bs with state := 1 } ∧ r' = r ∧ job.Stage 0 1 W) r V := by
  have hcopy := copySz_le_statusOff hu
  have hend := job.imgOff_add_copySz 0
  have hfields := statusOff_add_le cfg .imageScratch
  -- a trailer without a status byte does not count, complete or not
  have hpending : ∀ W, ChangedIn .imageScratch (bootSwapSizeOff cfg.toFlashMap .imageScratch)
      (cfg.faSize .imageScratch) V W → job.Pending W := fun W hW =>
    h.of_scratch_idle hW (fun _ _ => hW.statusAt (Nat.le_refl _) (by decide) herased.statusAt)
      fun hu' => absurd hu hu'
  refine Wpa.bind (wpa_bootStatusInitById h hsize herased hpending fun W hW hrec => ?_)
  have hW' := hpending W hW
  have hsavedW : job.Saved 0 W := by
    intro x hx hx'
    rw [hW _ _ (Or.inr (Or.inl (by omega)))]
    exact hsaved x hx hx'
  exact wpa_advance_scratch (k := 0) huse hidx rfl (Nat.le_succ 1) hu hrec (hW'.idle.fresh hu) (Or.inl hW')
    (hW'.content hsavedW) (fun hk => absurd hk (by decide)) hcopy

/-- The status of the swap starts in slot 0. -/
theorem wpa_beginSlot {bs : BootStatus} (h : job.Pending V) (hsaved : job.Saved 0 V)
    (hu : ¬ job.UsesScratch) (hr : HasSectors cfg r) (hidx : bs.idx = 0)
    (huse : bs.useScratch = false) (hsize : bs.swapSize = job.swapSize) :
    Wpa cfg job.Resumable (assertOk (bootEraseLastSectorById cfg.toFlashMap .image0 r.img0) >>= fun _ =>
      bootStatusInitById cfg.toFlashMap .image0 bs >>= fun _ =>
      assertOk (bootWriteStatus cfg.toFlashMap { bs with state := 1 }) >>= fun _ =>
      pure { bs with state := 1 })
      (fun bs' r' W => bs' = { bs with state := 1 } ∧ r' = r ∧ job.Stage 0 1 W) r V := by
  have hranges := job.ranges_pos
  have hext : job.extent ≤ (cfg.sectors - 1) * cfg.sectorSize := by
    unfold extent
    rw [if_neg hu]
    exact job.bound_le_of (Or.inr hu)
  have hstatus := job.extent_le
  have hfields := statusOff_add_le cfg .image0
  have hc : ChangedIn .image0 ((cfg.sectors - 1) * cfg.sectorSize)
      ((cfg.sectors - 1) * cfg.sectorSize + cfg.sectorSize) V
      (V.erase .image0 ((cfg.sectors - 1) * cfg.sectorSize) cfg.sectorSize) :=
    changedIn_erase (Nat.le_refl _) (Nat.le_refl _)
  have herased : TrailerErased cfg (V.erase .image0 ((cfg.sectors - 1) * cfg.sectorSize) cfg.sectorSize)
      .image0 := trailerErased_lastSector cfg V .image0
  generalize hU : V.erase .image0 ((cfg.sectors - 1) * cfg.sectorSize) cfg.sectorSize = U at hc herased
  -- the last sector of slot 0 lies behind the extent, so nothing of the image goes with it
  have h1 : job.Pending U := h.of_image0 hu hc hext herased.statusAt
  have hpending : ∀ W, ChangedIn .image0 (bootSwapSizeOff cfg.toFlashMap .image0) (cfg.faSize .image0) U W →
      job.Pending W := fun W hW =>
    h1.of_image0 hu hW (by omega) (hW.statusAt (Nat.le_refl _) (by decide) herased.statusAt)
  refine Wpa.bind (wpa_bootEraseLastSectorById hr.img0 cfg.size_image0 (Or.inl h) (hU ▸ Or.inl h1) ?_).assertOk
  rw [hU]
  refine Wpa.bind (wpa_bootStatusInitById h1 hsize herased hpending fun W hW hrec => ?_)
  have hW' := hpending W hW
  have hsavedW : job.Saved 0 W := (hsaved.changed hc (by decide)).changed hW (by decide)
  rw [← hidx]
  exact wpa_advance_slot (k := 0) huse (by rw [hidx]) (Nat.le_succ 1) (by rw [hidx]; omega)
    (fun _ => by rw [hidx]; exact hranges) (fun hu' => hu hu'.1) hrec (Or.inl hW')
    (by rw [hidx]; exact hW'.content hsavedW) fun hk => absurd hk (by decide)

/-- The first range is saved, and the status of the swap starts. -/
theorem wpa_swapState0_first {bs : BootStatus} (h : job.Pending V) (hr : HasSectors cfg r)
    (hidx : bs.idx = 0) (huse : bs.useScratch = decide job.UsesScratch)
    (hsize : bs.swapSize = job.swapSize) :
    Wpa cfg job.Resumable (swapState0 cfg.toFlashMap (job.range 0) bs)
      (fun bs' r' W => bs' = { bs with state := 1 } ∧ r' = r ∧ job.Stage 0 1 W) r V := by
  unfold swapState0
  simp only [if_pos hidx]
  refine wpa_saveFirst h fun U hU hsaved herased => ?_
  by_cases hu : job.UsesScratch
  · have htrue : bs.useScratch = true := by rw [huse, decide_eq_true hu]
    rw [if_pos htrue]
    exact wpa_beginScratch hU hsaved hu (herased hu) hidx htrue hsize
  · have hfalse : bs.useScratch = false := by rw [huse, decide_eq_false hu]
    rw [if_neg (by rw [hfalse]; decide)]
    exact Sees.getMem.wpa_bind (Or.inl hU) (wpa_beginSlot hU hsaved hu hr hidx hfalse hsize)

/-! ## Step 1: the range of slot 0 is copied to slot 1

Slot 1 is overwritten. The trailer of slot 1 is dropped in the first range, with the range or by an
erase of its own. -/

theorem faSize_image1 : cfg.faSize .image1 = cfg.faSize .image0 := cfg.size_image1.trans cfg.size_image0.symm

/-- A range of slot 1 that got the range of slot 0 is exchanged. -/
theorem Replaced.content (hV : job.Content i 1 V) (hW : job.Content i 1 W)
    (h : Replaced cfg .image0 .image1 (job.bound (i + 1)) (job.count i) (job.bound (i + 1))
      (job.range i).copySz V W) : job.Content i 2 W := by
  have hend := job.imgOff_add_copySz i
  refine ⟨hW.1.weaken (job.bound_succ_le i) (Nat.le_refl _), hW.2.1.fill fun x hx hge hlt => ?_, hW.2.2⟩
  have hcopy : x < job.copyEnd i := Nat.lt_min.mpr ⟨hlt, hx⟩
  rw [h.copied x hge (by omega), Nat.add_sub_cancel' hge]
  exact (hV.1 x hx).1 hlt

/-- The last range takes the trailer of slot 1 with it. -/
theorem Replaced.trailerErased (hu : job.UsesScratch) {a src : FlashArea} {offSrc : Nat} (ha : a ≠ .imageScratch)
    (h : Replaced cfg src a (job.bound 1) (job.count 0) offSrc (job.range 0).copySz V W) :
    TrailerErased cfg W a := by
  have hend : job.bound 1 + (job.range 0).copySz = job.copyEnd 0 := job.imgOff_add_copySz 0
  have hle : job.copyEnd 0 ≤ job.extent := Nat.min_le_right _ _
  have hext := job.extent_le
  have hb : job.bound 0 = job.bound 1 + job.count 0 * cfg.sectorSize := job.bound_eq 0
  have hall : job.bound 0 = cfg.faSize .image0 := by
    rw [bound, left_zero, cfg.size_image0, hu]
  have hsize : cfg.faSize a = cfg.faSize .image0 := by
    cases a with
    | image0 => rfl
    | image1 => exact faSize_image1
    | imageScratch => exact absurd rfl ha
  have hstatus : cfg.statusOff a = cfg.statusOff .image0 := by
    cases a with
    | image0 => rfl
    | image1 => exact statusOff_image1
    | imageScratch => exact absurd rfl ha
  exact fun x hx hx' => h.erased x (by omega) (by omega)

/-- **Step 1.** -/
theorem wpa_swapState1 {bs : BootStatus} (h : job.Stage i 1 V) (hi : i < job.ranges) (hr : HasSectors cfg r)
    (hidx : bs.idx = i) (huse : bs.useScratch = decide (i = 0 ∧ job.UsesScratch)) :
    Wpa cfg job.Resumable (swapState1 cfg.toFlashMap (job.range i) bs)
      (fun bs' r' W => bs' = { bs with state := 2 } ∧ r' = r ∧ job.Stage i 2 W) r V := by
  obtain ⟨idx, state, useScratch, swapSize⟩ := bs
  obtain rfl : idx = i := hidx
  have hend := job.imgOff_add_copySz idx
  have hle := job.copyEnd_le idx
  have hbound := job.bound_le idx
  have heq := job.bound_eq idx
  have hsize : cfg.faSize .image1 = cfg.faSize .image0 := faSize_image1
  have hstage : ∀ U, ChangedIn .image1 (job.bound (idx + 1))
      (job.bound (idx + 1) + job.count idx * cfg.sectorSize) V U → job.Stage idx 1 U := by
    intro U hU
    refine h.of_image1 hi hU (Or.inr ⟨Nat.le_refl _, Nat.le_of_eq heq.symm⟩) fun hpos => ?_
    rw [← heq, statusOff_image1]
    exact job.bound_le_statusOff (Or.inl (by omega))
  have hdst : job.bound (idx + 1) + job.count idx * cfg.sectorSize ≤ cfg.faSize .image1 := by omega
  have hsrc : job.bound (idx + 1) + (job.range idx).copySz ≤ cfg.faSize .image0 := by omega
  unfold swapState1
  refine wpa_replace_free (by decide) (job.bound_mod _) hdst hsrc (job.copySz_le _) (job.copySz_mod _)
    (fun U hU => underway (hstage U hU) (by omega) (by omega) hi) fun U hU => ?_
  have h2 := hstage U hU.changed
  have hcontent := Replaced.content h.content h2.content hU
  have hJ := underway h2 (by omega) (by omega) hi
  -- in the first range the trailer of slot 1 is to go: it goes with the range if the range reaches
  -- it, else with its sector
  by_cases hfirst : idx = 0
  · by_cases hu : job.UsesScratch
    · subst hfirst
      obtain rfl : useScratch = true := huse.trans (decide_eq_true ⟨rfl, hu⟩)
      rw [if_neg (by simp)]
      have hrec := (recorded_scratch hu (Nat.le_succ 1)).mp h2.recorded
      have herased := Replaced.trailerErased hu (by decide) hU
      exact wpa_advance_scratch (k := 1) rfl rfl rfl (Nat.le_refl 2) hu hrec.1
        (hrec.2.resolve_right fun h => absurd h.1 (by decide)) hJ hcontent (fun _ => herased.magicOf)
        (copySz_le_statusOff hu)
    · obtain rfl : useScratch = false := huse.trans (decide_eq_false fun h => hu h.2)
      rw [if_pos ⟨hfirst, rfl⟩]
      have hext : job.extent ≤ (cfg.sectors - 1) * cfg.sectorSize := by
        unfold extent
        rw [if_neg hu]
        exact job.bound_le_of (Or.inr hu)
      have hc : ChangedIn .image1 ((cfg.sectors - 1) * cfg.sectorSize)
          ((cfg.sectors - 1) * cfg.sectorSize + cfg.sectorSize) U
          (U.erase .image1 ((cfg.sectors - 1) * cfg.sectorSize) cfg.sectorSize) :=
        changedIn_erase (Nat.le_refl _) (Nat.le_refl _)
      have herased : TrailerErased cfg
          (U.erase .image1 ((cfg.sectors - 1) * cfg.sectorSize) cfg.sectorSize) .image1 :=
        trailerErased_lastSector cfg U .image1
      have h3 : job.Stage idx 1 (U.erase .image1 ((cfg.sectors - 1) * cfg.sectorSize) cfg.sectorSize) :=
        h2.of_image1 hi hc (Or.inl hext) fun hpos => by omega
      have hJ3 := underway h3 (by omega) (by omega) hi
      refine Sees.getMem.wpa_bind hJ (Wpa.bind (wpa_bootEraseLastSectorById hr.img1 cfg.size_image1 hJ hJ3
        ?_).assertOk)
      have hu3 : ¬ (job.UsesScratch ∧ 3 * idx + 1 ≤ 2) := fun h => hu h.1
      exact wpa_advance_slot (k := 3 * idx + 1) rfl rfl (Nat.le_refl 2) (Nat.le_of_lt hi) (fun _ => hi)
        (fun h => hu h.1) ((recorded_slot hu3).mp h3.recorded) hJ3
        ⟨hcontent.1.changed hc (Or.inl (by decide)), hcontent.2.1.changed hc (Or.inr (Or.inl hext)),
          hcontent.2.2.changed hc (by decide)⟩ fun _ => herased.magicOf
  · -- a later range: the trailer is gone already
    obtain rfl : useScratch = false := huse.trans (decide_eq_false fun h => hfirst h.1)
    rw [if_neg fun h => hfirst h.1]
    have hu3 : ¬ (job.UsesScratch ∧ 3 * idx + 1 ≤ 2) := by omega
    exact wpa_advance_slot (k := 3 * idx + 1) rfl rfl (Nat.le_refl 2) (Nat.le_of_lt hi) (fun _ => hi)
      (by omega) ((recorded_slot hu3).mp h2.recorded) hJ hcontent fun _ => h2.cleared (by omega)

/-! ## Step 2: the saved range is copied to slot 0

Slot 0 is overwritten. In the first range of a swap that reaches the last sector, the trailer of
slot 0 is erased with it, and the record in scratch is the only one until it is copied. -/

/-- A range of slot 0 that got the saved range is exchanged. -/
theorem Replaced.content_next (hV : job.Content i 2 V) (hW : job.Content i 2 W)
    (h : Replaced cfg .imageScratch .image0 (job.bound (i + 1)) (job.count i) 0 (job.range i).copySz V W) :
    job.Content (i + 1) 0 W := by
  have hend := job.imgOff_add_copySz i
  refine ⟨hW.1.fill fun x hx hge hlt => ?_, hW.2.1⟩
  have hcopy : x < job.copyEnd i := Nat.lt_min.mpr ⟨hlt, hx⟩
  rw [h.copied x hge (by omega), Nat.zero_add]
  exact hV.2.2 x hge hcopy

/-- **Step 2 of a range that does not reach the trailer.** -/
theorem wpa_swapState2_slot {bs : BootStatus} (h : job.Stage i 2 V) (hi : i < job.ranges)
    (hplain : i ≠ 0 ∨ ¬ job.UsesScratch) (hidx : bs.idx = i) (huse : bs.useScratch = false) :
    Wpa cfg job.Resumable (swapState2 cfg.toFlashMap (job.range i) bs)
      (fun bs' r' W => bs' = { bs with idx := i + 1, state := 0, useScratch := false } ∧ r' = r
        ∧ job.Stage (i + 1) 0 W) r V := by
  obtain ⟨idx, state, useScratch, swapSize⟩ := bs
  obtain rfl : idx = i := hidx
  obtain rfl : useScratch = false := huse
  have hend := job.imgOff_add_copySz idx
  have hle := job.copyEnd_le idx
  have hbound := job.bound_le idx
  have heq := job.bound_eq idx
  have hcount := job.count_mul_le idx
  have hcopy := job.copySz_le idx
  have hdst : job.bound (idx + 1) + job.count idx * cfg.sectorSize ≤ cfg.faSize .image0 := by omega
  have hsrc : 0 + (job.range idx).copySz ≤ cfg.faSize .imageScratch := by omega
  have hstage : ∀ U, ChangedIn .image0 (job.bound (idx + 1))
      (job.bound (idx + 1) + job.count idx * cfg.sectorSize) V U → job.Stage idx 2 U := by
    intro U hU
    refine h.of_image0 hU (Or.inr ⟨Nat.le_refl _, Nat.le_of_eq heq.symm⟩)
      (h.recorded.changed (by omega) (hU.trailerEq (Or.inr ?_)) (hU.trailerEq (Or.inl (by decide))))
    rw [← heq]
    exact job.bound_le_statusOff hplain
  unfold swapState2
  refine wpa_replace_free (by decide) (job.bound_mod _) hdst hsrc hcopy (job.copySz_mod _)
    (fun U hU => underway (hstage U hU) (by omega) (by omega) hi) fun U hU => ?_
  have h2 := hstage U hU.changed
  have hu : ¬ (job.UsesScratch ∧ 3 * idx + 2 ≤ 2) := fun h =>
    hplain.elim (fun hne => hne (by omega)) fun hne => hne h.1
  exact wpa_advance_slot (k := 3 * idx + 2) rfl rfl (Nat.zero_le 2) hi (fun h => absurd h (Nat.lt_irrefl 0))
    (by omega) ((recorded_slot hu).mp h2.recorded) (underway h2 (by omega) (by omega) hi)
    (Replaced.content_next h.content h2.content hU) fun _ => h2.cleared (by omega)

/-! ### The record moves to slot 0

Only for a first range that was kept in scratch with its record. The trailer of slot 0 is erased
along with the range and written anew, while scratch still has the record. -/

/-- While the record is in scratch, the trailer of slot 0 may be written as long as its magic is not
good. -/
theorem Stage.of_image0_scratch (h : job.Stage 0 2 V) (hu : job.UsesScratch)
    (hc : ChangedIn .image0 lo top V W)
    (hrange : job.extent ≤ lo ∨ job.bound 1 ≤ lo ∧ top ≤ job.bound 0)
    (hmagic : cfg.magicOf W .image0 ≠ .good ∨ job.Record .image0 2 W) : job.Stage 0 2 W := by
  have hrec := (recorded_scratch hu (Nat.le_refl 2)).mp h.recorded
  have hs : TrailerEq cfg .imageScratch V W := hc.trailerEq (Or.inl (by decide))
  exact h.of_image0 hc hrange ((recorded_scratch hu (Nat.le_refl 2)).mpr
    ⟨hrec.1.changed (by decide) hs, hmagic.imp id fun h => ⟨rfl, h⟩⟩)

theorem restoreTrailer_eq (fm : FlashMap) (range : SwapRange) (bs : BootStatus) :
    restoreTrailer fm range bs = (bootStatusOff fm .imageScratch >>= fun scratchTrailerOff =>
      assertOk (bootCopySector fm .imageScratch .image0 scratchTrailerOff (range.imgOff + range.copySz)
        (bootStatusStateCount * bootWriteSz fm)) >>= fun _ =>
      assertOk (bootReadSwapState fm .imageScratch) >>= fun swapState =>
      writeFields fm .image0 swapState.imageOk bs.swapSize) := rfl

/-- The status bytes of the scratch area count in slot 0, too. -/
theorem statusAt_copied (h : StatusAt cfg V .imageScratch 2) (herased : TrailerErased cfg V .image0) :
    StatusAt cfg (V.copied .imageScratch .image0 (cfg.statusOff .imageScratch) (cfg.statusOff .image0)
      (3 * cfg.programUnit)) .image0 2 := by
  have hpos := cfg.unit_pos
  have hcopied : ∀ j < 3, cfg.entry (V.copied .imageScratch .image0 (cfg.statusOff .imageScratch)
      (cfg.statusOff .image0) (3 * cfg.programUnit)) .image0 j = cfg.entry V .imageScratch j := by
    intro j hj
    have hmul : (j + 1) * cfg.programUnit ≤ 3 * cfg.programUnit := Nat.mul_le_mul_right _ hj
    rw [Nat.succ_mul] at hmul
    rw [BootConfig.entry, copied_apply (Nat.le_add_right _ _) (by omega), Nat.add_sub_cancel_left]
    rfl
  refine ⟨?_, fun j hj hj' => ?_, fun j hj hj' => ?_⟩
  · rw [hcopied 0 (by decide)]
    exact h.first
  · rw [hcopied j (by omega)]
    exact h.written j hj hj'
  · -- scratch has three entries; the others of slot 0 are erased
    have hmul : 3 * cfg.programUnit ≤ j * cfg.programUnit := Nat.mul_le_mul_right _ hj
    have hout : cfg.entry (V.copied .imageScratch .image0 (cfg.statusOff .imageScratch)
        (cfg.statusOff .image0) (3 * cfg.programUnit)) .image0 j = cfg.entry V .image0 j := by
      rw [BootConfig.entry, Areas.copied, Areas.put_apply_out (by rw [Row.length_get]; exact Or.inr (by omega))]
      rfl
    rw [hout]
    exact herased.statusAt.rest j (by omega) hj'

/-- The record moves to slot 0. -/
theorem wpa_restoreTrailer {bs : BootStatus} {Q : Unit → BootLoaderState → Areas → Prop}
    (h : job.Stage 0 2 V) (hu : job.UsesScratch) (herased : TrailerErased cfg V .image0)
    (hsize : bs.swapSize = job.swapSize)
    (hQ : ∀ W, ChangedIn .image0 (cfg.statusOff .image0) (cfg.faSize .image0) V W → job.Stage 0 2 W →
      job.Record .image0 2 W → Q () r W) :
    Wpa cfg job.Resumable (restoreTrailer cfg.toFlashMap (job.range 0) bs) Q r V := by
  have hranges := job.ranges_pos
  have hrec := ((recorded_scratch hu (Nat.le_refl 2)).mp h.recorded).1
  have hend : job.bound 1 + (job.range 0).copySz = job.copyEnd 0 := job.imgOff_add_copySz 0
  have hext : job.extent = cfg.statusOff .image0 := by
    unfold extent
    rw [if_pos hu]
  have hcopyEnd : job.copyEnd 0 = job.extent := Nat.min_eq_right job.extent_le_bound
  have h0 := statusOff_add_le cfg .image0
  have hs := statusOff_add_le cfg .imageScratch
  have h0' := swapSizeOff_lt cfg .image0
  have hs' := swapSizeOff_lt cfg .imageScratch
  have hn0 : bootStatusEntries .image0 = 768 := rfl
  have hns : bootStatusEntries .imageScratch = 3 := rfl
  rw [hn0] at h0
  rw [hns] at hs
  have hJ := underway h (by decide) (by decide) hranges
  -- status bytes alone are no trailer
  have hstage : ∀ k ≤ 3 * cfg.programUnit, job.Stage 0 2 (V.copied .imageScratch .image0
      (cfg.statusOff .imageScratch) (cfg.statusOff .image0) k) := by
    intro k hk
    have hc : ChangedIn .image0 (cfg.statusOff .image0) (bootSwapSizeOff cfg.toFlashMap .image0) V
        (V.copied .imageScratch .image0 (cfg.statusOff .imageScratch) (cfg.statusOff .image0) k) :=
      changedIn_copied (Nat.le_refl _) (by omega)
    have hfields : FieldsEq cfg .image0 V _ := hc.fieldsEq (Or.inr (Nat.le_refl _))
    refine h.of_image0_scratch hu hc (Or.inl (Nat.le_of_eq hext)) (Or.inl ?_)
    rw [← hfields.magicOf, herased.magicOf]
    decide
  have hoff : (job.range 0).imgOff + (job.range 0).copySz = cfg.statusOff .image0 :=
    hend.trans (hcopyEnd.trans hext)
  have hsz : bootStatusStateCount * bootWriteSz cfg.toFlashMap = 3 * cfg.programUnit := by
    rw [cfg.writeSz_eq]
    rfl
  rw [restoreTrailer_eq, hoff, hsz]
  refine cfg.sees_bootStatusOff.wpa_bind hJ (Wpa.bind (wpa_bootCopySector (by decide) (by omega) (by omega)
    (cfg.statusOff_mod _) (Nat.mul_mod_left _ _) (fun k hk => underway (hstage k hk) (by decide) (by decide)
      hranges) ?_).assertOk)
  have h1 := hstage _ (Nat.le_refl _)
  have hstatus := statusAt_copied hrec.status herased
  have hc : ChangedIn .image0 (cfg.statusOff .image0) (bootSwapSizeOff cfg.toFlashMap .image0) V
      (V.copied .imageScratch .image0 (cfg.statusOff .imageScratch) (cfg.statusOff .image0)
        (3 * cfg.programUnit)) := changedIn_copied (Nat.le_refl _) (by omega)
  generalize V.copied .imageScratch .image0 (cfg.statusOff .imageScratch) (cfg.statusOff .image0)
    (3 * cfg.programUnit) = U at h1 hstatus hc ⊢
  have hrecU := ((recorded_scratch hu (Nat.le_refl 2)).mp h1.recorded).1
  -- from here on the fields are written; slot 0 counts once its magic is complete, and then it has
  -- the same record
  refine sees_bootReadSwapState.assertOk.wpa_bind (underway h1 (by decide) (by decide) hranges) ?_
  show Wpa cfg job.Resumable (writeFields cfg.toFlashMap .image0 (cfg.imageOkOf U .imageScratch) bs.swapSize)
    Q r U
  rw [hrecU.fields.imageOk, hsize]
  have hstageW : ∀ W, ChangedIn .image0 (bootSwapSizeOff cfg.toFlashMap .image0) (cfg.faSize .image0) U W →
      cfg.magicOf W .image0 ≠ .good ∨ job.Record .image0 2 W → job.Stage 0 2 W := fun W hW hmagic =>
    h1.of_image0_scratch hu hW (Or.inl (by omega)) hmagic
  have hrecord : ∀ W, ChangedIn .image0 (bootSwapSizeOff cfg.toFlashMap .image0) (cfg.faSize .image0) U W →
      Fields cfg .image0 job.imageOk job.swapSize W → job.Record .image0 2 W := fun W hW hfields =>
    ⟨hfields, hW.statusAt (Nat.le_refl _) (by decide) hstatus⟩
  refine wpa_writeFields job.flag job.size_lt (fun x hx hx' => ?_) (fun W hW hmagic => ?_)
    fun W hW hfields => ?_
  · rw [hc _ _ (Or.inr (Or.inr hx))]
    exact herased.fields hx hx'
  · exact underway (hstageW W hW (hmagic.imp id (hrecord W hW))) (by decide) (by decide) hranges
  · have hrec' := hrecord W hW hfields
    exact hQ W ((hc.mono (Nat.le_refl _) (by omega)).trans (hW.mono (by omega) (Nat.le_refl _)))
      (hstageW W hW (Or.inr hrec')) hrec'

/-- **Step 2 of a range that reaches the trailer.** -/
theorem wpa_swapState2_scratch {bs : BootStatus} (h : job.Stage 0 2 V) (hu : job.UsesScratch)
    (hidx : bs.idx = 0) (huse : bs.useScratch = true) (hsize : bs.swapSize = job.swapSize) :
    Wpa cfg job.Resumable (swapState2 cfg.toFlashMap (job.range 0) bs)
      (fun bs' r' W => bs' = { bs with idx := 1, state := 0, useScratch := false } ∧ r' = r
        ∧ job.Stage 1 0 W) r V := by
  obtain ⟨idx, state, useScratch, swapSize⟩ := bs
  obtain rfl : idx = 0 := hidx
  obtain rfl : useScratch = true := huse
  have hranges := job.ranges_pos
  have hbound := job.bound_le 0
  have heq : job.bound 0 = job.bound 1 + job.count 0 * cfg.sectorSize := job.bound_eq 0
  have hcount := job.count_mul_le 0
  have hcopy := job.copySz_le 0
  have hend : job.bound 1 + (job.range 0).copySz = job.copyEnd 0 := job.imgOff_add_copySz 0
  have hle : job.copyEnd 0 ≤ job.extent := Nat.min_le_right _ _
  have hext := job.extent_le
  have hdst : job.bound 1 + job.count 0 * cfg.sectorSize ≤ cfg.faSize .image0 := by omega
  have hsrc : 0 + (job.range 0).copySz ≤ cfg.faSize .imageScratch := by omega
  have hall : job.bound 0 = cfg.faSize .image0 := by
    rw [bound, left_zero, cfg.size_image0, hu]
  -- the trailer goes with the last sector, and the record is in scratch
  have herase : ∀ j ≤ job.count 0, job.Stage 0 2 (V.erase .image0 (job.bound 1) (j * cfg.sectorSize)) := by
    intro j hj
    have hmul := Nat.mul_le_mul_right cfg.sectorSize hj
    have hc : ChangedIn .image0 (job.bound 1) (job.bound 0) V
        (V.erase .image0 (job.bound 1) (j * cfg.sectorSize)) :=
      changedIn_erase (Nat.le_refl _) (by omega)
    rcases erase_trailer_cases cfg V .image0 (job.left 1) j with htr | herased
    · exact h.of_image0 hc (Or.inr ⟨Nat.le_refl _, Nat.le_refl _⟩)
        (h.recorded.changed (by omega) htr (hc.trailerEq (Or.inl (by decide))))
    · refine h.of_image0_scratch hu hc (Or.inr ⟨Nat.le_refl _, Nat.le_refl _⟩) (Or.inl ?_)
      show cfg.magicOf (V.erase .image0 (job.left 1 * cfg.sectorSize) (j * cfg.sectorSize)) .image0 ≠ .good
      rw [TrailerErased.magicOf herased]
      decide
  have hcopied : ∀ k ≤ (job.range 0).copySz, job.Stage 0 2 ((V.erase .image0 (job.bound 1)
      (job.count 0 * cfg.sectorSize)).copied .imageScratch .image0 0 (job.bound 1) k) := by
    intro k hk
    have h1 := herase _ (Nat.le_refl _)
    have herased : TrailerErased cfg (V.erase .image0 (job.bound 1) (job.count 0 * cfg.sectorSize)) .image0 :=
      fun x hx hx' => Areas.erase_apply_in (by omega) (by omega)
    generalize V.erase .image0 (job.bound 1) (job.count 0 * cfg.sectorSize) = V1 at h1 herased ⊢
    have hc : ChangedIn .image0 (job.bound 1) (job.bound 1 + k) V1
        (V1.copied .imageScratch .image0 0 (job.bound 1) k) :=
      changedIn_copied (Nat.le_refl _) (Nat.le_refl _)
    have htr : TrailerEq cfg .image0 V1 _ := hc.trailerEq (Or.inr (by omega))
    refine h1.of_image0_scratch hu hc (Or.inr ⟨Nat.le_refl _, by omega⟩) (Or.inl ?_)
    rw [← htr.fields.magicOf, herased.magicOf]
    decide
  unfold swapState2
  refine wpa_replace (by decide) (job.bound_mod _) hdst hsrc hcopy (job.copySz_mod 0)
    (fun j hj => underway (herase j hj) (by decide) (by decide) hranges)
    (fun k hk => underway (hcopied k hk) (by decide) (by decide) hranges) fun hU => ?_
  have h2 := hcopied _ (Nat.le_refl _)
  change Replaced cfg .imageScratch .image0 (job.bound 1) (job.count 0) 0 (job.range 0).copySz V
    ((V.erase .image0 (job.bound 1) (job.count 0 * cfg.sectorSize)).copied .imageScratch .image0 0
      (job.bound 1) (job.range 0).copySz) at hU
  change Wpa cfg job.Resumable _ _ r ((V.erase .image0 (job.bound 1)
    (job.count 0 * cfg.sectorSize)).copied .imageScratch .image0 0 (job.bound 1) (job.range 0).copySz)
  generalize (V.erase .image0 (job.bound 1)
    (job.count 0 * cfg.sectorSize)).copied .imageScratch .image0 0 (job.bound 1) (job.range 0).copySz = U
    at hU h2 ⊢
  have hcontent : job.Content 1 0 U := Replaced.content_next h.content h2.content hU
  have herased : TrailerErased cfg U .image0 := Replaced.trailerErased hu (by decide) hU
  simp only [if_true]
  refine Wpa.bind (wpa_restoreTrailer h2 hu herased hsize fun W hW h3 hrec => ?_)
  -- both areas have the record; the next status byte goes to slot 0, which is found first
  exact wpa_advance_slot (k := 2) rfl rfl (Nat.zero_le 2) hranges (fun h => absurd h (Nat.lt_irrefl 0))
    (by omega) hrec (underway h3 (by decide) (by decide) hranges)
    (hcontent.of_status hW (Or.inl rfl)) fun _ => h3.cleared (Nat.le_refl 2)

end SwapJob

end Tfm.Boot
