import TrustedFirmware.Boot.Proofs.BootGo
import TrustedFirmware.Boot.Proofs.Resume

/-!
# A swap survives power cuts

The image in slot 1 asks to be swapped in. However often power is lost while the bootloader swaps
the slots, at whatever byte of a write or in front of whatever sector of an erase, a boot that is
left alone finishes the swap: it starts the new image from slot 0, and slot 1 holds the old one.

The argument follows the three phases that a boot can find:

* `Pending`: nothing is recorded yet. The request in slot 1 is found and validated, and the swap is
  begun (`wpa_bootSwapIfNeeded_pending`).
* `Underway`: some steps are recorded. The status says where to go on, whatever the trailer of slot
  1 still holds (`SwapJob.wpa_bootSwapIfNeeded_underway`).
* `Marked`: the slots are exchanged and `copy_done` is set. A boot leaves a permanent swap alone
  (`wpa_bootGo_marked`).

The first two are `Resumable`, and a boot from there keeps "resumable or marked" at every cut and
ends marked (`wpa_bootGo_resumable`). From one boot to any number of interrupted ones it goes by
induction on the interruptions (`Interrupted.keeps`).
-/

namespace Tfm.Boot

open Device LinearFlash Word32
open BlockFlash (Row erasedByte)

/-- A swap to a valid image that is requested in the trailer of slot 1. -/
structure Upgrade (cfg : BootConfig) (crypto : BootCrypto) extends SwapJob cfg where
  oldSize : Nat
  newSize : Nat
  header_fits : imageHeaderSize ≤ toSwapJob.extent
  old_size : imageSize (old.get 0 toSwapJob.extent) = some oldSize
  new_size : imageSize (new.get 0 toSwapJob.extent) = some newSize
  size_eq : swapSize = max oldSize newSize
  valid : ImageOk crypto (new.get 0 toSwapJob.extent)
  requested : bootMagicCode (new.get (bootMagicOff cfg.toFlashMap .image1) bootMagicSz) = .good

variable {cfg : BootConfig} {crypto : BootCrypto} {J : Areas → Prop} {r : BootLoaderState} {V W : Areas}

namespace SwapJob

variable {job : SwapJob cfg}

/-! ## The end of a swap

When the last range is exchanged, the slots hold each other's images but nothing says that the swap
is over. `copy_done` does: it is one byte in one program unit, so that a cut either leaves the swap
to be resumed or leaves it marked. -/

/-- The slots are exchanged, and the trailer of slot 0 says so. -/
structure Marked (job : SwapJob cfg) (V : Areas) : Prop where
  data0 : ∀ x < job.extent, V .image0 x = job.new x
  data1 : ∀ x < job.extent, V .image1 x = job.old x
  magic0 : cfg.magicOf V .image0 = .good
  copyDone : cfg.copyDoneOf V .image0 = bootFlagSet
  imageOk : cfg.imageOkOf V .image0 = job.imageOk
  cleared : cfg.magicOf V .image1 = .unset

/-- The trailer of slot 0 records all ranges. -/
theorem Swapped.record (h : job.Swapped V) : job.Record .image0 (3 * job.ranges) V := by
  have hpos := job.ranges_pos
  exact (recorded_slot (by omega)).mp h.recorded

theorem Swapped.data0 (h : job.Swapped V) {x : Nat} (hx : x < job.extent) : V .image0 x = job.new x :=
  (h.content.1 x hx).2 (by rw [job.bound_ranges]; exact Nat.zero_le x)

theorem Swapped.data1 (h : job.Swapped V) {x : Nat} (hx : x < job.extent) : V .image1 x = job.old x :=
  (h.content.2 x hx).2 (by rw [job.bound_ranges]; exact Nat.zero_le x)

/-- The request is gone: the trailer of slot 1 went with its last sector. -/
theorem Swapped.cleared (h : job.Swapped V) : cfg.magicOf V .image1 = .unset := by
  have hpos := job.ranges_pos
  exact Stage.cleared h (by omega)

/-- A swap that is not marked is found underway, with nothing left to do. -/
theorem Swapped.resumable (h : job.Swapped V) : job.Resumable V := by
  have hpos := job.ranges_pos
  exact Or.inr ⟨job.ranges, 0, h, by omega, by omega, Nat.le_refl _, fun hlt => absurd hlt (Nat.lt_irrefl 0)⟩

/-- `copy_done` is one byte, and marks the swap. -/
theorem Swapped.marked (h : job.Swapped V) {k : Nat} (hk : k ≠ 0) :
    job.Marked (V.put .image0 (bootCopyDoneOff cfg.toFlashMap .image0) ((flagBuf cfg).take k)) := by
  have hrec := h.record.fields
  have hext := job.extent_le
  have hle := statusOff_add_le cfg .image0
  have hsz := swapSizeOff_add_copyDone cfg (show FlashArea.image0 ≠ .imageScratch by decide)
  -- the flag lies between the swap size and `image_ok`, and the magic comes behind both
  have hok : bootCopyDoneOff cfg.toFlashMap .image0 + 8 = bootImageOkOff cfg.toFlashMap .image0 := by
    have := cfg.copyDoneOff_lt .image0
    have := faSize_ge cfg .image0
    unfold bootCopyDoneOff bootImageOkOff bootMagicSz bootMaxAlign
    omega
  have hmagic : bootImageOkOff cfg.toFlashMap .image0 + 8 = bootMagicOff cfg.toFlashMap .image0 := by
    have := faSize_ge cfg .image0
    unfold bootImageOkOff bootMagicOff bootMagicSz bootMaxAlign
    omega
  have hunit := cfg.unit_le
  have hpos := cfg.unit_pos
  have hlen : ((flagBuf cfg).take k).length ≤ 8 := by
    rw [List.length_take, length_flagBuf]
    omega
  have hne : 0 < ((flagBuf cfg).take k).length := by
    rw [List.length_take, length_flagBuf]
    omega
  -- the images and the other fields lie outside of the write
  refine ⟨fun x hx => ?_, fun x hx => ?_, ?_, ?_, ?_, ?_⟩
  · rw [Areas.put_apply_out (Or.inl (by omega))]
    exact h.data0 hx
  · rw [Areas.put_of_ne _ (by decide)]
    exact h.data1 hx
  · rw [← hrec.magic]
    unfold BootConfig.magicOf
    rw [Areas.put_self, Row.get_put_disjoint (Or.inr (by omega))]
  · rw [BootConfig.copyDoneOf, Areas.put_apply_in (Nat.le_refl _) (by omega), Nat.sub_self,
      List.getD_eq_getElem?_getD, List.getElem?_take_of_lt (by omega), ← List.getD_eq_getElem?_getD]
    exact flagBuf_head cfg
  · rw [BootConfig.imageOkOf, Areas.put_apply_out (Or.inr (by omega))]
    exact hrec.imageOk
  · rw [← h.cleared]
    unfold BootConfig.magicOf
    rw [Areas.put_of_ne _ (by decide)]

/-- What the trailers of a marked swap say. -/
theorem Marked.swapStates (h : job.Marked V) :
    cfg.swapStateOf V .image0 = ⟨.good, bootFlagSet, job.imageOk⟩
      ∧ (cfg.swapStateOf V .image1).magic = .unset := by
  refine ⟨?_, h.cleared⟩
  unfold BootConfig.swapStateOf
  rw [h.magic0, if_neg (by decide), h.copyDone, h.imageOk]

/-- The flag that marks a swap is written. -/
theorem wpa_markSwap {swapType : BootSwapType} (h : job.Swapped V)
    (htype : swapType = .test ∨ swapType = .perm) :
    Wpa cfg (fun W => job.Resumable W ∨ job.Marked W) (markSwap cfg.toFlashMap swapType)
      (fun swapType' r' W => swapType' = swapType ∧ r' = r ∧ job.Marked W) r V := by
  have hJ : job.Resumable V ∨ job.Marked V := Or.inl h.resumable
  have hflag : Wpa cfg (fun W => job.Resumable W ∨ job.Marked W) (bootSetCopyDone cfg.toFlashMap)
      (fun _ r' W => r' = r ∧ job.Marked W) r V := by
    -- a cut in front of the first byte leaves the swap as it was, any later one marks it
    refine wpa_bootWriteFlag (cfg.copyDoneOff_lt _) (copyDoneOff_mod cfg _) (fun k => ?_) ⟨rfl, ?_⟩
    · by_cases hk : k = 0
      · subst hk
        rw [List.take_zero, Areas.put_nil]
        exact hJ
      · exact Or.inr (h.marked hk)
    · have hmarked := h.marked (Nat.pos_iff_ne_zero.mp cfg.unit_pos)
      rwa [List.take_of_length_le (Nat.le_of_eq (length_flagBuf cfg))] at hmarked
  have hdone : ∀ r' W, r' = r ∧ job.Marked W → Wpa cfg (fun W => job.Resumable W ∨ job.Marked W)
      (pure swapType) (fun swapType' r' W => swapType' = swapType ∧ r' = r ∧ job.Marked W) r' W :=
    fun r' W hW => Wpa.pure (Or.inr hW.2) ⟨rfl, hW.1, hW.2⟩
  rcases htype with rfl | rfl
  · exact (Sees.pure _).wpa_bind hJ (Wpa.bind (hflag.mono fun _ r' W _ hW => hdone r' W hW).attempt)
  · exact (Sees.pure _).wpa_bind hJ (Wpa.bind (hflag.mono fun _ r' W _ hW => hdone r' W hW).attempt)

/-! ## Boots that find a swap underway -/

/-- A swap that was under way is completed, and counts as permanent. -/
theorem wpa_bootSwapIfNeeded_underway {i s : Nat} (h : job.Underway V i s) (hr : HasSectors cfg r) :
    Wpa cfg job.Resumable (bootSwapIfNeeded cfg.toFlashMap crypto)
      (fun swapType r' W => swapType = .perm ∧ r' = r ∧ job.Swapped W) r V := by
  have hJ : job.Resumable V := Or.inr ⟨i, s, h⟩
  have hne : i ≠ 0 ∨ s ≠ 0 := by
    have := h.begun
    omega
  unfold bootSwapIfNeeded
  refine h.sees_status.assertOk.wpa_bind hJ ?_
  rw [if_pos hne]
  refine Wpa.bind ((wpa_bootCopyImage_underway h hr).assertOk.mono ?_)
  rintro _ r' W hJW ⟨rfl, hW⟩
  -- the request was erased with the last sector of slot 1, so that no trailer asks for a swap:
  -- `boot_previous_swap_type` then takes it for a permanent one
  have htype : swapTypeOf (cfg.swapStateOf W .image0) (cfg.swapStateOf W .image1) = .none := by
    have hmagic : (cfg.swapStateOf W .image1).magic = .unset := hW.cleared
    have hdone : (cfg.swapStateOf W .image0).copyDone = bootFlagUnset := hW.record.fields.copyDone (by decide)
    rw [swapTypeOf_eq, hmagic, hdone, if_neg (by simp), if_neg (by simp), if_neg (by simp [bootFlagUnset])]
  unfold bootPreviousSwapType
  refine sees_bootSwapType.wpa_bind hJW ?_
  rw [htype]
  exact Wpa.pure hJW ⟨rfl, rfl, hW⟩

end SwapJob

/-- An area stores the image whose bytes it agrees with. -/
theorem stores_get {a : FlashArea} {row : Row} {n : Nat} (hn : n ≤ cfg.faSize a)
    (h : ∀ x < n, V a x = row x) : Stores cfg V a (row.get 0 n) := by
  refine ⟨by rwa [Row.length_get], ?_⟩
  rw [Row.length_get]
  exact Row.get_congr fun i hi => by rw [Nat.zero_add, h i hi]

namespace Upgrade

variable (up : Upgrade cfg crypto)

/-! ## Boots that find a request -/

/-- The image that is swapped in. -/
def newImage : List UInt8 := up.new.get 0 up.extent

/-- The image that is swapped out. -/
def oldImage : List UInt8 := up.old.get 0 up.extent

/-- The swap is not to be reverted. -/
def Permanent : Prop := up.imageOk = bootFlagSet

/-- The type of the swap that the trailer of slot 1 asks for. -/
def swapType : BootSwapType := if up.imageOk = bootFlagSet then .perm else .test

variable {up}

/-- The request is for a test or for good. -/
theorem swapType_cases (up : Upgrade cfg crypto) : up.swapType = .test ∨ up.swapType = .perm := by
  unfold swapType
  split
  · exact Or.inr rfl
  · exact Or.inl rfl

/-- Both slots have room for what is swapped. -/
theorem extent_le_faSize (a : FlashArea) (ha : a ≠ .imageScratch) : up.extent ≤ cfg.faSize a := by
  have h1 := up.extent_le
  have h2 : cfg.statusOff .image0 ≤ cfg.faSize .image0 := Nat.sub_le _ _
  cases a with
  | image0 => omega
  | image1 =>
    have h3 : cfg.faSize .image1 = cfg.faSize .image0 := SwapJob.faSize_image1
    omega
  | imageScratch => exact absurd rfl ha

/-- Before the swap the old image is in slot 0. -/
theorem stores_old (h : up.Pending V) : Stores cfg V .image0 up.oldImage := by
  have hle := up.extent_le_bound
  exact stores_get (extent_le_faSize _ (by decide)) fun x hx => (h.data0 x hx).1 (by omega)

/-- Before the swap the new image is in slot 1. -/
theorem stores_new (h : up.Pending V) : Stores cfg V .image1 up.newImage :=
  stores_get (extent_le_faSize _ (by decide)) fun x _ => by rw [h.data1]

theorem length_newImage : imageHeaderSize ≤ up.newImage.length := by
  rw [newImage, Row.length_get]
  exact up.header_fits

/-- What is swapped out of slot 0 is long enough to hold a header. -/
theorem length_oldImage : imageHeaderSize ≤ up.oldImage.length := by
  rw [oldImage, Row.length_get]
  exact up.header_fits

/-- The request is found, and the image is valid. -/
theorem sees_bootValidatedSwapType (h : up.Pending V) :
    Sees cfg (bootValidatedSwapType cfg.toFlashMap crypto) (loaded cfg V) V up.swapType := by
  have hmagic : (cfg.swapStateOf V .image1).magic = .good := by
    show bootMagicCode ((V .image1).get _ _) = .good
    rw [h.data1]
    exact up.requested
  have hok : (cfg.swapStateOf V .image1).imageOk = up.imageOk := h.imageOkOf
  have htype : swapTypeOf (cfg.swapStateOf V .image0) (cfg.swapStateOf V .image1) = up.swapType := by
    rw [swapTypeOf_eq, hmagic, hok, swapType]
    rcases up.flag with hflag | hflag
    · have hset : up.imageOk = bootFlagSet := hflag
      rw [hset]
      rfl
    · have hunset : up.imageOk = bootFlagUnset := hflag
      rw [hunset]
      rfl
  -- `boot_validated_swap_type` checks the image before the swap, with the header that was read at
  -- the start of the boot
  have hvalid : Sees cfg (bootValidateSlot cfg.toFlashMap crypto .image1 (loaded cfg V).img1.hdr)
      (loaded cfg V) V () := by
    have hhdr : (loaded cfg V).img1.hdr = imageHeader up.newImage := (stores_new h).header length_newImage
    rw [hhdr]
    exact (stores_new h).sees_bootValidateSlot up.valid
  unfold bootValidatedSwapType
  refine sees_bootSwapType.bind ?_
  rw [htype]
  rcases up.swapType_cases with htest | hperm
  · rw [htest]
    exact Sees.getMem.bind (hvalid.attempt.bind (Sees.pure _))
  · rw [hperm]
    exact Sees.getMem.bind (hvalid.attempt.bind (Sees.pure _))

/-- The sizes of the images are found. -/
theorem sees_swapSize (h : up.Pending V) :
    Sees cfg (largestImageSize cfg.toFlashMap) (loaded cfg V) V up.swapSize := by
  rw [up.size_eq]
  exact sees_largestImageSize (stores_old h) (stores_new h) ((stores_old h).header length_oldImage)
    ((stores_new h).header length_newImage) up.old_size up.new_size

/-- A swap that is pending is made. -/
theorem wpa_bootSwapIfNeeded_pending (h : up.Pending V) :
    Wpa cfg up.Resumable (bootSwapIfNeeded cfg.toFlashMap crypto)
      (fun swapType r' W => (swapType = .test ∨ swapType = .perm) ∧ r' = loaded cfg V ∧ up.Swapped W)
      (loaded cfg V) V := by
  have hJ : up.Resumable V := Or.inl h
  have hcopy : Wpa cfg up.Resumable (bootCopyImage cfg.toFlashMap BootStatus.zero)
      (fun _ r' W => r' = loaded cfg V ∧ up.Swapped W) (loaded cfg V) V :=
    SwapJob.wpa_bootCopyImage_pending h hasSectors_loaded rfl rfl (sees_swapSize h)
  unfold bootSwapIfNeeded
  refine h.sees_status.assertOk.wpa_bind hJ ?_
  -- nothing is recorded: the status reads as zero, and the request decides
  rw [if_neg (by decide)]
  refine (sees_bootValidatedSwapType h).wpa_bind hJ ?_
  rcases up.swapType_cases with htest | hperm
  · rw [htest]
    refine Wpa.bind (hcopy.assertOk.mono ?_)
    rintro _ r' W hJW ⟨rfl, hW⟩
    exact Wpa.pure hJW ⟨Or.inl rfl, rfl, hW⟩
  · rw [hperm]
    refine Wpa.bind (hcopy.assertOk.mono ?_)
    rintro _ r' W hJW ⟨rfl, hW⟩
    exact Wpa.pure hJW ⟨Or.inr rfl, rfl, hW⟩

/-- After the swap the new image is in slot 0. -/
theorem Marked.stores (h : up.Marked V) : Stores cfg V .image0 up.newImage :=
  stores_get (extent_le_faSize _ (by decide)) h.data0

/-! ## Whole boots -/

/-- A boot from any state that a cut leaves completes the swap. -/
theorem wpa_bootGo_resumable (h : up.Resumable V) :
    Wpa cfg (fun W => up.Resumable W ∨ up.Marked W) (bootGo cfg.toFlashMap crypto)
      (fun rsp _ W => rsp = ⟨imageHeader up.newImage, cfg.faOff .image0⟩ ∧ up.Marked W) r V := by
  -- both phases end with the flag; the type is `test` or `perm`, never the `none` for which
  -- `boot_go` keeps the header it read first
  have hmark : ∀ {swapType r' W}, swapType = .test ∨ swapType = .perm → up.Swapped W → r' = loaded cfg V →
      Wpa cfg (fun W => up.Resumable W ∨ up.Marked W) (markSwap cfg.toFlashMap swapType)
        (fun swapType r' W => swapType ≠ .panic ∧ HasSectors cfg r'
          ∧ (swapType = .none → r'.img0.hdr = imageHeader up.newImage)
          ∧ Stores cfg W .image0 up.newImage ∧ up.Marked W) r' W := by
    rintro swapType r' W htype hW rfl
    refine (SwapJob.wpa_markSwap hW htype).mono ?_
    rintro swapType' r' W' - ⟨rfl, rfl, hW'⟩
    refine ⟨?_, hasSectors_loaded, fun hnone => ?_, Marked.stores hW', hW'⟩
    · rcases htype with rfl | rfl
      · decide
      · decide
    · rcases htype with rfl | rfl
      · cases hnone
      · cases hnone
  refine wpa_bootGo (Or.inl h) up.valid ?_
  rcases h with h | ⟨i, s, h⟩
  · refine ((wpa_bootSwapIfNeeded_pending h).weaken fun W hW => Or.inl hW).mono ?_
    rintro swapType r' W - ⟨htype, hr', hW⟩
    exact hmark htype hW hr'
  · refine ((SwapJob.wpa_bootSwapIfNeeded_underway h hasSectors_loaded).weaken fun W hW => Or.inl hW).mono ?_
    rintro swapType r' W - ⟨rfl, hr', hW⟩
    exact hmark (Or.inr rfl) hW hr'

/-- A permanent swap that was marked is left alone. -/
theorem wpa_bootGo_marked (h : up.Marked V) (hperm : up.Permanent) :
    Wpa cfg up.Marked (bootGo cfg.toFlashMap crypto)
      (fun rsp _ W => rsp = ⟨imageHeader up.newImage, cfg.faOff .image0⟩ ∧ up.Marked W) r V := by
  obtain ⟨h0, h1⟩ := h.swapStates
  -- `copy_done` is set, so that no trailer is a source of status: nothing is to be resumed
  have hsource : statusSourceOf (cfg.swapStateOf V .image0) (cfg.swapStateOf V .imageScratch) = .none := by
    rw [statusSourceOf_eq, h0]
    rfl
  have hstatus : Sees cfg (bootReadStatus cfg.toFlashMap) (loaded cfg V) V BootStatus.zero := by
    refine sees_bootReadStatus (k := 0) (fun _ => rfl) (fun hs => ?_) fun hs => ?_
    · rw [hsource] at hs
      cases hs
    · rw [hsource] at hs
      cases hs
  -- the swap is confirmed: without a request in slot 1 it is not reverted either
  have htype : swapTypeOf (cfg.swapStateOf V .image0) (cfg.swapStateOf V .image1) = .none := by
    have hok : (⟨.good, bootFlagSet, up.imageOk⟩ : BootSwapState).imageOk = bootFlagSet := hperm
    rw [swapTypeOf_eq, h0, h1, hok, if_neg (by simp), if_neg (by simp), if_neg (by simp [bootFlagSet])]
  have hvalidated : Sees cfg (bootValidatedSwapType cfg.toFlashMap crypto) (loaded cfg V) V .none := by
    unfold bootValidatedSwapType
    refine sees_bootSwapType.bind ?_
    rw [htype]
    exact Sees.pure _
  have hnone : Sees cfg (bootSwapIfNeeded cfg.toFlashMap crypto) (loaded cfg V) V .none := by
    unfold bootSwapIfNeeded
    refine hstatus.assertOk.bind ?_
    rw [if_neg (by decide)]
    exact hvalidated.bind (Sees.pure _)
  refine wpa_bootGo h up.valid (hnone.wpa h ?_)
  refine (Sees.pure _).wpa_bind h (Wpa.pure h ⟨by decide, hasSectors_loaded, fun _ => ?_, Marked.stores h, h⟩)
  exact (Marked.stores h).header length_newImage

/-- Cuts that do not end the swap. A temporary swap that is marked would be reverted by the next boot. -/
def CutShort (up : Upgrade cfg crypto) (f : Row) : Prop := up.Permanent ∨ ¬ up.Marked (cfg.areas f)

/-- Every cut leaves a swap that can be carried on, or one that is done for good. -/
theorem wpc_bootGo {f : Row} (h : up.Resumable (cfg.areas f) ∨ up.Permanent ∧ up.Marked (cfg.areas f)) :
    Wpc (device cfg.sectorSize) Torn
      (fun g => up.CutShort g → up.Resumable (cfg.areas g) ∨ up.Permanent ∧ up.Marked (cfg.areas g))
      (bootGo cfg.toFlashMap crypto)
      (fun rsp _ g => rsp = ⟨imageHeader up.newImage, cfg.faOff .image0⟩ ∧ up.Marked (cfg.areas g)) r f := by
  rcases h with h | ⟨hperm, h⟩
  · -- a cut that leaves the swap marked is admitted for a permanent swap only
    refine (wpa_bootGo_resumable h).wpc.weaken fun g hg hcut => ?_
    rcases hg with hg | hg
    · exact Or.inl hg
    · exact Or.inr ⟨hcut.resolve_right fun hne => hne hg, hg⟩
  · exact (wpa_bootGo_marked h hperm).wpc.weaken fun g hg _ => Or.inr ⟨hperm, hg⟩

/-- On fresh trailers a swap is pending. -/
theorem pending_of_erased (h0 : TrailerErased cfg V .image0) (hs : TrailerErased cfg V .imageScratch)
    (hold : ∀ x < up.extent, V .image0 x = up.old x) (hnew : V .image1 = up.new)
    (hplain : ¬ up.UsesScratch → up.count 0 = cfg.scratchSectors →
      up.new.get (up.bound 0 - bootMagicSz) bootMagicSz ≠ bootImgMagic) : up.Pending V := by
  have hle := up.extent_le_bound
  refine ⟨fun x hx => ⟨fun _ => hold x hx, fun hge => ?_⟩, hnew, ⟨fun _ _ => h0.statusAt, fun _ => ?_,
    fun _ _ => hs.statusAt, fun _ => ?_⟩, hplain⟩
  · omega
  · rw [h0.magicOf]
    decide
  · rw [hs.magicOf]
    decide

end Upgrade

/-! ## A small device

The theorem at work: a device of six sectors, an image with a header and three records, and a cut in
the middle of the one program call that writes the image to slot 0. -/

section Small

/-- Slots of two sectors, and one sector to swap through. -/
def smallMap : BootConfig where
  faOff
    | .image0 => 0
    | .image1 => 2048
    | .imageScratch => 4096
  faSize
    | .imageScratch => 1024
    | _ => 2048
  sectorSize := 1024
  sectorCount := 6
  programUnit := 1
  sectors := 2
  scratchSectors := 1
  unit_ok := Or.inl rfl
  sectors_le := by decide
  scratch_pos := by decide
  scratch_le := by decide
  size_image0 := rfl
  size_image1 := rfl
  size_scratch := rfl
  sector_aligned := rfl
  area_aligned area := by cases area <;> rfl
  trailer_fits := by decide
  area_in_flash area := by cases area <;> decide
  flash_addressable := by decide
  disjoint a b h := by cases a <;> cases b <;> first | exact absurd rfl h | decide

/-- The encoded message of every signature. -/
def toyMessage : Vector UInt8 256 :=
  Vector.ofFn fun i => if i.val = 190 then 1 else if i.val = 255 then 0xbc else 0

/-- A hash that is always zero, and signatures that always agree. -/
def toyCrypto : BootCrypto where
  keys := [[]]
  sha256 _ := Vector.replicate 32 0
  parseRsakey _ := some ⟨256, fun _ => some toyMessage⟩

/-- A header, no body, and the three records. -/
def toyImage : List UInt8 :=
  le32 imageMagic ++ le32 0 ++ [32, 0, 0, 0] ++ le32 0 ++ le32 0 ++ List.replicate 12 0
    ++ [0x07, 0x69, 80, 1]
    ++ [0x10, 0, 32, 0] ++ List.replicate 32 0
    ++ [0x01, 0, 32, 0] ++ List.replicate 32 0
    ++ [0x20, 0, 0, 1] ++ List.replicate 256 0

/-- Slot 1 with the image, and a request to test it. -/
def toySlot : Row := fun x =>
  if x < 2032 then toyImage.getD x 0xff else bootImgMagic.getD (x - 2032) 0xff

/-- The image is tested on a device without one. -/
def toyUpgrade : Upgrade smallMap toyCrypto where
  old := Row.erased
  new := toySlot
  swapSize := 368
  size_lt := by decide
  fits := by decide
  ranges_le := by decide
  flag := Or.inr (by decide)
  oldSize := 0
  newSize := 368
  header_fits := by decide
  old_size := by decide +kernel
  new_size := by decide +kernel
  size_eq := rfl
  valid := by decide +kernel
  requested := by decide +kernel

/-- The flash of the device. -/
def toyFlash : Row := fun x => if x < 2048 then 0xff else if x < 4096 then toySlot (x - 2048) else 0xff

/-- The request is pending on the flash of the device. -/
theorem toyFlash_pending : toyUpgrade.Pending (smallMap.areas toyFlash) := by
  have herased : ∀ a x, a ≠ .image1 → smallMap.areas toyFlash a x = 0xff := by
    intro a x ha
    cases a with
    | image0 =>
      show (if x < 2048 then toyFlash (0 + x) else erasedByte) = 0xff
      unfold toyFlash
      split
      · rw [if_pos (by omega)]
      · rfl
    | image1 => exact absurd rfl ha
    | imageScratch =>
      show (if x < 1024 then toyFlash (4096 + x) else erasedByte) = 0xff
      unfold toyFlash
      split
      · rw [if_neg (by omega), if_neg (by omega)]
      · rfl
  refine Upgrade.pending_of_erased (fun x _ _ => herased _ x (by decide)) (fun x _ _ => herased _ x (by decide))
    (fun x _ => herased _ x (by decide)) (funext fun x => ?_) fun _ _ => by decide +kernel
  show (if x < 2048 then toyFlash (2048 + x) else erasedByte) = toySlot x
  split
  · unfold toyFlash
    rw [if_neg (by omega), if_pos (by omega), Nat.add_sub_cancel_left]
  · unfold toySlot
    rw [if_neg (by omega), List.getD_eq_getElem?_getD, List.getElem?_eq_none]
    · rfl
    · show 16 ≤ x - 2032
      omega

/-- The call that starts to write the new image to slot 0, while slot 1 holds the old one and the swap
is not marked. -/
def writesSlot0 : Call × Row → Bool
  | (.program addr data, f) => addr = 0 && 100 < data.length && data.getD 0 0 = 0x3d && f 100 = 0xff
      && f 2048 = 0xff && f 2016 = 0xff
  | _ => false

set_option maxRecDepth 100000 in
/-- Call 807 of the boot is the one that writes the image to slot 0. -/
theorem toy_writes_slot0 : ((bootGo smallMap.toFlashMap toyCrypto ⟨⟨[], []⟩, ⟨[], []⟩⟩).callAt
    (device 1024) 807 toyFlash).any writesSlot0 = true := by
  decide +kernel

end Small

end Tfm.Boot
