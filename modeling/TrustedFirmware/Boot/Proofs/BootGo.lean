import TrustedFirmware.Boot.Proofs.Images
import TrustedFirmware.Boot.Proofs.Sectors
import TrustedFirmware.Boot.Proofs.Trailers

/-!
# The frame of a boot

`boot_go` around the swap: sectors and headers are read, and at the end the image in slot 0 is
validated. What is left to say about a boot is what the swap does (`wpa_bootGo`).

The two slots have the same sectors, so that `boot_slots_compatible` is no obstacle. The header of
slot 0 is read at the start and, unless nothing was swapped, once more behind the swap.
-/

namespace Tfm.Boot

open Device LinearFlash Word32
open BlockFlash (Row erasedByte)

variable {cfg : BootConfig} {crypto : BootCrypto} {J : Areas → Prop} {r : BootLoaderState} {V : Areas}

/-- What a boot reads before anything else. -/
def loaded (cfg : BootConfig) (V : Areas) : BootLoaderState :=
  ⟨⟨(V .image0).get 0 imageHeaderSize, cfg.sectorList⟩, ⟨(V .image1).get 0 imageHeaderSize, cfg.sectorList⟩⟩

theorem hasSectors_loaded : HasSectors cfg (loaded cfg V) := ⟨rfl, rfl⟩

/-- The sectors are known for good. -/
theorem wpa_bootReadSectors {Q : Unit → BootLoaderState → Areas → Prop} (hJ : J V)
    (hQ : ∀ r, HasSectors cfg r → Q () r V) : Wpa cfg J (bootReadSectors cfg.toFlashMap) Q r V := by
  unfold bootReadSectors
  rw [flashAreaGetSectors_eq cfg (show FlashArea.image0 ≠ .imageScratch by decide),
    flashAreaGetSectors_eq cfg (show FlashArea.image1 ≠ .imageScratch by decide)]
  exact Wpa.modifyMem hJ (hQ _ ⟨rfl, rfl⟩)

theorem wpa_bootReadImageHeaders {Q : Unit → BootLoaderState → Areas → Prop} (hr : HasSectors cfg r)
    (hJ : J V) (hQ : Q () (loaded cfg V) V) : Wpa cfg J (bootReadImageHeaders cfg.toFlashMap) Q r V := by
  have hsees : ∀ a r, Sees cfg (bootReadImageHeader cfg.toFlashMap a) r V
      ((V a).get 0 imageHeaderSize) := fun a r => by
    have hle := faSize_ge cfg a
    exact sees_flashAreaRead hle
  unfold bootReadImageHeaders
  refine (hsees .image0 r).wpa_bind hJ (Wpa.bind (Wpa.modifyMem hJ ?_))
  refine (hsees .image1 _).attempt.wpa_bind hJ (Wpa.modifyMem hJ ?_)
  obtain ⟨⟨hdr0, sectors0⟩, ⟨hdr1, sectors1⟩⟩ := r
  obtain rfl : sectors0 = cfg.sectorList := hr.img0
  obtain rfl : sectors1 = cfg.sectorList := hr.img1
  exact hQ

theorem bootSlotsCompatible_loaded : bootSlotsCompatible (loaded cfg V) = true := by
  have hzip : ∀ l : List FlashSector, (List.zip l l).all (fun p => p.1.fsSize = p.2.fsSize) = true := by
    intro l
    induction l with
    | nil => rfl
    | cons sector l ih => simpa using ih
  unfold bootSlotsCompatible loaded
  simp only [decide_true, Bool.true_and]
  exact hzip _

/-- The header that was read is the one of a string that the slot starts with. -/
theorem Stores.header {a : FlashArea} {bytes : List UInt8} (h : Stores cfg V a bytes)
    (hlen : imageHeaderSize ≤ bytes.length) : (V a).get 0 imageHeaderSize = imageHeader bytes :=
  get_slice h.get (by rwa [Nat.zero_add])

/-- A boot starts the image that the swap leaves in slot 0, if it is valid. Without a swap the header that
was read first is used. -/
theorem wpa_bootGo {bytes : List UInt8} {P : Areas → Prop} (hJ : J V) (hok : ImageOk crypto bytes)
    (hswap : Wpa cfg J (bootSwapIfNeeded cfg.toFlashMap crypto)
      (fun swapType => Wpa cfg J (markSwap cfg.toFlashMap swapType) fun swapType r' W =>
        swapType ≠ .panic ∧ HasSectors cfg r' ∧ (swapType = .none → r'.img0.hdr = imageHeader bytes)
          ∧ Stores cfg W .image0 bytes ∧ P W)
      (loaded cfg V) V) :
    Wpa cfg J (bootGo cfg.toFlashMap crypto)
      (fun rsp _ W => rsp = ⟨imageHeader bytes, cfg.faOff .image0⟩ ∧ P W) r V := by
  -- the last lines of `boot_go`: the header in memory is that of the image
  have hfinal : ∀ r' W, J W → r'.img0.hdr = imageHeader bytes → Stores cfg W .image0 bytes → P W →
      Wpa cfg J (M.getMem >>= fun s =>
        assertOk (bootValidateSlot cfg.toFlashMap crypto .image0 s.img0.hdr) >>= fun _ =>
        pure (⟨s.img0.hdr, cfg.faOff .image0⟩ : BootRsp))
        (fun rsp _ W => rsp = ⟨imageHeader bytes, cfg.faOff .image0⟩ ∧ P W) r' W := by
    intro r' W hJW hhdr hstores hP
    refine Sees.getMem.wpa_bind hJW ?_
    rw [hhdr]
    exact (hstores.sees_bootValidateSlot hok).assertOk.wpa_bind hJW (Wpa.pure hJW ⟨rfl, hP⟩)
  unfold bootGo
  refine Wpa.bind (wpa_bootReadSectors hJ fun r1 hr1 => ?_)
  refine Wpa.bind (wpa_bootReadImageHeaders hr1 hJ ?_)
  refine Sees.getMem.wpa_bind hJ ?_
  have hcompatible : bootSlotsCompatible (loaded cfg V) = true := bootSlotsCompatible_loaded
  dsimp only
  rw [if_pos hcompatible]
  apply Wpa.bind
  refine hswap.assertOk.mono ?_
  intro swapType r1 W1 _ hmark
  apply Wpa.bind
  refine hmark.mono ?_
  rintro swapType r' W hJW ⟨hpanic, hr', hnone, hstores, hP⟩
  -- behind a swap the headers are read again
  have hread : Wpa cfg J (bootReadImageHeaders cfg.toFlashMap >>= fun _ => M.getMem >>= fun s =>
      assertOk (bootValidateSlot cfg.toFlashMap crypto .image0 s.img0.hdr) >>= fun _ =>
      pure (⟨s.img0.hdr, cfg.faOff .image0⟩ : BootRsp))
      (fun rsp _ W => rsp = ⟨imageHeader bytes, cfg.faOff .image0⟩ ∧ P W) r' W :=
    Wpa.bind (wpa_bootReadImageHeaders hr' hJW
      (hfinal _ _ hJW (hstores.header hok.header) hstores hP))
  cases swapType with
  | panic => exact absurd rfl hpanic
  | none => exact hfinal _ _ hJW (hnone rfl) hstores hP
  | test => exact hread
  | perm => exact hread
  | revert => exact hread
  | fail => exact hread

end Tfm.Boot
