import TrustedFirmware.Boot.Proofs.Sectors
import TrustedFirmware.Boot.Proofs.Trailers

/-!
# Fresh trailers

A trailer is erased with its sector, and then its fields are written, the magic last: until it is
complete, the trailer does not count.

* `erase_trailer_cases`: an erase of whole sectors takes a trailer as a whole or leaves it.
* `TrailerErased`: what an erased trailer says. Its magic is unset and its counter is zero.
* `wpa_writeFields`: the writes of `boot_status_init_by_id`. At every cut the magic is not good or
  all fields are in place.
-/

namespace Tfm.Boot

open Device LinearFlash Word32
open BlockFlash (Row erasedByte)

variable {cfg : BootConfig} {J : Areas → Prop} {r : BootLoaderState} {V W : Areas} {a b : FlashArea}

/-! ## Erasing

The trailer lies in the last sector of its area, so that it goes with this sector. -/

namespace BootConfig

variable (cfg)

/-- The number of sectors of an area. -/
def areaSectors : FlashArea → Nat
  | .imageScratch => cfg.scratchSectors
  | _ => cfg.sectors

theorem faSize_eq (a : FlashArea) : cfg.faSize a = cfg.areaSectors a * cfg.sectorSize := by
  cases a with
  | image0 => exact cfg.size_image0
  | image1 => exact cfg.size_image1
  | imageScratch => exact cfg.size_scratch

theorem areaSectors_pos (a : FlashArea) : 0 < cfg.areaSectors a := by
  cases a with
  | image0 | image1 => exact cfg.sectors_pos
  | imageScratch => exact cfg.scratch_pos

/-- The trailer is in the last sector. -/
theorem lastSector_le_statusOff (a : FlashArea) :
    (cfg.areaSectors a - 1) * cfg.sectorSize ≤ cfg.statusOff a := by
  have h1 := cfg.trailerSz_le_sectorSize a
  have h2 := cfg.faSize_eq a
  have h3 := cfg.areaSectors_pos a
  have h4 : cfg.areaSectors a * cfg.sectorSize
      = (cfg.areaSectors a - 1) * cfg.sectorSize + cfg.sectorSize := by
    rw [← Nat.succ_mul]
    congr 1
    omega
  unfold statusOff
  omega

end BootConfig

/-- Sectors are erased as a whole, so a trailer stays or is erased. -/
theorem erase_trailer_cases (cfg : BootConfig) (V : Areas) (a : FlashArea) (p j : Nat) :
    TrailerEq cfg a V (V.erase a (p * cfg.sectorSize) (j * cfg.sectorSize))
      ∨ ∀ x, cfg.statusOff a ≤ x → x < cfg.faSize a →
          V.erase a (p * cfg.sectorSize) (j * cfg.sectorSize) a x = 0xff := by
  have h1 := cfg.lastSector_le_statusOff a
  have h2 := cfg.faSize_eq a
  -- the range starts behind the area, ends in front of its last sector, or covers that sector
  by_cases hp : cfg.areaSectors a ≤ p
  · have hmul := Nat.mul_le_mul_right cfg.sectorSize hp
    exact Or.inl fun x _ hx => (Areas.erase_apply_out (Or.inl (by omega))).symm
  · have hmul : p * cfg.sectorSize ≤ (cfg.areaSectors a - 1) * cfg.sectorSize :=
      Nat.mul_le_mul_right _ (by omega)
    by_cases hj : p + j ≤ cfg.areaSectors a - 1
    · have hmul' := Nat.mul_le_mul_right cfg.sectorSize hj
      rw [Nat.add_mul] at hmul'
      exact Or.inl fun x hx _ => (Areas.erase_apply_out (Or.inr (by omega))).symm
    · have hmul' : cfg.areaSectors a * cfg.sectorSize ≤ (p + j) * cfg.sectorSize :=
        Nat.mul_le_mul_right _ (by omega)
      rw [Nat.add_mul] at hmul'
      exact Or.inr fun x hx hx' => Areas.erase_apply_in (by omega) (by omega)

/-- A trailer without a byte. -/
def TrailerErased (cfg : BootConfig) (V : Areas) (a : FlashArea) : Prop :=
  ∀ x, cfg.statusOff a ≤ x → x < cfg.faSize a → V a x = 0xff

section TrailerErased

variable (h : TrailerErased cfg V a)
include h

/-- The magic of an erased trailer is unset. -/
theorem TrailerErased.magicOf : cfg.magicOf V a = .unset := by
  have h1 := cfg.trailerSz_le a
  have h2 := cfg.trailerSz_ge a
  refine magicOf_of_erased fun x hx hx' => h x ?_ hx'
  have h3 := cfg.magicOff_add a
  unfold bootMagicSz at h3
  unfold BootConfig.statusOff
  omega

/-- The counter of an erased trailer is zero. -/
theorem TrailerErased.statusAt : StatusAt cfg V a 0 := by
  have hentry : ∀ i < bootStatusEntries a, cfg.entry V a i = 0xff := by
    intro i hi
    have hlt := entry_lt cfg hi
    have hpos := cfg.unit_pos
    rw [Nat.succ_mul] at hlt
    exact h _ (by omega) (by omega)
  have hpos := bootStatusEntries_pos a
  exact ⟨hentry 0 (by omega), fun j hj hj' => by omega, fun j _ hj => hentry j hj⟩

/-- The fields of an erased trailer are erased. -/
theorem TrailerErased.fields {x : Nat} (hx : bootSwapSizeOff cfg.toFlashMap a ≤ x)
    (hx' : x < cfg.faSize a) : V a x = 0xff := by
  have hle := statusOff_add_le cfg a
  exact h x (by omega) hx'

end TrailerErased

/-- The last sector takes the trailer with it. -/
theorem trailerErased_lastSector (cfg : BootConfig) (V : Areas) (a : FlashArea) :
    TrailerErased cfg (V.erase a ((cfg.areaSectors a - 1) * cfg.sectorSize) cfg.sectorSize) a := by
  have h1 := cfg.lastSector_le_statusOff a
  have h2 := cfg.faSize_eq a
  have h3 := cfg.areaSectors_pos a
  have h4 : cfg.areaSectors a * cfg.sectorSize
      = (cfg.areaSectors a - 1) * cfg.sectorSize + cfg.sectorSize := by
    rw [← Nat.succ_mul]
    congr 1
    omega
  exact fun x hx hx' => Areas.erase_apply_in (by omega) (by omega)

/-! ## Writing all fields

`image_ok` if it is to be set, then the swap size, then the magic. -/

/-- The end of `boot_status_init_by_id` and of the restoring of a trailer. -/
def writeFields (fm : FlashMap) (a : FlashArea) (imageOk : UInt8) (swapSize : Nat) : BootM Unit := do
  if imageOk = bootFlagSet then assertOk (bootWriteImageOk fm a)
  assertOk (bootWriteSwapSize fm a swapSize)
  assertOk (bootWriteMagic fm a)

/-- The fields of a trailer in use. -/
structure Fields (cfg : BootConfig) (a : FlashArea) (imageOk : UInt8) (swapSize : Nat) (V : Areas) :
    Prop where
  magic : cfg.magicOf V a = .good
  copyDone : a ≠ .imageScratch → cfg.copyDoneOf V a = bootFlagUnset
  imageOk : cfg.imageOkOf V a = imageOk
  swapSize : cfg.swapSizeOf V a = swapSize

/-- The fields are read from the bytes behind the status. -/
theorem FieldsEq.transfer {imageOk : UInt8} {swapSize : Nat} (h : FieldsEq cfg a V W)
    (hV : Fields cfg a imageOk swapSize V) : Fields cfg a imageOk swapSize W :=
  ⟨h.magicOf ▸ hV.magic, fun hne => h.copyDoneOf ▸ hV.copyDone hne, h.imageOkOf ▸ hV.imageOk,
    h.swapSizeOf ▸ hV.swapSize⟩

theorem sizeBuf_take (cfg : BootConfig) (n : Nat) : (sizeBuf cfg n).take 4 = le32 n := by
  unfold sizeBuf alignedBuf
  rw [List.take_take, Nat.min_eq_left (by omega), List.take_append_of_le_length (by rw [length_le32]),
    List.take_of_length_le (by rw [length_le32])]

theorem flagBuf_head (cfg : BootConfig) : (flagBuf cfg).getD 0 0 = bootFlagSet := by
  have hpos := cfg.unit_pos
  unfold flagBuf alignedBuf
  obtain ⟨u, hu⟩ : ∃ u, cfg.programUnit = u + 1 := ⟨cfg.programUnit - 1, by omega⟩
  rw [hu]
  rfl

/-- The swap size lies in front of `image_ok`. -/
theorem swapSizeOff_add_le (cfg : BootConfig) (a : FlashArea) :
    bootSwapSizeOff cfg.toFlashMap a + 8 ≤ bootImageOkOff cfg.toFlashMap a := by
  have h := cfg.trailerSz_le a
  have h1 := cfg.trailerSz_slots
  have h2 := cfg.trailerSz_scratch
  cases a with
  | image0 =>
    change bootSlotsTrailerSz cfg.programUnit ≤ _ at h
    show cfg.faSize _ - 16 - 24 + 8 ≤ cfg.faSize _ - 16 - 8
    omega
  | image1 =>
    change bootSlotsTrailerSz cfg.programUnit ≤ _ at h
    show cfg.faSize _ - 16 - 24 + 8 ≤ cfg.faSize _ - 16 - 8
    omega
  | imageScratch =>
    change bootScratchTrailerSz cfg.programUnit ≤ _ at h
    show cfg.faSize _ - 16 - 16 + 8 ≤ cfg.faSize _ - 16 - 8
    omega

/-- In a slot the swap size lies right in front of `copy_done`. -/
theorem swapSizeOff_add_copyDone (cfg : BootConfig) (ha : a ≠ .imageScratch) :
    bootSwapSizeOff cfg.toFlashMap a + 8 = bootCopyDoneOff cfg.toFlashMap a := by
  have h := cfg.trailerSz_le a
  have h1 := cfg.trailerSz_slots
  cases a with
  | image0 =>
    change bootSlotsTrailerSz cfg.programUnit ≤ _ at h
    show cfg.faSize _ - 16 - 24 + 8 = cfg.faSize _ - 16 - 16
    omega
  | image1 =>
    change bootSlotsTrailerSz cfg.programUnit ≤ _ at h
    show cfg.faSize _ - 16 - 24 + 8 = cfg.faSize _ - 16 - 16
    omega
  | imageScratch => exact absurd rfl ha

/-- The magic lies behind `image_ok`. -/
theorem imageOkOff_add (cfg : BootConfig) (a : FlashArea) :
    bootImageOkOff cfg.toFlashMap a + 8 = bootMagicOff cfg.toFlashMap a := by
  have hge := faSize_ge cfg a
  unfold bootImageOkOff bootMagicOff bootMagicSz bootMaxAlign
  omega

/-- No write in front of the end of the area reaches its last byte, which keeps the magic from being
good. -/
theorem put_last {off : Nat} {data : List UInt8} (hlast : V a (cfg.faSize a - 1) = 0xff)
    (hlt : off + data.length < cfg.faSize a) : V.put a off data a (cfg.faSize a - 1) = 0xff := by
  rwa [Areas.put_apply_out (Or.inr (by omega))]

/-- The swap size that was written in front of the magic. -/
theorem swapSizeOf_puts {swapSize : Nat} (hsize : swapSize < 2 ^ 32) :
    cfg.swapSizeOf ((V.put a (bootSwapSizeOff cfg.toFlashMap a) (sizeBuf cfg swapSize)).put a
      (bootMagicOff cfg.toFlashMap a) bootImgMagic) a = swapSize := by
  have hsz := swapSizeOff_add_le cfg a
  have hoff := imageOkOff_add cfg a
  have hlen := length_sizeBuf cfg swapSize
  have hget : (((V.put a (bootSwapSizeOff cfg.toFlashMap a) (sizeBuf cfg swapSize)).put a
      (bootMagicOff cfg.toFlashMap a) bootImgMagic) a).get (bootSwapSizeOff cfg.toFlashMap a) 4
      = le32 swapSize := by
    rw [Areas.put_self, Row.get_put_disjoint (Or.inl (by omega)), Areas.put_self,
      ← sizeBuf_take cfg swapSize]
    refine Row.get_eq_of_getD (by rw [List.length_take]; omega) fun k hk => ?_
    rw [Row.put_of_mem (by omega) (by omega), Nat.add_sub_cancel_left,
      List.getD_eq_getElem?_getD, List.getD_eq_getElem?_getD, List.getElem?_take_of_lt hk]
  have hofLe := ofLe32_append [] [] hsize
  unfold BootConfig.swapSizeOf
  rw [hget]
  rwa [List.nil_append, List.append_nil] at hofLe

/-- Swap size and magic lie apart from the other fields, so each field is what was written or what was
there before. -/
theorem fields_puts {imageOk : UInt8} {swapSize : Nat} (hsize : swapSize < 2 ^ 32)
    (hok : cfg.imageOkOf V a = imageOk)
    (hdone : a ≠ .imageScratch → cfg.copyDoneOf V a = bootFlagUnset) :
    Fields cfg a imageOk swapSize ((V.put a (bootSwapSizeOff cfg.toFlashMap a)
      (sizeBuf cfg swapSize)).put a (bootMagicOff cfg.toFlashMap a) bootImgMagic) := by
  have hsz := swapSizeOff_add_le cfg a
  have hoff := imageOkOff_add cfg a
  have hlen := length_sizeBuf cfg swapSize
  have hunit := cfg.unit_le
  refine ⟨magicOf_put_magic, fun ha => ?_, ?_, swapSizeOf_puts hsize⟩
  · have hcd := swapSizeOff_add_copyDone cfg ha
    rw [BootConfig.copyDoneOf, Areas.put_apply_out (Or.inl (by omega)),
      Areas.put_apply_out (Or.inr (by omega))]
    exact hdone ha
  · rw [BootConfig.imageOkOf, Areas.put_apply_out (Or.inl (by omega)),
      Areas.put_apply_out (Or.inr (by omega))]
    exact hok

section WriteFields

variable {imageOk : UInt8} {swapSize : Nat} {Q : Unit → BootLoaderState → Areas → Prop}

/-- The magic is the last to be written, and not good before it is complete. -/
theorem wpa_writeMagicLast (hlast : V a (cfg.faSize a - 1) = 0xff)
    (hJ : ∀ W, ChangedIn a (bootSwapSizeOff cfg.toFlashMap a) (cfg.faSize a) V W →
      cfg.magicOf W a ≠ .good ∨ W = V.put a (bootMagicOff cfg.toFlashMap a) bootImgMagic → J W)
    (hQ : ChangedIn a (bootSwapSizeOff cfg.toFlashMap a) (cfg.faSize a) V
        (V.put a (bootMagicOff cfg.toFlashMap a) bootImgMagic) →
      Q () r (V.put a (bootMagicOff cfg.toFlashMap a) bootImgMagic)) :
    Wpa cfg J (assertOk (bootWriteMagic cfg.toFlashMap a)) Q r V := by
  have hsz := swapSizeOff_add_le cfg a
  have hoff := imageOkOff_add cfg a
  have hmagic := cfg.magicOff_add a
  have hmsz : bootMagicSz = 16 := rfl
  have hwhole : ChangedIn a (bootSwapSizeOff cfg.toFlashMap a) (cfg.faSize a) V
      (V.put a (bootMagicOff cfg.toFlashMap a) bootImgMagic) :=
    changedIn_put (by omega) (Nat.le_of_eq hmagic)
  refine (wpa_bootWriteMagic (fun k => ?_) (hQ hwhole)).assertOk
  -- a torn magic lacks its last byte
  by_cases hk : k < bootMagicSz
  · have hlen : (bootImgMagic.take k).length = k := by
      rw [List.length_take]
      exact Nat.min_eq_left (Nat.le_of_lt hk)
    refine hJ _ (changedIn_put (by omega) (by omega)) (Or.inl ?_)
    exact magicOf_ne_good_of_last (put_last hlast (by omega))
  · rw [List.take_of_length_le (Nat.le_of_not_lt hk)]
    exact hJ _ hwhole (Or.inr rfl)

/-- What is left to be written once the flag is there. -/
theorem wpa_writeSizeAndMagic (hsize : swapSize < 2 ^ 32)
    (hlast : V a (cfg.faSize a - 1) = 0xff) (hok : cfg.imageOkOf V a = imageOk)
    (hdone : a ≠ .imageScratch → cfg.copyDoneOf V a = bootFlagUnset)
    (hJ : ∀ W, ChangedIn a (bootSwapSizeOff cfg.toFlashMap a) (cfg.faSize a) V W →
      cfg.magicOf W a ≠ .good ∨ Fields cfg a imageOk swapSize W → J W)
    (hQ : ∀ W, ChangedIn a (bootSwapSizeOff cfg.toFlashMap a) (cfg.faSize a) V W →
      Fields cfg a imageOk swapSize W → Q () r W) :
    Wpa cfg J (assertOk (bootWriteSwapSize cfg.toFlashMap a swapSize) >>= fun _ =>
      assertOk (bootWriteMagic cfg.toFlashMap a)) Q r V := by
  have hsz := swapSizeOff_add_le cfg a
  have hoff := imageOkOff_add cfg a
  have hmagic := cfg.magicOff_add a
  have hlen := length_sizeBuf cfg swapSize
  have hunit := cfg.unit_le
  have hmsz : bootMagicSz = 16 := rfl
  have hfields := fields_puts hsize hok hdone
  have hin : ChangedIn a (bootSwapSizeOff cfg.toFlashMap a) (cfg.faSize a) V
      (V.put a (bootSwapSizeOff cfg.toFlashMap a) (sizeBuf cfg swapSize)) :=
    changedIn_put (Nat.le_refl _) (by omega)
  refine Wpa.bind (wpa_bootWriteSwapSize (fun k => ?_) ?_).assertOk
  · have hle : ((sizeBuf cfg swapSize).take k).length ≤ (sizeBuf cfg swapSize).length := by
      rw [List.length_take]
      exact Nat.min_le_right _ _
    refine hJ _ (changedIn_put (Nat.le_refl _) (by omega)) (Or.inl ?_)
    exact magicOf_ne_good_of_last (put_last hlast (by omega))
  · refine wpa_writeMagicLast (put_last hlast (by omega)) (fun W hW hcut => ?_)
      fun hW => hQ _ (hin.trans hW) hfields
    refine hJ W (hin.trans hW) (hcut.imp_right fun heq => ?_)
    rw [heq]
    exact hfields

/-- The fields of an erased trailer are written. A cut leaves a trailer without a good magic, or all
of them. -/
theorem wpa_writeFields (hflag : imageOk = bootFlagSet ∨ imageOk = bootFlagUnset)
    (hsize : swapSize < 2 ^ 32)
    (herased : ∀ x, bootSwapSizeOff cfg.toFlashMap a ≤ x → x < cfg.faSize a → V a x = 0xff)
    (hJ : ∀ W, ChangedIn a (bootSwapSizeOff cfg.toFlashMap a) (cfg.faSize a) V W →
      cfg.magicOf W a ≠ .good ∨ Fields cfg a imageOk swapSize W → J W)
    (hQ : ∀ W, ChangedIn a (bootSwapSizeOff cfg.toFlashMap a) (cfg.faSize a) V W →
      Fields cfg a imageOk swapSize W → Q () r W) :
    Wpa cfg J (writeFields cfg.toFlashMap a imageOk swapSize) Q r V := by
  have hsz := swapSizeOff_add_le cfg a
  have hok := cfg.imageOkOff_lt a
  have hoff := imageOkOff_add cfg a
  have hmagic := cfg.magicOff_add a
  have hmsz : bootMagicSz = 16 := rfl
  have hunit := cfg.unit_le
  have hlast : V a (cfg.faSize a - 1) = 0xff := herased _ (by omega) (by omega)
  have hcopyDone (ha : a ≠ .imageScratch) : cfg.copyDoneOf V a = bootFlagUnset := by
    have hcd := swapSizeOff_add_copyDone cfg ha
    exact herased _ (by omega) (by omega)
  unfold writeFields
  by_cases hset : imageOk = bootFlagSet
  · simp only [if_pos hset]
    have hlen := length_flagBuf cfg
    have hpos := cfg.unit_pos
    have hin : ChangedIn a (bootSwapSizeOff cfg.toFlashMap a) (cfg.faSize a) V
        (V.put a (bootImageOkOff cfg.toFlashMap a) (flagBuf cfg)) :=
      changedIn_put (by omega) (by omega)
    refine Wpa.bind (wpa_bootWriteFlag hok (imageOkOff_mod cfg a) (fun k => ?_) ?_).assertOk
    · have hle : ((flagBuf cfg).take k).length ≤ (flagBuf cfg).length := by
        rw [List.length_take]
        exact Nat.min_le_right _ _
      refine hJ _ (changedIn_put (by omega) (by omega)) (Or.inl ?_)
      exact magicOf_ne_good_of_last (put_last hlast (by omega))
    · refine wpa_writeSizeAndMagic hsize (put_last hlast (by omega)) ?_ (fun ha => ?_)
        (fun W hW => hJ W (hin.trans hW)) fun W hW => hQ W (hin.trans hW)
      · rw [BootConfig.imageOkOf, Areas.put_apply_in (Nat.le_refl _) (by omega), Nat.sub_self,
          flagBuf_head, hset]
      · have hcd : bootCopyDoneOff cfg.toFlashMap a < bootImageOkOff cfg.toFlashMap a := by
          have hge := faSize_ge cfg a
          unfold bootCopyDoneOff bootImageOkOff bootMagicSz bootMaxAlign
          omega
        rw [BootConfig.copyDoneOf, Areas.put_apply_out (Or.inl hcd)]
        exact hcopyDone ha
  · simp only [if_neg hset]
    refine wpa_writeSizeAndMagic hsize hlast ?_ hcopyDone hJ hQ
    rw [BootConfig.imageOkOf, herased _ (by omega) (by omega)]
    exact (hflag.resolve_left hset).symm

end WriteFields

end Tfm.Boot
