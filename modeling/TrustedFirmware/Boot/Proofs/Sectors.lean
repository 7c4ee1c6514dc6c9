import TrustedFirmware.Boot.Proofs.Areas

/-!
# Sectors of a slot

Both slots are divided into the same sectors. What the functions that ask for them see.

`flash_area_get_sectors` finds `sectors` sectors of one size (`flashAreaGetSectors_eq`), which is
what the list in `boot_data` holds from then on (`HasSectors`). Sizes and offsets are looked up in
that list, and the last sector is the one that is erased for a fresh trailer
(`wpa_bootEraseLastSectorById`).
-/

namespace Tfm.Boot

open Device LinearFlash Word32
open BlockFlash (Row erasedByte)

variable {cfg : BootConfig} {J : Areas → Prop} {r : BootLoaderState} {V : Areas} {a : FlashArea}

/-- The sectors of a slot. -/
def BootConfig.sectorList (cfg : BootConfig) : List FlashSector :=
  (List.range cfg.sectors).map fun i => ⟨cfg.sectorSize * i, cfg.sectorSize⟩

/-- The loop finds all sectors, as long as there is room for them. -/
theorem getSectors_eq {sectorSize room cnt n : Nat} (hpos : 0 < sectorSize) (h : n ≤ room) :
    getSectors sectorSize room cnt (n * sectorSize)
      = some ((List.range n).map fun i => ⟨sectorSize * (cnt + i), sectorSize⟩) := by
  -- by induction on the sectors, each of which takes its size from the bytes that remain
  induction n generalizing room cnt with
  | zero =>
    rw [Nat.zero_mul]
    cases room with
    | zero => rfl
    | succ room => rfl
  | succ n ih =>
    obtain ⟨room, rfl⟩ : ∃ m, room = m + 1 := ⟨room - 1, by omega⟩
    have hsum : (n + 1) * sectorSize = n * sectorSize + sectorSize := Nat.succ_mul _ _
    obtain ⟨rem, hrem⟩ : ∃ m, (n + 1) * sectorSize = m + 1 := ⟨(n + 1) * sectorSize - 1, by omega⟩
    have hnext : rem + 1 - sectorSize = n * sectorSize := by omega
    rw [hrem, getSectors, if_neg (by omega), hnext, ih (by omega), List.range_succ_eq_map, List.map_cons,
      List.map_map, Option.map_some]
    congr 2
    refine List.map_congr_left fun i _ => ?_
    show (⟨_, _⟩ : FlashSector) = ⟨_, _⟩
    congr 2
    omega

theorem flashAreaGetSectors_eq (cfg : BootConfig) {a : FlashArea} (ha : a ≠ .imageScratch) :
    flashAreaGetSectors cfg.toFlashMap a = some cfg.sectorList := by
  have hsize : cfg.faSize a = cfg.sectors * cfg.sectorSize := by
    cases a with
    | image0 => exact cfg.size_image0
    | image1 => exact cfg.size_image1
    | imageScratch => exact absurd rfl ha
  rw [flashAreaGetSectors, hsize, getSectors_eq cfg.sectorSize_pos cfg.sectors_le]
  congr 1
  refine List.map_congr_left fun i _ => ?_
  rw [Nat.zero_add]

/-- The sectors were read. -/
structure HasSectors (cfg : BootConfig) (r : BootLoaderState) : Prop where
  img0 : r.img0.sectors = cfg.sectorList
  img1 : r.img1.sectors = cfg.sectorList

theorem length_sectorList (cfg : BootConfig) : cfg.sectorList.length = cfg.sectors := by
  rw [BootConfig.sectorList, List.length_map, List.length_range]

theorem getElem?_sectorList (cfg : BootConfig) {i : Nat} (hi : i < cfg.sectors) :
    cfg.sectorList[i]? = some ⟨cfg.sectorSize * i, cfg.sectorSize⟩ := by
  rw [BootConfig.sectorList, List.getElem?_map, List.getElem?_range hi]
  rfl

theorem sees_bootImgSectorSize {slot : ImageSlot} {i : Nat} (hslot : slot.sectors = cfg.sectorList)
    (hi : i < cfg.sectors) : Sees cfg (bootImgSectorSize slot i) r V cfg.sectorSize := by
  rw [bootImgSectorSize, hslot, getElem?_sectorList cfg hi]
  exact Sees.pure _

theorem sectors_addressable (cfg : BootConfig) : cfg.sectors * cfg.sectorSize < 2 ^ 32 := by
  have h1 := cfg.area_in_flash .image0
  have h2 := cfg.flash_addressable
  rw [cfg.size_image0] at h1
  omega

/-- Offsets are counted from the start of the slot. -/
theorem sees_bootImgSectorOff {slot : ImageSlot} {i : Nat} (hslot : slot.sectors = cfg.sectorList)
    (hi : i < cfg.sectors) : Sees cfg (bootImgSectorOff slot i) r V (i * cfg.sectorSize) := by
  have h0 : 0 < cfg.sectors := by omega
  have hmul : i * cfg.sectorSize ≤ cfg.sectors * cfg.sectorSize := Nat.mul_le_mul_right _ (by omega)
  have haddr := sectors_addressable cfg
  rw [bootImgSectorOff, hslot, getElem?_sectorList cfg hi, getElem?_sectorList cfg h0]
  show Sees cfg (pure (sub32 (cfg.sectorSize * i) (cfg.sectorSize * 0))) r V _
  rw [Nat.mul_zero, Nat.mul_comm, sub32_eq (Nat.zero_le _) (by omega), Nat.sub_zero]
  exact Sees.pure _

/-- The last sector is erased. -/
theorem wpa_bootEraseLastSectorById {slot : ImageSlot} {Q : Unit → BootLoaderState → Areas → Prop}
    (hslot : slot.sectors = cfg.sectorList) (ha : cfg.faSize a = cfg.sectors * cfg.sectorSize) (hJ : J V)
    (hJ' : J (V.erase a ((cfg.sectors - 1) * cfg.sectorSize) cfg.sectorSize))
    (hQ : Q () r (V.erase a ((cfg.sectors - 1) * cfg.sectorSize) cfg.sectorSize)) :
    Wpa cfg J (bootEraseLastSectorById cfg.toFlashMap a slot) Q r V := by
  have hpos := cfg.sectors_pos
  have hsum : cfg.sectors * cfg.sectorSize = (cfg.sectors - 1) * cfg.sectorSize + cfg.sectorSize := by
    rw [← Nat.succ_mul]
    congr 1
    omega
  unfold bootEraseLastSectorById
  rw [hslot, length_sectorList]
  refine (sees_bootImgSectorOff hslot (by omega)).wpa_bind hJ
    ((sees_bootImgSectorSize hslot (by omega)).wpa_bind hJ ?_)
  -- one sector: it is erased or it is not
  have herase : Wpa cfg J (flashAreaErase cfg.toFlashMap a ((cfg.sectors - 1) * cfg.sectorSize)
      (1 * cfg.sectorSize)) Q r V := by
    refine wpa_flashAreaErase (by omega) (Nat.mul_mod_left _ _) (fun j hj => ?_) ?_
    · obtain rfl | rfl : j = 0 ∨ j = 1 := by omega
      · rw [Nat.zero_mul, Areas.erase, List.replicate_zero, Areas.put_nil]
        exact hJ
      · rwa [Nat.one_mul]
    · rwa [Nat.one_mul]
  rw [Nat.one_mul] at herase
  exact herase.assertOk

end Tfm.Boot
