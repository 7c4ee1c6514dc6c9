import TrustedFirmware.Boot.Proofs.Areas

/-!
# Trailers and status bytes

What the functions that read trailers see, as functions of the rows. The status bytes of a swap are
a unary counter: the entries `1` to `k` are written, and `k` is read back as the index `k / 3` and
the state `k % 3` (`StatusAt`).

Entry 0 is never written, as the step `3 * 0 + 0` is the start. The scan passes over it and stops at
the first erased entry behind a written one (`scanEntries_of_written`); if none is written it runs
to the end and reports nothing (`scanEntries_of_unset`).
-/

namespace Tfm.Boot

open Device LinearFlash Word32
open BlockFlash (Row erasedByte)

variable {cfg : BootConfig} {J : Areas → Prop} {r : BootLoaderState} {V : Areas} {a : FlashArea}

namespace BootConfig

variable (cfg)

theorem sectorSize_le (a : FlashArea) : cfg.sectorSize ≤ cfg.faSize a := by
  cases a with
  | image0 =>
    rw [cfg.size_image0]
    exact Nat.le_mul_of_pos_left _ cfg.sectors_pos
  | image1 =>
    rw [cfg.size_image1]
    exact Nat.le_mul_of_pos_left _ cfg.sectors_pos
  | imageScratch =>
    rw [cfg.size_scratch]
    exact Nat.le_mul_of_pos_left _ cfg.scratch_pos

/-- The size of the trailer of a slot. -/
theorem trailerSz_slots : bootSlotsTrailerSz cfg.programUnit = 768 * cfg.programUnit + 40 := by
  simp only [bootSlotsTrailerSz, bootStatusMaxEntries, bootStatusStateCount, bootMaxAlign, bootMagicSz]

theorem trailerSz_scratch : bootScratchTrailerSz cfg.programUnit = 3 * cfg.programUnit + 32 := by
  simp only [bootScratchTrailerSz, bootStatusStateCount, bootMaxAlign, bootMagicSz]

theorem trailerSz_le_sectorSize (a : FlashArea) : trailerSz cfg.toFlashMap a ≤ cfg.sectorSize := by
  have h := cfg.trailer_fits
  have h1 := cfg.trailerSz_slots
  have h2 := cfg.trailerSz_scratch
  cases a with
  | image0 | image1 => exact h
  | imageScratch =>
    show bootScratchTrailerSz cfg.programUnit ≤ cfg.sectorSize
    omega

theorem trailerSz_le (a : FlashArea) : trailerSz cfg.toFlashMap a ≤ cfg.faSize a :=
  Nat.le_trans (cfg.trailerSz_le_sectorSize a) (cfg.sectorSize_le a)

/-- A trailer has at least its flags and its magic. -/
theorem trailerSz_ge (a : FlashArea) : 32 ≤ trailerSz cfg.toFlashMap a := by
  have h1 := cfg.trailerSz_slots
  have h2 := cfg.trailerSz_scratch
  cases a with
  | image0 | image1 =>
    show 32 ≤ bootSlotsTrailerSz cfg.programUnit
    omega
  | imageScratch =>
    show 32 ≤ bootScratchTrailerSz cfg.programUnit
    omega

/-- Where the status bytes of an area start. -/
def statusOff (a : FlashArea) : Nat := cfg.faSize a - trailerSz cfg.toFlashMap a

theorem sees_bootStatusOff : Sees cfg (bootStatusOff cfg.toFlashMap a) r V (cfg.statusOff a) := by
  rw [bootStatusOff, if_pos (cfg.trailerSz_le a)]
  exact Sees.pure _

theorem writeSz_eq : bootWriteSz cfg.toFlashMap = cfg.programUnit := Nat.max_self _

/-! ## Swap states

The fields of a trailer, as functions of the area. -/

/-- The magic of an area. -/
def magicOf (V : Areas) (a : FlashArea) : BootMagic :=
  bootMagicCode ((V a).get (bootMagicOff cfg.toFlashMap a) bootMagicSz)

/-- The flag `copy_done` of an area. -/
def copyDoneOf (V : Areas) (a : FlashArea) : UInt8 := V a (bootCopyDoneOff cfg.toFlashMap a)

/-- The flag `image_ok` of an area. -/
def imageOkOf (V : Areas) (a : FlashArea) : UInt8 := V a (bootImageOkOff cfg.toFlashMap a)

/-- What `boot_read_swap_state` sees. -/
def swapStateOf (V : Areas) (a : FlashArea) : BootSwapState :=
  ⟨cfg.magicOf V a, if a = .imageScratch then 0 else cfg.copyDoneOf V a, cfg.imageOkOf V a⟩

theorem magicOff_add (a : FlashArea) : bootMagicOff cfg.toFlashMap a + bootMagicSz = cfg.faSize a := by
  have h1 := cfg.trailerSz_le a
  have h2 := cfg.trailerSz_ge a
  unfold bootMagicOff bootMagicSz
  omega

/-- `copy_done` and its padding lie in the area. -/
theorem copyDoneOff_lt (a : FlashArea) : bootCopyDoneOff cfg.toFlashMap a + 8 ≤ cfg.faSize a := by
  have h1 := cfg.trailerSz_le a
  have h2 := cfg.trailerSz_ge a
  unfold bootCopyDoneOff bootMagicSz bootMaxAlign
  omega

/-- `image_ok` and its padding lie in the area. -/
theorem imageOkOff_lt (a : FlashArea) : bootImageOkOff cfg.toFlashMap a + 8 ≤ cfg.faSize a := by
  have h1 := cfg.trailerSz_le a
  have h2 := cfg.trailerSz_ge a
  unfold bootImageOkOff bootMagicSz bootMaxAlign
  omega

end BootConfig

theorem getD_get_one (row : Row) (off : Nat) : (row.get off 1).getD 0 0 = row off := by
  rw [Row.getD_get _ _ _ Nat.zero_lt_one, Nat.add_zero]

/-- **The swap state of an area is read.** -/
theorem sees_bootReadSwapState :
    Sees cfg (bootReadSwapState cfg.toFlashMap a) r V (cfg.swapStateOf V a) := by
  have h1 := cfg.magicOff_add a
  have h2 := cfg.copyDoneOff_lt a
  have h3 := cfg.imageOkOff_lt a
  have hmagic : Sees cfg (flashAreaRead cfg.toFlashMap a (bootMagicOff cfg.toFlashMap a) bootMagicSz) r V
      _ := sees_flashAreaRead (by omega)
  have hok : Sees cfg (flashAreaRead cfg.toFlashMap a (bootImageOkOff cfg.toFlashMap a) 1) r V _ :=
    sees_flashAreaRead (by omega)
  unfold bootReadSwapState
  refine hmagic.bind ?_
  by_cases ha : a = .imageScratch
  · rw [if_pos ha]
    refine (Sees.pure _).bind (hok.bind ?_)
    rw [getD_get_one, BootConfig.swapStateOf, if_pos ha]
    exact Sees.pure _
  · rw [if_neg ha]
    refine (sees_flashAreaRead (by omega)).bind (hok.bind ?_)
    rw [getD_get_one, getD_get_one, BootConfig.swapStateOf, if_neg ha]
    exact Sees.pure _

/-- The type of the swap that the slots ask for. -/
theorem sees_bootSwapType :
    Sees cfg (bootSwapType cfg.toFlashMap) r V
      (swapTypeOf (cfg.swapStateOf V .image0) (cfg.swapStateOf V .image1)) :=
  sees_bootReadSwapState.attempt.bind (sees_bootReadSwapState.attempt.bind (Sees.pure _))

/-! ## Scanning status bytes

The scan as a function of the entries, and what it finds in a counter. -/

/-- The loop of `boot_read_status_bytes` over entries. -/
def scanEntries (entry : Nat → UInt8) : (left i : Nat) → (found : Bool) → Bool × Nat
  | 0, i, found => (found, i)
  | left + 1, i, found =>
    if entry i = 0xff then if found then (found, i) else scanEntries entry left (i + 1) found
    else scanEntries entry left (i + 1) true

/-- The entries of an area. -/
def BootConfig.entry (cfg : BootConfig) (V : Areas) (a : FlashArea) (i : Nat) : UInt8 :=
  V a (cfg.statusOff a + i * cfg.programUnit)

/-- The entries are behind one another, up to the fields of the trailer. -/
theorem entry_lt (cfg : BootConfig) {i : Nat} (hi : i < bootStatusEntries a) :
    cfg.statusOff a + (i + 1) * cfg.programUnit + 32 ≤ cfg.faSize a := by
  have hle := cfg.trailerSz_le a
  have h1 := cfg.trailerSz_slots
  have h2 := cfg.trailerSz_scratch
  have hmul : (i + 1) * cfg.programUnit ≤ bootStatusEntries a * cfg.programUnit :=
    Nat.mul_le_mul_right _ hi
  unfold BootConfig.statusOff
  cases a with
  | image0 | image1 =>
    simp only [trailerSz, flashAreaAlign] at hle ⊢
    simp only [bootStatusEntries, bootStatusStateCount, bootStatusMaxEntries] at hmul
    omega
  | imageScratch =>
    simp only [trailerSz, flashAreaAlign] at hle ⊢
    simp only [bootStatusEntries, bootStatusStateCount] at hmul
    omega

/-- The loop over the flash is the loop over the entries. -/
theorem sees_scanStatus {left i : Nat} {found : Bool} (h : i + left ≤ bootStatusEntries a) :
    Sees cfg (scanStatus cfg.toFlashMap a (cfg.statusOff a) left i found) r V
      (scanEntries (cfg.entry V a) left i found) := by
  induction left generalizing i found with
  | zero => exact Sees.pure _
  | succ left ih =>
    have hlt := entry_lt cfg (a := a) (i := i) (by omega)
    have hpos := cfg.unit_pos
    rw [Nat.succ_mul] at hlt
    have hread : Sees cfg (flashAreaRead cfg.toFlashMap a (cfg.statusOff a + i * cfg.programUnit) 1) r V
        _ := sees_flashAreaRead (by omega)
    rw [scanStatus, scanEntries, cfg.writeSz_eq]
    refine hread.bind ?_
    rw [getD_get_one]
    show Sees cfg (if cfg.entry V a i = 0xff then _ else _) r V _
    by_cases hff : cfg.entry V a i = 0xff
    · rw [if_pos hff, if_pos hff]
      cases found with
      | true => exact Sees.pure _
      | false => exact ih (by omega)
    · rw [if_neg hff, if_neg hff]
      exact ih (by omega)

theorem scanEntries_of_unset {entry : Nat → UInt8} {left i : Nat}
    (h : ∀ j, i ≤ j → j < i + left → entry j = 0xff) :
    scanEntries entry left i false = (false, i + left) := by
  induction left generalizing i with
  | zero => rfl
  | succ left ih =>
    rw [scanEntries, if_pos (h i (Nat.le_refl i) (by omega))]
    show scanEntries entry left (i + 1) false = _
    rw [ih fun j hj hj' => h j (by omega) (by omega)]
    congr 1
    omega

/-- A run of written entries is followed to its end. -/
theorem scanEntries_of_written {entry : Nat → UInt8} {left i k : Nat} {found : Bool}
    (hset : ∀ j, i ≤ j → j ≤ k → entry j ≠ 0xff) (hstop : k + 1 < i + left → entry (k + 1) = 0xff)
    (hik : i ≤ k + 1) (hk : k < i + left) (hfound : i = k + 1 → found = true) :
    scanEntries entry left i found = (true, k + 1) := by
  -- by induction on the entries that are left; at `k + 1` the scan has found something and stops
  induction left generalizing i found with
  | zero =>
    obtain rfl : i = k + 1 := by omega
    rw [scanEntries, hfound rfl]
  | succ left ih =>
    rw [scanEntries]
    by_cases hi : i = k + 1
    · subst hi
      rw [if_pos (hstop (by omega)), hfound rfl]
      rfl
    · rw [if_neg (hset i (Nat.le_refl i) (by omega))]
      exact ih (fun j hj hj' => hset j (by omega) hj') (fun h => hstop (by omega)) (by omega) (by omega)
        fun _ => rfl

/-- The status bytes of an area count to `k`. -/
structure StatusAt (cfg : BootConfig) (V : Areas) (a : FlashArea) (k : Nat) : Prop where
  first : cfg.entry V a 0 = 0xff
  written : ∀ j, 0 < j → j ≤ k → cfg.entry V a j ≠ 0xff
  rest : ∀ j, k < j → j < bootStatusEntries a → cfg.entry V a j = 0xff

theorem bootStatusEntries_pos (a : FlashArea) : 3 ≤ bootStatusEntries a := by
  cases a <;> decide

/-- The counter is read back. -/
theorem StatusAt.sees {k : Nat} (h : StatusAt cfg V a k) (hk : k < bootStatusEntries a) (bs : BootStatus)
    (hbs : bs.idx = 0 ∧ bs.state = 0) :
    Sees cfg (bootReadStatusBytes cfg.toFlashMap a bs) r V
      { bs with idx := k / 3, state := k % 3 } := by
  have hpos := bootStatusEntries_pos a
  unfold bootReadStatusBytes
  refine cfg.sees_bootStatusOff.bind ((sees_scanStatus (Nat.le_of_eq (Nat.zero_add _))).bind ?_)
  by_cases hzero : k = 0
  · -- nothing is written, and `boot_read_status_bytes` leaves index and state at zero
    subst hzero
    have hscan : scanEntries (cfg.entry V a) (bootStatusEntries a) 0 false
        = (false, 0 + bootStatusEntries a) := by
      refine scanEntries_of_unset fun j _ hj => ?_
      rcases Nat.eq_zero_or_pos j with rfl | hj0
      · exact h.first
      · exact h.rest j hj0 (by omega)
    rw [hscan]
    obtain ⟨idx, state, useScratch, swapSize⟩ := bs
    obtain ⟨rfl, rfl⟩ := hbs
    exact Sees.pure _
  · obtain ⟨n, hn⟩ : ∃ n, bootStatusEntries a = n + 1 := ⟨bootStatusEntries a - 1, by omega⟩
    have hscan : scanEntries (cfg.entry V a) (bootStatusEntries a) 0 false = (true, k + 1) := by
      rw [hn, scanEntries, if_pos h.first]
      show scanEntries (cfg.entry V a) n 1 false = _
      exact scanEntries_of_written (fun j hj hj' => h.written j (by omega) hj')
        (fun hlt => h.rest _ (by omega) (by omega)) (by omega) (by omega) (fun hcon => by omega)
    rw [hscan]
    exact Sees.pure _

end Tfm.Boot
