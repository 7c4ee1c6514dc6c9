import TrustedFirmware.Boot.Loader

/-!
# The areas of the flash

A layout of the flash whose areas do not overlap lets the bootloader be seen as a driver of three
rows of bytes. `Wpa` is the precondition `Wpc` for such a driver, and `Sees` says what a function
reads; the functions of `flash_map.c` and `boot_copy_sector` have one rule each:

* `sees_flashAreaRead`: a read in the area sees its bytes;
* `wpa_flashAreaWrite`: an aligned write is torn after any byte;
* `wpa_flashAreaErase`: an erase is torn in front of any sector;
* `wpa_bootCopySector`: a copy is a write of what the source holds, torn after any byte.

Addresses do not wrap and the driver refuses nothing, since every area lies in the flash.
`BootConfig` has the conditions on a layout that this rests on.
-/

namespace Tfm.Boot

open Device LinearFlash Word32
open BlockFlash (Row erasedByte)

/-- A layout in which the bootloader can work. -/
structure BootConfig extends FlashMap where
  sectors : Nat
  scratchSectors : Nat
  unit_ok : programUnit = 1 ∨ programUnit = 2 ∨ programUnit = 4 ∨ programUnit = 8
  sectors_le : sectors ≤ bootMaxImgSectors
  scratch_pos : 0 < scratchSectors
  scratch_le : scratchSectors ≤ sectors
  size_image0 : faSize .image0 = sectors * sectorSize
  size_image1 : faSize .image1 = sectors * sectorSize
  size_scratch : faSize .imageScratch = scratchSectors * sectorSize
  sector_aligned : sectorSize % 8 = 0
  area_aligned : ∀ area, faOff area % sectorSize = 0
  trailer_fits : bootSlotsTrailerSz programUnit ≤ sectorSize
  area_in_flash : ∀ area, faOff area + faSize area < sectorCount * sectorSize
  flash_addressable : sectorCount * sectorSize < 2 ^ 32
  disjoint : ∀ a b, a ≠ b → faOff a + faSize a ≤ faOff b ∨ faOff b + faSize b ≤ faOff a

/-- The bytes of the areas. -/
abbrev Areas : Type := FlashArea → Row

/-- Program bytes of an area. -/
def Areas.put (V : Areas) (a : FlashArea) (off : Nat) (data : List UInt8) : Areas :=
  Function.update V a ((V a).put off data)

/-- Erase bytes of an area. -/
def Areas.erase (V : Areas) (a : FlashArea) (off n : Nat) : Areas :=
  V.put a off (List.replicate n erasedByte)

theorem Areas.put_self (V : Areas) (a : FlashArea) (off : Nat) (data : List UInt8) :
    V.put a off data a = (V a).put off data := Function.update_self ..

theorem Areas.put_of_ne (V : Areas) {a b : FlashArea} (h : b ≠ a) (off : Nat) (data : List UInt8) :
    V.put a off data b = V b := Function.update_of_ne h ..

@[simp] theorem Areas.put_nil (V : Areas) (a : FlashArea) (off : Nat) : V.put a off [] = V := by
  rw [Areas.put, Row.put_nil, Function.update_eq_self]

/-- Two adjacent programs are one. -/
theorem Areas.put_put_adjacent (V : Areas) (a : FlashArea) (off : Nat) (d d' : List UInt8) :
    (V.put a off d).put a (off + d.length) d' = V.put a off (d ++ d') := by
  rw [Areas.put, Areas.put_self, Row.put_put_adjacent, Areas.put, Function.update_idem]
  rfl

namespace BootConfig

variable (cfg : BootConfig)

/-- A sector has room for a trailer, so it is not empty. -/
theorem sectorSize_pos : 0 < cfg.sectorSize := by
  have h := cfg.trailer_fits
  unfold bootSlotsTrailerSz bootMagicSz at h
  omega

theorem sectors_pos : 0 < cfg.sectors := Nat.lt_of_lt_of_le cfg.scratch_pos cfg.scratch_le

/-- Areas start on a sector, and sectors on a double word. -/
theorem faOff_mod (a : FlashArea) : cfg.faOff a % 8 = 0 :=
  Nat.mod_eq_zero_of_dvd (Nat.dvd_trans (Nat.dvd_of_mod_eq_zero cfg.sector_aligned)
    (Nat.dvd_of_mod_eq_zero (cfg.area_aligned a)))

/-- The program unit divides eight. -/
theorem mod_unit {n : Nat} (h : n % 8 = 0) : n % cfg.programUnit = 0 := by
  rcases cfg.unit_ok with hu | hu | hu | hu <;> rw [hu] <;> omega

theorem unit_pos : 0 < cfg.programUnit := by
  rcases cfg.unit_ok with hu | hu | hu | hu <;> omega

/-- The program unit is at most eight bytes. -/
theorem unit_le : cfg.programUnit ≤ 8 := by
  rcases cfg.unit_ok with hu | hu | hu | hu <;> omega

/-- The rows of a flash. -/
def areas (f : Row) : Areas := fun a => window f (cfg.faOff a) (cfg.faSize a)

/-- **A program in one area.** The areas do not overlap, so the others keep their bytes. -/
theorem areas_put (f : Row) {a : FlashArea} {off : Nat} {data : List UInt8}
    (h : off + data.length ≤ cfg.faSize a) :
    cfg.areas (f.put (cfg.faOff a + off) data) = (cfg.areas f).put a off data := by
  funext b
  by_cases hb : b = a
  · subst hb
    rw [Areas.put_self]
    exact window_put h
  · rw [Areas.put_of_ne _ hb]
    refine window_put_disjoint ?_
    rcases cfg.disjoint b a hb with hd | hd
    · exact Or.inr (by omega)
    · exact Or.inl (by omega)

end BootConfig

/-! ## Preconditions over areas

The rules of `Wpc` and of `Observes`, lifted from a flash to its areas. The bytes of the flash that
lie in no area are forgotten. -/

/-- `Wpc` in terms of the areas. -/
def Wpa {α : Type} (cfg : BootConfig) (J : Areas → Prop) (m : BootM α)
    (Q : α → BootLoaderState → Areas → Prop) (r : BootLoaderState) (V : Areas) : Prop :=
  ∀ f, cfg.areas f = V →
    Wpc (device cfg.sectorSize) Torn (fun g => J (cfg.areas g)) m (fun a r' g => Q a r' (cfg.areas g)) r f

/-- `m` reads `a`, and changes nothing. -/
def Sees {α : Type} (cfg : BootConfig) (m : BootM α) (r : BootLoaderState) (V : Areas) (a : α) : Prop :=
  ∀ f, cfg.areas f = V → Observes (device cfg.sectorSize) Torn m r f a

section Rules

variable {α β : Type} {cfg : BootConfig} {J : Areas → Prop} {r : BootLoaderState} {V : Areas} {a : α}

theorem Sees.pure (a : α) : Sees cfg (pure a) r V a := fun _ _ => Observes.pure a

theorem Sees.getMem : Sees cfg M.getMem r V r := fun _ _ => Observes.getMem

theorem Sees.bind {m : BootM α} {k : α → BootM β} {b : β} (hm : Sees cfg m r V a)
    (hk : Sees cfg (k a) r V b) : Sees cfg (m >>= k) r V b :=
  fun f hf => (hm f hf).bind (hk f hf)

/-- A branch in front of the rest of a program. -/
theorem Sees.ite_bind {c : Prop} [Decidable c] {m m' : BootM α} {k : α → BootM β} {b : β}
    (hm : Sees cfg (if c then m else m') r V a) (hk : Sees cfg (k a) r V b) :
    Sees cfg (if c then m >>= k else m' >>= k) r V b := by
  by_cases hc : c
  · rw [if_pos hc] at hm ⊢
    exact hm.bind hk
  · rw [if_neg hc] at hm ⊢
    exact hm.bind hk

theorem Sees.attempt {m : BootM α} (hm : Sees cfg m r V a) : Sees cfg (M.attempt m) r V (.ok a) :=
  fun f hf => (hm f hf).attempt

theorem Sees.orElse {m : BootM α} {e : BootErr} (hm : Sees cfg m r V a) :
    Sees cfg (M.orElse m e) r V a := fun f hf I hI => (hm f hf I hI).orElse

theorem Sees.assertOk {m : BootM α} (hm : Sees cfg m r V a) : Sees cfg (assertOk m) r V a := hm.orElse

theorem Wpa.pure {Q : α → BootLoaderState → Areas → Prop} (hJ : J V) (hQ : Q a r V) :
    Wpa cfg J (pure a) Q r V := by
  intro f hf
  exact Wpc.pure (by rwa [hf]) (by rwa [hf])

theorem Wpa.mono {m : BootM α} {Q Q' : α → BootLoaderState → Areas → Prop} (h : Wpa cfg J m Q r V)
    (hQ : ∀ a r' W, J W → Q a r' W → Q' a r' W) : Wpa cfg J m Q' r V :=
  fun f hf => (h f hf).mono fun a r' _ hJ => hQ a r' _ hJ

/-- The invariant may be weakened. -/
theorem Wpa.weaken {J' : Areas → Prop} {m : BootM α} {Q : α → BootLoaderState → Areas → Prop}
    (h : Wpa cfg J m Q r V) (hJ : ∀ W, J W → J' W) : Wpa cfg J' m Q r V :=
  fun f hf => (h f hf).weaken fun g => hJ (cfg.areas g)

theorem Wpa.bind {m : BootM α} {k : α → BootM β} {Q : β → BootLoaderState → Areas → Prop}
    (h : Wpa cfg J m (fun a r' W => Wpa cfg J (k a) Q r' W) r V) : Wpa cfg J (m >>= k) Q r V :=
  fun f hf => Wpc.bind ((h f hf).mono fun _ _ g _ hk => hk g rfl)

theorem Wpa.modifyMem {h : BootLoaderState → BootLoaderState} {Q : Unit → BootLoaderState → Areas → Prop}
    (hJ : J V) (hQ : Q () (h r) V) : Wpa cfg J (M.modifyMem h) Q r V := by
  intro f hf
  exact Wpc.modifyMem (by rwa [hf]) (by rwa [hf])

theorem Wpa.attempt {m : BootM α} {Q : Except BootErr α → BootLoaderState → Areas → Prop}
    (h : Wpa cfg J m (fun a r' W => Q (.ok a) r' W) r V) : Wpa cfg J (M.attempt m) Q r V :=
  fun f hf => (h f hf).attempt

theorem Wpa.assertOk {m : BootM α} {Q : α → BootLoaderState → Areas → Prop} (h : Wpa cfg J m Q r V) :
    Wpa cfg J (assertOk m) Q r V := fun f hf => (h f hf).orElse

/-- A program that first reads. -/
theorem Sees.wpa_bind {m : BootM α} {k : α → BootM β} {Q : β → BootLoaderState → Areas → Prop}
    (hm : Sees cfg m r V a) (hJ : J V) (hk : Wpa cfg J (k a) Q r V) : Wpa cfg J (m >>= k) Q r V :=
  fun f hf => (hm f hf).wpc_bind (by rwa [hf]) (hk f hf)

theorem Sees.wpa {m : BootM α} {Q : α → BootLoaderState → Areas → Prop} (hm : Sees cfg m r V a)
    (hJ : J V) (hQ : Q a r V) : Wpa cfg J m Q r V := by
  intro f hf
  refine (hm f hf _ (by rwa [hf])).mono fun a' r' g _ h => ?_
  obtain ⟨rfl, rfl, rfl⟩ := h
  rwa [hf]

/-- A precondition over the areas of a flash. -/
theorem Wpa.wpc {m : BootM α} {Q : α → BootLoaderState → Areas → Prop} {f : Row}
    (h : Wpa cfg J m Q r (cfg.areas f)) :
    Wpc (device cfg.sectorSize) Torn (fun g => J (cfg.areas g)) m (fun a r' g => Q a r' (cfg.areas g)) r f :=
  h f rfl

end Rules

/-! ## `flash_map.c`

One rule for each function. The invariant `J` is asked for at every point where power can be lost:
after each byte of a write, and between the sectors of an erase. -/

section FlashMap

variable {cfg : BootConfig} {J : Areas → Prop} {r : BootLoaderState} {V : Areas} {a : FlashArea}

/-- The driver accepts every offset of an area. -/
theorem isRangeValid_of_le (cfg : BootConfig) {off : Nat} (h : off ≤ cfg.faSize a) :
    isRangeValid cfg.toFlashMap (cfg.faOff a + off) = true := by
  have := cfg.area_in_flash a
  simp only [isRangeValid, decide_eq_true_eq]
  omega

/-- The address of an offset in an area does not wrap. -/
theorem add32_faOff (cfg : BootConfig) {off : Nat} (h : off ≤ cfg.faSize a) :
    add32 (cfg.faOff a) off = cfg.faOff a + off := by
  have h1 := cfg.area_in_flash a
  have h2 := cfg.flash_addressable
  exact add32_eq (by omega)

/-- Nor does the end of a range in an area. -/
theorem add32_faOff_add (cfg : BootConfig) {off n : Nat} (h : off + n ≤ cfg.faSize a) :
    add32 (cfg.faOff a + off) n = cfg.faOff a + (off + n) := by
  have h1 := cfg.area_in_flash a
  have h2 := cfg.flash_addressable
  rw [add32_eq (by omega), Nat.add_assoc]

/-- **A read sees the bytes of the area.** -/
theorem sees_flashAreaRead {off n : Nat} (h : off + n ≤ cfg.faSize a) :
    Sees cfg (flashAreaRead cfg.toFlashMap a off n) r V ((V a).get off n) := by
  intro f hf
  rw [flashAreaRead, readData, add32_faOff cfg (by omega), add32_faOff_add cfg h,
    if_pos (isRangeValid_of_le cfg h), ← hf]
  unfold BootConfig.areas
  rw [window_get h]
  exact observes_read _ _ _

/-- **A write may be torn after any byte.** -/
theorem wpa_flashAreaWrite {off : Nat} {data : List UInt8} {Q : Unit → BootLoaderState → Areas → Prop}
    (h : off + data.length ≤ cfg.faSize a) (hoff : off % cfg.programUnit = 0)
    (hlen : data.length % cfg.programUnit = 0) (hJ : ∀ k, J (V.put a off (data.take k)))
    (hQ : Q () r (V.put a off data)) : Wpa cfg J (flashAreaWrite cfg.toFlashMap a off data) Q r V := by
  intro f hf
  have haddr : (cfg.faOff a + off) % cfg.programUnit = 0 := by
    rw [Nat.add_mod, cfg.mod_unit (cfg.faOff_mod a), hoff]
    exact Nat.zero_mod _
  rw [flashAreaWrite, programData, add32_faOff cfg (by omega), add32_faOff_add cfg h, if_pos]
  · refine Wpc.bind (wpc_program (fun k => ?_) (Wpc.pure ?_ ?_))
    · rw [cfg.areas_put f (by rw [List.length_take]; omega), hf]
      exact hJ k
    · -- the write is complete: the last of its prefixes
      have hall := hJ data.length
      rwa [List.take_length, ← hf, ← cfg.areas_put f h] at hall
    · rwa [cfg.areas_put f h, hf]
  · rw [isRangeValid_of_le cfg h, isWriteAligned, isWriteAligned, haddr, hlen]
    rfl

/-- An erase of one sector is not torn. -/
theorem wpa_eraseSector {off : Nat} {Q : Unit → BootLoaderState → Areas → Prop}
    (h : off + cfg.sectorSize ≤ cfg.faSize a) (hoff : off % cfg.sectorSize = 0) (hJ : J V)
    (hJ' : J (V.erase a off cfg.sectorSize)) (hQ : Q () r (V.erase a off cfg.sectorSize)) :
    Wpa cfg J (eraseSector cfg.toFlashMap (cfg.faOff a + off)) Q r V := by
  intro f hf
  have haddr : (cfg.faOff a + off) % cfg.sectorSize = 0 := by
    rw [Nat.add_mod, cfg.area_aligned a, hoff]
    exact Nat.zero_mod _
  have hareas : cfg.areas (eraseRange f (cfg.faOff a + off) cfg.sectorSize)
      = V.erase a off cfg.sectorSize := by
    rw [eraseRange, cfg.areas_put f (by rwa [List.length_replicate]), hf, Areas.erase]
  rw [eraseSector, if_pos]
  · refine Wpc.bind (wpc_eraseSector (by rwa [hf]) (by rwa [hareas]) (Wpc.pure ?_ ?_))
    · rwa [hareas]
    · rwa [hareas]
  · rw [isRangeValid_of_le cfg (by omega), isSectorAligned, haddr]
    rfl

theorem Areas.erase_erase (V : Areas) (a : FlashArea) (off m n : Nat) :
    (V.erase a off m).erase a (off + m) n = V.erase a off (m + n) := by
  have h := Areas.put_put_adjacent V a off (List.replicate m erasedByte) (List.replicate n erasedByte)
  rwa [List.length_replicate, List.replicate_append_replicate] at h

/-- Sectors are erased one after the other. -/
theorem wpa_eraseSectors {off count fuel : Nat} {Q : Unit → BootLoaderState → Areas → Prop}
    (h : off + count * cfg.sectorSize ≤ cfg.faSize a) (hoff : off % cfg.sectorSize = 0)
    (hfuel : count ≤ fuel) (hJ : ∀ j ≤ count, J (V.erase a off (j * cfg.sectorSize)))
    (hQ : Q () r (V.erase a off (count * cfg.sectorSize))) :
    Wpa cfg J (eraseSectors cfg.toFlashMap a off fuel (count * cfg.sectorSize)) Q r V := by
  -- the loop, by induction on the sectors that are left; the areas move on with them, as does the
  -- invariant
  induction count generalizing off fuel V with
  | zero =>
    have h0 := hJ 0 (Nat.le_refl 0)
    simp only [Nat.zero_mul, Areas.erase, List.replicate_zero, Areas.put_nil] at h0 hQ ⊢
    unfold eraseSectors
    exact Wpa.pure h0 hQ
  | succ count ih =>
    obtain ⟨fuel, rfl⟩ : ∃ n, fuel = n + 1 := ⟨fuel - 1, by omega⟩
    have hpos := cfg.sectorSize_pos
    have hsum : (count + 1) * cfg.sectorSize = cfg.sectorSize + count * cfg.sectorSize := by
      rw [Nat.succ_mul, Nat.add_comm]
    -- the loop counts bytes: one turn takes a whole sector from them
    obtain ⟨left, hleft⟩ : ∃ n, (count + 1) * cfg.sectorSize = n + 1 :=
      ⟨(count + 1) * cfg.sectorSize - 1, by omega⟩
    have hnext : left + 1 - cfg.sectorSize = count * cfg.sectorSize := by omega
    have haddr : add32 off cfg.sectorSize = off + cfg.sectorSize := by
      have h1 := cfg.area_in_flash a
      have h2 := cfg.flash_addressable
      exact add32_eq (by omega)
    have h0 := hJ 0 (Nat.zero_le _)
    have h1 := hJ 1 (by omega)
    simp only [Nat.zero_mul, Areas.erase, List.replicate_zero, Areas.put_nil, Nat.one_mul] at h0 h1
    rw [hleft, eraseSectors, add32_faOff cfg (by omega), haddr, hnext]
    refine Wpa.bind (wpa_eraseSector (by omega) hoff h0 h1 (ih (by omega) ?_ (by omega) ?_ ?_))
    · rw [Nat.add_mod_right]
      exact hoff
    · intro j hj
      have hj' := hJ (j + 1) (by omega)
      rwa [Areas.erase_erase, Nat.add_comm cfg.sectorSize, ← Nat.succ_mul]
    · rwa [Areas.erase_erase, ← hsum]

/-- **An erase may be torn in front of any sector.** -/
theorem wpa_flashAreaErase {off count : Nat} {Q : Unit → BootLoaderState → Areas → Prop}
    (h : off + count * cfg.sectorSize ≤ cfg.faSize a) (hoff : off % cfg.sectorSize = 0)
    (hJ : ∀ j ≤ count, J (V.erase a off (j * cfg.sectorSize)))
    (hQ : Q () r (V.erase a off (count * cfg.sectorSize))) :
    Wpa cfg J (flashAreaErase cfg.toFlashMap a off (count * cfg.sectorSize)) Q r V :=
  wpa_eraseSectors h hoff (Nat.le_mul_of_pos_right _ cfg.sectorSize_pos) hJ hQ

end FlashMap

/-! ## Copying

A copy reads a chunk and programs it. Seen from outside, the destination is overwritten from its
first byte to the last, and a cut leaves a prefix of the copy. -/

section Copy

variable {cfg : BootConfig} {J : Areas → Prop} {r : BootLoaderState} {V : Areas} {src dst : FlashArea}

theorem take_get (row : Row) (off n k : Nat) : (row.get off n).take k = row.get off (min k n) := by
  rw [Row.get, Row.get, ← List.map_take, List.take_range]

/-- The areas after some bytes were copied. -/
def Areas.copied (V : Areas) (src dst : FlashArea) (offSrc offDst k : Nat) : Areas :=
  V.put dst offDst ((V src).get offSrc k)

theorem Areas.copied_zero (V : Areas) (src dst : FlashArea) (offSrc offDst : Nat) :
    V.copied src dst offSrc offDst 0 = V := by
  rw [Areas.copied, Row.get_zero, Areas.put_nil]

/-- A program of the next bytes copies more of them. -/
theorem Areas.copied_put (V : Areas) {offSrc offDst c n k : Nat} :
    (V.copied src dst offSrc offDst c).put dst (offDst + c) (((V src).get (offSrc + c) n).take k)
      = V.copied src dst offSrc offDst (c + min k n) := by
  have h := Areas.put_put_adjacent V dst offDst ((V src).get offSrc c)
    (((V src).get (offSrc + c) n).take k)
  rw [Row.length_get, take_get, ← Row.get_add] at h
  rw [Areas.copied, take_get, h, Areas.copied]

/-- The loop of `boot_copy_sector`, with `c` bytes copied so far. -/
theorem wpa_copyChunks {offSrc offDst sz fuel c : Nat} {Q : Unit → BootLoaderState → Areas → Prop}
    (hne : src ≠ dst) (hsrc : offSrc + sz ≤ cfg.faSize src) (hdst : offDst + sz ≤ cfg.faSize dst)
    (hoff : offDst % cfg.programUnit = 0) (hsz : sz % cfg.programUnit = 0)
    (hc : c % cfg.programUnit = 0) (hle : c ≤ sz) (hfuel : sz - c ≤ fuel)
    (hJ : ∀ k ≤ sz, J (V.copied src dst offSrc offDst k))
    (hQ : Q () r (V.copied src dst offSrc offDst sz)) :
    Wpa cfg J (copyChunks cfg.toFlashMap src dst offSrc offDst sz fuel c) Q r
      (V.copied src dst offSrc offDst c) := by
  -- by induction on the fuel; every turn copies at least one byte, so there is enough of it
  induction fuel generalizing c with
  | zero =>
    obtain rfl : c = sz := by omega
    exact Wpa.pure (hJ c (Nat.le_refl c)) hQ
  | succ fuel ih =>
    rw [copyChunks]
    by_cases hlt : c < sz
    · rw [if_pos hlt]
      -- a chunk is the rest of the copy or the whole buffer, and both are made of program units
      have hchunk : min (sz - c) copyBufSz % cfg.programUnit = 0 := by
        rcases Nat.le_total (sz - c) copyBufSz with h | h
        · rw [Nat.min_eq_left h]
          exact Nat.mod_eq_zero_of_dvd (Nat.dvd_sub (Nat.dvd_of_mod_eq_zero hsz)
            (Nat.dvd_of_mod_eq_zero hc))
        · rw [Nat.min_eq_right h]
          exact cfg.mod_unit rfl
      have hpos : 0 < min (sz - c) copyBufSz := by
        unfold copyBufSz
        omega
      have hmin := Nat.min_le_left (sz - c) copyBufSz
      generalize min (sz - c) copyBufSz = n at hchunk hpos hmin ⊢
      -- the source is another area, and as it was
      have hread : Sees cfg (flashAreaRead cfg.toFlashMap src (offSrc + c) n) r
          (V.copied src dst offSrc offDst c) ((V src).get (offSrc + c) n) := by
        have h : Sees cfg (flashAreaRead cfg.toFlashMap src (offSrc + c) n) r
            (V.copied src dst offSrc offDst c)
            ((V.copied src dst offSrc offDst c src).get (offSrc + c) n) := sees_flashAreaRead (by omega)
        rwa [Areas.copied, Areas.put_of_ne _ hne] at h
      refine hread.wpa_bind (hJ c hle) (Wpa.bind (wpa_flashAreaWrite ?_ ?_ ?_ (fun k => ?_) ?_))
      · rw [Row.length_get]
        omega
      · rw [Nat.add_mod, hoff, hc]
        exact Nat.zero_mod _
      · rw [Row.length_get]
        exact hchunk
      · rw [Areas.copied_put]
        exact hJ _ (by omega)
      · have hput : (V.copied src dst offSrc offDst c).put dst (offDst + c)
            (((V src).get (offSrc + c) n).take n) = V.copied src dst offSrc offDst (c + min n n) :=
          Areas.copied_put V
        rw [Nat.min_self, List.take_of_length_le (Nat.le_of_eq (Row.length_get ..))] at hput
        rw [hput]
        refine ih ?_ (by omega) (by omega)
        rw [Nat.add_mod, hc, hchunk]
        exact Nat.zero_mod _
    · rw [if_neg hlt]
      obtain rfl : c = sz := by omega
      exact Wpa.pure (hJ c (Nat.le_refl c)) hQ

/-- Bytes are copied from the first to the last. -/
theorem wpa_bootCopySector {offSrc offDst sz : Nat} {Q : Unit → BootLoaderState → Areas → Prop}
    (hne : src ≠ dst) (hsrc : offSrc + sz ≤ cfg.faSize src) (hdst : offDst + sz ≤ cfg.faSize dst)
    (hoff : offDst % cfg.programUnit = 0) (hsz : sz % cfg.programUnit = 0)
    (hJ : ∀ k ≤ sz, J (V.copied src dst offSrc offDst k))
    (hQ : Q () r (V.copied src dst offSrc offDst sz)) :
    Wpa cfg J (bootCopySector cfg.toFlashMap src dst offSrc offDst sz) Q r V := by
  have h := wpa_copyChunks (c := 0) (V := V) hne hsrc hdst hoff hsz (Nat.zero_mod _) (Nat.zero_le _)
    (Nat.le_refl _) hJ hQ
  rwa [Areas.copied_zero] at h

end Copy

-- From here on the rules are used, and never the programs that they are about.
attribute [irreducible] Wpa Sees

end Tfm.Boot
