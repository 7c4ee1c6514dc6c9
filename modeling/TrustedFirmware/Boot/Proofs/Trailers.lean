import TrustedFirmware.Boot.Proofs.Status

/-!
# Writing trailers

Rules for the functions that write into a trailer, and what such a write does to the fields. The
trailer of an area ends at the last byte of the area and is, from its start:

* the status bytes, one program unit for each step of the swap (`bootWriteStatus`);
* the swap size, in the trailers that hold one (`bootWriteSwapSize`);
* the flags `copy_done` and `image_ok` (`bootWriteFlag`);
* the magic, 16 bytes (`bootWriteMagic`).

Each writer has a rule `wpa_…`: its write lies in the area and is made of whole program units, so
that the driver accepts it, and a power cut leaves a prefix of the bytes. What those prefixes mean
is said field by field: `ChangedIn` bounds the bytes that differ, `FieldsEq` and `TrailerEq` are
what the fields depend on, and `StatusAt.advance` is the step of the status counter, which a torn
write takes as a whole or not at all.
-/

namespace Tfm.Boot

open Device LinearFlash Word32
open BlockFlash (Row erasedByte)

variable {cfg : BootConfig} {J : Areas → Prop} {r : BootLoaderState} {V W : Areas} {a b : FlashArea}

/-! ## Bytes

A write into an area seen byte by byte: outside of the range every byte is as before, inside it is
the byte that was written. -/

theorem Areas.put_apply_out {off x : Nat} {data : List UInt8} (h : x < off ∨ off + data.length ≤ x) :
    V.put a off data a x = V a x := by
  rw [Areas.put_self]
  rcases h with h | h
  · exact Row.put_of_lt h
  · exact Row.put_of_ge h

theorem Areas.put_apply_in {off x : Nat} {data : List UInt8} (h : off ≤ x) (h' : x < off + data.length) :
    V.put a off data a x = data.getD (x - off) 0 := by
  rw [Areas.put_self]
  exact Row.put_of_mem h h'

theorem Areas.erase_apply_out {off x n : Nat} (h : x < off ∨ off + n ≤ x) :
    V.erase a off n a x = V a x :=
  Areas.put_apply_out (by rwa [List.length_replicate])

theorem Areas.erase_apply_in {off x n : Nat} (h : off ≤ x) (h' : x < off + n) :
    V.erase a off n a x = 0xff := by
  rw [Areas.erase, Areas.put_apply_in h (by rwa [List.length_replicate]), List.getD_eq_getElem?_getD,
    List.getElem?_replicate, if_pos (by omega)]
  rfl

/-- An erase in one area leaves the others alone. -/
theorem Areas.erase_of_ne (V : Areas) (h : b ≠ a) (off n : Nat) : V.erase a off n b = V b :=
  Areas.put_of_ne V h off _

/-! ## Writes

The driver refuses a write that leaves its area or that is not made of whole program units. The
offsets are counted from the end of an area; its size is a multiple of eight, which every program
unit divides, and the fields are padded to eight bytes, so that each of them starts and ends on a
unit. -/

namespace BootConfig

variable (cfg)

/-- Areas are made of whole sectors, and sectors of whole double words. -/
theorem faSize_mod (a : FlashArea) : cfg.faSize a % 8 = 0 := by
  have h := Nat.dvd_of_mod_eq_zero cfg.sector_aligned
  refine Nat.mod_eq_zero_of_dvd ?_
  cases a with
  | image0 =>
    rw [cfg.size_image0]
    exact Nat.dvd_mul_left_of_dvd h _
  | image1 =>
    rw [cfg.size_image1]
    exact Nat.dvd_mul_left_of_dvd h _
  | imageScratch =>
    rw [cfg.size_scratch]
    exact Nat.dvd_mul_left_of_dvd h _

/-- The trailer is made of whole program units. -/
theorem trailerSz_mod (a : FlashArea) : trailerSz cfg.toFlashMap a % cfg.programUnit = 0 := by
  have h1 := cfg.trailerSz_slots
  have h2 := cfg.trailerSz_scratch
  cases a with
  | image0 | image1 =>
    show bootSlotsTrailerSz cfg.programUnit % _ = 0
    rw [h1, Nat.mul_comm, Nat.mul_add_mod]
    exact cfg.mod_unit rfl
  | imageScratch =>
    show bootScratchTrailerSz cfg.programUnit % _ = 0
    rw [h2, Nat.mul_comm, Nat.mul_add_mod]
    exact cfg.mod_unit rfl

/-- The status bytes start on a program unit. -/
theorem statusOff_mod (a : FlashArea) : cfg.statusOff a % cfg.programUnit = 0 :=
  Nat.mod_eq_zero_of_dvd (Nat.dvd_sub (Nat.dvd_of_mod_eq_zero (cfg.mod_unit (cfg.faSize_mod a)))
    (Nat.dvd_of_mod_eq_zero (cfg.trailerSz_mod a)))

end BootConfig

/-- A buffer that is padded to the alignment has its length. -/
theorem length_alignedBuf {bytes : List UInt8} {align : Nat} (h : bytes.length ≤ 8) (h' : align ≤ 8) :
    (alignedBuf bytes align).length = align := by
  simp only [alignedBuf, bootMaxAlign, List.length_take, List.length_append, List.length_replicate]
  omega

/-- **The magic is one aligned write.** A cut leaves any prefix of it. -/
theorem wpa_bootWriteMagic {Q : Unit → BootLoaderState → Areas → Prop}
    (hJ : ∀ k, J (V.put a (bootMagicOff cfg.toFlashMap a) (bootImgMagic.take k)))
    (hQ : Q () r (V.put a (bootMagicOff cfg.toFlashMap a) bootImgMagic)) :
    Wpa cfg J (bootWriteMagic cfg.toFlashMap a) Q r V := by
  have h := cfg.magicOff_add a
  refine wpa_flashAreaWrite (Nat.le_of_eq h) (cfg.mod_unit ?_) (cfg.mod_unit rfl) hJ hQ
  have hsize := cfg.faSize_mod a
  unfold bootMagicSz at h
  omega

/-- The bytes of a flag. -/
def flagBuf (cfg : BootConfig) : List UInt8 := alignedBuf [bootFlagSet] cfg.programUnit

theorem length_flagBuf (cfg : BootConfig) : (flagBuf cfg).length = cfg.programUnit :=
  length_alignedBuf (by decide) cfg.unit_le

/-- A flag is one aligned write. -/
theorem wpa_bootWriteFlag {off : Nat} {Q : Unit → BootLoaderState → Areas → Prop}
    (hoff : off + 8 ≤ cfg.faSize a) (hmod : off % 8 = 0)
    (hJ : ∀ k, J (V.put a off ((flagBuf cfg).take k))) (hQ : Q () r (V.put a off (flagBuf cfg))) :
    Wpa cfg J (bootWriteFlag cfg.toFlashMap a off) Q r V := by
  have hlen := length_flagBuf cfg
  have hle := cfg.unit_le
  rw [bootWriteFlag, if_pos (show flashAreaAlign cfg.toFlashMap a ≤ bootMaxAlign from hle)]
  refine wpa_flashAreaWrite ?_ (cfg.mod_unit hmod) ?_ hJ hQ
  · show off + (flagBuf cfg).length ≤ _
    omega
  · show (flagBuf cfg).length % _ = 0
    rw [hlen, Nat.mod_self]

theorem imageOkOff_mod (cfg : BootConfig) (a : FlashArea) : bootImageOkOff cfg.toFlashMap a % 8 = 0 := by
  have h1 := cfg.faSize_mod a
  unfold bootImageOkOff bootMagicSz bootMaxAlign
  omega

theorem copyDoneOff_mod (cfg : BootConfig) (a : FlashArea) : bootCopyDoneOff cfg.toFlashMap a % 8 = 0 := by
  have h1 := cfg.faSize_mod a
  unfold bootCopyDoneOff bootMagicSz bootMaxAlign
  omega

/-- The bytes of a swap size. -/
def sizeBuf (cfg : BootConfig) (swapSize : Nat) : List UInt8 :=
  alignedBuf (le32 swapSize) (max 4 cfg.programUnit)

/-- The size takes four bytes, or one program unit if that is more. -/
theorem length_sizeBuf (cfg : BootConfig) (swapSize : Nat) :
    (sizeBuf cfg swapSize).length = max 4 cfg.programUnit := by
  have hle := cfg.unit_le
  exact length_alignedBuf (by rw [length_le32]; decide) (by omega)

/-- The swap size and its padding lie in the area. -/
theorem swapSizeOff_lt (cfg : BootConfig) (a : FlashArea) :
    bootSwapSizeOff cfg.toFlashMap a + 8 ≤ cfg.faSize a := by
  have h1 := cfg.trailerSz_le a
  have h2 := cfg.trailerSz_ge a
  unfold bootSwapSizeOff bootMagicSz bootMaxAlign
  split <;> omega

theorem wpa_bootWriteSwapSize {swapSize : Nat} {Q : Unit → BootLoaderState → Areas → Prop}
    (hJ : ∀ k, J (V.put a (bootSwapSizeOff cfg.toFlashMap a) ((sizeBuf cfg swapSize).take k)))
    (hQ : Q () r (V.put a (bootSwapSizeOff cfg.toFlashMap a) (sizeBuf cfg swapSize))) :
    Wpa cfg J (bootWriteSwapSize cfg.toFlashMap a swapSize) Q r V := by
  have hlen := length_sizeBuf cfg swapSize
  have hle := cfg.unit_le
  have hlt := swapSizeOff_lt cfg a
  have hsize := cfg.faSize_mod a
  rw [bootWriteSwapSize, if_pos (show flashAreaAlign cfg.toFlashMap a ≤ bootMaxAlign from hle)]
  refine wpa_flashAreaWrite ?_ (cfg.mod_unit ?_) ?_ hJ hQ
  · show _ + (sizeBuf cfg swapSize).length ≤ _
    omega
  · -- the scratch trailer has no `copy_done`, so that its swap size sits eight bytes higher
    unfold bootSwapSizeOff bootMagicSz bootMaxAlign
    split <;> omega
  · show (sizeBuf cfg swapSize).length % _ = 0
    rw [hlen]
    rcases cfg.unit_ok with hu | hu | hu | hu <;> rw [hu] <;> rfl

/-! ## Status bytes

Entry `3 * idx + state` records that state `state` of range `idx` is reached, one program unit for
each entry. -/

/-- The bytes of a status entry. -/
def stateBuf (cfg : BootConfig) (state : Nat) : List UInt8 := alignedBuf [UInt8.ofNat state] cfg.programUnit

theorem length_stateBuf (cfg : BootConfig) (state : Nat) : (stateBuf cfg state).length = cfg.programUnit :=
  length_alignedBuf (by simp) cfg.unit_le

/-- An entry is one aligned write. -/
theorem wpa_bootWriteStatus {bs : BootStatus} {k : Nat} {Q : Unit → BootLoaderState → Areas → Prop}
    (hk : 3 * bs.idx + bs.state = k) (hlt : k < bootStatusEntries bs.area)
    (hJ : ∀ t, J (V.put bs.area (cfg.statusOff bs.area + k * cfg.programUnit)
      ((stateBuf cfg bs.state).take t)))
    (hQ : Q () r (V.put bs.area (cfg.statusOff bs.area + k * cfg.programUnit) (stateBuf cfg bs.state))) :
    Wpa cfg J (bootWriteStatus cfg.toFlashMap bs) Q r V := by
  have hoff : bootStatusInternalOff bs.idx bs.state cfg.programUnit = k * cfg.programUnit := by
    rw [← hk, bootStatusInternalOff, bootStatusStateCount, Nat.add_mul, Nat.mul_comm cfg.programUnit 3,
      ← Nat.mul_assoc, Nat.mul_comm bs.idx 3]
  have hlen := length_stateBuf cfg bs.state
  have hend := entry_lt cfg hlt
  rw [Nat.succ_mul] at hend
  -- the offset is looked up before anything is written, so a cut there finds the old contents
  have hJ0 : J V := by
    have h := hJ 0
    rwa [List.take_zero, Areas.put_nil] at h
  unfold bootWriteStatus
  refine cfg.sees_bootStatusOff.wpa_bind hJ0 ?_
  rw [cfg.writeSz_eq, hoff]
  refine wpa_flashAreaWrite ?_ ?_ ?_ hJ hQ
  · show _ + (stateBuf cfg bs.state).length ≤ _
    omega
  · rw [Nat.add_mod, cfg.statusOff_mod, Nat.mul_mod_left]
    exact Nat.zero_mod _
  · show (stateBuf cfg bs.state).length % _ = 0
    rw [hlen, Nat.mod_self]

/-! ## What a field depends on

A write changes one range of one area. Whatever reads bytes outside of that range sees no
difference: the fields depend on the bytes from the swap size on (`FieldsEq`), the status counter on
those in front of it, and the whole trailer on both (`TrailerEq`). -/

/-- Only bytes of one range of an area differ. -/
def ChangedIn (a : FlashArea) (lo hi : Nat) (V W : Areas) : Prop :=
  ∀ b x, b ≠ a ∨ x < lo ∨ hi ≤ x → W b x = V b x

/-- A write changes only the range it covers. -/
theorem changedIn_put {off lo hi : Nat} {data : List UInt8} (hlo : lo ≤ off)
    (hhi : off + data.length ≤ hi) : ChangedIn a lo hi V (V.put a off data) := by
  intro b x h
  by_cases hb : b = a
  · subst hb
    refine Areas.put_apply_out ?_
    rcases h with h | h | h
    · exact absurd rfl h
    · exact Or.inl (by omega)
    · exact Or.inr (by omega)
  · rw [Areas.put_of_ne _ hb]

/-- An erase changes only the range it covers. -/
theorem changedIn_erase {off n lo hi : Nat} (hlo : lo ≤ off) (hhi : off + n ≤ hi) :
    ChangedIn a lo hi V (V.erase a off n) :=
  changedIn_put hlo (by rwa [List.length_replicate])

/-- A copy changes only the range that it is copied to. -/
theorem changedIn_copied {src : FlashArea} {offSrc off k lo hi : Nat} (hlo : lo ≤ off)
    (hhi : off + k ≤ hi) : ChangedIn a lo hi V (V.copied src a offSrc off k) :=
  changedIn_put hlo (by rwa [Row.length_get])

theorem ChangedIn.refl (a : FlashArea) (lo hi : Nat) (V : Areas) : ChangedIn a lo hi V V :=
  fun _ _ _ => rfl

theorem ChangedIn.trans {lo hi : Nat} {U : Areas} (h : ChangedIn a lo hi U V) (h' : ChangedIn a lo hi V W) :
    ChangedIn a lo hi U W := fun b x hx => (h' b x hx).trans (h b x hx)

/-- A change of a range is a change of every larger one. -/
theorem ChangedIn.mono {lo hi lo' hi' : Nat} (h : ChangedIn a lo hi V W) (hlo : lo' ≤ lo)
    (hhi : hi ≤ hi') : ChangedIn a lo' hi' V W := by
  intro b x hx
  refine h b x ?_
  rcases hx with hx | hx | hx
  · exact Or.inl hx
  · exact Or.inr (Or.inl (by omega))
  · exact Or.inr (Or.inr (by omega))

/-- The fields behind the status bytes. -/
def FieldsEq (cfg : BootConfig) (a : FlashArea) (V W : Areas) : Prop :=
  ∀ x, bootSwapSizeOff cfg.toFlashMap a ≤ x → x < cfg.faSize a → V a x = W a x

/-- The same trailer. -/
def TrailerEq (cfg : BootConfig) (a : FlashArea) (V W : Areas) : Prop :=
  ∀ x, cfg.statusOff a ≤ x → x < cfg.faSize a → V a x = W a x

/-- The swap size that a trailer holds. -/
def BootConfig.swapSizeOf (cfg : BootConfig) (V : Areas) (a : FlashArea) : Nat :=
  ofLe32 ((V a).get (bootSwapSizeOff cfg.toFlashMap a) 4) 0

/-- The swap size lies in front of both flags and the magic. -/
theorem swapSizeOff_le (cfg : BootConfig) (a : FlashArea) :
    bootSwapSizeOff cfg.toFlashMap a ≤ cfg.faSize a - 32 := by
  cases a with
  | image0 =>
    show cfg.faSize _ - 16 - 24 ≤ _
    omega
  | image1 =>
    show cfg.faSize _ - 16 - 24 ≤ _
    omega
  | imageScratch =>
    show cfg.faSize _ - 16 - 16 ≤ _
    omega

theorem faSize_ge (cfg : BootConfig) (a : FlashArea) : 32 ≤ cfg.faSize a :=
  Nat.le_trans (cfg.trailerSz_ge a) (cfg.trailerSz_le a)

section FieldsEq

variable (h : FieldsEq cfg a V W)
include h

theorem FieldsEq.magicOf : cfg.magicOf V a = cfg.magicOf W a := by
  have h1 := swapSizeOff_le cfg a
  have h2 := faSize_ge cfg a
  have h3 := cfg.magicOff_add a
  have hget : (V a).get (bootMagicOff cfg.toFlashMap a) bootMagicSz
      = (W a).get (bootMagicOff cfg.toFlashMap a) bootMagicSz := by
    refine Row.get_congr fun i hi => h _ ?_ (by omega)
    unfold bootMagicSz at h3
    omega
  unfold BootConfig.magicOf
  rw [hget]

theorem FieldsEq.copyDoneOf : cfg.copyDoneOf V a = cfg.copyDoneOf W a := by
  have h1 := swapSizeOff_le cfg a
  have h2 := faSize_ge cfg a
  have h3 := cfg.copyDoneOff_lt a
  refine h _ ?_ (by omega)
  unfold bootCopyDoneOff bootMagicSz bootMaxAlign
  omega

theorem FieldsEq.imageOkOf : cfg.imageOkOf V a = cfg.imageOkOf W a := by
  have h1 := swapSizeOff_le cfg a
  have h2 := faSize_ge cfg a
  have h3 := cfg.imageOkOff_lt a
  refine h _ ?_ (by omega)
  unfold bootImageOkOff bootMagicSz bootMaxAlign
  omega

/-- The swap size is one of the fields. -/
theorem FieldsEq.swapSizeOf : cfg.swapSizeOf V a = cfg.swapSizeOf W a := by
  have h2 := swapSizeOff_lt cfg a
  have hget : (V a).get (bootSwapSizeOff cfg.toFlashMap a) 4
      = (W a).get (bootSwapSizeOff cfg.toFlashMap a) 4 :=
    Row.get_congr fun i hi => h _ (by omega) (by omega)
  unfold BootConfig.swapSizeOf
  rw [hget]

end FieldsEq

/-- The fields come behind the status bytes. -/
theorem statusOff_add_le (cfg : BootConfig) (a : FlashArea) :
    cfg.statusOff a + bootStatusEntries a * cfg.programUnit ≤ bootSwapSizeOff cfg.toFlashMap a := by
  have h1 := cfg.trailerSz_slots
  have h2 := cfg.trailerSz_scratch
  have h3 := cfg.trailerSz_le a
  cases a with
  | image0 =>
    change bootSlotsTrailerSz cfg.programUnit ≤ _ at h3
    show cfg.faSize _ - bootSlotsTrailerSz cfg.programUnit + 768 * cfg.programUnit ≤ cfg.faSize _ - 16 - 24
    omega
  | image1 =>
    change bootSlotsTrailerSz cfg.programUnit ≤ _ at h3
    show cfg.faSize _ - bootSlotsTrailerSz cfg.programUnit + 768 * cfg.programUnit ≤ cfg.faSize _ - 16 - 24
    omega
  | imageScratch =>
    change bootScratchTrailerSz cfg.programUnit ≤ _ at h3
    show cfg.faSize _ - bootScratchTrailerSz cfg.programUnit + 3 * cfg.programUnit ≤ cfg.faSize _ - 16 - 16
    omega

/-- The fields are a part of the trailer. -/
theorem TrailerEq.fields (h : TrailerEq cfg a V W) : FieldsEq cfg a V W := by
  have hle := statusOff_add_le cfg a
  exact fun x hx hx' => h x (by omega) hx'

/-- So are the status bytes. -/
theorem TrailerEq.entry (h : TrailerEq cfg a V W) {i : Nat} (hi : i < bootStatusEntries a) :
    cfg.entry V a i = cfg.entry W a i := by
  have hlt := entry_lt cfg hi
  have hpos := cfg.unit_pos
  rw [Nat.succ_mul] at hlt
  exact h _ (by omega) (by omega)

theorem StatusAt.congr {k : Nat} (hV : StatusAt cfg V a k) (hk : k < bootStatusEntries a)
    (h : ∀ i < bootStatusEntries a, cfg.entry W a i = cfg.entry V a i) : StatusAt cfg W a k := by
  have hpos := bootStatusEntries_pos a
  refine ⟨?_, fun j hj hj' => ?_, fun j hj hj' => ?_⟩
  · rw [h 0 (by omega)]
    exact hV.first
  · rw [h j (by omega)]
    exact hV.written j hj hj'
  · rw [h j hj']
    exact hV.rest j hj hj'

theorem TrailerEq.statusAt (h : TrailerEq cfg a V W) {k : Nat} (hk : k < bootStatusEntries a)
    (hV : StatusAt cfg V a k) : StatusAt cfg W a k := hV.congr hk fun _ hi => (h.entry hi).symm

/-- A change in front of the trailer, or in another area, keeps the trailer. -/
theorem ChangedIn.trailerEq {lo hi : Nat} (h : ChangedIn a lo hi V W)
    (hb : b ≠ a ∨ hi ≤ cfg.statusOff b) : TrailerEq cfg b V W := by
  intro x hx _
  refine (h b x ?_).symm
  rcases hb with hb | hb
  · exact Or.inl hb
  · exact Or.inr (Or.inr (by omega))

/-- A change of status bytes keeps the fields. -/
theorem ChangedIn.fieldsEq {lo hi : Nat} (h : ChangedIn a lo hi V W)
    (hb : b ≠ a ∨ hi ≤ bootSwapSizeOff cfg.toFlashMap b) : FieldsEq cfg b V W := by
  intro x hx _
  refine (h b x ?_).symm
  rcases hb with hb | hb
  · exact Or.inl hb
  · exact Or.inr (Or.inr (by omega))

/-- A change of fields keeps the status bytes. -/
theorem ChangedIn.statusAt {lo hi k : Nat} (h : ChangedIn a lo hi V W)
    (hlo : bootSwapSizeOff cfg.toFlashMap a ≤ lo) (hk : k < bootStatusEntries a)
    (hV : StatusAt cfg V a k) : StatusAt cfg W a k := by
  have hle := statusOff_add_le cfg a
  have hpos := cfg.unit_pos
  refine hV.congr hk fun i hi => h a _ (Or.inr (Or.inl ?_))
  have hmul : (i + 1) * cfg.programUnit ≤ bootStatusEntries a * cfg.programUnit :=
    Nat.mul_le_mul_right _ hi
  rw [Nat.succ_mul] at hmul
  omega

/-! ## Counting

The status counts the swap steps that are done. An entry is written by one program call, and its
first byte is the one that tells a written entry from an erased one: once a single byte has arrived,
the entry counts. -/

/-- The first byte of an entry is its state. -/
theorem stateBuf_head (cfg : BootConfig) {state t : Nat} (ht : t ≠ 0) :
    ((stateBuf cfg state).take t).getD 0 0 = UInt8.ofNat state := by
  have hpos := cfg.unit_pos
  unfold stateBuf alignedBuf
  obtain ⟨u, hu⟩ : ∃ u, cfg.programUnit = u + 1 := ⟨cfg.programUnit - 1, by omega⟩
  obtain ⟨t, rfl⟩ : ∃ u, t = u + 1 := ⟨t - 1, by omega⟩
  rw [hu]
  rfl

/-- The next entry is written, or nothing is: the byte that counts comes first. -/
theorem StatusAt.advance {k state t : Nat} (h : StatusAt cfg V a k) (hstate : state ≤ 2) (ht : t ≠ 0) :
    StatusAt cfg (V.put a (cfg.statusOff a + (k + 1) * cfg.programUnit) ((stateBuf cfg state).take t)) a
      (k + 1) := by
  have hpos := cfg.unit_pos
  have hlen : ((stateBuf cfg state).take t).length ≤ cfg.programUnit := by
    rw [List.length_take, length_stateBuf]
    exact Nat.min_le_right _ _
  have hne : 0 < ((stateBuf cfg state).take t).length := by
    rw [List.length_take, length_stateBuf]
    omega
  -- entries do not overlap, so the write reaches none of the others
  have hother : ∀ j, j ≠ k + 1 → cfg.entry (V.put a (cfg.statusOff a + (k + 1) * cfg.programUnit)
      ((stateBuf cfg state).take t)) a j = cfg.entry V a j := by
    intro j hj
    refine Areas.put_apply_out ?_
    rcases Nat.lt_or_gt_of_ne hj with hlt | hgt
    · have hmul : (j + 1) * cfg.programUnit ≤ (k + 1) * cfg.programUnit := Nat.mul_le_mul_right _ hlt
      rw [Nat.succ_mul j] at hmul
      exact Or.inl (by omega)
    · have hmul : (k + 1 + 1) * cfg.programUnit ≤ j * cfg.programUnit := Nat.mul_le_mul_right _ hgt
      rw [Nat.succ_mul (k + 1)] at hmul
      exact Or.inr (by omega)
  refine ⟨?_, fun j hj hj' => ?_, fun j hj hj' => ?_⟩
  · rw [hother 0 (Nat.succ_ne_zero k).symm]
    exact h.first
  · -- the written entries are the old ones and the new one, which is not `0xff` as its state is at
    -- most 2
    by_cases hlast : j = k + 1
    · subst hlast
      rw [BootConfig.entry, Areas.put_apply_in (Nat.le_refl _) (by omega), Nat.sub_self,
        stateBuf_head cfg ht]
      obtain rfl | rfl | rfl : state = 0 ∨ state = 1 ∨ state = 2 := by omega
      all_goals decide
    · rw [hother j hlast]
      exact h.written j hj (by omega)
  · rw [hother j (by omega)]
    exact h.rest j (by omega) hj'

/-! ## Magics

A magic is good when all of its 16 bytes are in place. A torn write of it is never taken for a good
one, since its last byte is not erased. -/

theorem bootMagicCode_eq_good {magic : List UInt8} : bootMagicCode magic = .good ↔ magic = bootImgMagic := by
  unfold bootMagicCode
  split
  · simp [*]
  · split <;> simp [*]

/-- A magic that is not complete ends with an erased byte. -/
theorem magicOf_ne_good_of_last (h : V a (cfg.faSize a - 1) = 0xff) : cfg.magicOf V a ≠ .good := by
  have hadd := cfg.magicOff_add a
  intro hgood
  have hbytes := bootMagicCode_eq_good.mp hgood
  -- the last byte of the magic is not `0xff`
  have hlast := congrArg (fun l => l.getD 15 0) hbytes
  simp only [Row.getD_get (V a) (bootMagicOff cfg.toFlashMap a) bootMagicSz
    (show 15 < bootMagicSz by decide)] at hlast
  have hoff : bootMagicOff cfg.toFlashMap a + 15 = cfg.faSize a - 1 := by
    unfold bootMagicSz at hadd
    omega
  rw [hoff, h] at hlast
  exact absurd hlast (by decide)

theorem magicOf_put_magic : cfg.magicOf (V.put a (bootMagicOff cfg.toFlashMap a) bootImgMagic) a = .good := by
  have hlen : bootImgMagic.length = bootMagicSz := rfl
  unfold BootConfig.magicOf
  rw [Areas.put_self, Row.get_put_self hlen]
  rfl

/-- An erased magic. -/
theorem magicOf_of_erased (h : ∀ x, bootMagicOff cfg.toFlashMap a ≤ x → x < cfg.faSize a → V a x = 0xff) :
    cfg.magicOf V a = .unset := by
  have hadd := cfg.magicOff_add a
  have hbytes : (V a).get (bootMagicOff cfg.toFlashMap a) bootMagicSz = List.replicate bootMagicSz 0xff := by
    refine Row.get_eq_of_getD List.length_replicate fun k hk => ?_
    rw [h _ (by omega) (by omega), List.getD_eq_getElem?_getD, List.getElem?_replicate, if_pos hk]
    rfl
  unfold BootConfig.magicOf
  rw [hbytes]
  rfl

/-- An area has a good magic when its last bytes are the magic. -/
theorem magicOf_eq_good : cfg.magicOf V a = .good
    ↔ (V a).get (bootMagicOff cfg.toFlashMap a) bootMagicSz = bootImgMagic := bootMagicCode_eq_good

/-- The size is read from slot 0 or, if that has no trailer, from scratch. -/
theorem sees_bootReadSwapSize {n : Nat}
    (h0 : cfg.magicOf V .image0 = .good → cfg.swapSizeOf V .image0 = n)
    (hs : cfg.magicOf V .image0 ≠ .good →
      cfg.magicOf V .imageScratch = .good ∧ cfg.swapSizeOf V .imageScratch = n) :
    Sees cfg (bootReadSwapSize cfg.toFlashMap) r V n := by
  have hmagic : ∀ a, Sees cfg (flashAreaRead cfg.toFlashMap a (bootMagicOff cfg.toFlashMap a) bootMagicSz) r V
      ((V a).get (bootMagicOff cfg.toFlashMap a) bootMagicSz) := fun a =>
    sees_flashAreaRead (Nat.le_of_eq (cfg.magicOff_add a))
  have hsize : ∀ a, cfg.swapSizeOf V a = n → Sees cfg (flashAreaRead cfg.toFlashMap a
      (bootSwapSizeOff cfg.toFlashMap a) 4 >>= fun swapSize => pure (ofLe32 swapSize 0)) r V n := by
    intro a ha
    have hlt := swapSizeOff_lt cfg a
    rw [← ha]
    exact (sees_flashAreaRead (by omega)).bind (Sees.pure _)
  -- slot 0 is asked first, scratch only when slot 0 has no magic
  unfold bootReadSwapSize
  refine (hmagic .image0).bind ?_
  by_cases hgood : cfg.magicOf V .image0 = .good
  · rw [if_pos (magicOf_eq_good.mp hgood)]
    exact (Sees.pure _).bind (hsize _ (h0 hgood))
  · obtain ⟨hscratch, hn⟩ := hs hgood
    rw [if_neg fun h => hgood (magicOf_eq_good.mpr h)]
    refine (hmagic .imageScratch).bind ?_
    rw [if_pos (magicOf_eq_good.mp hscratch)]
    exact (Sees.pure _).bind (hsize _ hn)

end Tfm.Boot
