import TrustedFirmware.Boot.Image
import TrustedFirmware.Boot.Proofs.Areas

/-!
# Images in the areas

An area that starts with a byte string is read as this string, so that what holds of the string
holds of the area: its size is found, and if the string is a valid image, it is accepted.

Each function of `image_validate.c` has a lemma `Stores.sees_…`: where the definition on strings
succeeds (`recordOk`, `recordsOk`, `contentOk`), the function of the bootloader reads the same bytes
and succeeds with the same result.
-/

namespace Tfm.Boot

open Device LinearFlash Word32
open BlockFlash (Row erasedByte)

variable {cfg : BootConfig} {crypto : BootCrypto} {r : BootLoaderState} {V : Areas} {a : FlashArea}
  {bytes : List UInt8}

/-- The area starts with a byte string. -/
structure Stores (cfg : BootConfig) (V : Areas) (a : FlashArea) (bytes : List UInt8) : Prop where
  fits : bytes.length ≤ cfg.faSize a
  get : (V a).get 0 bytes.length = bytes

/-- A part of what an area starts with. -/
theorem get_slice {row : Row} {off n : Nat} (h : row.get 0 bytes.length = bytes)
    (hle : off + n ≤ bytes.length) : row.get off n = slice bytes off n := by
  refine Row.get_eq_of_getD ?_ fun k hk => ?_
  · rw [slice, List.length_take, List.length_drop]
    omega
  · have hbyte : bytes.getD (off + k) 0 = row (off + k) := by
      rw [← h, Row.getD_get _ _ _ (by omega), Nat.zero_add]
    rw [← hbyte, slice, List.getD_eq_getElem?_getD, List.getD_eq_getElem?_getD,
      List.getElem?_take_of_lt hk, List.getElem?_drop]

section Stores

variable (h : Stores cfg V a bytes)
include h

theorem Stores.sees_read {off n : Nat} {data : List UInt8} (hread : readBytes bytes off n = some data) :
    Sees cfg (flashAreaRead cfg.toFlashMap a off n) r V data := by
  unfold readBytes at hread
  split at hread
  · rename_i hle
    obtain rfl := Option.some.inj hread
    have hfits := h.fits
    rw [← get_slice h.get hle]
    exact sees_flashAreaRead (by omega)
  · exact absurd hread (by simp)

/-! ## Validation

The loops over the blocks and the records, by induction on their fuel, and the checks of one record,
by its type. -/

/-- The blocks are joined. -/
theorem Stores.sees_readBlocks {size off fuel : Nat} (hsize : size ≤ bytes.length) (hoff : off ≤ size)
    (hfuel : size - off ≤ fuel) :
    Sees cfg (readBlocks cfg.toFlashMap a size fuel off) r V ((V a).get off (size - off)) := by
  have hfits := h.fits
  induction fuel generalizing off with
  | zero =>
    obtain rfl : off = size := by omega
    rw [Nat.sub_self, Row.get_zero]
    exact Sees.pure _
  | succ fuel ih =>
    rw [readBlocks]
    by_cases hlt : off < size
    · rw [if_pos hlt]
      have hle := Nat.min_le_left (size - off) bootTmpbufSz
      have hpos : 0 < min (size - off) bootTmpbufSz := by
        unfold bootTmpbufSz
        omega
      generalize min (size - off) bootTmpbufSz = n at hle hpos ⊢
      have hsplit : size - off = n + (size - (off + n)) := by omega
      rw [hsplit, Row.get_add]
      exact (sees_flashAreaRead (by omega)).bind ((ih (by omega) (by omega)).bind (Sees.pure _))
    · obtain rfl : off = size := by omega
      rw [if_neg hlt, Nat.sub_self, Row.get_zero]
      exact Sees.pure _

theorem Stores.sees_checkTlv {hash : List UInt8} {tlv : Tlv} {st st' : ValidateState}
    (hok : recordOk crypto bytes hash tlv st = some st') :
    Sees cfg (checkTlv crypto cfg.toFlashMap a hash tlv st) r V st' := by
  unfold recordOk at hok
  unfold checkTlv
  by_cases hsha : tlv.itType = imageTlvSha256
  · rw [if_pos hsha] at hok ⊢
    split at hok
    · rename_i hrec
      obtain rfl := Option.some.inj hok
      rw [if_neg (not_not.mpr hrec.1)]
      refine (h.sees_read hrec.2).bind ?_
      rw [if_neg (not_not.mpr rfl)]
      exact Sees.pure _
    · exact absurd hok (by simp)
  · rw [if_neg hsha] at hok ⊢
    by_cases hkey : tlv.itType = imageTlvKeyhash
    · rw [if_pos hkey] at hok ⊢
      split at hok
      · rename_i hlen
        obtain ⟨keyhash, hread, rfl⟩ := Option.map_eq_some_iff.mp hok
        rw [if_neg (Nat.not_lt.mpr hlen)]
        exact (h.sees_read hread).bind (Sees.pure _)
      · exact absurd hok (by simp)
    · rw [if_neg hkey] at hok ⊢
      by_cases hsig : tlv.itType = imageTlvRsa2048Pss
      · rw [if_pos hsig] at hok ⊢
        cases hid : st.keyId with
        | none =>
          rw [hid] at hok
          obtain rfl := Option.some.inj hok
          exact Sees.pure _
        | some keyId =>
          simp only [hid] at hok
          split at hok
          · rename_i hlen
            obtain ⟨sig, hread, rfl⟩ := Option.map_eq_some_iff.mp hok
            show Sees cfg (if tlv.itLen ≠ 256 then _ else _) r V _
            rw [if_neg (not_not.mpr hlen), hlen]
            exact (h.sees_read hread).bind (Sees.pure _)
          · exact absurd hok (by simp)
      · rw [if_neg hsig] at hok ⊢
        obtain rfl := Option.some.inj hok
        exact Sees.pure _

theorem Stores.sees_checkTlvs {hash : List UInt8} {stop fuel off : Nat} {st st' : ValidateState}
    (hok : recordsOk crypto bytes hash stop fuel off st = some st') :
    Sees cfg (checkTlvs crypto cfg.toFlashMap a hash stop fuel off st) r V st' := by
  -- both sides walk over the same offsets with the same fuel
  induction fuel generalizing off st with
  | zero =>
    unfold recordsOk at hok
    unfold checkTlvs
    split at hok
    · exact absurd hok (by simp)
    · rename_i hlt
      obtain rfl := Option.some.inj hok
      rw [if_neg hlt]
      exact Sees.pure _
  | succ fuel ih =>
    unfold recordsOk at hok
    unfold checkTlvs
    by_cases hlt : off < stop
    · rw [if_pos hlt] at hok ⊢
      obtain ⟨rec, hread, hok⟩ := Option.bind_eq_some_iff.mp hok
      obtain ⟨st1, hrec, hok⟩ := Option.bind_eq_some_iff.mp hok
      exact (h.sees_read hread).bind ((h.sees_checkTlv hrec).bind (ih hok))
    · rw [if_neg hlt] at hok ⊢
      obtain rfl := Option.some.inj hok
      exact Sees.pure _

/-- The hash is made over header and body. -/
theorem Stores.sees_bootutilImgHash {hdr : ImageHeader} {data : List UInt8}
    (hdata : readBytes bytes 0 hdr.imageEnd = some data) :
    Sees cfg (bootutilImgHash crypto cfg.toFlashMap hdr a) r V (crypto.sha256 data).toList := by
  unfold readBytes at hdata
  split at hdata
  · rename_i hle
    have hblocks : Sees cfg (readBlocks cfg.toFlashMap a hdr.imageEnd hdr.imageEnd 0) r V _ :=
      h.sees_readBlocks (by omega) (Nat.zero_le _) (Nat.sub_le _ _)
    rw [Nat.sub_zero, get_slice h.get hle, Option.some.inj hdata] at hblocks
    exact hblocks.bind (Sees.pure _)
  · exact absurd hdata (by simp)

/-- An image whose hash and signature agree is accepted. -/
theorem Stores.sees_bootutilImgValidate {hdr : ImageHeader} (hok : contentOk crypto bytes hdr = true) :
    Sees cfg (bootutilImgValidate crypto cfg.toFlashMap hdr a) r V () := by
  unfold contentOk at hok
  cases hst : recordsState crypto bytes hdr with
  | none =>
    rw [hst] at hok
    exact absurd hok (by decide)
  | some st =>
    rw [hst, Option.any_some] at hok
    obtain ⟨data, hdata, hst⟩ := Option.bind_eq_some_iff.mp hst
    obtain ⟨info, hinfo, hst⟩ := Option.bind_eq_some_iff.mp hst
    split at hst
    · rename_i hmagic
      unfold bootutilImgValidate
      refine (h.sees_bootutilImgHash hdata).bind ((h.sees_read hinfo).bind ?_)
      rw [if_neg (not_not.mpr hmagic)]
      refine (h.sees_checkTlvs hst).bind ?_
      rw [if_pos hok]
      exact Sees.pure _
    · exact absurd hst (by simp)

/-- A slot that starts with a valid image is accepted. -/
theorem Stores.sees_bootValidateSlot (hok : ImageOk crypto bytes) :
    Sees cfg (bootValidateSlot cfg.toFlashMap crypto a (imageHeader bytes)) r V () := by
  have hmagic : (imageHeader bytes).ihMagic ≠ imageMagicNone := by
    rw [hok.magic]
    decide
  unfold bootValidateSlot
  rw [if_neg (not_or.mpr ⟨hmagic, not_not.mpr hok.bootable⟩)]
  simp only [if_pos hok.magic]
  exact (h.sees_bootutilImgValidate hok.content).orElse.attempt.bind (Sees.pure _)

/-! ## Sizes

The size of a swap is that of the larger image, with its records; a slot without an image counts as
empty. -/

/-- The size of the image in one slot. -/
theorem Stores.sees_imageSize {n : Nat} (hsize : imageSize bytes = some n) :
    Sees cfg (if (imageHeader bytes).ihMagic = imageMagic then
      assertOk (bootReadImageSize cfg.toFlashMap a (imageHeader bytes)) else pure 0) r V n := by
  unfold imageSize at hsize
  by_cases hmagic : (imageHeader bytes).ihMagic = imageMagic
  · simp only [if_pos hmagic] at hsize ⊢
    obtain ⟨info, hread, hn⟩ := Option.bind_eq_some_iff.mp hsize
    split at hn
    · rename_i hinfo
      obtain rfl := Option.some.inj hn
      refine ((h.sees_read hread).bind ?_).assertOk
      rw [if_neg (not_not.mpr hinfo)]
      exact Sees.pure _
    · exact absurd hn (by simp)
  · simp only [if_neg hmagic] at hsize ⊢
    obtain rfl := Option.some.inj hsize
    exact Sees.pure _

end Stores

/-- The largest of the two images. -/
theorem sees_largestImageSize {bytes0 bytes1 : List UInt8} {n0 n1 : Nat} (h0 : Stores cfg V .image0 bytes0)
    (h1 : Stores cfg V .image1 bytes1) (hhdr0 : r.img0.hdr = imageHeader bytes0)
    (hhdr1 : r.img1.hdr = imageHeader bytes1) (hn0 : imageSize bytes0 = some n0)
    (hn1 : imageSize bytes1 = some n1) :
    Sees cfg (largestImageSize cfg.toFlashMap) r V (max n0 n1) := by
  have hsize0 : Sees cfg (if r.img0.hdr.ihMagic = imageMagic then
      assertOk (bootReadImageSize cfg.toFlashMap .image0 r.img0.hdr) else pure 0) r V n0 := by
    rw [hhdr0]
    exact h0.sees_imageSize hn0
  have hsize1 : Sees cfg (if r.img1.hdr.ihMagic = imageMagic then
      assertOk (bootReadImageSize cfg.toFlashMap .image1 r.img1.hdr) else pure 0) r V n1 := by
    rw [hhdr1]
    exact h1.sees_imageSize hn1
  unfold largestImageSize
  exact Sees.getMem.bind (hsize0.ite_bind (hsize1.ite_bind (Sees.pure _)))

end Tfm.Boot
