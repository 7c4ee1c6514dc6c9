import TrustedFirmware.Boot.Image
import TrustedFirmware.Boot.Loader
import TrustedFirmware.Lib.FaultTriples

/-!
# What an accepted image is

The converse of `Stores.sees_bootValidateSlot`, on any flash and whatever fails: where the
validation of a slot succeeds, the flash from the start of the slot on is a valid image. That the
image ends inside of the slot is not checked. The header chooses the offsets that are read, and
additions wrap; but the bytes up to the end of the image are read first, block by block, and one of
these reads fails before an address could wrap.

`Finds` is the judgment: if the function succeeds, it has found a value with a property and left the
flash as it is. One lemma `finds_…` for each function turns its checks into those of `Boot/Image`;
the last one, `finds_bootutilImgValidate`, ends with `contentOk`.
-/

namespace Tfm.Boot

open Device LinearFlash Word32
open BlockFlash (Row)

/-! ## Reading byte strings

Reads of a string that succeed, and how they are put together. -/

section Bytes

variable {bytes data data' : List UInt8} {off n m : Nat}

/-- A read that succeeds lies in the string. -/
theorem readBytes_eq_some (h : readBytes bytes off n = some data) :
    off + n ≤ bytes.length ∧ data = slice bytes off n := by
  unfold readBytes at h
  split at h
  · rename_i hle
    exact ⟨hle, (Option.some.inj h).symm⟩
  · exact absurd h (by simp)

/-- Two reads in a row. -/
theorem readBytes_append (h : readBytes bytes off n = some data)
    (h' : readBytes bytes (off + n) m = some data') : readBytes bytes off (n + m) = some (data ++ data') := by
  obtain ⟨-, rfl⟩ := readBytes_eq_some h
  obtain ⟨hle, rfl⟩ := readBytes_eq_some h'
  rw [readBytes, if_pos (by omega), slice_add]

theorem readBytes_nil (h : off ≤ bytes.length) : readBytes bytes off 0 = some [] := by
  rw [readBytes, if_pos (by omega), slice, List.take_zero]

/-- A part of a part of a row. -/
theorem slice_get (row : Row) {base len : Nat} (h : off + n ≤ len) :
    slice (row.get base len) off n = row.get (base + off) n := by
  obtain ⟨rest, rfl⟩ : ∃ rest, len = off + (n + rest) := ⟨len - off - n, by omega⟩
  rw [slice, Row.get_add, Row.get_add, List.drop_left' (Row.length_get ..),
    List.take_left' (Row.length_get ..)]

end Bytes

variable (fm : FlashMap)

/-! ## Reads of an area

The bootloader does not compare the offsets that it reads with the size of the area. What it finds are
bytes of the flash, counted from the start of the area. -/

/-- The flash from the start of an area up to the last byte that the driver reads. -/
def flashFrom (g : Row) (area : FlashArea) : List UInt8 :=
  g.get (fm.faOff area) (fm.sectorCount * fm.sectorSize - 1 - fm.faOff area)

/-- Behind the flash there is room for the records of an image. -/
structure RoomBehind (area : FlashArea) : Prop where
  base : fm.faOff area ≤ fm.sectorCount * fm.sectorSize
  room : fm.sectorCount * fm.sectorSize + 2 ^ 17 ≤ 2 ^ 32

/-- A success finds a value in `V` and leaves the flash as it is. -/
def Finds {α : Type} (g : Row) (m : BootM α) (V : α → Prop) : Prop :=
  Triple (device fm.sectorSize) (fun _ s => s = g) m fun a _ s => s = g ∧ V a

section Finds

variable {fm} {g : Row} {α β : Type} {V : α → Prop}

theorem Finds.pure {a : α} (h : V a) : Finds fm g (pure a) V := Triple.pure fun _ _ hs => ⟨hs, h⟩

theorem Finds.fail (e : BootErr) : Finds fm g (M.fail e) V := Triple.fail e

theorem Finds.bind {m : BootM α} {k : α → BootM β} {U : β → Prop} (hm : Finds fm g m V)
    (hk : ∀ a, V a → Finds fm g (k a) U) : Finds fm g (m >>= k) U := by
  refine Triple.bind hm fun a fails n r s hs => ?_
  exact hk a hs.2 fails n r s hs.1

/-- A read whose end does not wrap gives bytes from the start of the area on. -/
theorem finds_flashAreaRead {area : FlashArea} {off len : Nat} (h : fm.faOff area + off + len < 2 ^ 32) :
    Finds fm g (flashAreaRead fm area off len) fun data =>
      readBytes (flashFrom fm g area) off len = some data := by
  unfold flashAreaRead readData
  have haddr : add32 (fm.faOff area) off = fm.faOff area + off := add32_eq (by omega)
  rw [haddr, add32_eq h]
  split
  · rename_i hvalid
    have hend : fm.faOff area + off + len ≤ fm.sectorCount * fm.sectorSize - 1 := of_decide_eq_true hvalid
    refine Triple.call _ fun r s hs => ⟨hs, ?_⟩
    show _ = some (s.get (fm.faOff area + off) len)
    rw [hs, readBytes, flashFrom, Row.length_get, if_pos (by omega), slice_get _ (by omega)]
  · exact Triple.fail _

end Finds

variable {fm} {g : Row} {area : FlashArea} {crypto : BootCrypto} (hroom : RoomBehind fm area)
include hroom

/-! ## Validation

The functions of `image_validate.c`, from the blocks of the hash to the records. -/

/-- The blocks are the bytes between two offsets. The offset that is reached lies in the flash, so
that the end of the next block does not wrap. -/
theorem finds_readBlocks {size fuel off : Nat} (hoff : off ≤ (flashFrom fm g area).length)
    (hsize : off ≤ size) (hfuel : size - off ≤ fuel) :
    Finds fm g (readBlocks fm area size fuel off) fun data =>
      readBytes (flashFrom fm g area) off (size - off) = some data := by
  induction fuel generalizing off with
  | zero =>
    obtain rfl : off = size := by omega
    rw [Nat.sub_self]
    exact Finds.pure (readBytes_nil hoff)
  | succ fuel ih =>
    unfold readBlocks
    by_cases hlt : off < size
    · rw [if_pos hlt]
      have hn : 0 < min (size - off) bootTmpbufSz ∧ min (size - off) bootTmpbufSz ≤ 256
          ∧ min (size - off) bootTmpbufSz ≤ size - off := by
        unfold bootTmpbufSz
        omega
      generalize min (size - off) bootTmpbufSz = n at hn ⊢
      have hbase := hroom.base
      have hend := hroom.room
      rw [flashFrom, Row.length_get] at hoff
      -- a block has at most 256 bytes, so that its end cannot wrap; that it was read puts the next
      -- offset into the flash
      refine (finds_flashAreaRead (by omega)).bind fun blk hblk => ?_
      refine (ih (readBytes_eq_some hblk).1 (by omega) (by omega)).bind fun rest hrest => ?_
      have hsplit : size - off = n + (size - (off + n)) := by omega
      rw [hsplit]
      exact Finds.pure (readBytes_append hblk hrest)
    · obtain rfl : off = size := by omega
      rw [if_neg hlt, Nat.sub_self]
      exact Finds.pure (readBytes_nil hoff)

omit hroom in
/-- The checks of one record whose payload does not wrap. -/
theorem finds_checkTlv {hash : List UInt8} {tlv : Tlv} {st : ValidateState}
    (hend : fm.faOff area + tlv.payload + tlv.itLen < 2 ^ 32) :
    Finds fm g (checkTlv crypto fm area hash tlv st) fun st' =>
      recordOk crypto (flashFrom fm g area) hash tlv st = some st' := by
  unfold checkTlv recordOk
  by_cases hsha : tlv.itType = imageTlvSha256
  · simp only [if_pos hsha]
    by_cases hlen : tlv.itLen = 32
    · rw [if_neg (not_not.mpr hlen)]
      refine (finds_flashAreaRead (by omega)).bind fun buf hbuf => ?_
      by_cases hhash : hash = buf
      · rw [if_neg (not_not.mpr hhash), if_pos ⟨hlen, hhash ▸ hbuf⟩]
        exact Finds.pure rfl
      · rw [if_pos hhash]
        exact Finds.fail _
    · rw [if_pos hlen]
      exact Finds.fail _
  · simp only [if_neg hsha]
    by_cases hkey : tlv.itType = imageTlvKeyhash
    · simp only [if_pos hkey]
      by_cases hlen : 32 < tlv.itLen
      · rw [if_pos hlen]
        exact Finds.fail _
      · rw [if_neg hlen, if_pos (Nat.not_lt.mp hlen)]
        refine (finds_flashAreaRead hend).bind fun buf hbuf => ?_
        rw [hbuf]
        exact Finds.pure rfl
    · simp only [if_neg hkey]
      by_cases hsig : tlv.itType = imageTlvRsa2048Pss
      · simp only [if_pos hsig]
        cases st.keyId with
        | none => exact Finds.pure rfl
        | some keyId =>
          by_cases hlen : tlv.itLen = 256
          · simp only [hlen, ne_eq, not_true_eq_false, if_false, if_true]
            refine (finds_flashAreaRead (by omega)).bind fun buf hbuf => ?_
            rw [hbuf]
            exact Finds.pure rfl
          · simp only [ne_eq, hlen, not_false_eq_true, if_true]
            exact Finds.fail _
      · simp only [if_neg hsig]
        exact Finds.pure rfl

/-- The records start in front of `stop`. That a record's header was read bounds the end of its
payload. -/
theorem finds_checkTlvs {hash : List UInt8} {stop fuel off : Nat} {st : ValidateState}
    (hstop : fm.faOff area + stop < fm.sectorCount * fm.sectorSize + 2 ^ 16) :
    Finds fm g (checkTlvs crypto fm area hash stop fuel off st) fun st' =>
      recordsOk crypto (flashFrom fm g area) hash stop fuel off st = some st' := by
  have hbase := hroom.base
  have hend := hroom.room
  induction fuel generalizing off st with
  | zero =>
    unfold checkTlvs recordsOk
    by_cases hlt : off < stop
    · rw [if_pos hlt]
      exact Finds.fail _
    · rw [if_neg hlt, if_neg hlt]
      exact Finds.pure rfl
  | succ fuel ih =>
    unfold checkTlvs recordsOk
    by_cases hlt : off < stop
    · rw [if_pos hlt, if_pos hlt]
      have hsz : sizeofTlv = 4 := rfl
      refine (finds_flashAreaRead (by omega)).bind fun rec hrec => ?_
      -- the header of the record was read, so it lies in the flash; the length of a record has 16
      -- bits
      have hoff := (readBytes_eq_some hrec).1
      rw [flashFrom, Row.length_get] at hoff
      have hlen : (tlvOf rec off).itLen < 2 ^ 16 := ofLe16_lt rec 2
      have hpayload : (tlvOf rec off).payload = off + sizeofTlv := rfl
      refine (finds_checkTlv (by omega)).bind fun st' hst' => ?_
      rw [hrec, Option.bind_some, hst', Option.bind_some]
      exact ih
    · rw [if_neg hlt, if_neg hlt]
      exact Finds.pure rfl

/-- A validation that succeeds has seen a hash and a signature that agree. -/
theorem finds_bootutilImgValidate {hdr : ImageHeader} :
    Finds fm g (bootutilImgValidate crypto fm hdr area) fun _ =>
      contentOk crypto (flashFrom fm g area) hdr = true := by
  have hbase := hroom.base
  have hend := hroom.room
  have hsz : sizeofTlvInfo = 4 := rfl
  unfold bootutilImgValidate bootutilImgHash
  have hblocks : Finds fm g (readBlocks fm area hdr.imageEnd hdr.imageEnd 0) _ :=
    finds_readBlocks hroom (Nat.zero_le _) (Nat.zero_le _) (Nat.sub_le _ _)
  rw [Nat.sub_zero] at hblocks
  refine Finds.bind (V := fun hash => ∃ data,
      readBytes (flashFrom fm g area) 0 hdr.imageEnd = some data ∧ hash = (crypto.sha256 data).toList)
    (hblocks.bind fun data hdata => Finds.pure ⟨data, hdata, rfl⟩) ?_
  rintro hash ⟨data, hdata, rfl⟩
  -- header and body were read for the hash: the end of the image lies in the flash, whatever its
  -- header says
  have hbody := (readBytes_eq_some hdata).1
  rw [flashFrom, Row.length_get] at hbody
  refine (finds_flashAreaRead (by omega)).bind fun info hinfo => ?_
  by_cases hmagic : ofLe16 info 0 = imageTlvInfoMagic
  · rw [if_neg (not_not.mpr hmagic)]
    have htot : ofLe16 info 2 < 2 ^ 16 := ofLe16_lt info 2
    have hstop : add32 hdr.imageEnd (ofLe16 info 2) = hdr.imageEnd + ofLe16 info 2 := add32_eq (by omega)
    refine (finds_checkTlvs hroom (by omega)).bind fun st hst => ?_
    have hstate : recordsState crypto (flashFrom fm g area) hdr = some st := by
      rw [recordsState, hdata, Option.bind_some, hinfo, Option.bind_some, if_pos hmagic]
      exact hst
    by_cases hok : (st.sha256Valid && st.validSignature) = true
    · rw [if_pos hok]
      refine Finds.pure ?_
      rw [contentOk, hstate, Option.any_some, hok]
    · rw [if_neg hok]
      exact Finds.fail _
  · rw [if_pos hmagic]
    exact Finds.fail _

end Tfm.Boot
