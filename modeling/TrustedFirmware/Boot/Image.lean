import TrustedFirmware.Boot.ImageValidate

/-!
# Images as byte strings

What a valid image is, without a flash: a string whose header, hash record and signature are found
and agree, and in which nothing behind the end is looked at. The bootloader accepts a slot that
starts with such a string (`sees_bootValidateSlot`), wherever it is stored.

The definitions follow `bootutil_img_validate` step by step, with a read of the flash replaced by
`readBytes`. Both directions are proved: a slot that stores a valid image is accepted
(`Stores.sees_bootValidateSlot`), and what is accepted is a valid image (`Proofs/Acceptance`).
-/

namespace Tfm.Boot

open Device Word32

/-- Bytes of a string, but none behind its end. -/
def readBytes (bytes : List UInt8) (off n : Nat) : Option (List UInt8) :=
  if off + n ≤ bytes.length then some (slice bytes off n) else none

/-- The header of an image. -/
def imageHeader (bytes : List UInt8) : ImageHeader := slice bytes 0 imageHeaderSize

variable (crypto : BootCrypto)

/-- A record is accepted. -/
def recordOk (bytes hash : List UInt8) (tlv : Tlv) (st : ValidateState) : Option ValidateState :=
  -- a hash record must be the hash of header and body
  if tlv.itType = imageTlvSha256 then
    if tlv.itLen = 32 ∧ readBytes bytes tlv.payload 32 = some hash then some { st with sha256Valid := true }
    else none
  -- a key record chooses the key for the next signature
  else if tlv.itType = imageTlvKeyhash then
    if tlv.itLen ≤ 32 then
      (readBytes bytes tlv.payload tlv.itLen).map fun keyhash =>
        { st with keyId := bootutilFindKey crypto keyhash }
    else none
  else if tlv.itType = imageTlvRsa2048Pss then
    match st.keyId with
    -- a signature without a key in front of it is skipped
    | none => some st
    | some keyId =>
      if tlv.itLen = 256 then
        (readBytes bytes tlv.payload 256).map fun sig =>
          { st with
            validSignature := st.validSignature || bootutilVerifySig crypto hash sig keyId
            keyId := none }
      else none
  else some st

/-- All records up to `stop` are accepted. -/
def recordsOk (bytes hash : List UInt8) (stop : Nat) :
    (fuel off : Nat) → ValidateState → Option ValidateState
  | 0, off, st => if off < stop then none else some st
  | fuel + 1, off, st =>
    if off < stop then
      (readBytes bytes off sizeofTlv).bind fun rec =>
        (recordOk crypto bytes hash (tlvOf rec off) st).bind fun st =>
          recordsOk bytes hash stop fuel (add32 off (sizeofTlv + (tlvOf rec off).itLen)) st
    else some st

/-- The records of an image with the hash of its header and body. -/
def recordsState (bytes : List UInt8) (hdr : ImageHeader) : Option ValidateState :=
  (readBytes bytes 0 hdr.imageEnd).bind fun data =>
    (readBytes bytes hdr.imageEnd sizeofTlvInfo).bind fun info =>
      if ofLe16 info 0 = imageTlvInfoMagic then
        recordsOk crypto bytes (crypto.sha256 data).toList (add32 hdr.imageEnd (ofLe16 info 2))
          (add32 hdr.imageEnd (ofLe16 info 2) - hdr.imageEnd) (add32 hdr.imageEnd sizeofTlvInfo)
          ⟨false, false, none⟩
      else none

/-- The hash and a signature agree. -/
def contentOk (bytes : List UInt8) (hdr : ImageHeader) : Bool :=
  (recordsState crypto bytes hdr).any fun st => st.sha256Valid && st.validSignature

/-- A string that may be booted. -/
structure ImageOk (bytes : List UInt8) : Prop where
  header : imageHeaderSize ≤ bytes.length
  magic : (imageHeader bytes).ihMagic = imageMagic
  bootable : (imageHeader bytes).ihFlags &&& imageFNonBootable = 0
  content : contentOk crypto bytes (imageHeader bytes) = true

instance (bytes : List UInt8) : Decidable (ImageOk crypto bytes) :=
  decidable_of_iff (imageHeaderSize ≤ bytes.length ∧ (imageHeader bytes).ihMagic = imageMagic
      ∧ (imageHeader bytes).ihFlags &&& imageFNonBootable = 0
      ∧ contentOk crypto bytes (imageHeader bytes) = true)
    ⟨fun h => ⟨h.1, h.2.1, h.2.2.1, h.2.2.2⟩, fun h => ⟨h.header, h.magic, h.bootable, h.content⟩⟩

/-- The size of the image in a string, with its records; without an image it is zero. -/
def imageSize (bytes : List UInt8) : Option Nat :=
  let hdr := imageHeader bytes
  if hdr.ihMagic = imageMagic then
    (readBytes bytes (add32 hdr.ihHdrSize hdr.ihImgSize) sizeofTlvInfo).bind fun info =>
      if ofLe16 info 0 = imageTlvInfoMagic then
        some (add32 (add32 hdr.ihHdrSize hdr.ihImgSize) (ofLe16 info 2))
      else none
  else some 0

end Tfm.Boot
