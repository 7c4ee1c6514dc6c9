import TrustedFirmware.Boot.FlashMap

/-!
# Image validation

`image_validate.c` and `image_rsa.c`: an image is a header, a body and a list of type-length-value
records behind it. It is valid if one of them holds the SHA-256 hash of header and body and another
an RSA-PSS signature of this hash under a key that is built in. The hash and the RSA operation come
from the crypto library, which is a parameter.

What the header says is used as it is: the sizes are added modulo `2 ^ 32`, and a record of a type
that is not known is skipped.
-/

namespace Tfm.Boot

open Device Word32

/-! ## Headers

The fields of `struct image_header` and the constants of `image.h`. -/

/-- The 16-bit word at an offset. -/
def ofLe16 (bs : List UInt8) (off : Nat) : Nat :=
  (bs.getD off 0).toNat + (bs.getD (off + 1) 0).toNat * 2 ^ 8

theorem ofLe16_lt (bs : List UInt8) (off : Nat) : ofLe16 bs off < 2 ^ 16 := by
  have h0 := UInt8.toNat_lt (bs.getD off 0)
  have h1 := UInt8.toNat_lt (bs.getD (off + 1) 0)
  unfold ofLe16
  omega

namespace ImageHeader

def ihMagic (hdr : ImageHeader) : Nat := ofLe32 hdr 0
def ihHdrSize (hdr : ImageHeader) : Nat := ofLe16 hdr 8
def ihImgSize (hdr : ImageHeader) : Nat := ofLe32 hdr 12
def ihFlags (hdr : ImageHeader) : Nat := ofLe32 hdr 16

/-- `hdr->ih_img_size + hdr->ih_hdr_size`. -/
def imageEnd (hdr : ImageHeader) : Nat := add32 hdr.ihImgSize hdr.ihHdrSize

end ImageHeader

def imageMagic : Nat := 0x96f3b83d
def imageMagicNone : Nat := 0xffffffff
def imageTlvInfoMagic : Nat := 0x6907
def imageHeaderSize : Nat := 32
def imageFNonBootable : Nat := 0x10
def imageTlvKeyhash : Nat := 0x01
def imageTlvSha256 : Nat := 0x10
def imageTlvRsa2048Pss : Nat := 0x20
def sizeofTlvInfo : Nat := 4
def sizeofTlv : Nat := 4
def bootTmpbufSz : Nat := 256

/-! ## The crypto library

SHA-256 and RSA are outside of this repository. Nothing is assumed about them but their lengths: a
hash has 32 bytes and an encoded message 256, which the types say. -/

/-- A public key that was parsed: its length in bytes, and `mbedtls_rsa_public`. -/
structure RsaContext where
  len : Nat
  rsaPublic : List UInt8 → Option (Vector UInt8 256)

/-- `bootutil_keys`, SHA-256 and `bootutil_parse_rsakey`. -/
structure BootCrypto where
  keys : List (List UInt8)
  sha256 : List UInt8 → Vector UInt8 32
  parseRsakey : List UInt8 → Option RsaContext

variable (crypto : BootCrypto)

/-! ## `image_rsa.c`

RSASSA-PSS with SHA-256, for keys of 2048 bits: the signature is raised to the public exponent, and
the encoded message that comes out must have been made for the hash. The constants are those of the
source, `PSS_EMLEN` and so on. -/

def pssEmlen : Nat := 256
def pssHlen : Nat := 32
def pssSlen : Nat := 32
def pssMaskLen : Nat := 223
def pssMaskOnePos : Nat := 190

/-- The loop of `pss_mgf1`: `count` bytes are left, and the last byte of the counter is `counter`. -/
def pssMgf1Loop (hash : List UInt8) : (fuel count : Nat) → UInt8 → List UInt8
  | 0, _, _ => []
  | _ + 1, 0, _ => []
  | fuel + 1, count + 1, counter =>
    let htmp := (crypto.sha256 (hash ++ [0, 0, 0, counter])).toList
    htmp.take (min pssHlen (count + 1)) ++ pssMgf1Loop hash fuel (count + 1 - pssHlen) (counter + 1)

/-- `pss_mgf1`, which makes a mask of `PSS_MASK_LEN` bytes. -/
def pssMgf1 (hash : List UInt8) : List UInt8 := pssMgf1Loop crypto hash pssMaskLen pssMaskLen 0

/-- `em[from..from + n)`. -/
def slice (bytes : List UInt8) (start n : Nat) : List UInt8 := (bytes.drop start).take n

theorem slice_add (bytes : List UInt8) (start n m : Nat) :
    slice bytes start (n + m) = slice bytes start n ++ slice bytes (start + n) m := by
  rw [slice, slice, slice, List.take_add, List.drop_drop]

theorem slice_one {bytes : List UInt8} {start : Nat} (h : start < bytes.length) :
    slice bytes start 1 = [bytes.getD start 0] := by
  rw [slice, List.drop_eq_getElem_cons h, List.take_succ_cons, List.take_zero,
    List.getD_eq_getElem?_getD, List.getElem?_eq_getElem h, Option.getD_some]

theorem slice_all (bytes : List UInt8) : slice bytes 0 bytes.length = bytes := List.take_length

/-- The top bit of the first byte is cleared. -/
def clearTopBit : List UInt8 → List UInt8
  | [] => []
  | b :: bs => (b &&& 0x7F) :: bs

/-- The checks of `bootutil_cmp_rsasig` behind the RSA operation. -/
def pssConsistent (hash em : List UInt8) : Bool :=
  -- steps 4 to 14 of EMSA-PSS-VERIFY, as the comments of the source count them
  if em.getD (pssEmlen - 1) 0 ≠ 0xbc then false
  else
    let h := slice em pssMaskLen pssHlen
    let db := clearTopBit (List.zipWith (· ^^^ ·) (pssMgf1 crypto h) em)
    if (db.take pssMaskOnePos).any (· ≠ 0) then false
    else if db.getD pssMaskOnePos 0 ≠ 1 then false
    else
      let salt := slice db (pssMaskOnePos + 1) pssSlen
      (crypto.sha256 (List.replicate 8 0 ++ hash ++ salt)).toList = h

/-- `bootutil_cmp_rsasig`. -/
def bootutilCmpRsasig (ctx : RsaContext) (hash sig : List UInt8) : Bool :=
  if ctx.len ≠ pssEmlen then false
  else if hash.length ≠ pssHlen then false
  else match ctx.rsaPublic sig with
    | none => false
    | some em => pssConsistent crypto hash em.toList

/-- Whether the result is zero. It is `rc`, and zero, where the lengths differ. -/
def bootutilVerifySig (hash sig : List UInt8) (keyId : Nat) : Bool :=
  match crypto.parseRsakey (crypto.keys.getD keyId []) with
  | none => false
  | some ctx => if sig.length ≠ ctx.len then true else bootutilCmpRsasig crypto ctx hash sig

/-! ## `image_validate.c`

The hash is made over header and body first, in blocks of `BOOT_TMPBUF_SZ` bytes. Then the records
are read one by one, up to the total length that the record header gives. -/

variable (fm : FlashMap)

/-- The loop of `bootutil_img_hash`: the bytes up to `size` are read in blocks. -/
def readBlocks (area : FlashArea) (size : Nat) : (fuel off : Nat) → BootM (List UInt8)
  | 0, _ => pure []
  | fuel + 1, off =>
    if off < size then do
      let blk ← flashAreaRead fm area off (min (size - off) bootTmpbufSz)
      let rest ← readBlocks area size fuel (off + min (size - off) bootTmpbufSz)
      pure (blk ++ rest)
    else pure []

/-- `bootutil_img_hash`. -/
def bootutilImgHash (hdr : ImageHeader) (area : FlashArea) : BootM (List UInt8) := do
  let data ← readBlocks fm area hdr.imageEnd hdr.imageEnd 0
  pure (crypto.sha256 data).toList

/-- The first key whose hash starts with the given bytes. -/
def bootutilFindKey (keyhash : List UInt8) : Option Nat :=
  crypto.keys.findIdx? fun key => (crypto.sha256 key).toList.take keyhash.length = keyhash

/-- The locals of `bootutil_img_validate`. -/
structure ValidateState where
  sha256Valid : Bool
  validSignature : Bool
  keyId : Option Nat
  deriving DecidableEq

/-- A record: `struct image_tlv`, and where its payload starts. -/
structure Tlv where
  itType : Nat
  itLen : Nat
  payload : Nat
  deriving DecidableEq

/-- The record that starts at an offset; its payload follows it. -/
def tlvOf (bytes : List UInt8) (off : Nat) : Tlv := ⟨(bytes.getD 0 0).toNat, ofLe16 bytes 2, off + sizeofTlv⟩

/-- The body of the loop over the records. -/
def checkTlv (area : FlashArea) (hash : List UInt8) (tlv : Tlv) (st : ValidateState) :
    BootM ValidateState :=
  if tlv.itType = imageTlvSha256 then
    if tlv.itLen ≠ 32 then M.fail .ebadimage
    else do
      let buf ← flashAreaRead fm area tlv.payload 32
      if hash ≠ buf then M.fail .ebadimage else pure { st with sha256Valid := true }
  else if tlv.itType = imageTlvKeyhash then
    if 32 < tlv.itLen then M.fail .ebadimage
    else do
      let buf ← flashAreaRead fm area tlv.payload tlv.itLen
      pure { st with keyId := bootutilFindKey crypto buf }
  else if tlv.itType = imageTlvRsa2048Pss then
    match st.keyId with
    | none => pure st
    | some keyId =>
      if tlv.itLen ≠ 256 then M.fail .ebadimage
      else do
        let buf ← flashAreaRead fm area tlv.payload tlv.itLen
        pure { st with
          validSignature := st.validSignature || bootutilVerifySig crypto hash buf keyId
          keyId := none }
  else pure st

/-- The loop over the records. A record has at least four bytes. -/
def checkTlvs (area : FlashArea) (hash : List UInt8) (stop : Nat) :
    (fuel off : Nat) → ValidateState → BootM ValidateState
  | 0, off, st => if off < stop then M.fail .diverges else pure st
  | fuel + 1, off, st =>
    if off < stop then do
      let bytes ← flashAreaRead fm area off sizeofTlv
      let tlv := tlvOf bytes off
      let st ← checkTlv crypto fm area hash tlv st
      checkTlvs area hash stop fuel (add32 off (sizeofTlv + tlv.itLen)) st
    else pure st

/-- `bootutil_img_validate`: without a valid signature and the hash the image is not accepted. -/
def bootutilImgValidate (hdr : ImageHeader) (area : FlashArea) : BootM Unit := do
  let hash ← bootutilImgHash crypto fm hdr area
  let off := hdr.imageEnd
  let info ← flashAreaRead fm area off sizeofTlvInfo
  if ofLe16 info 0 ≠ imageTlvInfoMagic then M.fail .ebadimage
  else do
    let stop := add32 off (ofLe16 info 2)
    let st ← checkTlvs crypto fm area hash stop (stop - off) (add32 off sizeofTlvInfo) ⟨false, false, none⟩
    if st.sha256Valid && st.validSignature then pure () else M.fail .ebadimage

end Tfm.Boot
