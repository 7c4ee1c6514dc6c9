import TrustedFirmware.Lib.ObjectMap
import TrustedFirmware.Sst.Flash

/-!
# Secure storage — assets and the object layer's interface

The structures of `psa_sst_asset_defs.h`, the calls that `sst_object_system.h` offers to the
asset management, and what that layer is for: a map from ids to assets, each a byte array with
a type, a maximum size and attributes.
-/

namespace Tfm.Sst

open Word32

/-! ## Information and attributes

What an application may ask about an asset, apart from its data. -/

/-- `struct psa_sst_asset_info_t`. -/
structure AssetInfo where
  type : Nat
  sizeCurrent : Nat
  sizeMax : Nat
  deriving DecidableEq, Repr

/-- The memory image. -/
def AssetInfo.encode (i : AssetInfo) : List UInt8 :=
  le32 i.type ++ (le32 i.sizeCurrent ++ (le32 i.sizeMax ++ []))

/-- Read the image. -/
def AssetInfo.decode (bs : List UInt8) : AssetInfo := ⟨ofLe32 bs 0, ofLe32 bs 4, ofLe32 bs 8⟩

def psaSstAssetInfoSize : Nat := 12

/-- `PSA_SST_ASSET_ATTR_SIZE`: two 64-bit validity dates, the attribute bits and four reserved
bytes. Only the dates are ever looked at. -/
def psaSstAssetAttrSize : Nat := 24

/-- `struct psa_sst_asset_attrs_t`, as its memory image. -/
abbrev AssetAttrs : Type := Vector UInt8 24

/-- Both dates of `validity` are zero. -/
def AssetAttrs.validityUnset (attrs : AssetAttrs) : Bool :=
  ((attrs.toList.take 16).all (· = 0))

/-! ## The object layer

The interface between the asset management and the objects. A layer is a function of the call and of
its own state, so that the asset management can be run over the model of the source as well as over
a map. -/

/-- The calls of `sst_object_system.h`, without the token, which none of them uses. -/
inductive ObjectCall where
  | create (uuid : UInt32) (type size : Nat)
  | read (uuid : UInt32) (offset size : Nat)
  | write (uuid : UInt32) (data : List UInt8) (offset : Nat)
  | getInfo (uuid : UInt32)
  | getAttributes (uuid : UInt32)
  | setAttributes (uuid : UInt32) (attrs : AssetAttrs)
  | delete (uuid : UInt32)

/-- The asset that a call is about. -/
def ObjectCall.uuid : ObjectCall → UInt32
  | .create uuid _ _ => uuid
  | .read uuid _ _ => uuid
  | .write uuid _ _ => uuid
  | .getInfo uuid => uuid
  | .getAttributes uuid => uuid
  | .setAttributes uuid _ => uuid
  | .delete uuid => uuid

/-- The calls that only look at an asset. -/
def ObjectCall.isQuery : ObjectCall → Bool
  | .read _ _ _ => true
  | .getInfo _ => true
  | .getAttributes _ => true
  | _ => false

/-- The call that returns data bytes. -/
def ObjectCall.isRead : ObjectCall → Bool
  | .read _ _ _ => true
  | _ => false

/-- An object layer with states `σ`: the result of a call with the bytes it copies to the
caller's buffer, and the next state. -/
abbrev ObjectLayer (σ : Type) : Type := ObjectCall → σ → Except SstErr (List UInt8) × σ

/-! ## What the object layer is for

A map from ids to assets, without flash, headers or encryption. -/

/-- An asset. -/
structure Asset where
  type : Nat
  sizeMax : Nat
  data : List UInt8
  attrs : AssetAttrs
  deriving DecidableEq

/-- What `getInfo` returns. -/
def Asset.info (a : Asset) : AssetInfo := ⟨a.type, a.data.length, a.sizeMax⟩

/-- An asset without its data bytes. -/
structure AssetShape where
  info : AssetInfo
  attrs : AssetAttrs
  deriving DecidableEq

/-- The asset without its data. -/
def Asset.shape (a : Asset) : AssetShape := ⟨a.info, a.attrs⟩

/-- The assets of a store. -/
abbrev AssetMap : Type := UInt32 → Option Asset

/-- The attributes of a new asset. -/
def noAttrs : AssetAttrs := Vector.replicate 24 0

/-- One call on the map, for a store with room for every asset. A second creation reports
success and changes nothing. -/
def AssetMap.call : ObjectLayer AssetMap
  | .create uuid type size, m =>
    match m uuid with
    | some _ => (.ok [], m)
    | none => (.ok [], Function.update m uuid (some ⟨type, size, [], noAttrs⟩))
  | .read uuid offset size, m =>
    match m uuid with
    | none => (.error .assetNotFound, m)
    | some a =>
      if offset + size ≤ a.data.length then (.ok ((a.data.drop offset).take size), m)
      else (.error .paramError, m)
  | .write uuid data offset, m =>
    match m uuid with
    | none => (.error .assetNotFound, m)
    | some a =>
      -- a write may not leave a gap
      if a.data.length < offset then (.error .paramError, m)
      else (.ok [], Function.update m uuid
        (some { a with data := ObjectMap.overlay a.data offset data }))
  | .getInfo uuid, m =>
    match m uuid with
    | none => (.error .assetNotFound, m)
    | some a => (.ok a.info.encode, m)
  | .getAttributes uuid, m =>
    match m uuid with
    | none => (.error .assetNotFound, m)
    | some a => (.ok a.attrs.toList, m)
  | .setAttributes uuid attrs, m =>
    match m uuid with
    | none => (.error .assetNotFound, m)
    | some a => (.ok [], Function.update m uuid (some { a with attrs := attrs }))
  | .delete uuid, m =>
    match m uuid with
    | none => (.error .assetNotFound, m)
    | some _ => (.ok [], Function.update m uuid none)

end Tfm.Sst
