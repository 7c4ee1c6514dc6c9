import TrustedFirmware.Sst.Assets
import TrustedFirmware.Sst.Core.Object

/-!
# Secure storage — the object layer

`sst_object_system.c` and `sst_encrypted_object.c`: assets are stored as objects of the core, a
header followed by the data, and in the encrypted build the data is encrypted and the header
authenticated. All functions share the statics `g_sst_object` and `sst_plaintext_buf`. The code
is written over the functions of the core that it calls, so that it can be run over the model of
`sst_core.c` as well as over what the core is for.
-/

namespace Tfm.Sst

open Word32

/-! ## The functions that the object layer calls

The core as an interface, over any monad. -/

/-- The functions of `sst_core.h`, and `sst_crypto_get_iv`. -/
structure CoreInterface (m : Type → Type) where
  exist : (uuid : UInt32) → m (Except SstErr Unit)
  create : (uuid : UInt32) → (size : Nat) → m (Except SstErr Unit)
  write : (uuid : UInt32) → (data : List UInt8) → (offset size : Nat) → m (Except SstErr Unit)
  read : (uuid : UInt32) → (offset size : Nat) → m (Except SstErr (List UInt8))
  getInfo : (uuid : UInt32) → m (Except SstErr CoreObjInfo)
  delete : (uuid : UInt32) → m (Except SstErr Unit)
  cryptoGetIv : m (Vector UInt8 12)

/-! ## Statics

The buffers that all calls share. They keep their contents from one call to the next, and errors do
not reset them. -/

/-- `sst_system_ready`, `g_sst_object` and `sst_plaintext_buf`. -/
structure ObjectStatics where
  systemReady : Bool
  object : List UInt8
  plaintextBuf : List UInt8

/-- A function of the object layer. -/
def ObjM (m : Type → Type) (α : Type) : Type := ObjectStatics → m (Except SstErr α × ObjectStatics)

namespace ObjM

variable {m : Type → Type} [Monad m] {α β : Type}

instance : Monad (ObjM m) where
  pure a := fun st => pure (.ok a, st)
  bind x f := fun st => do
    let (res, st) ← x st
    match res with
    | .ok a => f a st
    | .error e => pure (.error e, st)

/-- Return an error. -/
def fail (e : SstErr) : ObjM m α := fun st => pure (.error e, st)

/-- Go on with a value that is already a result code. -/
def ofExcept : Except SstErr α → ObjM m α
  | .ok a => pure a
  | .error e => fail e

/-- Call a function that leaves the statics alone. -/
def core (x : m (Except SstErr α)) : ObjM m α := fun st => do
  let res ← x
  pure (res, st)

/-- The statics. -/
def getStatics : ObjM m ObjectStatics := fun st => pure (.ok st, st)

/-- Store into `g_sst_object`. -/
def setObject (object : List UInt8) : ObjM m Unit := fun st =>
  pure (.ok (), { st with object := object })

/-- Store into `sst_plaintext_buf`. -/
def setPlaintextBuf (plaintextBuf : List UInt8) : ObjM m Unit := fun st =>
  pure (.ok (), { st with plaintextBuf := plaintextBuf })

/-- Copy into `g_sst_object`. -/
def copyToObject (pos : Nat) (bytes : List UInt8) : ObjM m Unit := do
  let st ← getStatics
  let object ← ofExcept (memcpyInto st.object pos bytes)
  setObject object

end ObjM

/-! ## The object header

The encrypted build puts `sst_crypto_t` in front of the members, and thereby aligns the
attributes; the plain build has four bytes of padding in front of them. -/

namespace BuildOptions

variable (cfg : BuildOptions)

/-- `offsetof(struct sst_obj_header_t, uuid)`. -/
def uuidOffset : Nat := if cfg.encryption then 28 else 0

/-- `offsetof(struct sst_obj_header_t, version)`. -/
def versionOffset : Nat := cfg.uuidOffset + 4

/-- `offsetof(struct sst_obj_header_t, info)`. -/
def infoOffset : Nat := cfg.uuidOffset + 8

/-- `offsetof(struct sst_obj_header_t, attr)`. -/
def attrOffset : Nat := if cfg.encryption then 48 else 24

/-- The size of `sst_object_t` without trailing padding. -/
def objectBufSize : Nat := cfg.objectHeaderSize + cfg.maxAssetSize

end BuildOptions

/-- Offset of `ref.iv` in `union sst_crypto_t`. -/
def ivOffset : Nat := 16

def sstCryptoSize : Nat := 28

variable (cfg : BuildOptions)

/-- `header.info`. -/
def objectInfo (object : List UInt8) : AssetInfo := AssetInfo.decode (object.drop cfg.infoOffset)

/-- `header.attr`. -/
def objectAttrs (object : List UInt8) : AssetAttrs :=
  Vector.ofFn fun i => object.getD (cfg.attrOffset + i) 0

/-- `header.info.size_current = size`. -/
def setSizeCurrent (object : List UInt8) (size : Nat) : List UInt8 :=
  sstUtilsMemcpy object (cfg.infoOffset + 4) (le32 size)

/-- `SST_CRYPTO_ASSOCIATED_DATA`: the header behind the crypto metadata. -/
def associatedData (object : List UInt8) : List UInt8 :=
  bufBytes (object.drop sstCryptoSize) (cfg.objectHeaderSize - sstCryptoSize)

/-- `SST_OBJECT_SIZE` and `SST_ENCRYPTED_SIZE`. -/
def sstObjectSize (size : Nat) : Nat := add32 cfg.objectHeaderSize size

/-- `sst_object_init_object`. -/
def sstObjectInitObject (uuid : UInt32) (type size : Nat) : List UInt8 :=
  let object := List.replicate cfg.objectBufSize 0
  let object := sstUtilsMemcpy object cfg.uuidOffset (le32 uuid.toNat)
  let object := sstUtilsMemcpy object cfg.versionOffset (le32 0)
  let object := sstUtilsMemcpy object (cfg.infoOffset + 8) (le32 size)
  sstUtilsMemcpy object cfg.infoOffset (le32 type)

variable {m : Type → Type} [Monad m] (core : CoreInterface m)

/-! ## `sst_encrypted_object.c`

An object is stored as one AES-GCM message: the data is encrypted, and the header behind the crypto
metadata is authenticated with it. -/

/-- Decrypt `cur_size` bytes of `obj->data` through the plaintext buffer. The library would read
and write past the two buffers for a larger size. -/
def sstObjectAuthDecrypt (curSize : Nat) : ObjM m Unit := do
  ObjM.ofExcept cfg.crypto.gcmSetkey
  ObjM.setPlaintextBuf (List.replicate cfg.maxAssetSize 0)
  let st ← ObjM.getStatics
  if curSize > cfg.maxAssetSize then ObjM.fail .bufferOverrun
  else
    let tag := bufBytes st.object sstTagLenBytes
    let iv := bufBytes (st.object.drop ivOffset) 12
    let plain ← ObjM.ofExcept (cfg.crypto.gcmAuthDecrypt iv (associatedData cfg st.object)
      (bufBytes (st.object.drop cfg.objectHeaderSize) curSize) tag)
    ObjM.setPlaintextBuf (sstUtilsMemcpy st.plaintextBuf 0 plain)
    let st ← ObjM.getStatics
    ObjM.copyToObject cfg.objectHeaderSize
      (bufBytes st.plaintextBuf (objectInfo cfg st.object).sizeCurrent)

/-- Encrypt `cur_size` bytes of `obj->data` under a new IV. -/
def sstObjectAuthEncrypt (curSize : Nat) : ObjM m Unit := do
  ObjM.ofExcept cfg.crypto.gcmSetkey
  let iv ← ObjM.core (Except.ok <$> core.cryptoGetIv)
  ObjM.copyToObject ivOffset iv.toList
  let st ← ObjM.getStatics
  if curSize > cfg.maxAssetSize then ObjM.fail .bufferOverrun
  else
    let (tag, cipher) ← ObjM.ofExcept (cfg.crypto.gcmCryptAndTag iv.toList
      (associatedData cfg st.object) (bufBytes (st.object.drop cfg.objectHeaderSize) curSize))
    ObjM.copyToObject 0 tag.toList
    ObjM.setPlaintextBuf (sstUtilsMemcpy st.plaintextBuf 0 cipher)
    let st ← ObjM.getStatics
    ObjM.copyToObject cfg.objectHeaderSize (bufBytes st.plaintextBuf curSize)

/-- The object is reserved first, and its header is written in a second step. -/
def sstEncryptedObjectCreate (uuid : UInt32) : ObjM m Unit := do
  let st ← ObjM.getStatics
  ObjM.core (core.create uuid (sstObjectSize cfg (objectInfo cfg st.object).sizeMax))
  sstObjectAuthEncrypt cfg core 0
  let st ← ObjM.getStatics
  ObjM.core (core.write uuid st.object 0 (sstObjectSize cfg 0))

/-- `sst_read_encrypted_object`: the whole object is read and decrypted. -/
def sstReadEncryptedObject (uuid : UInt32) : ObjM m Unit := do
  let objInfo ← ObjM.core (core.getInfo uuid)
  let plaintextSize := sub32 objInfo.sizeCurrent cfg.objectHeaderSize
  ObjM.setObject (List.replicate cfg.objectBufSize 0)
  let bytes ← ObjM.core (core.read uuid 0 objInfo.sizeCurrent)
  ObjM.copyToObject 0 bytes
  sstObjectAuthDecrypt cfg plaintextSize

/-- `sst_encrypted_object_read`. -/
def sstEncryptedObjectRead (uuid : UInt32) : ObjM m Unit := sstReadEncryptedObject cfg core uuid

/-- `sst_encrypted_object_write`. -/
def sstEncryptedObjectWrite (uuid : UInt32) : ObjM m Unit := do
  let st ← ObjM.getStatics
  sstObjectAuthEncrypt cfg core (objectInfo cfg st.object).sizeCurrent
  let st ← ObjM.getStatics
  ObjM.core (core.write uuid st.object 0
    (sstObjectSize cfg (objectInfo cfg st.object).sizeCurrent))

/-! ## `sst_object_system.c`

The calls of the interface. Each of them loads the object, or its header, changes it in the static
buffer, and stores it again. -/

/-- Read header and data of an object into `g_sst_object`. -/
def sstObjectLoad (uuid : UInt32) : ObjM m Unit :=
  if cfg.encryption then sstEncryptedObjectRead cfg core uuid
  else do
    let header ← ObjM.core (core.read uuid 0 cfg.objectHeaderSize)
    ObjM.copyToObject 0 header
    let st ← ObjM.getStatics
    let sizeCurrent := (objectInfo cfg st.object).sizeCurrent
    if sizeCurrent > 0 then
      let data ← ObjM.core (core.read uuid cfg.objectHeaderSize sizeCurrent)
      ObjM.copyToObject cfg.objectHeaderSize data

/-- Read an object as far as its header is needed: the encrypted build reads all of it. -/
def sstObjectLoadHeader (uuid : UInt32) : ObjM m Unit :=
  if cfg.encryption then sstEncryptedObjectRead cfg core uuid
  else do
    let header ← ObjM.core (core.read uuid 0 cfg.objectHeaderSize)
    ObjM.copyToObject 0 header

/-- `sst_object_read`; without partial access a read starts at the first byte, whatever the offset.
-/
def sstObjectRead (uuid : UInt32) (offset size : Nat) : ObjM m (List UInt8) := do
  sstObjectLoad cfg core uuid
  let st ← ObjM.getStatics
  ObjM.ofExcept (sstUtilsCheckContainedIn 0 (objectInfo cfg st.object).sizeCurrent offset size)
  let start := if cfg.enablePartialAssetRw then offset else 0
  pure (bufBytes (st.object.drop (cfg.objectHeaderSize + start)) size)

/-- `sst_object_create`: an object that exists is left alone, and the creation reports success. -/
def sstObjectCreate (uuid : UInt32) (type size : Nat) : ObjM m Unit := fun st => do
  let existing ← core.exist uuid
  match existing with
  | .error .assetNotFound =>
    (do
      ObjM.setObject (sstObjectInitObject cfg uuid type size)
      if cfg.encryption then sstEncryptedObjectCreate cfg core uuid
      else
        ObjM.core (core.create uuid (sstObjectSize cfg size))
        let st ← ObjM.getStatics
        ObjM.core (core.write uuid st.object 0 cfg.objectHeaderSize) : ObjM m Unit) st
  | res => pure (res, st)

/-- `sst_object_write`. -/
def sstObjectWrite (uuid : UInt32) (data : List UInt8) (offset : Nat) : ObjM m Unit := do
  sstObjectLoad cfg core uuid
  let st ← ObjM.getStatics
  if offset > (objectInfo cfg st.object).sizeCurrent then ObjM.fail .paramError
  else
    let offset := if cfg.enablePartialAssetRw then offset else 0
    ObjM.copyToObject (cfg.objectHeaderSize + offset) data
    let st ← ObjM.getStatics
    let newSize := add32 offset data.length
    if newSize > (objectInfo cfg st.object).sizeCurrent then
      ObjM.setObject (setSizeCurrent cfg st.object newSize)
    if cfg.encryption then sstEncryptedObjectWrite cfg core uuid
    else
      let st ← ObjM.getStatics
      ObjM.core (core.write uuid st.object 0
        (sstObjectSize cfg (objectInfo cfg st.object).sizeCurrent))

/-- `sst_object_get_info`. -/
def sstObjectGetInfo (uuid : UInt32) : ObjM m (List UInt8) := do
  sstObjectLoadHeader cfg core uuid
  let st ← ObjM.getStatics
  pure (bufBytes (st.object.drop cfg.infoOffset) psaSstAssetInfoSize)

/-- `sst_object_get_attributes`. -/
def sstObjectGetAttributes (uuid : UInt32) : ObjM m (List UInt8) := do
  sstObjectLoadHeader cfg core uuid
  let st ← ObjM.getStatics
  pure (bufBytes (st.object.drop cfg.attrOffset) psaSstAssetAttrSize)

/-- `sst_object_set_attributes`; the plain build stores the header only. -/
def sstObjectSetAttributes (uuid : UInt32) (attrs : AssetAttrs) : ObjM m Unit := do
  sstObjectLoadHeader cfg core uuid
  ObjM.copyToObject cfg.attrOffset attrs.toList
  if cfg.encryption then sstEncryptedObjectWrite cfg core uuid
  else
    let st ← ObjM.getStatics
    ObjM.core (core.write uuid st.object 0 cfg.objectHeaderSize)

/-- `sst_object_delete`. -/
def sstObjectDelete (uuid : UInt32) : ObjM m Unit := ObjM.core (core.delete uuid)

/-- One call of the object layer. Before `sst_system_prepare` has succeeded every call reports a
system error. -/
def sstObjectCall (call : ObjectCall) : ObjM m (List UInt8) := do
  let st ← ObjM.getStatics
  if !st.systemReady then ObjM.fail .systemError
  else match call with
    | .create uuid type size => do
      sstObjectCreate cfg core uuid type size
      pure []
    | .read uuid offset size => sstObjectRead cfg core uuid offset size
    | .write uuid data offset => do
      sstObjectWrite cfg core uuid data offset
      pure []
    | .getInfo uuid => sstObjectGetInfo cfg core uuid
    | .getAttributes uuid => sstObjectGetAttributes cfg core uuid
    | .setAttributes uuid attrs => do
      sstObjectSetAttributes cfg core uuid attrs
      pure []
    | .delete uuid => do
      sstObjectDelete core uuid
      pure []

end Tfm.Sst
