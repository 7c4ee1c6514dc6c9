import TrustedFirmware.Sst.Assets

/-!
# Secure storage — asset management

`sst_asset_management.c`: the policy database, the check of a caller's permissions, and the
calls that an application makes through the veneers. A call runs in an environment that says
which world the caller is in and which memory it may access; the requests and the outputs lie
in the caller's memory.
-/

namespace Tfm.Sst

open Word32

/-! ## The policy database

Who may do what with which asset. The tables are fixed at build time; the functions that look into
them are those of `sst_asset_management.c`. -/

/-- `struct sst_asset_perm_t`. -/
structure SstAssetPerm where
  app : UInt32
  perm : UInt8
  deriving DecidableEq, Repr

/-- `struct sst_asset_policy_t`. -/
structure SstAssetPolicy where
  type : UInt32
  assetUuid : UInt16
  permsCount : UInt16
  maxSize : UInt16
  permsModesStartIdx : UInt16
  deriving DecidableEq, Repr

/-- `asset_perms` with its `SST_NUM_ASSETS` entries, and `asset_perms_modes`. -/
structure PolicyDb where
  assetPerms : List SstAssetPolicy
  assetPermsModes : Nat → SstAssetPerm

def sAppId : UInt32 := 0xF0000000
def sstPermBypass : UInt8 := 8
def sstPermRead : UInt8 := 4
def sstPermWrite : UInt8 := 2
def sstPermReference : UInt8 := 1
def sstPermForbidden : UInt8 := 0

/-- `SST_PERM_REFERENCE | SST_PERM_READ | SST_PERM_WRITE`. -/
def allPerms : UInt8 := 7

variable (db : PolicyDb)

/-- `sst_am_lookup_app_perms`. -/
def sstAmLookupAppPerms (dbEntry : SstAssetPolicy) (appId : UInt32) : Option SstAssetPerm :=
  ((List.range dbEntry.permsCount.toNat).map fun i =>
    db.assetPermsModes (dbEntry.permsModesStartIdx.toNat + i)).find? (·.app = appId)

/-- `sst_am_lookup_db_entry`. -/
def sstAmLookupDbEntry (uuid : UInt32) : Option SstAssetPolicy :=
  db.assetPerms.find? (·.assetUuid.toNat = uuid.toNat)

/-- `secureCaller` is the verdict of `tfm_core_validate_secure_caller`. -/
def sstAmCheckSNsPolicy (secureCaller : Bool) (appId : UInt32) (requestType : UInt8) : UInt8 :=
  if secureCaller then
    if appId ≠ sAppId then
      -- a secure caller that passes on the id of a non-secure one may read by reference only
      if requestType &&& sstPermRead ≠ 0 then sstPermReference else sstPermForbidden
    else sstPermBypass
  else if appId = sAppId then sstPermForbidden
  else requestType

/-- `sst_am_get_db_entry`: the entry of an asset, if the application has one of the permissions
asked for. -/
def sstAmGetDbEntry (secureCaller : Bool) (appId uuid : UInt32) (requestType : UInt8) :
    Option SstAssetPolicy :=
  let requestType := sstAmCheckSNsPolicy secureCaller appId requestType
  if requestType = sstPermForbidden then none
  else
    match sstAmLookupDbEntry db uuid with
    | none => none
    | some dbEntry =>
      if requestType = sstPermBypass then some dbEntry
      else
        match sstAmLookupAppPerms db dbEntry appId with
        | none => none
        | some permEntry => if permEntry.perm &&& requestType ≠ 0 then some dbEntry else none

/-- The database of `sst_asset_defs.c`. -/
def assetPolicyDb : PolicyDb where
  assetPerms :=
    [⟨0x04000001, 3, 1, 16, 0⟩, ⟨0x04000001, 5, 1, 32, 2⟩, ⟨0x06010000, 6, 1, 128, 3⟩,
     ⟨0x06010000, 7, 1, 256, 4⟩, ⟨0x07010000, 8, 1, 512, 5⟩, ⟨0x08000001, 9, 1, 512, 6⟩,
     ⟨0x08000001, 10, 3, 2048, 7⟩, ⟨0x04000001, 4, 3, 24, 7⟩, ⟨0x02000001, 11, 1, 28, 10⟩,
     ⟨0x02000001, 12, 1, 48, 11⟩]
  assetPermsModes := fun i =>
    [⟨12, 1⟩, ⟨12, 7⟩, ⟨12, 7⟩, ⟨12, 7⟩, ⟨12, 7⟩, ⟨12, 7⟩, ⟨12, 7⟩, ⟨9, 1⟩, ⟨10, 5⟩, ⟨11, 7⟩,
     ⟨10, 7⟩, ⟨11, 3⟩].getD i ⟨0, 0⟩

/-! ## Memory of the caller

Requests and outputs are passed by address. The check of `tfm_core_memory_permission_check` is a
parameter. -/

/-- `TFM_MEMORY_ACCESS_RO` and `TFM_MEMORY_ACCESS_RW`. -/
inductive MemoryAccess where
  | ro
  | rw
  deriving DecidableEq, Repr

/-- The bytes of memory. -/
abbrev Memory : Type := Nat → UInt8

/-- The bytes at an address. -/
def Memory.read (mem : Memory) (addr size : Nat) : List UInt8 :=
  (List.range size).map fun i => mem (addr + i)

/-- Store bytes at an address. -/
def Memory.write (mem : Memory) (addr : Nat) (bytes : List UInt8) : Memory := fun a =>
  if addr ≤ a ∧ a < addr + bytes.length then bytes.getD (a - addr) 0 else mem a

/-- What the core tells the service during a call. -/
structure CallEnv where
  secureCaller : Bool
  memoryPermissionCheck : (addr size : Nat) → MemoryAccess → Bool

/-- `struct tfm_sst_buf_t`. -/
structure SstBuf where
  data : Nat
  size : Nat
  offset : Nat

/-- Read the image of an iovec. -/
def SstBuf.decode (bs : List UInt8) : SstBuf := ⟨ofLe32 bs 0, ofLe32 bs 4, ofLe32 bs 8⟩

def sizeofSstBuf : Nat := 12

/-- The iovec at `src`, when the caller may read it and access the buffer it describes. -/
def validateCopyValidateIovec (env : CallEnv) (mem : Memory) (src : Nat) (access : MemoryAccess) :
    Option SstBuf :=
  if env.memoryPermissionCheck src sizeofSstBuf .ro then
    let dest := SstBuf.decode (mem.read src sizeofSstBuf)
    if env.memoryPermissionCheck dest.data dest.size access then some dest else none
  else none

/-! ## The calls

One function for each veneer: the permission is looked up, the caller's memory is checked, and the
object layer is called. -/

/-- The caller's memory and the object layer. -/
structure AmState (σ : Type) where
  mem : Memory
  store : σ

variable {σ : Type} (layer : ObjectLayer σ) (partialAssetRw : Bool) (env : CallEnv)

/-- A caller's buffer for the output of a call: its address and how many bytes are copied. -/
structure OutputBuf where
  addr : Nat
  size : Nat

/-- Call the object layer; on success its output is copied to the caller's buffer, if there is
one. -/
def AmState.callLayer (call : ObjectCall) (out : Option OutputBuf) (s : AmState σ) :
    Except SstErr Unit × AmState σ :=
  match layer call s.store with
  | (.error e, store) => (.error e, ⟨s.mem, store⟩)
  | (.ok bytes, store) =>
    match out with
    | none => (.ok (), ⟨s.mem, store⟩)
    | some buf => (.ok (), ⟨s.mem.write buf.addr (bufBytes bytes buf.size), store⟩)

/-- `sst_am_get_info`; any permission on the asset is enough. -/
def sstAmGetInfo (appId assetUuid : UInt32) (info : Nat) (s : AmState σ) :
    Except SstErr Unit × AmState σ :=
  if !env.memoryPermissionCheck info psaSstAssetInfoSize .rw then (.error .paramError, s)
  else
    match sstAmGetDbEntry db env.secureCaller appId assetUuid allPerms with
    | none => (.error .assetNotFound, s)
    | some _ => s.callLayer layer (.getInfo assetUuid) (some ⟨info, psaSstAssetInfoSize⟩)

/-- `sst_am_get_attributes`; any permission on the asset is enough. -/
def sstAmGetAttributes (appId assetUuid : UInt32) (attrs : Nat) (s : AmState σ) :
    Except SstErr Unit × AmState σ :=
  if !env.memoryPermissionCheck attrs psaSstAssetAttrSize .rw then (.error .paramError, s)
  else
    match sstAmGetDbEntry db env.secureCaller appId assetUuid allPerms with
    | none => (.error .assetNotFound, s)
    | some _ => s.callLayer layer (.getAttributes assetUuid) (some ⟨attrs, psaSstAssetAttrSize⟩)

/-- Any permission on the asset is enough to set its attributes. -/
def sstAmSetAttributes (appId assetUuid : UInt32) (attrs : Nat) (s : AmState σ) :
    Except SstErr Unit × AmState σ :=
  if !env.memoryPermissionCheck attrs psaSstAssetAttrSize .ro then (.error .paramError, s)
  else
    match sstAmGetDbEntry db env.secureCaller appId assetUuid allPerms with
    | none => (.error .assetNotFound, s)
    | some _ =>
      let value : AssetAttrs := Vector.ofFn fun i => s.mem (attrs + i)
      if !value.validityUnset then (.error .paramError, s)
      else s.callLayer layer (.setAttributes assetUuid value) none

/-- `sst_am_create`; type and size come from the policy. -/
def sstAmCreate (appId assetUuid : UInt32) (s : AmState σ) : Except SstErr Unit × AmState σ :=
  match sstAmGetDbEntry db env.secureCaller appId assetUuid sstPermWrite with
  | none => (.error .assetNotFound, s)
  | some dbEntry =>
    s.callLayer layer (.create assetUuid dbEntry.type.toNat dbEntry.maxSize.toNat) none

/-- `sst_am_read`. -/
def sstAmRead (appId assetUuid : UInt32) (data : Nat) (s : AmState σ) :
    Except SstErr Unit × AmState σ :=
  match sstAmGetDbEntry db env.secureCaller appId assetUuid sstPermRead with
  | none => (.error .assetNotFound, s)
  | some _ =>
    match validateCopyValidateIovec env s.mem data .rw with
    | none => (.error .assetNotFound, s)
    | some localData =>
      if !partialAssetRw ∧ localData.offset ≠ 0 then (.error .paramError, s)
      else s.callLayer layer (.read assetUuid localData.offset localData.size)
        (some ⟨localData.data, localData.size⟩)

/-- `sst_am_write`; what is written has to stay inside of the size that the policy allows. -/
def sstAmWrite (appId assetUuid : UInt32) (data : Nat) (s : AmState σ) :
    Except SstErr Unit × AmState σ :=
  match sstAmGetDbEntry db env.secureCaller appId assetUuid sstPermWrite with
  | none => (.error .assetNotFound, s)
  | some dbEntry =>
    match validateCopyValidateIovec env s.mem data .ro with
    | none => (.error .assetNotFound, s)
    | some localData =>
      match sstUtilsCheckContainedIn 0 dbEntry.maxSize.toNat localData.offset localData.size with
      | .error e => (.error e, s)
      | .ok _ =>
        if !partialAssetRw ∧ localData.offset ≠ 0 then (.error .paramError, s)
        else s.callLayer layer
          (.write assetUuid (s.mem.read localData.data localData.size) localData.offset) none

/-- `sst_am_delete`. -/
def sstAmDelete (appId assetUuid : UInt32) (s : AmState σ) : Except SstErr Unit × AmState σ :=
  match sstAmGetDbEntry db env.secureCaller appId assetUuid sstPermWrite with
  | none => (.error .assetNotFound, s)
  | some _ => s.callLayer layer (.delete assetUuid) none

/-! ## Sequences of calls

What applications do with the service over time. -/

/-- A function of the asset management, with the pointer it is given. -/
inductive AmFunction where
  | getInfo (info : Nat)
  | getAttributes (attrs : Nat)
  | setAttributes (attrs : Nat)
  | create
  | read (data : Nat)
  | write (data : Nat)
  | delete

/-- A call on behalf of an application. -/
structure AmCall where
  env : CallEnv
  appId : UInt32
  assetUuid : UInt32
  function : AmFunction

/-- Dispatch a call. -/
def AmCall.run (c : AmCall) (s : AmState σ) : Except SstErr Unit × AmState σ :=
  match c.function with
  | .getInfo info => sstAmGetInfo db layer c.env c.appId c.assetUuid info s
  | .getAttributes attrs => sstAmGetAttributes db layer c.env c.appId c.assetUuid attrs s
  | .setAttributes attrs => sstAmSetAttributes db layer c.env c.appId c.assetUuid attrs s
  | .create => sstAmCreate db layer c.env c.appId c.assetUuid s
  | .read data => sstAmRead db layer partialAssetRw c.env c.appId c.assetUuid data s
  | .write data => sstAmWrite db layer partialAssetRw c.env c.appId c.assetUuid data s
  | .delete => sstAmDelete db layer c.env c.appId c.assetUuid s

/-- The results of a sequence of calls, and the state it leads to. -/
def runAm : List AmCall → AmState σ → List (Except SstErr Unit) × AmState σ
  | [], s => ([], s)
  | c :: cs, s =>
    let (res, s) := c.run db layer partialAssetRw s
    let (rest, s) := runAm cs s
    (res :: rest, s)

end Tfm.Sst
