import TrustedFirmware.Sst.ObjectSystem

/-!
# Secure storage — the global lock of the object layer

`sst_global_lock` and `sst_global_unlock` are stubs in `sst_utils.c`. Here they record that the lock
was acquired or released, and the functions of `sst_object_system.c` are written once more with
their calls of the two. A function that the source leaves by an early `return` inside the locked
region is one whose error ends the `do` block in front of the release; where the source keeps the
error and returns it behind `sst_global_unlock`, the step is run under `releasing`.
-/

namespace Tfm.Sst

open Word32

/-- The error is one that a call returns with. -/
def SstErr.Returns (e : SstErr) : Prop := e ≠ .noReturn ∧ e ≠ .bufferOverrun

instance (e : SstErr) : Decidable e.Returns := inferInstanceAs (Decidable (_ ∧ _))

/-- What a call does to the lock. -/
inductive LockEvent where
  | acquire
  | release
  deriving DecidableEq, Repr

/-- The state of the core, and what the current call did to the lock. -/
structure Locked (S : Type) where
  core : S
  events : List LockEvent

variable {S α : Type}

/-! ## The lock

Two events and two ways to run a step under the lock. -/

/-- `sst_global_lock`. -/
def sstGlobalLock : ObjM (StateM (Locked S)) Unit := fun st y =>
  ((.ok (), st), { y with events := y.events ++ [.acquire] })

/-- `sst_global_unlock`. -/
def sstGlobalUnlock : ObjM (StateM (Locked S)) Unit := fun st y =>
  ((.ok (), st), { y with events := y.events ++ [.release] })

/-- A step that does not use the lock. -/
def quietly (x : ObjM (StateM S) α) : ObjM (StateM (Locked S)) α := fun st y =>
  ((x st y.core).1, { y with core := (x st y.core).2 })

/-- Run a step and release the lock, whatever the step reports. -/
def releasing (x : ObjM (StateM (Locked S)) α) : ObjM (StateM (Locked S)) α := fun st y =>
  let o := x st y
  (do
    sstGlobalUnlock
    ObjM.ofExcept o.1.1 : ObjM (StateM (Locked S)) α) o.1.2 o.2

/-! ## `sst_object_system.c`

The functions once more, with every path on which the source leaves without a release. -/

/-- `sst_system_ready = SST_SYSTEM_READY`. -/
def setSystemReady : ObjM (StateM S) Unit := fun st => pure (.ok (), { st with systemReady := true })

/-- `sst_system_prepare`; the error of the core is returned behind the release. -/
def sstSystemPrepare (sstCorePrepare : StateM S (Except SstErr Unit)) :
    ObjM (StateM (Locked S)) Unit := do
  sstGlobalLock
  releasing (quietly do
    ObjM.core sstCorePrepare
    setSystemReady)

variable (cfg : BuildOptions) (core : CoreInterface (StateM S))

namespace WithLock

/-- Every error is returned without a release. -/
def sstObjectRead (uuid : UInt32) (offset size : Nat) : ObjM (StateM (Locked S)) (List UInt8) := do
  sstGlobalLock
  let data ← quietly (Sst.sstObjectRead cfg core uuid offset size)
  sstGlobalUnlock
  pure data

/-- The plain build returns early when the core cannot reserve the object. -/
def sstObjectCreate (uuid : UInt32) (type size : Nat) : ObjM (StateM (Locked S)) Unit := do
  sstGlobalLock
  fun st y =>
    let existing := core.exist uuid y.core
    let y := { y with core := existing.2 }
    (if existing.1 = .error .assetNotFound then do
        ObjM.setObject (sstObjectInitObject cfg uuid type size)
        if cfg.encryption then releasing (quietly (sstEncryptedObjectCreate cfg core uuid))
        else
          quietly (ObjM.core (core.create uuid (sstObjectSize cfg size)))
          let st ← ObjM.getStatics
          releasing (quietly (ObjM.core (core.write uuid st.object 0 cfg.objectHeaderSize)))
      else releasing (ObjM.ofExcept existing.1) : ObjM (StateM (Locked S)) Unit) st y

/-- The object data and its size are updated, and the object is stored again. -/
def sstObjectUpdate (uuid : UInt32) (data : List UInt8) (offset : Nat) : ObjM (StateM S) Unit := do
  let offset := if cfg.enablePartialAssetRw then offset else 0
  ObjM.copyToObject (cfg.objectHeaderSize + offset) data
  let st ← ObjM.getStatics
  let newSize := add32 offset data.length
  if newSize > (objectInfo cfg st.object).sizeCurrent then
    ObjM.setObject (setSizeCurrent cfg st.object newSize)
  if cfg.encryption then sstEncryptedObjectWrite cfg core uuid
  else
    let st ← ObjM.getStatics
    ObjM.core (core.write uuid st.object 0
      (sstObjectSize cfg (objectInfo cfg st.object).sizeCurrent))

/-- Early returns after the reads and after the check of the offset. -/
def sstObjectWrite (uuid : UInt32) (data : List UInt8) (offset : Nat) :
    ObjM (StateM (Locked S)) Unit := do
  sstGlobalLock
  quietly (sstObjectLoad cfg core uuid)
  let st ← ObjM.getStatics
  if offset > (objectInfo cfg st.object).sizeCurrent then ObjM.fail .paramError
  else releasing (quietly (sstObjectUpdate cfg core uuid data offset))

/-- An error of the read is returned without a release. -/
def sstObjectGetInfo (uuid : UInt32) : ObjM (StateM (Locked S)) (List UInt8) := do
  sstGlobalLock
  let info ← quietly (Sst.sstObjectGetInfo cfg core uuid)
  sstGlobalUnlock
  pure info

/-- An error of the read is returned without a release. -/
def sstObjectGetAttributes (uuid : UInt32) : ObjM (StateM (Locked S)) (List UInt8) := do
  sstGlobalLock
  let attrs ← quietly (Sst.sstObjectGetAttributes cfg core uuid)
  sstGlobalUnlock
  pure attrs

/-- The attributes are set in `g_sst_object`, and the object is stored again. -/
def sstObjectUpdateAttributes (uuid : UInt32) (attrs : AssetAttrs) : ObjM (StateM S) Unit := do
  ObjM.copyToObject cfg.attrOffset attrs.toList
  if cfg.encryption then sstEncryptedObjectWrite cfg core uuid
  else
    let st ← ObjM.getStatics
    ObjM.core (core.write uuid st.object 0 cfg.objectHeaderSize)

/-- An early return after the read. -/
def sstObjectSetAttributes (uuid : UInt32) (attrs : AssetAttrs) : ObjM (StateM (Locked S)) Unit := do
  sstGlobalLock
  quietly (sstObjectLoadHeader cfg core uuid)
  releasing (quietly (sstObjectUpdateAttributes cfg core uuid attrs))

/-- The lock is always released. -/
def sstObjectDelete (uuid : UInt32) : ObjM (StateM (Locked S)) Unit := do
  sstGlobalLock
  releasing (quietly (Sst.sstObjectDelete core uuid))

/-- One call of the object layer. A call before `sst_system_prepare` has succeeded does not touch
the lock. -/
def sstObjectCall (call : ObjectCall) : ObjM (StateM (Locked S)) (List UInt8) := do
  let st ← ObjM.getStatics
  if !st.systemReady then ObjM.fail .systemError
  else match call with
    | .create uuid type size => do
      sstObjectCreate cfg core uuid type size
      pure []
    | .read uuid offset size => sstObjectRead cfg core uuid offset size
    | .write uuid data offset => do
      sstObjectWrite cfg core uuid data offset
      pure []
    | .getInfo uuid => sstObjectGetInfo cfg core uuid
    | .getAttributes uuid => sstObjectGetAttributes cfg core uuid
    | .setAttributes uuid attrs => do
      sstObjectSetAttributes cfg core uuid attrs
      pure []
    | .delete uuid => do
      sstObjectDelete core uuid
      pure []

end WithLock

/-- The calls that use the lock. -/
inductive SystemCall where
  | prepare
  | object (call : ObjectCall)

variable (sstCorePrepare : StateM S (Except SstErr Unit))

/-- The function of a call. -/
def SystemCall.prog : SystemCall → ObjM (StateM (Locked S)) (List UInt8)
  | .prepare => do
    sstSystemPrepare sstCorePrepare
    pure []
  | .object call => WithLock.sstObjectCall cfg core call

end Tfm.Sst
