import TrustedFirmware.Lib.Word32

/-!
# Secure partition manager — calling a partition (isolation level 1)

The partition database of `spm_api.c` and the calls of `tfm_secure_api.c` that enter a secure
partition (`tfm_core_sfn_request_function`) and leave it (`tfm_pop_lock`, reached from
`tfm_core_call_sfn` or from the return handler). An access behind the end of the database and
a null pointer that is followed are faults, as is the endless loop of
`tfm_secure_api_error_handler`; what the core reports to its callers is a status.
-/

namespace Tfm.Spm

open Word32

/-! ## The partition database

One entry for each partition: what the manifest fixes, and what a call changes. The first two
entries are the non-secure side and the core itself. -/

def spmInvalidPartitionIdx : Nat := 0xFFFFFFFF
def invalidPartitionId : Nat := 0xFFFFFFFF
def tfmSpNonSecureId : Nat := 0
def tfmSpCoreId : Nat := 1
def excNumThreadMode : Nat := 0
def excNumSvcall : Nat := 11

/-- `enum spm_part_state_t`. -/
inductive PartState where
  | uninit
  | idle
  | running
  | suspended
  | blocked
  | closed
  deriving DecidableEq, Repr

/-- `enum tfm_buffer_share_region_e`. -/
inductive BufferShare where
  | disable
  | nsCode
  | scratch
  | priv
  | default
  deriving DecidableEq, Repr

/-- `struct spm_partition_static_data_t`, without the init function. -/
structure PartitionStaticData where
  partitionId : Nat
  partitionFlags : Nat
  deriving DecidableEq, Repr

/-- `flags & SPM_PART_FLAG_SECURE`. -/
def PartitionStaticData.isSecure (d : PartitionStaticData) : Bool := d.partitionFlags.testBit 0

/-- `struct spm_partition_runtime_data_t`. -/
structure PartitionRuntimeData where
  partitionState : PartState
  callerPartitionIdx : Nat
  origPsp : Nat
  origPsplim : Nat
  origLr : Nat
  share : BufferShare
  deriving DecidableEq, Repr

/-- `struct spm_partition_desc_t`. -/
structure PartitionDesc where
  staticData : PartitionStaticData
  runtimeData : PartitionRuntimeData
  deriving DecidableEq, Repr

/-- The partition database, the statics of `tfm_secure_api.c` and the process stack registers. -/
structure SpmState where
  partitionCount : Nat
  partitions : Nat → PartitionDesc
  runningPartitionIdx : Nat
  tfmSecureLock : Int
  tfmSecureApiInit : Bool
  psp : Nat
  psplim : Nat

/-- What the build fixes: addresses of the linker, and whether `TFM_CORE_DEBUG` is set.
`returnFromSfn` stands for `(uint32_t)return_from_sfn | 1`. -/
structure Platform where
  secureStackBase : Nat
  secureStackLimit : Nat
  returnFromSfn : Nat
  coreDebug : Bool

/-- How a call can go wrong without a status. -/
inductive SpmFault where
  /-- An access to an entry behind the end of the database. -/
  | outOfRange (idx : Nat)
  | nullDereference
  /-- `tfm_secure_api_error_handler` does not return. -/
  | halted
  deriving DecidableEq, Repr

/-- `enum tfm_status_e`, as far as the core uses it. -/
inductive TfmStatus where
  | success
  | partitionBusy
  | secureLockFailed
  | secureUnlockFailed
  | errorPartitionNonReentrant
  | errorInvalidParameter
  | errorInvalidExcMode
  | errorNsThreadModeCall
  | errorSecureDomainLocked
  deriving DecidableEq, Repr

variable (pl : Platform)

namespace SpmState

variable (s : SpmState)

def staticData (idx : Nat) : PartitionStaticData := (s.partitions idx).staticData

def runtimeData (idx : Nat) : PartitionRuntimeData := (s.partitions idx).runtimeData

/-- Rewrite the runtime data of an entry. -/
def modifyRuntimeData (idx : Nat) (f : PartitionRuntimeData → PartitionRuntimeData) : SpmState :=
  let entry := s.partitions idx
  { s with
    partitions := Function.update s.partitions idx
      ⟨entry.staticData, f entry.runtimeData⟩ }

/-- Read an entry. -/
def getPartition (idx : Nat) : Except SpmFault PartitionDesc :=
  if idx < s.partitionCount then .ok (s.partitions idx) else .error (.outOfRange idx)

/-- Update the runtime data of an entry. -/
def setRuntimeData (idx : Nat) (f : PartitionRuntimeData → PartitionRuntimeData) :
    Except SpmFault SpmState :=
  if idx < s.partitionCount then .ok (s.modifyRuntimeData idx f) else .error (.outOfRange idx)

end SpmState

/-- `get_partition_idx`: the first entry with this id. -/
def getPartitionIdx (s : SpmState) (partitionId : Nat) : Nat :=
  if partitionId = invalidPartitionId then spmInvalidPartitionIdx
  else
    ((List.range s.partitionCount).find? fun i => (s.staticData i).partitionId = partitionId).getD
      spmInvalidPartitionIdx

/-- A partition that is set running becomes the running partition of the database. -/
def tfmSpmPartitionSetState (s : SpmState) (partitionIdx : Nat) (state : PartState) :
    Except SpmFault SpmState := do
  let s ← s.setRuntimeData partitionIdx fun r => { r with partitionState := state }
  if state = .running then
    pure { s with runningPartitionIdx := partitionIdx }
  else
    pure s

/-- What a call has stored is forgotten. -/
def tfmSpmPartitionCleanupContext (s : SpmState) (partitionIdx : Nat) : Except SpmFault SpmState :=
  s.setRuntimeData partitionIdx fun r => { r with
    callerPartitionIdx := spmInvalidPartitionIdx
    origPsp := 0
    origPsplim := 0
    origLr := 0
    share := .disable }

/-! ## Entering a partition

A request is checked for its descriptor, then by the rules for who may call in which mode, and last
against the database, by `tfm_push_lock`. -/

/-- `struct tfm_sfn_req_s`, without the arguments. -/
structure SfnReq where
  spId : Nat
  sfnNull : Bool
  excNum : Nat
  nsCaller : Bool
  deriving DecidableEq, Repr

/-- The part of `tfm_push_lock` that saves the caller's context and switches to the partition.
At level 1 the stack is switched only when the request comes from handler mode. -/
def tfmPushLock.enter (s : SpmState) (desc : SfnReq) (lr callerPartitionIdx partitionIdx : Nat) :
    Except SpmFault (TfmStatus × SpmState) := do
  let psp := s.psp
  let psplim := s.psplim
  let s ← s.setRuntimeData partitionIdx fun r => { r with
    origPsp := psp
    origPsplim := psplim
    origLr := lr
    callerPartitionIdx := callerPartitionIdx
    share := if desc.nsCaller then .nsCode else .scratch }
  let s := if desc.excNum ≠ excNumThreadMode ∨ s.tfmSecureApiInit then
      -- `prepare_partition_ctx` stacks eight words
      { s with psp := sub32 pl.secureStackLimit 32, psplim := pl.secureStackBase }
    else s
  let s ← tfmSpmPartitionSetState s callerPartitionIdx .blocked
  let s ← tfmSpmPartitionSetState s partitionIdx .running
  pure (.success, { s with tfmSecureLock := s.tfmSecureLock + 1 })

/-- Nothing is changed unless the partition is entered. -/
def tfmPushLock (s : SpmState) (desc : SfnReq) (lr : Nat) :
    Except SpmFault (TfmStatus × SpmState) := do
  let callerPartitionIdx := s.runningPartitionIdx
  if callerPartitionIdx = spmInvalidPartitionIdx then
    pure (.secureLockFailed, s)
  else
    let caller ← s.getPartition callerPartitionIdx
    if caller.staticData.isSecure ≠ !desc.nsCaller then
      pure (.secureLockFailed, s)
    else
      let partitionIdx := getPartitionIdx s desc.spId
      let target ← s.getPartition partitionIdx
      let state := target.runtimeData.partitionState
      -- the core initialises the partition
      if s.tfmSecureApiInit ∧ caller.staticData.partitionId = tfmSpCoreId ∧ state = .uninit then
        tfmPushLock.enter pl s desc lr callerPartitionIdx partitionIdx
      else if state = .running ∨ state = .suspended ∨ state = .blocked then
        pure (.errorPartitionNonReentrant, s)
      else if state ≠ .idle then
        pure (.secureLockFailed, s)
      else
        tfmPushLock.enter pl s desc lr callerPartitionIdx partitionIdx

/-- The descriptor may be a null pointer. -/
def tfmCheckSfnReqIntegrity : Option SfnReq → TfmStatus
  | none => .errorInvalidParameter
  | some desc => if desc.spId = 0 ∨ desc.sfnNull then .errorInvalidParameter else .success

/-- The non-secure side calls from handler mode while the lock is free, the secure side from thread
mode. -/
def tfmCoreCheckSfnReqRules (s : SpmState) (desc : SfnReq) : TfmStatus :=
  if desc.excNum ≠ excNumThreadMode ∧ desc.excNum ≠ excNumSvcall then .errorInvalidExcMode
  else if desc.nsCaller then
    if desc.excNum = excNumThreadMode then .errorNsThreadModeCall
    else if s.tfmSecureLock ≠ 0 then .errorSecureDomainLocked
    else .success
  else
    if desc.excNum ≠ excNumThreadMode then .errorInvalidExcMode
    else .success

/-- `TFM_ERROR_STATUS`: specific errors are hidden unless debugging. -/
def tfmErrorStatus (status : TfmStatus) : TfmStatus :=
  if pl.coreDebug then status else .partitionBusy

/-- `tfm_core_sfn_request_function` up to the point where the partition is entered. -/
def tfmCoreSfnRequestFunction (s : SpmState) (descPtr : Option SfnReq) :
    Except SpmFault (TfmStatus × SpmState) :=
  let res := tfmCheckSfnReqIntegrity descPtr
  match descPtr with
  | none => .ok (tfmErrorStatus pl res, s)
  | some desc =>
    if res ≠ .success then .ok (tfmErrorStatus pl res, s)
    else
      let res := tfmCoreCheckSfnReqRules s desc
      if res ≠ .success then .ok (tfmErrorStatus pl res, s)
      else do
        let (res, s) ← tfmPushLock pl s desc pl.returnFromSfn
        if res ≠ .success then .ok (tfmErrorStatus pl res, s) else .ok (.success, s)

/-! ## Leaving a partition

The caller is read from the entry of the running partition, and the entry is cleared. -/

/-- `tfm_pop_lock`. `lrPtr` is the word that `lr_ptr` points to, or `none` for a null pointer. At
level 1 the stack and that word are restored only on the way back to the non-secure side. -/
def tfmPopLock (s : SpmState) (lrPtr : Option Nat) :
    Except SpmFault (TfmStatus × Option Nat × SpmState) := do
  let currentPartitionIdx := s.runningPartitionIdx
  if currentPartitionIdx = spmInvalidPartitionIdx then
    pure (.secureUnlockFailed, lrPtr, s)
  else
    let current ← s.getPartition currentPartitionIdx
    let returnPartitionIdx := current.runtimeData.callerPartitionIdx
    if returnPartitionIdx = spmInvalidPartitionIdx then
      pure (.secureUnlockFailed, lrPtr, s)
    else
      let returnPartition ← s.getPartition returnPartitionIdx
      let s := { s with tfmSecureLock := s.tfmSecureLock - 1 }
      -- after the initialisation a secure caller has called directly, on the same stack
      let restore := !returnPartition.staticData.isSecure || s.tfmSecureApiInit
      if restore ∧ lrPtr = none then
        throw .nullDereference
      else
        let lrPtr := if restore then some current.runtimeData.origLr else lrPtr
        let s := if restore then
            { s with psp := current.runtimeData.origPsp, psplim := current.runtimeData.origPsplim }
          else s
        let s ← tfmSpmPartitionCleanupContext s currentPartitionIdx
        let s ← tfmSpmPartitionSetState s currentPartitionIdx .idle
        let s ← s.setRuntimeData currentPartitionIdx fun r =>
          { r with callerPartitionIdx := spmInvalidPartitionIdx }
        let s ← tfmSpmPartitionSetState s returnPartitionIdx .running
        pure (.success, lrPtr, s)

/-- The end of `tfm_core_call_sfn` for a call from thread mode: the secure function was called
directly and has returned. -/
def tfmCoreCallSfn.finish (s : SpmState) : Except SpmFault SpmState := do
  let (res, _, s) ← tfmPopLock s none
  if res = .success then pure s else throw .halted

/-- Bit 2 of an exception return value: the process stack was active. -/
def excReturnStackProcess (lr : Nat) : Bool := lr.testBit 2

def tfmPartitionBusy : Int := 2
def tfmPartitionSpecificErrorMin : Int := 0x20

/-- Values that a secure function must not return. -/
def isReservedReturnValue (retVal : Int) : Bool :=
  retVal ≠ tfmPartitionBusy ∧ 0 < retVal ∧ retVal < tfmPartitionSpecificErrorMin

/-- `tfm_core_partition_return_handler`, for a partition that was entered by an exception
return. `lr` is the word at `lr_ptr`, the exception return value of the SVC. -/
def tfmCorePartitionReturnHandler (s : SpmState) (lr : Nat) (retVal : Int) :
    Except SpmFault SpmState :=
  if !excReturnStackProcess lr then .error .halted
  else if isReservedReturnValue retVal then .error .halted
  else do
    let (res, lrPtr, s) ← tfmPopLock s (some lr)
    if res ≠ .success then .error .halted
    else if lrPtr ≠ some pl.returnFromSfn then .error .halted
    else .ok s

/-! ## The machine

A request that was accepted is open until the partition returns; how it returns depends on how it
was entered. `frames` holds the exception numbers of the open requests, the innermost first. -/

/-- The core, and the requests that are open. -/
structure Machine where
  spm : SpmState
  frames : List Nat

/-- What can happen next. -/
inductive Event where
  | request (descPtr : Option SfnReq)
  /-- The running partition returns `retVal`; `lr` is the exception return value that the return
  handler finds, where it is the way back. -/
  | ret (retVal : Int) (lr : Nat)

/-- The running partition returns. A call from thread mode was a direct call
(`tfm_core_call_sfn`); any other one was an exception return, and comes back through the return
handler. -/
def Machine.ret (m : Machine) (retVal : Int) (lr : Nat) : Except SpmFault Machine :=
  match m.frames with
  | [] => .ok m
  | excNum :: frames => do
    let spm ← if excNum = excNumThreadMode ∧ !m.spm.tfmSecureApiInit then
        tfmCoreCallSfn.finish m.spm
      else
        tfmCorePartitionReturnHandler pl m.spm lr retVal
    pure { spm, frames }

/-- A request that is accepted opens a frame. -/
def Machine.request (m : Machine) (descPtr : Option SfnReq) : Except SpmFault Machine := do
  let (res, spm) ← tfmCoreSfnRequestFunction pl m.spm descPtr
  match descPtr with
  | some desc => pure { spm, frames := if res = .success then desc.excNum :: m.frames else m.frames }
  | none => pure { m with spm }

/-- One event. -/
def Machine.step (m : Machine) : Event → Except SpmFault Machine
  | .request descPtr => m.request pl descPtr
  | .ret retVal lr => m.ret pl retVal lr

end Tfm.Spm
