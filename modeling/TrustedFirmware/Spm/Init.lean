import TrustedFirmware.Spm.Nesting

/-!
# Secure partition manager — initialisation of the partitions

`tfm_spm_partition_init` calls the init function of each partition through the same requests and
returns that serve all other calls, from the core partition and with `tfm_secure_api_init` set. A
partition whose init function fails is handed to `tfm_spm_partition_err_handler`, which closes the
entry whose *index* is the partition's *id*.

The init functions are modelled by what they return. What the loop does to the entries other than
the core's is described by a loop over the entries alone (`initEntries`), which the loop of the
source refines (`partitionInitLoop_spec`).
-/

namespace Tfm.Spm

variable (pl : Platform)

/-! ## The model

The loop, the handler for a partition that fails, and what `main` does before and after it. -/

/-- `SPM_MAX_PARTITIONS`. -/
def spmMaxPartitions : Nat := 8

/-- The values of `enum tfm_status_e`. -/
def TfmStatus.toInt : TfmStatus → Int
  | .success => 0
  | .partitionBusy => 2
  | .errorSecureDomainLocked => 4
  | .errorInvalidParameter => 5
  | .errorPartitionNonReentrant => 6
  | .errorNsThreadModeCall => 7
  | .errorInvalidExcMode => 8
  | .secureLockFailed => 9
  | .secureUnlockFailed => 10

theorem TfmStatus.toInt_ne_zero {res : TfmStatus} (h : res ≠ .success) : res.toInt ≠ 0 := by
  cases res <;> first | exact absurd rfl h | decide

/-- `enum spm_err_t`, as far as the initialisation uses it. -/
inductive SpmErr where
  | ok
  | partitionNotAvailable
  deriving DecidableEq, Repr

/-- Closes the entry at the index that equals the partition's id. -/
def tfmSpmPartitionErrHandler (s : SpmState) (partition : PartitionDesc) :
    Except SpmFault SpmState :=
  tfmSpmPartitionSetState s partition.staticData.partitionId .closed

/-- The exception return value for thread mode and the process stack, with which
`tfm_core_exc_return_to_sfn` enters a partition. -/
def excReturnThreadPsp : Nat := 0xFFFFFFFD

/-- The `SVC` of `tfm_spm_partition_init`: the request, and if it is accepted the return of the
init function, whose result is `result`. -/
def callPartitionInit (s : SpmState) (desc : SfnReq) (result : Int) :
    Except SpmFault (Int × SpmState) := do
  let (res, s) ← tfmCoreSfnRequestFunction pl s (some desc)
  if res ≠ .success then pure (res.toInt, s)
  else
    let s ← tfmCorePartitionReturnHandler pl s excReturnThreadPsp result
    pure (result, s)

/-- The end of a round: what is done with the result of the init function. -/
def partitionInitStep.finish (part : PartitionDesc) (idx : Nat) (failCnt : Nat) (s : SpmState)
    (ret : Int) : Except SpmFault (SpmState × Nat) := do
  if ret = 0 then
    let s ← tfmSpmPartitionSetState s idx .idle
    pure (s, failCnt)
  else
    let s ← tfmSpmPartitionErrHandler s part
    pure (s, failCnt + 1)

/-- One round of the loop. `partitionInit idx` is `none` for a null pointer, and else the result of
the init function. -/
def partitionInitStep (partitionInit : Nat → Option Int) (st : SpmState × Nat) (idx : Nat) :
    Except SpmFault (SpmState × Nat) := do
  let (s, failCnt) := st
  let part ← s.getPartition idx
  match partitionInit idx with
  | none =>
    let s ← tfmSpmPartitionSetState s idx .idle
    let s ← s.setRuntimeData idx fun r => { r with callerPartitionIdx := spmInvalidPartitionIdx }
    pure (s, failCnt)
  | some result =>
    let desc : SfnReq := ⟨part.staticData.partitionId, false, excNumThreadMode, false⟩
    let (ret, s) ← callPartitionInit pl s desc result
    partitionInitStep.finish part idx failCnt s ret

/-- The partitions in the order of the database, and the number of failures. -/
def tfmSpmPartitionInit (partitionInit : Nat → Option Int) (s : SpmState) :
    Except SpmFault (SpmErr × SpmState) := do
  let (s, failCnt) ← (List.range s.partitionCount).foldlM (partitionInitStep pl partitionInit) (s, 0)
  -- `tfm_secure_api_init_done`
  let s := { s with tfmSecureApiInit := false }
  pure (if failCnt = 0 then .ok else .partitionNotAvailable, s)

/-- The part of `main` behind `tfm_spm_partition_init`, up to the jump to non-secure code. -/
def mainFinish (s : SpmState) : Except SpmFault SpmState := do
  let s ← tfmSpmPartitionSetState s tfmSpCoreId .closed
  tfmSpmPartitionSetState s tfmSpNonSecureId .running

/-- The database as `main` hands it to `tfm_spm_partition_init`: `tfm_spm_db_init` has cleared it,
added the two internal partitions, which have no init function, and the declared ones.
`PARTITION_ADD_INIT_FUNC` stores an init function in the entry that the lookup of the id finds. -/
structure Declared (hasInit : Nat → Bool) (s : SpmState) : Prop where
  count_ge : 2 ≤ s.partitionCount
  count_le : s.partitionCount ≤ spmMaxPartitions
  nonSecure : s.staticData tfmSpNonSecureId = ⟨tfmSpNonSecureId, 0⟩
  core : s.staticData tfmSpCoreId = ⟨tfmSpCoreId, 3⟩
  internal : hasInit tfmSpNonSecureId = false ∧ hasInit tfmSpCoreId = false
  lookup : ∀ i < s.partitionCount, hasInit i = true →
    getPartitionIdx s (s.staticData i).partitionId = i
  runtime : ∀ i < s.partitionCount, s.runtimeData i =
    ⟨if i = tfmSpCoreId then .running else .uninit, 0, 0, 0, 0, .disable⟩
  running : s.runningPartitionIdx = tfmSpCoreId
  unlocked : s.tfmSecureLock = 0
  apiInit : s.tfmSecureApiInit = true

/-! ## The loop on the entries

Only the runtime data, and what a round makes of it: an abstract loop without requests and returns,
in which the order of the rounds and the ids of the partitions are all that matters. -/

/-- An entry that nothing uses. -/
def idleEntry : PartitionRuntimeData := ⟨.idle, spmInvalidPartitionIdx, 0, 0, 0, .disable⟩

/-- Close the entry at an index, if there is one. -/
def closeEntry (count : Nat) (e : Nat → PartitionRuntimeData) (idx : Nat) :
    Option (Nat → PartitionRuntimeData) :=
  if idx < count then some (Function.update e idx { e idx with partitionState := .closed })
  else none

/-- What a round does to the entries. A partition that has been closed before its turn is not
entered, and counts as failed; a reserved result halts the return handler. -/
def initEntry (count : Nat) (ids : Nat → Nat) (partitionInit : Nat → Option Int)
    (e : Nat → PartitionRuntimeData) (idx : Nat) : Option (Nat → PartitionRuntimeData) :=
  match partitionInit idx with
  | none => some (Function.update e idx
      { e idx with partitionState := .idle, callerPartitionIdx := spmInvalidPartitionIdx })
  | some result =>
    if (e idx).partitionState = .closed then closeEntry count e (ids idx)
    else if isReservedReturnValue result then none
    else if result = 0 then some (Function.update e idx idleEntry)
    else closeEntry count (Function.update e idx idleEntry) (ids idx)

/-- The init functions of the partitions that have one. -/
def initFunctions (hasInit : Nat → Bool) (results : Nat → Int) (idx : Nat) : Option Int :=
  if hasInit idx then some (results idx) else none

/-- The entries after the first rounds. -/
def initEntries (count : Nat) (ids : Nat → Nat) (partitionInit : Nat → Option Int)
    (e : Nat → PartitionRuntimeData) (rounds : Nat) : Option (Nat → PartitionRuntimeData) :=
  (List.range rounds).foldlM (initEntry count ids partitionInit) e

/-! ## The loop of the source

A round calls the partition through the core, and the core is back afterwards. `LoopInv` relates the
database to the entries of the abstract loop; it is kept round by round. -/

section Loop

variable {hasInit : Nat → Bool} {s₀ s s' : SpmState} {e e' : Nat → PartitionRuntimeData}
  {rounds idx : Nat}

theorem getPartitionIdx_congr (hcount : s.partitionCount = s₀.partitionCount)
    (hstatic : ∀ i, s.staticData i = s₀.staticData i) (partitionId : Nat) :
    getPartitionIdx s partitionId = getPartitionIdx s₀ partitionId := by
  unfold getPartitionIdx
  simp only [hcount, hstatic]

/-- The lookup finds the first entry with the id. -/
theorem getPartitionIdx_of_first {partitionId : Nat} (hid : partitionId ≠ invalidPartitionId)
    (hidx : idx < s.partitionCount) (heq : (s.staticData idx).partitionId = partitionId)
    (hfirst : ∀ j < idx, (s.staticData j).partitionId ≠ partitionId) :
    getPartitionIdx s partitionId = idx := by
  have hfind : (List.range s.partitionCount).find?
      (fun i => decide ((s.staticData i).partitionId = partitionId)) = some idx := by
    rw [List.find?_range_eq_some]
    refine ⟨by simpa using heq, List.mem_range.mpr hidx, fun j hj => ?_⟩
    simpa using hfirst j hj
  unfold getPartitionIdx
  rw [if_neg hid, hfind]
  rfl

namespace Declared

variable (h : Declared hasInit s₀)
include h

/-- The lookup finds the internal partitions. -/
theorem getPartitionIdx_internal :
    getPartitionIdx s₀ tfmSpNonSecureId = tfmSpNonSecureId ∧
    getPartitionIdx s₀ tfmSpCoreId = tfmSpCoreId := by
  have hcount := h.count_ge
  constructor
  · refine getPartitionIdx_of_first (by decide) (Nat.lt_of_lt_of_le Nat.zero_lt_two hcount) ?_ ?_
    · rw [h.nonSecure]
    · exact fun j hj => absurd hj (Nat.not_lt_zero j)
  · refine getPartitionIdx_of_first (by decide) hcount ?_ ?_
    · rw [h.core]
    · intro j hj
      have hj0 : j = tfmSpNonSecureId := Nat.lt_one_iff.mp hj
      rw [hj0, h.nonSecure]
      decide

/-- A partition with an init function has an id of its own. -/
theorem partitionId_ne (hidx : idx < s₀.partitionCount) (hinit : hasInit idx = true) :
    (s₀.staticData idx).partitionId ≠ tfmSpNonSecureId ∧
    (s₀.staticData idx).partitionId ≠ tfmSpCoreId := by
  have hlookup := h.lookup idx hidx hinit
  constructor
  · intro hid
    rw [hid, h.getPartitionIdx_internal.1] at hlookup
    rw [← hlookup, h.internal.1] at hinit
    cases hinit
  · intro hid
    rw [hid, h.getPartitionIdx_internal.2] at hlookup
    rw [← hlookup, h.internal.2] at hinit
    cases hinit

end Declared

/-- The state behind the first rounds: the entries other than the core's are those of the loop on
the entries, and the core is running again after each call. -/
structure LoopInv (s₀ : SpmState) (rounds : Nat) (s : SpmState) (e : Nat → PartitionRuntimeData) :
    Prop where
  count : s.partitionCount = s₀.partitionCount
  static : ∀ i, s.staticData i = s₀.staticData i
  entries : ∀ i ≠ tfmSpCoreId, s.runtimeData i = e i
  ahead : ∀ i < s₀.partitionCount, rounds ≤ i → i ≠ tfmSpCoreId →
    (e i).partitionState = .uninit ∨ (e i).partitionState = .closed
  coreState : s.state tfmSpCoreId = .running ∨ s.state tfmSpCoreId = .idle
  coreContext : { s.runtimeData tfmSpCoreId with
    partitionState := .idle, callerPartitionIdx := spmInvalidPartitionIdx } = idleEntry
  coreCaller : tfmSpCoreId < rounds → s.caller tfmSpCoreId = spmInvalidPartitionIdx
  running : s.runningPartitionIdx = tfmSpCoreId
  unlocked : s.tfmSecureLock = 0
  apiInit : s.tfmSecureApiInit = true

/-- Before the first round nothing has happened. -/
theorem LoopInv.start (h : Declared hasInit s₀) : LoopInv s₀ 0 s₀ s₀.runtimeData where
  count := rfl
  static := fun _ => rfl
  entries := fun _ _ => rfl
  ahead := by
    intro i hi _ hcore
    rw [h.runtime i hi, if_neg hcore]
    exact .inl rfl
  coreState := by
    unfold SpmState.state
    rw [h.runtime tfmSpCoreId h.count_ge, if_pos rfl]
    exact .inl rfl
  coreContext := by
    rw [h.runtime tfmSpCoreId h.count_ge]
    rfl
  coreCaller := fun hlt => absurd hlt (Nat.not_lt_zero _)
  running := h.running
  unlocked := h.unlocked
  apiInit := h.apiInit

/-! ### The call of an init function

The core calls from thread mode, as any secure partition does. While `tfm_secure_api_init` is set,
stack and return address are saved and restored for it all the same. -/

/-- The request that the loop makes for a partition. -/
def initReq (s : SpmState) (idx : Nat) : SfnReq :=
  ⟨(s.staticData idx).partitionId, false, excNumThreadMode, false⟩

/-- What `tfm_push_lock` sees when the loop calls a partition. -/
theorem LoopInv.request_eq (hdecl : Declared hasInit s₀) (h : LoopInv s₀ rounds s e)
    (hidx : idx < s₀.partitionCount) (hinit : hasInit idx = true) :
    tfmCoreSfnRequestFunction pl s (some (initReq s idx)) =
      match s.state idx with
      | .uninit | .idle => .ok (.success,
          entered pl s (initReq s idx) pl.returnFromSfn tfmSpCoreId idx)
      | .running | .suspended | .blocked =>
          .ok (tfmErrorStatus pl .errorPartitionNonReentrant, s)
      | .closed => .ok (tfmErrorStatus pl .secureLockFailed, s) := by
  have hcount : s.partitionCount = s₀.partitionCount := h.count
  have hid : (s.staticData idx).partitionId ≠ 0 := by
    rw [h.static]
    exact (hdecl.partitionId_ne hidx hinit).1
  have htarget : getPartitionIdx s (s.staticData idx).partitionId = idx := by
    rw [getPartitionIdx_congr h.count h.static, h.static]
    exact hdecl.lookup idx hidx hinit
  have hcore : (s.partitions tfmSpCoreId).staticData = ⟨tfmSpCoreId, 3⟩ :=
    (h.static tfmSpCoreId).trans hdecl.core
  have hcheck : tfmCheckSfnReqIntegrity (some (initReq s idx)) = .success := by
    simp [tfmCheckSfnReqIntegrity, initReq, hid]
  have hrules : tfmCoreCheckSfnReqRules s (initReq s idx) = .success := by
    simp [tfmCoreCheckSfnReqRules, initReq]
  have hidx' : idx < s.partitionCount := hcount ▸ hidx
  have hrun : tfmSpCoreId < s.partitionCount := hcount ▸ hdecl.count_ge
  have hlookup : getPartitionIdx s (initReq s idx).spId = idx := htarget
  -- the core calls, so a partition that is not initialised may be entered
  have hpush : tfmPushLock pl s (initReq s idx) pl.returnFromSfn =
      match s.state idx with
      | .uninit | .idle => .ok (.success,
          entered pl s (initReq s idx) pl.returnFromSfn tfmSpCoreId idx)
      | .running | .suspended | .blocked => .ok (.errorPartitionNonReentrant, s)
      | .closed => .ok (.secureLockFailed, s) := by
    unfold tfmPushLock
    simp only [h.running, SpmState.getPartition_of_lt hrun, hlookup,
      SpmState.getPartition_of_lt hidx', bind, Except.bind, hcore, h.apiInit, enter_eq hrun hidx']
    unfold SpmState.state SpmState.runtimeData
    cases (s.partitions idx).runtimeData.partitionState <;> rfl
  unfold tfmCoreSfnRequestFunction
  simp only [hcheck, hrules, hpush]
  cases s.state idx <;> rfl

/-- The partition is entered if it has not been closed, and returns to the core. -/
theorem LoopInv.call_accepted {result : Int} (hdecl : Declared hasInit s₀)
    (h : LoopInv s₀ rounds s e) (hidx : idx < s₀.partitionCount) (hinit : hasInit idx = true)
    (hstate : s.state idx = .uninit) (hresult : isReservedReturnValue result = false) :
    callPartitionInit pl s (initReq s idx) result = .ok (result,
      left (entered pl s (initReq s idx) pl.returnFromSfn tfmSpCoreId idx) true idx tfmSpCoreId) := by
  have hne : tfmSpCoreId ≠ idx := by
    rintro rfl
    rw [hdecl.internal.2] at hinit
    cases hinit
  unfold callPartitionInit tfmCorePartitionReturnHandler
  rw [h.request_eq pl hdecl hidx hinit, hstate]
  have hsaved : (entered pl s (initReq s idx) pl.returnFromSfn tfmSpCoreId idx).runtimeData idx =
      ⟨.running, tfmSpCoreId, s.psp, s.psplim, pl.returnFromSfn, .scratch⟩ :=
    runtimeData_entered_target hne
  have hcount : (entered pl s (initReq s idx) pl.returnFromSfn tfmSpCoreId idx).partitionCount =
      s₀.partitionCount := h.count
  have hrun : (entered pl s (initReq s idx) pl.returnFromSfn tfmSpCoreId idx).runningPartitionIdx =
      idx := rfl
  have hapi : (entered pl s (initReq s idx) pl.returnFromSfn tfmSpCoreId idx).tfmSecureApiInit =
      true := h.apiInit
  generalize entered pl s (initReq s idx) pl.returnFromSfn tfmSpCoreId idx = t at *
  have hle : t.partitionCount ≤ spmInvalidPartitionIdx := by
    rw [hcount]
    exact Nat.le_trans hdecl.count_le (by decide)
  -- during initialisation the stack and the return address are restored for a secure caller too
  have hpop : tfmPopLock t (some excReturnThreadPsp) =
      .ok (.success, some pl.returnFromSfn, left t true idx tfmSpCoreId) := by
    rw [tfmPopLock_eq_of_restore hle hrun (hcount ▸ hidx) (congrArg _ hsaved)
      (hcount ▸ hdecl.count_ge) (by rw [hapi, Bool.or_true]), if_neg (by simp), if_pos rfl, hsaved]
  simp [bind, Except.bind, pure, Except.pure, hresult, hpop,
    show excReturnStackProcess excReturnThreadPsp = true by decide]

/-- A partition that is entered and returns a reserved value halts the core. -/
theorem LoopInv.call_halts {result : Int} (hdecl : Declared hasInit s₀)
    (h : LoopInv s₀ rounds s e) (hidx : idx < s₀.partitionCount) (hinit : hasInit idx = true)
    (hstate : s.state idx = .uninit) (hresult : isReservedReturnValue result = true) :
    callPartitionInit pl s (initReq s idx) result = .error .halted := by
  unfold callPartitionInit tfmCorePartitionReturnHandler
  rw [h.request_eq pl hdecl hidx hinit, hstate]
  simp [bind, Except.bind, hresult, show excReturnStackProcess excReturnThreadPsp = true by decide]

/-- A partition that has been closed is not entered. -/
theorem LoopInv.call_refused {result : Int} (hdecl : Declared hasInit s₀)
    (h : LoopInv s₀ rounds s e) (hidx : idx < s₀.partitionCount) (hinit : hasInit idx = true)
    (hstate : s.state idx = .closed) :
    ∃ ret, ret ≠ 0 ∧ callPartitionInit pl s (initReq s idx) result = .ok (ret, s) := by
  have hres : tfmErrorStatus pl .secureLockFailed ≠ .success :=
    tfmErrorStatus_ne_success pl (by decide)
  refine ⟨_, TfmStatus.toInt_ne_zero hres, ?_⟩
  unfold callPartitionInit
  rw [h.request_eq pl hdecl hidx hinit, hstate]
  simp [bind, Except.bind, pure, Except.pure, hres]

/-! ### The rounds

A round either has no init function, or its call is accepted, refused or halted. What it leaves is
the invariant for the next round, with one more step of the abstract loop. The core's own round is
special: it sets the core to idle, which is the state it has at the end of every other round. -/

/-- An entry other than the core's is rewritten. -/
theorem LoopInv.modify {f : PartitionRuntimeData → PartitionRuntimeData} (h : LoopInv s₀ rounds s e)
    (hcore : idx ≠ tfmSpCoreId)
    (hahead : rounds ≤ idx → (f (e idx)).partitionState = .closed) :
    LoopInv s₀ rounds (s.modifyRuntimeData idx f) (Function.update e idx (f (e idx))) where
  count := h.count
  static := fun i => by rw [SpmState.staticData_modifyRuntimeData, h.static]
  entries := by
    intro i hi
    by_cases heq : i = idx
    · subst heq
      rw [SpmState.runtimeData_modifyRuntimeData_self, Function.update_self, h.entries i hi]
    · rw [SpmState.runtimeData_modifyRuntimeData_of_ne heq, Function.update_of_ne heq,
        h.entries i hi]
  ahead := by
    intro i hi hle hne
    by_cases heq : i = idx
    · subst heq
      rw [Function.update_self]
      exact .inr (hahead hle)
    · rw [Function.update_of_ne heq]
      exact h.ahead i hi hle hne
  coreState := by
    unfold SpmState.state
    rw [SpmState.runtimeData_modifyRuntimeData_of_ne hcore.symm]
    exact h.coreState
  coreContext := by
    rw [SpmState.runtimeData_modifyRuntimeData_of_ne hcore.symm]
    exact h.coreContext
  coreCaller := by
    unfold SpmState.caller
    rw [SpmState.runtimeData_modifyRuntimeData_of_ne hcore.symm]
    exact h.coreCaller
  running := h.running
  unlocked := h.unlocked
  apiInit := h.apiInit

/-- A round that leaves the entries as they are. -/
theorem LoopInv.next (h : LoopInv s₀ rounds s e) (hcore : rounds ≠ tfmSpCoreId) :
    LoopInv s₀ (rounds + 1) s e where
  count := h.count
  static := h.static
  entries := h.entries
  ahead := fun i hi hle => h.ahead i hi (Nat.le_of_succ_le hle)
  coreState := h.coreState
  coreContext := h.coreContext
  coreCaller := fun hlt => h.coreCaller (Nat.lt_of_le_of_ne (Nat.le_of_lt_succ hlt) hcore.symm)
  running := h.running
  unlocked := h.unlocked
  apiInit := h.apiInit

/-- A call of an init function leaves its own entry idle. -/
theorem LoopInv.called (h : LoopInv s₀ idx s e) (hcore : idx ≠ tfmSpCoreId) (desc : SfnReq)
    (lr : Nat) :
    LoopInv s₀ (idx + 1) (left (entered pl s desc lr tfmSpCoreId idx) true idx tfmSpCoreId)
      (Function.update e idx idleEntry) where
  count := h.count
  static := fun i => by rw [staticData_left, staticData_entered, h.static]
  entries := by
    intro i hi
    by_cases heq : i = idx
    · subst heq
      rw [runtimeData_left_current hcore, Function.update_self]
      rfl
    · rw [runtimeData_left_of_ne heq hi, runtimeData_entered_of_ne hi heq, Function.update_of_ne heq,
        h.entries i hi]
  ahead := by
    intro i hi hle hne
    rw [Function.update_of_ne (by omega)]
    exact h.ahead i hi (by omega) hne
  coreState := by
    unfold SpmState.state
    rw [runtimeData_left_ret hcore]
    exact .inl rfl
  coreContext := by
    rw [runtimeData_left_ret hcore, runtimeData_entered_caller hcore.symm]
    exact h.coreContext
  coreCaller := by
    intro hlt
    unfold SpmState.caller
    rw [runtimeData_left_ret hcore, runtimeData_entered_caller hcore.symm]
    exact h.coreCaller (Nat.lt_of_le_of_ne (Nat.le_of_lt_succ hlt) hcore.symm)
  running := rfl
  unlocked := by
    show s.tfmSecureLock + 1 - 1 = 0
    rw [h.unlocked]
    rfl
  apiInit := h.apiInit

/-- An entry of the database gets a state. -/
theorem tfmSpmPartitionSetState_of_lt {state : PartState} (hidx : idx < s.partitionCount)
    (hstate : state ≠ .running) : tfmSpmPartitionSetState s idx state =
      .ok (s.modifyRuntimeData idx fun r => { r with partitionState := state }) := by
  unfold tfmSpmPartitionSetState
  rw [SpmState.setRuntimeData_of_lt hidx]
  simp [bind, Except.bind, pure, Except.pure, hstate]

/-- Behind the end of the database there is no entry. -/
theorem tfmSpmPartitionSetState_of_not_lt {state : PartState} (hidx : ¬ idx < s.partitionCount) :
    tfmSpmPartitionSetState s idx state = .error (.outOfRange idx) := by
  unfold tfmSpmPartitionSetState SpmState.setRuntimeData
  rw [if_neg hidx]
  rfl

/-- The handler for a failed partition closes the entry at the index of its id. -/
theorem LoopInv.close (h : LoopInv s₀ rounds s e) (part : PartitionDesc)
    (hcore : part.staticData.partitionId ≠ tfmSpCoreId) :
    (∀ e', closeEntry s₀.partitionCount e part.staticData.partitionId = some e' →
      ∃ s', tfmSpmPartitionErrHandler s part = .ok s' ∧ LoopInv s₀ rounds s' e') ∧
    (closeEntry s₀.partitionCount e part.staticData.partitionId = none →
      ∃ fault, tfmSpmPartitionErrHandler s part = .error fault) := by
  unfold tfmSpmPartitionErrHandler closeEntry
  -- the id is used as an index
  by_cases hlt : part.staticData.partitionId < s₀.partitionCount
  · rw [if_pos hlt]
    refine ⟨fun e' he' => ?_, fun hnone => by cases hnone⟩
    cases he'
    exact ⟨_, tfmSpmPartitionSetState_of_lt (h.count ▸ hlt) (by decide),
      h.modify hcore fun _ => rfl⟩
  · rw [if_neg hlt]
    refine ⟨fun e' he' => ?_, fun _ => ?_⟩
    · cases he'
    · exact ⟨_, tfmSpmPartitionSetState_of_not_lt (h.count ▸ hlt)⟩

/-- The round for the core's own entry. -/
theorem LoopInv.core_round (h : LoopInv s₀ tfmSpCoreId s e) {r : PartitionRuntimeData} :
    LoopInv s₀ (tfmSpCoreId + 1)
      ((s.modifyRuntimeData tfmSpCoreId fun r => { r with partitionState := .idle }).modifyRuntimeData
        tfmSpCoreId fun r => { r with callerPartitionIdx := spmInvalidPartitionIdx })
      (Function.update e tfmSpCoreId r) where
  count := h.count
  static := fun i => by simp only [SpmState.staticData_modifyRuntimeData, h.static]
  entries := by
    intro i hi
    rw [SpmState.runtimeData_modifyRuntimeData_of_ne hi,
      SpmState.runtimeData_modifyRuntimeData_of_ne hi, Function.update_of_ne hi, h.entries i hi]
  ahead := by
    intro i hi hle hne
    rw [Function.update_of_ne hne]
    exact h.ahead i hi (Nat.le_of_succ_le hle) hne
  coreState := by
    unfold SpmState.state
    rw [SpmState.runtimeData_modifyRuntimeData_self, SpmState.runtimeData_modifyRuntimeData_self]
    exact .inr rfl
  coreContext := by
    simp only [SpmState.runtimeData_modifyRuntimeData_self]
    exact h.coreContext
  coreCaller := by
    intro _
    unfold SpmState.caller
    simp only [SpmState.runtimeData_modifyRuntimeData_self]
  running := h.running
  unlocked := h.unlocked
  apiInit := h.apiInit

/-- The round for an entry without an init function. -/
theorem LoopInv.round_null {partitionInit : Nat → Option Int} (h : LoopInv s₀ idx s e)
    (hidx : idx < s₀.partitionCount) (hinit : partitionInit idx = none) (failCnt : Nat) :
    ∃ s', partitionInitStep pl partitionInit (s, failCnt) idx = .ok (s', failCnt) ∧
      LoopInv s₀ (idx + 1) s' (Function.update e idx
        { e idx with partitionState := .idle, callerPartitionIdx := spmInvalidPartitionIdx }) := by
  have hidx' : idx < s.partitionCount := h.count ▸ hidx
  have hstep : partitionInitStep pl partitionInit (s, failCnt) idx =
      .ok ((s.modifyRuntimeData idx fun r => { r with partitionState := .idle }).modifyRuntimeData
        idx fun r => { r with callerPartitionIdx := spmInvalidPartitionIdx }, failCnt) := by
    unfold partitionInitStep
    simp only [SpmState.getPartition_of_lt hidx', bind, Except.bind, hinit,
      tfmSpmPartitionSetState_of_lt hidx' (show PartState.idle ≠ .running by decide)]
    rw [SpmState.setRuntimeData, if_pos (by exact hidx')]
    rfl
  refine ⟨_, hstep, ?_⟩
  -- the core's own entry is set to idle while the core is running
  by_cases hcore : idx = tfmSpCoreId
  · subst hcore
    exact h.core_round
  · have hnext := ((h.next hcore).modify (f := fun r => { r with partitionState := .idle }) hcore
      fun hle => absurd hle (by omega)).modify
        (f := fun r => { r with callerPartitionIdx := spmInvalidPartitionIdx }) hcore
        fun hle => absurd hle (by omega)
    simpa using hnext

/-- The end of the round for a partition with an init function. -/
theorem LoopInv.finish (h : LoopInv s₀ (idx + 1) s e) (hidx : idx < s₀.partitionCount)
    (hcore : idx ≠ tfmSpCoreId) (part : PartitionDesc)
    (hpart : part.staticData.partitionId ≠ tfmSpCoreId) (failCnt : Nat) (ret : Int)
    (hidle : ret = 0 → (e idx).partitionState = .idle) :
    (∀ e', (if ret = 0 then some e else closeEntry s₀.partitionCount e part.staticData.partitionId)
        = some e' →
      ∃ s' failCnt', partitionInitStep.finish part idx failCnt s ret = .ok (s', failCnt') ∧
        LoopInv s₀ (idx + 1) s' e') ∧
    ((if ret = 0 then some e else closeEntry s₀.partitionCount e part.staticData.partitionId)
        = none →
      ∃ fault, partitionInitStep.finish part idx failCnt s ret = .error fault) := by
  unfold partitionInitStep.finish
  by_cases hret : ret = 0
  · rw [if_pos hret, if_pos hret, tfmSpmPartitionSetState_of_lt (h.count ▸ hidx) (by decide)]
    refine ⟨fun e' he' => ⟨_, _, rfl, ?_⟩, fun hnone => by cases hnone⟩
    cases he'
    -- the entry is idle already
    have hsame : Function.update e idx { e idx with partitionState := .idle } = e := by
      rw [← hidle hret]
      exact Function.update_eq_self idx e
    have hafter := h.modify (f := fun r => { r with partitionState := .idle }) hcore
      fun hle => absurd hle (by omega)
    rw [hsame] at hafter
    exact hafter
  · rw [if_neg hret, if_neg hret]
    obtain ⟨hok, herr⟩ := h.close part hpart
    constructor
    · intro e' he'
      obtain ⟨s', hs', hinv⟩ := hok e' he'
      rw [hs']
      exact ⟨s', failCnt + 1, rfl, hinv⟩
    · intro hnone
      obtain ⟨fault, hfault⟩ := herr hnone
      rw [hfault]
      exact ⟨fault, rfl⟩

/-- The round for a partition with an init function. -/
theorem LoopInv.round_call {partitionInit : Nat → Option Int} {result : Int}
    (hdecl : Declared hasInit s₀) (h : LoopInv s₀ idx s e) (hidx : idx < s₀.partitionCount)
    (hinit : hasInit idx = true) (hpart : partitionInit idx = some result) (failCnt : Nat) :
    (∀ e', initEntry s₀.partitionCount (fun i => (s₀.staticData i).partitionId) partitionInit e idx
        = some e' →
      ∃ s' failCnt', partitionInitStep pl partitionInit (s, failCnt) idx = .ok (s', failCnt') ∧
        LoopInv s₀ (idx + 1) s' e') ∧
    (initEntry s₀.partitionCount (fun i => (s₀.staticData i).partitionId) partitionInit e idx
        = none →
      ∃ fault, partitionInitStep pl partitionInit (s, failCnt) idx = .error fault) := by
  have hidx' : idx < s.partitionCount := h.count ▸ hidx
  have hcore : idx ≠ tfmSpCoreId := by
    rintro rfl
    rw [hdecl.internal.2] at hinit
    cases hinit
  have hpartId : (s.partitions idx).staticData.partitionId = (s₀.staticData idx).partitionId :=
    congrArg _ (h.static idx)
  have hne : (s.partitions idx).staticData.partitionId ≠ tfmSpCoreId := by
    rw [hpartId]
    exact (hdecl.partitionId_ne hidx hinit).2
  have hstate : s.state idx = (e idx).partitionState :=
    congrArg PartitionRuntimeData.partitionState (h.entries idx hcore)
  have hstep : partitionInitStep pl partitionInit (s, failCnt) idx =
      (callPartitionInit pl s (initReq s idx) result).bind fun o =>
        partitionInitStep.finish (s.partitions idx) idx failCnt o.2 o.1 := by
    unfold partitionInitStep
    simp only [SpmState.getPartition_of_lt hidx', bind, Except.bind, hpart]
    rfl
  unfold initEntry
  rw [hpart]
  dsimp only
  rw [← hpartId]
  rcases h.ahead idx hidx (Nat.le_refl idx) hcore with huninit | hclosed
  · -- the partition is entered
    rw [if_neg (by rw [huninit]; decide)]
    cases hresult : isReservedReturnValue result with
    | true =>
      rw [hstep, h.call_halts pl hdecl hidx hinit (hstate.trans huninit) hresult]
      exact ⟨fun e' he' => (by cases he'), fun _ => ⟨.halted, rfl⟩⟩
    | false =>
      rw [hstep, h.call_accepted pl hdecl hidx hinit (hstate.trans huninit) hresult]
      refine (h.called pl hcore (initReq s idx) pl.returnFromSfn).finish hidx hcore _ hne failCnt
        result fun _ => ?_
      rw [Function.update_self]
      rfl
  · -- the request is refused
    obtain ⟨ret, hret, hcall⟩ := h.call_refused pl hdecl hidx hinit (hstate.trans hclosed)
    have hfin := (h.next hcore).finish hidx hcore (s.partitions idx) hne failCnt ret
      fun heq => absurd heq hret
    rw [if_neg hret] at hfin
    rw [if_pos hclosed, hstep, hcall]
    exact hfin

/-! ### The whole loop -/

/-- The loop of the source refines the loop on the entries. -/
theorem partitionInitLoop_spec (hdecl : Declared hasInit s₀) (results : Nat → Int) {rounds : Nat}
    (hrounds : rounds ≤ s₀.partitionCount) :
    (∀ e, initEntries s₀.partitionCount (fun i => (s₀.staticData i).partitionId)
        (initFunctions hasInit results) s₀.runtimeData rounds = some e →
      ∃ s failCnt, (List.range rounds).foldlM
          (partitionInitStep pl (initFunctions hasInit results)) (s₀, 0) = .ok (s, failCnt) ∧
        LoopInv s₀ rounds s e) ∧
    (initEntries s₀.partitionCount (fun i => (s₀.staticData i).partitionId)
        (initFunctions hasInit results) s₀.runtimeData rounds = none →
      ∃ fault, (List.range rounds).foldlM
          (partitionInitStep pl (initFunctions hasInit results)) (s₀, 0) = .error fault) := by
  unfold initEntries
  -- on the rounds, with the two loops side by side
  induction rounds with
  | zero =>
    refine ⟨fun e he => ⟨s₀, 0, rfl, ?_⟩, fun hnone => by cases hnone⟩
    cases he
    exact .start hdecl
  | succ rounds ih =>
    obtain ⟨hok, herr⟩ := ih (Nat.le_of_succ_le hrounds)
    rw [List.range_succ, List.foldlM_append, List.foldlM_append]
    cases hbefore : (List.range rounds).foldlM (initEntry s₀.partitionCount
        (fun i => (s₀.staticData i).partitionId) (initFunctions hasInit results))
        s₀.runtimeData with
    | none =>
      obtain ⟨fault, hfault⟩ := herr hbefore
      rw [hfault]
      refine ⟨fun e he => ?_, fun _ => ⟨fault, rfl⟩⟩
      cases he
    | some e =>
      obtain ⟨s, failCnt, hs, hinv⟩ := hok e hbefore
      rw [hs]
      simp only [List.foldlM_cons, List.foldlM_nil, bind_pure]
      -- the last round, without and with an init function
      cases hinit : hasInit rounds with
      | false =>
        have hnull : initFunctions hasInit results rounds = none := by simp [initFunctions, hinit]
        obtain ⟨s', hs', hinv'⟩ := hinv.round_null pl hrounds hnull failCnt
        refine ⟨fun e' he' => ⟨s', failCnt, hs', ?_⟩, fun hnone => ?_⟩
        · simp only [initEntry, hnull, bind, Option.bind, Option.some.injEq] at he'
          rw [← he']
          exact hinv'
        · simp [initEntry, hnull, bind, Option.bind] at hnone
      | true =>
        have hsome : initFunctions hasInit results rounds = some (results rounds) := by
          simp [initFunctions, hinit]
        exact hinv.round_call pl hdecl hrounds hinit hsome failCnt

end Loop

end Tfm.Spm
