import TrustedFirmware.Lib.LinkedStack
import TrustedFirmware.Spm.Core

/-!
# Secure partition manager — the call chain

The callers recorded in the database thread a stack through it: from the running partition to the
one that called it, and so on down to the non-secure partition. `CallChain s chain` says that
`chain` is that stack, that the states of all partitions agree with it, and that the lock counts its
calls. A request pushes a partition that is off the chain (`CallChain.push`), and a return pops the
running one (`CallChain.pop`).

The calls are first described as total functions: `entered` and `left` are the states after a
request that is accepted and after a return, and `tfmPushLock_cases` and `tfmPopLock_eq` say when
these are reached. Nothing behind this module looks into the calls again.
-/

namespace Tfm.Spm

open Word32 LinkedStack

variable {pl : Platform} {s s' : SpmState} {chain frames : List Nat}

/-- A call that succeeds has succeeded at each step. -/
theorem bind_eq_ok {α β : Type} {x : Except SpmFault α} {f : α → Except SpmFault β} {b : β}
    (h : (x >>= f) = .ok b) : ∃ a, x = .ok a ∧ f a = .ok b := by
  cases x with
  | error e => cases h
  | ok a => exact ⟨a, rfl, h⟩

/-! ## What the calls compute

Updates of entries, and with them the states `entered` and `left`, field by field. -/

namespace SpmState

variable {idx : Nat} {f : PartitionRuntimeData → PartitionRuntimeData}

/-- An update of runtime data leaves the static data alone. -/
@[simp] theorem staticData_modifyRuntimeData (i : Nat) :
    (s.modifyRuntimeData idx f).staticData i = s.staticData i := by
  by_cases h : i = idx
  · subst h
    simp [staticData, modifyRuntimeData]
  · simp [staticData, modifyRuntimeData, Function.update_of_ne h]

@[simp] theorem runtimeData_modifyRuntimeData_self :
    (s.modifyRuntimeData idx f).runtimeData idx = f (s.runtimeData idx) := by
  simp [runtimeData, modifyRuntimeData]

theorem runtimeData_modifyRuntimeData_of_ne {i : Nat} (h : i ≠ idx) :
    (s.modifyRuntimeData idx f).runtimeData i = s.runtimeData i := by
  simp [runtimeData, modifyRuntimeData, Function.update_of_ne h]

/-- An entry of the database can be updated. -/
theorem setRuntimeData_of_lt (h : idx < s.partitionCount) :
    s.setRuntimeData idx f = .ok (s.modifyRuntimeData idx f) := if_pos h

/-- An entry of the database can be read. -/
theorem getPartition_of_lt (h : idx < s.partitionCount) :
    s.getPartition idx = .ok (s.partitions idx) := if_pos h

end SpmState

/-! ### Entering

The end of `tfm_push_lock`, for a partition that may be entered. -/

/-- The entries as an accepted request leaves them. -/
def enteredEntries (s : SpmState) (desc : SfnReq) (lr caller target : Nat) : SpmState :=
  ((s.modifyRuntimeData target fun r => { r with
      origPsp := s.psp
      origPsplim := s.psplim
      origLr := lr
      callerPartitionIdx := caller
      share := if desc.nsCaller then .nsCode else .scratch }).modifyRuntimeData caller
    fun r => { r with partitionState := .blocked }).modifyRuntimeData target
    fun r => { r with partitionState := .running }

/-- The state in which an accepted request leaves the core. -/
def entered (pl : Platform) (s : SpmState) (desc : SfnReq) (lr caller target : Nat) : SpmState :=
  let switched := decide (desc.excNum ≠ excNumThreadMode ∨ s.tfmSecureApiInit)
  { enteredEntries s desc lr caller target with
    runningPartitionIdx := target
    tfmSecureLock := s.tfmSecureLock + 1
    psp := if switched then sub32 pl.secureStackLimit 32 else s.psp
    psplim := if switched then pl.secureStackBase else s.psplim }

/-- A partition that is entered from another one. -/
theorem enter_eq {desc : SfnReq} {lr caller target : Nat} (hcaller : caller < s.partitionCount)
    (htarget : target < s.partitionCount) :
    tfmPushLock.enter pl s desc lr caller target =
      .ok (.success, entered pl s desc lr caller target) := by
  unfold tfmPushLock.enter entered enteredEntries tfmSpmPartitionSetState
  -- with and without a switch of the stack
  by_cases hswitch : desc.excNum ≠ excNumThreadMode ∨ s.tfmSecureApiInit
  · simp [SpmState.setRuntimeData, hcaller, htarget, hswitch, bind, Except.bind, pure, Except.pure,
      SpmState.modifyRuntimeData]
  · simp [SpmState.setRuntimeData, hcaller, htarget, hswitch, bind, Except.bind, pure, Except.pure,
      SpmState.modifyRuntimeData]

section Entered

variable {desc : SfnReq} {lr caller target : Nat}

@[simp] theorem entered_tfmSecureLock :
    (entered pl s desc lr caller target).tfmSecureLock = s.tfmSecureLock + 1 := rfl

@[simp] theorem staticData_entered (i : Nat) :
    (entered pl s desc lr caller target).staticData i = s.staticData i := by
  show (enteredEntries s desc lr caller target).staticData i = _
  unfold enteredEntries
  simp only [SpmState.staticData_modifyRuntimeData]

/-- The partition that is entered is running and has the context of its caller. -/
theorem runtimeData_entered_target (hne : caller ≠ target) :
    (entered pl s desc lr caller target).runtimeData target =
      { partitionState := .running
        callerPartitionIdx := caller
        origPsp := s.psp
        origPsplim := s.psplim
        origLr := lr
        share := if desc.nsCaller then .nsCode else .scratch } := by
  show (enteredEntries s desc lr caller target).runtimeData target = _
  unfold enteredEntries
  rw [SpmState.runtimeData_modifyRuntimeData_self,
    SpmState.runtimeData_modifyRuntimeData_of_ne hne.symm,
    SpmState.runtimeData_modifyRuntimeData_self]

theorem runtimeData_entered_caller (hne : caller ≠ target) :
    (entered pl s desc lr caller target).runtimeData caller =
      { s.runtimeData caller with partitionState := .blocked } := by
  show (enteredEntries s desc lr caller target).runtimeData caller = _
  unfold enteredEntries
  rw [SpmState.runtimeData_modifyRuntimeData_of_ne hne,
    SpmState.runtimeData_modifyRuntimeData_self, SpmState.runtimeData_modifyRuntimeData_of_ne hne]

theorem runtimeData_entered_of_ne {i : Nat} (hcaller : i ≠ caller) (htarget : i ≠ target) :
    (entered pl s desc lr caller target).runtimeData i = s.runtimeData i := by
  show (enteredEntries s desc lr caller target).runtimeData i = _
  unfold enteredEntries
  rw [SpmState.runtimeData_modifyRuntimeData_of_ne htarget,
    SpmState.runtimeData_modifyRuntimeData_of_ne hcaller,
    SpmState.runtimeData_modifyRuntimeData_of_ne htarget]

end Entered

/-! ### Requests

When the partition is entered, and what a caller is told otherwise. -/

/-- A partition with this id is in the database. The id that marks an unused entry does not
count. -/
def Registered (s : SpmState) (partitionId : Nat) : Prop :=
  partitionId ≠ invalidPartitionId ∧
    ∃ i < s.partitionCount, (s.staticData i).partitionId = partitionId

/-- The lookup finds a registered partition. -/
theorem getPartitionIdx_lt {partitionId : Nat} (h : Registered s partitionId) :
    getPartitionIdx s partitionId < s.partitionCount := by
  obtain ⟨hid, i, hi, hpart⟩ := h
  unfold getPartitionIdx
  rw [if_neg hid]
  cases hfind : (List.range s.partitionCount).find?
      fun i => decide ((s.staticData i).partitionId = partitionId) with
  | none =>
    have hnone := List.find?_eq_none.mp hfind i (List.mem_range.mpr hi)
    exact absurd hpart (by simpa using hnone)
  | some j => exact List.mem_range.mp (List.mem_of_find?_eq_some hfind)

/-- `tfm_push_lock` after initialisation: it enters a partition that is idle, for a caller whose
side agrees with the running partition, and refuses otherwise without a change. -/
theorem tfmPushLock_cases (pl : Platform) {desc : SfnReq} (lr : Nat) (hinit : s.tfmSecureApiInit = false)
    (hcount : s.partitionCount ≤ spmInvalidPartitionIdx)
    (hrun : s.runningPartitionIdx < s.partitionCount) (hreg : Registered s desc.spId) :
    (∃ res, res ≠ .success ∧ tfmPushLock pl s desc lr = .ok (res, s)) ∨
    ((s.staticData s.runningPartitionIdx).isSecure = !desc.nsCaller ∧
      (s.runtimeData (getPartitionIdx s desc.spId)).partitionState = .idle ∧
      tfmPushLock pl s desc lr = .ok (.success,
        entered pl s desc lr s.runningPartitionIdx (getPartitionIdx s desc.spId))) := by
  have hvalid : s.runningPartitionIdx ≠ spmInvalidPartitionIdx := by omega
  have htarget := getPartitionIdx_lt hreg
  by_cases hside : (s.staticData s.runningPartitionIdx).isSecure = !desc.nsCaller
  · have hpush : tfmPushLock pl s desc lr =
        (let state := (s.runtimeData (getPartitionIdx s desc.spId)).partitionState
        if state = .running ∨ state = .suspended ∨ state = .blocked then
          .ok (.errorPartitionNonReentrant, s)
        else if state ≠ .idle then .ok (.secureLockFailed, s)
        else .ok (.success,
          entered pl s desc lr s.runningPartitionIdx (getPartitionIdx s desc.spId))) := by
      unfold tfmPushLock
      have hside' : (s.partitions s.runningPartitionIdx).staticData.isSecure = !desc.nsCaller :=
        hside
      simp only [if_neg hvalid, SpmState.getPartition_of_lt hrun,
        SpmState.getPartition_of_lt htarget, bind, Except.bind, hside', ne_eq, not_true_eq_false,
        if_false, hinit, Bool.false_eq_true, false_and, enter_eq hrun htarget]
      rfl
    rw [hpush]
    -- of the six states only one lets the call in
    cases hstate : (s.runtimeData (getPartitionIdx s desc.spId)).partitionState with
    | idle => exact .inr ⟨hside, rfl, rfl⟩
    | uninit => exact .inl ⟨_, by decide, rfl⟩
    | closed => exact .inl ⟨_, by decide, rfl⟩
    | running => exact .inl ⟨_, by decide, rfl⟩
    | suspended => exact .inl ⟨_, by decide, rfl⟩
    | blocked => exact .inl ⟨_, by decide, rfl⟩
  · refine .inl ⟨.secureLockFailed, by decide, ?_⟩
    unfold tfmPushLock
    rw [if_neg hvalid, SpmState.getPartition_of_lt hrun]
    exact if_pos hside

theorem tfmErrorStatus_ne_success (pl : Platform) {res : TfmStatus} (h : res ≠ .success) :
    tfmErrorStatus pl res ≠ .success := by
  unfold tfmErrorStatus
  split
  · exact h
  · decide

/-- A request that passes the rules comes from the non-secure side in handler mode with the lock
free, or from the secure side in thread mode. -/
theorem tfmCoreCheckSfnReqRules_success {desc : SfnReq}
    (h : tfmCoreCheckSfnReqRules s desc = .success) :
    (desc.nsCaller = true ∧ desc.excNum ≠ excNumThreadMode ∧ s.tfmSecureLock = 0) ∨
    (desc.nsCaller = false ∧ desc.excNum = excNumThreadMode) := by
  unfold tfmCoreCheckSfnReqRules at h
  split at h
  · cases h
  · split at h
    · rename_i hns
      split at h
      · cases h
      · rename_i hexc
        split at h
        · cases h
        · rename_i hlock
          exact .inl ⟨hns, hexc, not_not.mp hlock⟩
    · rename_i hns
      split at h
      · cases h
      · rename_i hexc
        exact .inr ⟨by simpa using hns, not_not.mp hexc⟩

/-- What `tfm_core_sfn_request_function` does after initialisation, for a registered target. -/
theorem request_cases (pl : Platform) {descPtr : Option SfnReq} (hinit : s.tfmSecureApiInit = false)
    (hcount : s.partitionCount ≤ spmInvalidPartitionIdx)
    (hrun : s.runningPartitionIdx < s.partitionCount)
    (hreg : ∀ desc ∈ descPtr, Registered s desc.spId) :
    (∃ res, res ≠ .success ∧ tfmCoreSfnRequestFunction pl s descPtr = .ok (res, s)) ∨
    (∃ desc, descPtr = some desc ∧ tfmCoreCheckSfnReqRules s desc = .success ∧
      (s.staticData s.runningPartitionIdx).isSecure = !desc.nsCaller ∧
      (s.runtimeData (getPartitionIdx s desc.spId)).partitionState = .idle ∧
      tfmCoreSfnRequestFunction pl s descPtr = .ok (.success,
        entered pl s desc pl.returnFromSfn s.runningPartitionIdx
          (getPartitionIdx s desc.spId))) := by
  cases descPtr with
  | none => exact .inl ⟨_, tfmErrorStatus_ne_success pl (by decide), rfl⟩
  | some desc =>
    unfold tfmCoreSfnRequestFunction
    -- the checks in their order: descriptor, rules, database
    by_cases hcheck : tfmCheckSfnReqIntegrity (some desc) = .success
    · by_cases hrules : tfmCoreCheckSfnReqRules s desc = .success
      · obtain ⟨res, hres, hpush⟩ | ⟨hside, hidle, hpush⟩ :=
          tfmPushLock_cases pl pl.returnFromSfn hinit hcount hrun (hreg desc rfl)
        · left
          refine ⟨_, tfmErrorStatus_ne_success pl hres, ?_⟩
          simp [hcheck, hrules, hpush, hres, bind, Except.bind]
        · right
          refine ⟨desc, rfl, hrules, hside, hidle, ?_⟩
          simp [hcheck, hrules, hpush, bind, Except.bind]
      · exact .inl ⟨_, tfmErrorStatus_ne_success pl hrules, by simp [hcheck, hrules]⟩
    · exact .inl ⟨_, tfmErrorStatus_ne_success pl hcheck, by simp [hcheck]⟩

/-! ### Leaving

`tfm_pop_lock`, for a running partition whose caller is known. -/

/-- The entries as a return leaves them. -/
def leftEntries (s : SpmState) (current ret : Nat) : SpmState :=
  (((s.modifyRuntimeData current fun r => { r with
      callerPartitionIdx := spmInvalidPartitionIdx
      origPsp := 0
      origPsplim := 0
      origLr := 0
      share := .disable }).modifyRuntimeData current
    fun r => { r with partitionState := .idle }).modifyRuntimeData current
    fun r => { r with callerPartitionIdx := spmInvalidPartitionIdx }).modifyRuntimeData ret
    fun r => { r with partitionState := .running }

/-- The state in which a return leaves the core; `restore` says whether the stack is switched
back. -/
def left (s : SpmState) (restore : Bool) (current ret : Nat) : SpmState :=
  { leftEntries s current ret with
    runningPartitionIdx := ret
    tfmSecureLock := s.tfmSecureLock - 1
    psp := if restore then (s.runtimeData current).origPsp else s.psp
    psplim := if restore then (s.runtimeData current).origPsplim else s.psplim }

section Left

variable {restore : Bool} {current ret : Nat}

@[simp] theorem left_tfmSecureLock :
    (left s restore current ret).tfmSecureLock = s.tfmSecureLock - 1 := rfl

@[simp] theorem staticData_left (i : Nat) :
    (left s restore current ret).staticData i = s.staticData i := by
  show (leftEntries s current ret).staticData i = _
  unfold leftEntries
  simp only [SpmState.staticData_modifyRuntimeData]

/-- The partition that returns is idle, and nothing of the call is left in its entry. -/
theorem runtimeData_left_current (hne : current ≠ ret) :
    (left s restore current ret).runtimeData current =
      { partitionState := .idle
        callerPartitionIdx := spmInvalidPartitionIdx
        origPsp := 0
        origPsplim := 0
        origLr := 0
        share := .disable } := by
  show (leftEntries s current ret).runtimeData current = _
  unfold leftEntries
  rw [SpmState.runtimeData_modifyRuntimeData_of_ne hne]
  simp only [SpmState.runtimeData_modifyRuntimeData_self]

theorem runtimeData_left_ret (hne : current ≠ ret) :
    (left s restore current ret).runtimeData ret =
      { s.runtimeData ret with partitionState := .running } := by
  show (leftEntries s current ret).runtimeData ret = _
  unfold leftEntries
  rw [SpmState.runtimeData_modifyRuntimeData_self]
  simp only [SpmState.runtimeData_modifyRuntimeData_of_ne hne.symm]

theorem runtimeData_left_of_ne {i : Nat} (hcurrent : i ≠ current) (hret : i ≠ ret) :
    (left s restore current ret).runtimeData i = s.runtimeData i := by
  show (leftEntries s current ret).runtimeData i = _
  unfold leftEntries
  rw [SpmState.runtimeData_modifyRuntimeData_of_ne hret]
  simp only [SpmState.runtimeData_modifyRuntimeData_of_ne hcurrent]

end Left

section Pop

variable {restore : Bool} {lrPtr : Option Nat} {current ret : Nat}

/-- `tfm_pop_lock` when the running partition has a caller. `restore` says whether the stack and
the return address are restored; that needs a place for the address. -/
theorem tfmPopLock_eq_of_restore (hcount : s.partitionCount ≤ spmInvalidPartitionIdx)
    (hrun : s.runningPartitionIdx = current) (hcurrent : current < s.partitionCount)
    (hcaller : (s.runtimeData current).callerPartitionIdx = ret) (hret : ret < s.partitionCount)
    (hrestore : (!(s.staticData ret).isSecure || s.tfmSecureApiInit) = restore) :
    tfmPopLock s lrPtr =
      if restore = true ∧ lrPtr = none then .error .nullDereference
      else .ok (.success, if restore then some (s.runtimeData current).origLr else lrPtr,
        left s restore current ret) := by
  have hvalid : current ≠ spmInvalidPartitionIdx := by omega
  have hvalid' : ret ≠ spmInvalidPartitionIdx := by omega
  have hcaller' : (s.partitions current).runtimeData.callerPartitionIdx = ret := hcaller
  have hrestore' : (!(s.partitions ret).staticData.isSecure || s.tfmSecureApiInit) = restore :=
    hrestore
  unfold tfmPopLock left leftEntries tfmSpmPartitionSetState tfmSpmPartitionCleanupContext
  -- the word at `lr_ptr` is written only when something is restored
  cases restore with
  | true =>
    cases lrPtr with
    | none =>
      simp [hrun, hvalid, SpmState.getPartition, hcurrent, hcaller', hvalid', hret, hrestore', bind,
        Except.bind, throw, throwThe, MonadExceptOf.throw]
    | some lr =>
      simp [hrun, hvalid, SpmState.getPartition, hcurrent, hcaller', hvalid', hret, hrestore', bind,
        Except.bind, pure, Except.pure, SpmState.setRuntimeData, SpmState.modifyRuntimeData,
        SpmState.runtimeData]
  | false =>
    simp [hrun, hvalid, SpmState.getPartition, hcurrent, hcaller', hvalid', hret, hrestore', bind,
      Except.bind, pure, Except.pure, SpmState.setRuntimeData, SpmState.modifyRuntimeData]

/-- After initialisation it succeeds if there is a place for the return address when the caller is
non-secure. -/
theorem tfmPopLock_eq (lrPtr : Option Nat) {current ret : Nat}
    (hinit : s.tfmSecureApiInit = false) (hcount : s.partitionCount ≤ spmInvalidPartitionIdx)
    (hrun : s.runningPartitionIdx = current) (hcurrent : current < s.partitionCount)
    (hcaller : (s.runtimeData current).callerPartitionIdx = ret) (hret : ret < s.partitionCount)
    (hlr : (s.staticData ret).isSecure = false → lrPtr ≠ none) :
    tfmPopLock s lrPtr = .ok (.success,
      if (s.staticData ret).isSecure then lrPtr else some (s.runtimeData current).origLr,
      left s (!(s.staticData ret).isSecure) current ret) := by
  rw [tfmPopLock_eq_of_restore hcount hrun hcurrent hcaller hret rfl, hinit, Bool.or_false]
  cases hsecure : (s.staticData ret).isSecure with
  | true => rfl
  | false =>
    rw [if_neg fun hnull => hlr hsecure hnull.2]
    rfl

end Pop

/-! ## The call chain

The stack is threaded through the database by the recorded callers (`Linked`), and closed under what
requests and returns do to it. -/

/-- The partition that called. -/
def SpmState.caller (s : SpmState) (idx : Nat) : Nat := (s.runtimeData idx).callerPartitionIdx

/-- The state of a partition. -/
def SpmState.state (s : SpmState) (idx : Nat) : PartState := (s.runtimeData idx).partitionState

/-- `chain` is the stack of open calls, from the running partition down to the non-secure one
(which the core addresses by its id, the index `0`). -/
structure CallChain (s : SpmState) (chain : List Nat) : Prop where
  head : chain.head? = some s.runningPartitionIdx
  last : chain.getLast? = some tfmSpNonSecureId
  range : ∀ i ∈ chain, i < s.partitionCount
  nodup : chain.Nodup
  linked : Linked s.caller spmInvalidPartitionIdx chain
  running : s.state s.runningPartitionIdx = .running
  blocked : ∀ i ∈ chain.tail, s.state i = .blocked
  off : ∀ i < s.partitionCount, i ∉ chain →
    (s.state i = .idle ∨ s.state i = .closed) ∧ s.caller i = spmInvalidPartitionIdx
  lock : s.tfmSecureLock = chain.tail.length

namespace CallChain

theorem head_eq {x : Nat} {l : List Nat} (h : CallChain s (x :: l)) :
    s.runningPartitionIdx = x := by
  have := h.head
  simpa using this.symm

theorem running_mem (h : CallChain s chain) : s.runningPartitionIdx ∈ chain :=
  List.mem_of_mem_head? h.head

/-! ### Reading off the chain

What the states of the partitions and the lock say about the chain. -/

/-- A partition on the chain is running or blocked. -/
theorem state_of_mem {i : Nat} (h : CallChain s chain) (hi : i ∈ chain) :
    s.state i = .running ∨ s.state i = .blocked := by
  cases chain with
  | nil => cases hi
  | cons x l =>
    rcases List.mem_cons.mp hi with rfl | hl
    · rw [← h.head_eq]
      exact .inl h.running
    · exact .inr (h.blocked i hl)

/-- A partition that could be entered is not on the chain. -/
theorem notMem_of_idle {i : Nat} (h : CallChain s chain) (hidle : s.state i = .idle) :
    i ∉ chain := by
  intro hi
  rcases h.state_of_mem hi with hs | hs <;> rw [hs] at hidle <;> cases hidle

/-- Exactly one partition is running, the one the database names. -/
theorem running_iff {i : Nat} (h : CallChain s chain) (hi : i < s.partitionCount) :
    s.state i = .running ↔ i = s.runningPartitionIdx := by
  constructor
  · intro hrun
    -- below the head of the chain partitions are blocked, off the chain idle or closed
    by_cases hmem : i ∈ chain
    · cases chain with
      | nil => cases hmem
      | cons x l =>
        rcases List.mem_cons.mp hmem with rfl | hl
        · exact h.head_eq.symm
        · rw [h.blocked i hl] at hrun
          cases hrun
    · rcases (h.off i hi hmem).1 with hs | hs <;> rw [hs] at hrun <;> cases hrun
  · rintro rfl
    exact h.running

/-- While the lock is free no call is open. -/
theorem singleton_of_unlocked (h : CallChain s chain) (hlock : s.tfmSecureLock = 0) :
    ∃ x, chain = [x] := by
  obtain _ | ⟨x, l⟩ := chain
  · cases h.head
  · have hl : l.length = 0 := by
      have := h.lock
      rw [hlock, List.tail_cons] at this
      omega
    exact ⟨x, by rw [List.length_eq_zero_iff.mp hl]⟩

/-- Then the non-secure partition is running. -/
theorem running_of_singleton {x : Nat} (h : CallChain s chain) (hchain : chain = [x]) :
    s.runningPartitionIdx = tfmSpNonSecureId := by
  subst hchain
  rw [h.head_eq]
  simpa using h.last

/-! ### Changing the chain

The chain grows and shrinks at its head; all links below stay as they are. -/

/-- An accepted request pushes its target. -/
theorem push {desc : SfnReq} {lr target : Nat} (h : CallChain s chain)
    (htarget : target < s.partitionCount) (hidle : s.state target = .idle) :
    CallChain (entered pl s desc lr s.runningPartitionIdx target) (target :: chain) := by
  obtain _ | ⟨x, l⟩ := chain
  · cases h.head
  have hx := h.head_eq
  have hfresh := h.notMem_of_idle hidle
  have hne : x ≠ target := fun heq => hfresh (heq ▸ List.mem_cons_self)
  rw [hx]
  -- below the top only the state of the caller has changed
  have hrest : ∀ i ≠ target, (entered pl s desc lr x target).caller i = s.caller i := by
    intro i hi
    unfold SpmState.caller
    by_cases hix : i = x
    · subst hix
      rw [runtimeData_entered_caller hne]
    · rw [runtimeData_entered_of_ne hix hi]
  have hstate : ∀ i, i ≠ x → i ≠ target → (entered pl s desc lr x target).state i = s.state i := by
    intro i hix hi
    unfold SpmState.state
    rw [runtimeData_entered_of_ne hix hi]
  have hnext : (entered pl s desc lr x target).caller target = x := by
    unfold SpmState.caller
    rw [runtimeData_entered_target hne]
  -- the new head is linked to the old one, and the old head is blocked
  exact {
    head := rfl
    last := by simpa using h.last
    range := by
      intro i hi
      rcases List.mem_cons.mp hi with rfl | hi
      · exact htarget
      · exact h.range i hi
    nodup := List.nodup_cons.mpr ⟨hfresh, h.nodup⟩
    linked := h.linked.push hnext fun i hi => hrest i fun heq => hfresh (heq ▸ hi)
    running := by
      show (SpmState.runtimeData _ target).partitionState = _
      rw [runtimeData_entered_target hne]
    blocked := by
      intro i hi
      rcases List.mem_cons.mp hi with rfl | hl
      · show (SpmState.runtimeData _ i).partitionState = _
        rw [runtimeData_entered_caller hne]
      · have hix : i ≠ x := fun heq => (List.nodup_cons.mp h.nodup).1 (heq ▸ hl)
        rw [hstate i hix fun heq => hfresh (heq ▸ hi)]
        exact h.blocked i hl
    off := by
      intro i hi hmem
      obtain ⟨hit, hmem⟩ := not_or.mp (mt List.mem_cons.mpr hmem)
      have hix : i ≠ x := fun heq => hmem (heq ▸ List.mem_cons_self)
      rw [hstate i hix hit, hrest i hit]
      exact h.off i hi hmem
    lock := by
      rw [entered_tfmSecureLock, h.lock]
      simp }

/-- A return pops the running partition. -/
theorem pop {x y : Nat} {l : List Nat} (h : CallChain s (x :: y :: l)) (restore : Bool) :
    CallChain (left s restore x y) (y :: l) := by
  obtain ⟨hx, hnodup⟩ := List.nodup_cons.mp h.nodup
  have hne : x ≠ y := fun heq => hx (heq ▸ List.mem_cons_self)
  have hrest : ∀ i ≠ x, (left s restore x y).caller i = s.caller i := by
    intro i hi
    unfold SpmState.caller
    by_cases hiy : i = y
    · subst hiy
      rw [runtimeData_left_ret hne]
    · rw [runtimeData_left_of_ne hi hiy]
  have hstate : ∀ i, i ≠ x → i ≠ y → (left s restore x y).state i = s.state i := by
    intro i hi hiy
    unfold SpmState.state
    rw [runtimeData_left_of_ne hi hiy]
  -- the head was linked to the next one, which now runs
  exact {
    head := rfl
    last := by simpa using h.last
    range := fun i hi => h.range i (List.mem_cons_of_mem _ hi)
    nodup := hnodup
    linked := h.linked.tail.congr fun i hi => hrest i fun heq => hx (heq ▸ hi)
    running := by
      show (SpmState.runtimeData _ y).partitionState = _
      rw [runtimeData_left_ret hne]
    blocked := by
      intro i hi
      have hix : i ≠ x := fun heq => hx (heq ▸ List.mem_cons_of_mem _ hi)
      have hiy : i ≠ y := fun heq => (List.nodup_cons.mp hnodup).1 (heq ▸ hi)
      rw [hstate i hix hiy]
      exact h.blocked i (List.mem_cons_of_mem _ hi)
    off := by
      intro i hi hmem
      by_cases hix : i = x
      · subst hix
        unfold SpmState.state SpmState.caller
        rw [runtimeData_left_current hne]
        exact ⟨.inl rfl, rfl⟩
      · have hiy : i ≠ y := fun heq => hmem (heq ▸ List.mem_cons_self)
        rw [hstate i hix hiy, hrest i hix]
        exact h.off i hi fun hmem' => (List.mem_cons.mp hmem').elim hix hmem
    lock := by
      rw [left_tfmSecureLock, h.lock]
      simp }

end CallChain

end Tfm.Spm
