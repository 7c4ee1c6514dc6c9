import TrustedFirmware.Spm.Runs

/-!
# Secure partition manager — requests for partitions that do not exist

`get_partition_idx` reports an id that is not in the database by an index with all bits set, and
`tfm_push_lock` reads the entry at that index before it decides anything. A request for such an id
is therefore answered only if it is refused before the lookup: by the rules for requests, or because
the side of the caller does not agree with the running partition (**`requestConfined_iff`**).

The states are those of any run of requests and returns, also during the initialisation: all that
matters is that the indices the core stores are marked as invalid or lie in the database
(`WellIndexed`).
-/

namespace Tfm.Spm

variable {pl : Platform} {s s' : SpmState} {m m' : Machine} {desc : SfnReq}

/-! ## Stored indices

The indices are those of the running partition and of the callers. A request stores two that it has
read from, a return none. -/

/-- The index is marked as invalid or is the index of an entry. -/
def SpmState.ValidIdx (s : SpmState) (idx : Nat) : Prop :=
  idx = spmInvalidPartitionIdx ∨ idx < s.partitionCount

/-- The indices that the core stores can be followed. -/
structure WellIndexed (s : SpmState) : Prop where
  count_le : s.partitionCount ≤ spmInvalidPartitionIdx
  running : s.ValidIdx s.runningPartitionIdx
  caller : ∀ i < s.partitionCount, s.ValidIdx (s.caller i)

/-- The machines that requests and returns of any kind lead to. -/
inductive Runs (pl : Platform) : Machine → Prop where
  | start {s : SpmState} : WellIndexed s → Runs pl ⟨s, []⟩
  | step {m m' : Machine} (e : Event) : Runs pl m → m.step pl e = .ok m' → Runs pl m'

theorem AfterInit.wellIndexed (h : AfterInit s) : WellIndexed s where
  count_le := h.count_le
  running := .inr (h.running ▸ h.count_pos)
  caller := fun i hi => .inl (h.noCaller i hi)

namespace WellIndexed

/-- An update of an entry that stores a valid caller. -/
theorem modify {idx : Nat} {f : PartitionRuntimeData → PartitionRuntimeData} (h : WellIndexed s)
    (hf : ∀ r, s.ValidIdx r.callerPartitionIdx → s.ValidIdx (f r).callerPartitionIdx) :
    WellIndexed (s.modifyRuntimeData idx f) := by
  refine ⟨h.count_le, h.running, fun i hi => ?_⟩
  have hold := h.caller i hi
  unfold SpmState.caller at hold ⊢
  by_cases hix : i = idx
  · subst hix
    rw [SpmState.runtimeData_modifyRuntimeData_self]
    exact hf _ hold
  · rw [SpmState.runtimeData_modifyRuntimeData_of_ne hix]
    exact hold

/-- A request stores the indices of the caller and of the target. -/
theorem entered {lr caller target : Nat} (h : WellIndexed s) (hcaller : caller < s.partitionCount)
    (htarget : target < s.partitionCount) : WellIndexed (entered pl s desc lr caller target) := by
  have hentries : WellIndexed (enteredEntries s desc lr caller target) := by
    unfold enteredEntries
    refine ((h.modify ?_).modify ?_).modify ?_
    · exact fun _ _ => .inr hcaller
    · exact fun _ hr => hr
    · exact fun _ hr => hr
  exact ⟨hentries.count_le, .inr htarget, hentries.caller⟩

/-- A return marks the caller as invalid. -/
theorem left {restore : Bool} {current ret : Nat} (h : WellIndexed s)
    (hret : ret < s.partitionCount) : WellIndexed (left s restore current ret) := by
  have hentries : WellIndexed (leftEntries s current ret) := by
    unfold leftEntries
    refine (((h.modify ?_).modify ?_).modify ?_).modify ?_
    · exact fun _ _ => .inl rfl
    · exact fun _ hr => hr
    · exact fun _ _ => .inl rfl
    · exact fun _ hr => hr
  exact ⟨hentries.count_le, .inr hret, hentries.caller⟩

end WellIndexed

/-! ## Requests and returns

Without the call chain: every state in which the stored indices can be followed, and every request. -/

/-- The target of a request that is not in the database has no entry. -/
theorem getPartitionIdx_of_not_registered {partitionId : Nat} (h : ¬ Registered s partitionId) :
    getPartitionIdx s partitionId = spmInvalidPartitionIdx := by
  unfold getPartitionIdx
  split
  · rfl
  · rename_i hid
    have hnone : (List.range s.partitionCount).find?
        (fun i => decide ((s.staticData i).partitionId = partitionId)) = none := by
      rw [List.find?_eq_none]
      intro i hi heq
      exact h ⟨hid, i, List.mem_range.mp hi, by simpa using heq⟩
    rw [hnone]
    rfl

/-- The request is refused before its target is looked up. -/
def RefusedEarly (s : SpmState) (desc : SfnReq) : Prop :=
  tfmCheckSfnReqIntegrity (some desc) ≠ .success ∨ tfmCoreCheckSfnReqRules s desc ≠ .success ∨
    s.runningPartitionIdx = spmInvalidPartitionIdx ∨
    (s.staticData s.runningPartitionIdx).isSecure ≠ !desc.nsCaller

/-- `tfm_push_lock` in any state: it refuses, enters the target, or reads behind the database. -/
theorem tfmPushLock_cases_of_wellIndexed (pl : Platform) (h : WellIndexed s) (desc : SfnReq)
    (lr : Nat) :
    (∃ res, res ≠ .success ∧ tfmPushLock pl s desc lr = .ok (res, s) ∧
      (s.runningPartitionIdx = spmInvalidPartitionIdx ∨
        (s.staticData s.runningPartitionIdx).isSecure ≠ !desc.nsCaller ∨
        Registered s desc.spId)) ∨
    (Registered s desc.spId ∧ s.runningPartitionIdx < s.partitionCount ∧
      tfmPushLock pl s desc lr = .ok (.success,
        entered pl s desc lr s.runningPartitionIdx (getPartitionIdx s desc.spId))) ∨
    (¬ Registered s desc.spId ∧ s.runningPartitionIdx ≠ spmInvalidPartitionIdx ∧
      (s.staticData s.runningPartitionIdx).isSecure = (!desc.nsCaller) ∧
      tfmPushLock pl s desc lr = .error (.outOfRange spmInvalidPartitionIdx)) := by
  by_cases hvalid : s.runningPartitionIdx = spmInvalidPartitionIdx
  · exact .inl ⟨.secureLockFailed, by decide, by simp [tfmPushLock, hvalid, pure, Except.pure],
      .inl hvalid⟩
  have hrun : s.runningPartitionIdx < s.partitionCount := h.running.resolve_left hvalid
  by_cases hside : (s.staticData s.runningPartitionIdx).isSecure = !desc.nsCaller
  · have hside' : (s.partitions s.runningPartitionIdx).staticData.isSecure = !desc.nsCaller := hside
    by_cases hreg : Registered s desc.spId
    · have htarget := getPartitionIdx_lt hreg
      unfold tfmPushLock
      simp only [if_neg hvalid, SpmState.getPartition_of_lt hrun,
        SpmState.getPartition_of_lt htarget, bind, Except.bind, hside', ne_eq, not_true_eq_false,
        if_false, enter_eq hrun htarget]
      split
      · exact .inr (.inl ⟨hreg, hrun, rfl⟩)
      · split
        · exact .inl ⟨_, by decide, rfl, .inr (.inr hreg)⟩
        · split
          · exact .inl ⟨_, by decide, rfl, .inr (.inr hreg)⟩
          · exact .inr (.inl ⟨hreg, hrun, rfl⟩)
    · -- the lookup returns the mark, and the entry at the mark is read
      refine .inr (.inr ⟨hreg, hvalid, hside, ?_⟩)
      have hbehind : ¬ spmInvalidPartitionIdx < s.partitionCount := Nat.not_lt.mpr h.count_le
      have hread : s.getPartition spmInvalidPartitionIdx =
          .error (.outOfRange spmInvalidPartitionIdx) := if_neg hbehind
      unfold tfmPushLock
      simp only [if_neg hvalid, SpmState.getPartition_of_lt hrun, bind, Except.bind, hside', ne_eq,
        not_true_eq_false, if_false, getPartitionIdx_of_not_registered hreg, hread]
  · refine .inl ⟨.secureLockFailed, by decide, ?_, .inr (.inl hside)⟩
    unfold tfmPushLock
    rw [if_neg hvalid, SpmState.getPartition_of_lt hrun]
    exact if_pos hside

/-- What a request does in any state. -/
theorem request_cases_of_wellIndexed (pl : Platform) (h : WellIndexed s) (desc : SfnReq) :
    (∃ res, res ≠ .success ∧ tfmCoreSfnRequestFunction pl s (some desc) = .ok (res, s) ∧
      (RefusedEarly s desc ∨ Registered s desc.spId)) ∨
    (Registered s desc.spId ∧ s.runningPartitionIdx < s.partitionCount ∧
      tfmCoreSfnRequestFunction pl s (some desc) = .ok (.success,
        entered pl s desc pl.returnFromSfn s.runningPartitionIdx (getPartitionIdx s desc.spId))) ∨
    (¬ Registered s desc.spId ∧ ¬ RefusedEarly s desc ∧
      tfmCoreSfnRequestFunction pl s (some desc) = .error (.outOfRange spmInvalidPartitionIdx)) := by
  unfold tfmCoreSfnRequestFunction
  by_cases hcheck : tfmCheckSfnReqIntegrity (some desc) = .success
  · by_cases hrules : tfmCoreCheckSfnReqRules s desc = .success
    · obtain ⟨res, hres, hpush, hwhy⟩ | ⟨hreg, hrun, hpush⟩ | ⟨hreg, hvalid, hside, hpush⟩ :=
        tfmPushLock_cases_of_wellIndexed pl h desc pl.returnFromSfn
      · refine .inl ⟨_, tfmErrorStatus_ne_success pl hres, ?_, ?_⟩
        · simp [hcheck, hrules, hpush, hres, bind, Except.bind]
        · rcases hwhy with hwhy | hwhy | hwhy
          · exact .inl (.inr (.inr (.inl hwhy)))
          · exact .inl (.inr (.inr (.inr hwhy)))
          · exact .inr hwhy
      · refine .inr (.inl ⟨hreg, hrun, ?_⟩)
        simp [hcheck, hrules, hpush, bind, Except.bind]
      · -- none of the checks before the lookup has refused the request
        refine .inr (.inr ⟨hreg, ?_, ?_⟩)
        · rintro (hbad | hbad | hbad | hbad)
          · exact hbad hcheck
          · exact hbad hrules
          · exact hvalid hbad
          · exact hbad hside
        · simp [hcheck, hrules, hpush, bind, Except.bind]
    · exact .inl ⟨_, tfmErrorStatus_ne_success pl hrules, by simp [hcheck, hrules],
        .inl (.inr (.inl hrules))⟩
  · exact .inl ⟨_, tfmErrorStatus_ne_success pl hcheck, by simp [hcheck], .inl (.inl hcheck)⟩

/-- An unlock that is completed leaves the running partition for its caller, or changes nothing. -/
theorem tfmPopLock_cases (h : WellIndexed s) {lrPtr lrPtr' : Option Nat} {res : TfmStatus}
    (hpop : tfmPopLock s lrPtr = .ok (res, lrPtr', s')) :
    s' = s ∨ ∃ restore current ret, ret < s.partitionCount ∧ s' = left s restore current ret := by
  by_cases hvalid : s.runningPartitionIdx = spmInvalidPartitionIdx
  · simp only [tfmPopLock, hvalid, if_true, pure, Except.pure, Except.ok.injEq, Prod.mk.injEq]
      at hpop
    exact .inl hpop.2.2.symm
  have hrun : s.runningPartitionIdx < s.partitionCount := h.running.resolve_left hvalid
  generalize hret : (s.partitions s.runningPartitionIdx).runtimeData.callerPartitionIdx = ret at *
  -- without a caller the unlock fails and changes nothing
  by_cases hnone : ret = spmInvalidPartitionIdx
  · simp only [tfmPopLock, if_neg hvalid, SpmState.getPartition_of_lt hrun, bind, Except.bind, hret,
      hnone, if_true, pure, Except.pure, Except.ok.injEq, Prod.mk.injEq] at hpop
    exact .inl hpop.2.2.symm
  have hlt : ret < s.partitionCount := by
    have hcaller := (h.caller _ hrun).resolve_left (fun heq => hnone (hret ▸ heq))
    rw [← hret]
    exact hcaller
  rw [tfmPopLock_eq_of_restore h.count_le rfl hrun hret hlt rfl] at hpop
  split at hpop
  · cases hpop
  · cases hpop
    exact .inr ⟨_, _, ret, hlt, rfl⟩

theorem tfmPopLock_wellIndexed (h : WellIndexed s) {lrPtr lrPtr' : Option Nat} {res : TfmStatus}
    (hpop : tfmPopLock s lrPtr = .ok (res, lrPtr', s')) : WellIndexed s' := by
  obtain rfl | ⟨restore, current, ret, hret, rfl⟩ := tfmPopLock_cases h hpop
  · exact h
  · exact h.left hret

/-- The end of a direct call keeps the indices valid. -/
theorem finish_wellIndexed (h : WellIndexed s) (hfin : tfmCoreCallSfn.finish s = .ok s') :
    WellIndexed s' := by
  unfold tfmCoreCallSfn.finish at hfin
  obtain ⟨⟨res, lrPtr', t⟩, hpop, hfin⟩ := bind_eq_ok hfin
  dsimp only at hfin
  split at hfin
  · cases hfin
    exact tfmPopLock_wellIndexed h hpop
  · cases hfin

/-- The return handler does, too: it fails where the unlock does. -/
theorem returnHandler_wellIndexed {retVal : Int} {lr : Nat} (h : WellIndexed s)
    (hret : tfmCorePartitionReturnHandler pl s lr retVal = .ok s') : WellIndexed s' := by
  unfold tfmCorePartitionReturnHandler at hret
  split at hret
  · cases hret
  · split at hret
    · cases hret
    · obtain ⟨⟨res, lrPtr', t⟩, hpop, hret⟩ := bind_eq_ok hret
      dsimp only at hret
      split at hret
      · cases hret
      · split at hret
        · cases hret
        · cases hret
          exact tfmPopLock_wellIndexed h hpop

/-- One step keeps the indices valid. -/
theorem Machine.step_wellIndexed {e : Event} (h : WellIndexed m.spm)
    (hstep : m.step pl e = .ok m') : WellIndexed m'.spm := by
  cases e with
  | ret retVal lr =>
    change m.ret pl retVal lr = .ok m' at hstep
    unfold Machine.ret at hstep
    split at hstep
    · cases hstep
      exact h
    · dsimp only at hstep
      split at hstep
      · obtain ⟨t, hret, hstep⟩ := bind_eq_ok hstep
        cases hstep
        exact finish_wellIndexed h hret
      · obtain ⟨t, hret, hstep⟩ := bind_eq_ok hstep
        cases hstep
        exact returnHandler_wellIndexed h hret
  | request descPtr =>
    change m.request pl descPtr = .ok m' at hstep
    unfold Machine.request at hstep
    cases descPtr with
    | none =>
      cases hstep
      exact h
    | some desc =>
      obtain ⟨res, _, hreq, -⟩ | ⟨hreg, hrun, hreq⟩ | ⟨-, -, hreq⟩ :=
        request_cases_of_wellIndexed pl h desc
      · rw [hreq] at hstep
        cases hstep
        exact h
      · rw [hreq] at hstep
        cases hstep
        exact h.entered hrun (getPartitionIdx_lt hreg)
      · rw [hreq] at hstep
        cases hstep

theorem Runs.wellIndexed (h : Runs pl m) : WellIndexed m.spm := by
  induction h with
  | start hs => exact hs
  | step e _ hstep ih => exact Machine.step_wellIndexed ih hstep

/-! ## The result

A request leaves the database exactly by way of the lookup. -/

/-- The request reads and writes only entries of the database; if its target is not one of them it
is answered with an error and changes nothing. -/
def RequestConfined (pl : Platform) (s : SpmState) (desc : SfnReq) : Prop :=
  ∃ res s', tfmCoreSfnRequestFunction pl s (some desc) = .ok (res, s') ∧
    (¬ Registered s desc.spId → res ≠ .success ∧ s' = s)

/-- A request with a filled descriptor stays in the database exactly if its target is registered
or it is refused before the lookup. -/
theorem requestConfined_iff (h : Runs pl m) (hid : desc.spId ≠ 0) (hsfn : desc.sfnNull = false) :
    RequestConfined pl m.spm desc ↔
      Registered m.spm desc.spId ∨ tfmCoreCheckSfnReqRules m.spm desc ≠ .success ∨
        m.spm.runningPartitionIdx = spmInvalidPartitionIdx ∨
        (m.spm.staticData m.spm.runningPartitionIdx).isSecure ≠ !desc.nsCaller := by
  have hcheck : tfmCheckSfnReqIntegrity (some desc) = .success := by
    simp [tfmCheckSfnReqIntegrity, hid, hsfn]
  obtain ⟨res, hres, hreq, hwhy⟩ | ⟨hreg, -, hreq⟩ | ⟨hreg, hearly, hreq⟩ :=
    request_cases_of_wellIndexed pl h.wellIndexed desc
  · refine iff_of_true ⟨res, _, hreq, fun _ => ⟨hres, rfl⟩⟩ ?_
    rcases hwhy with (hbad | hearly) | hreg
    · exact absurd hcheck hbad
    · exact .inr hearly
    · exact .inl hreg
  · exact iff_of_true ⟨_, _, hreq, fun hnot => absurd hreg hnot⟩ (.inl hreg)
  · refine iff_of_false ?_ (not_or.mpr ⟨hreg, fun hbad => hearly (.inr hbad)⟩)
    rintro ⟨res, s', hok, -⟩
    rw [hreq] at hok
    cases hok

def tfmSpStorageId : Nat := 256
def tfmSpAuditLogId : Nat := 257

/-- The partitions that the list declares, as `main` leaves them: the audit log is not among
them. -/
def declaredPartitions : SpmState where
  partitionCount := 3
  partitions := fun i =>
    { staticData := if i = 0 then ⟨0, 0⟩ else if i = 1 then ⟨1, 3⟩ else ⟨tfmSpStorageId, 3⟩
      runtimeData :=
        { partitionState := if i = 0 then .running else if i = 1 then .closed else .idle
          callerPartitionIdx := spmInvalidPartitionIdx
          origPsp := 0
          origPsplim := 0
          origLr := 0
          share := .disable } }
  runningPartitionIdx := 0
  tfmSecureLock := 0
  tfmSecureApiInit := false
  psp := 0x20000400
  psplim := 0x20000000

/-- The declared partitions are in the state that `main` establishes. -/
theorem declaredPartitions_afterInit : AfterInit declaredPartitions where
  count_pos := by decide
  count_le := by decide
  nonSecure := rfl
  apiInit := rfl
  running := rfl
  nonSecureRunning := rfl
  coreClosed := rfl
  othersIdle := by decide
  noCaller := by decide
  unlocked := rfl

/-- A request for the storage partition, and one for the audit log, which is not declared, by a
caller that claims to be secure while the non-secure side runs: the second is refused before the
lookup. -/
theorem requestConfined_of_storage_and_refused :
    RequestConfined samplePlatform declaredPartitions ⟨tfmSpStorageId, false, excNumSvcall, true⟩ ∧
    ¬ Registered declaredPartitions tfmSpAuditLogId ∧
    RequestConfined samplePlatform declaredPartitions
      ⟨tfmSpAuditLogId, false, excNumSvcall, false⟩ := by
  have hstart : Runs samplePlatform ⟨declaredPartitions, []⟩ :=
    .start declaredPartitions_afterInit.wellIndexed
  refine ⟨(requestConfined_iff hstart (by decide) rfl).mpr (.inl ⟨by decide, 2, by decide, rfl⟩),
    by unfold Registered; decide, (requestConfined_iff hstart (by decide) rfl).mpr (.inr (.inr (.inr ?_)))⟩
  decide

/-- The non-secure side asks for the audit log, which has an id but is not declared. -/
theorem auditLog_request_not_confined :
    Runs samplePlatform ⟨declaredPartitions, []⟩ ∧
    tfmCoreSfnRequestFunction samplePlatform declaredPartitions
      (some ⟨tfmSpAuditLogId, false, excNumSvcall, true⟩) =
        .error (.outOfRange spmInvalidPartitionIdx) ∧
    ¬ RequestConfined samplePlatform declaredPartitions
      ⟨tfmSpAuditLogId, false, excNumSvcall, true⟩ := by
  have hreq : tfmCoreSfnRequestFunction samplePlatform declaredPartitions
      (some ⟨tfmSpAuditLogId, false, excNumSvcall, true⟩) =
        .error (.outOfRange spmInvalidPartitionIdx) := rfl
  refine ⟨.start declaredPartitions_afterInit.wellIndexed, hreq, ?_⟩
  rintro ⟨res, s', hok, -⟩
  rw [hreq] at hok
  cases hok

end Tfm.Spm
