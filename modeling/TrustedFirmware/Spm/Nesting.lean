import TrustedFirmware.Spm.Runs

/-!
# Secure partition manager — calls and returns are inverse

A call saves the caller's context in the entry of the partition it enters, and the return takes it
from there. Whether the process stack is switched is decided by two different tests: by the
exception number of the request on the way in, and by the caller's secure flag on the way out.
The rules for requests and the comparison of the two sides make them agree, so a return leads back
to exactly the state before the request, whatever calls the partition made in between.

A partition works on its stack while it runs. A body is therefore a sequence of moves of the stack
pointer, of refused requests and of calls with bodies of their own (`Nested`). A partition that was
called directly, without a switch of the stack, leaves the stack pointer where it found it, as the
procedure call standard demands; one that was entered by an exception return may leave it anywhere.
-/

namespace Tfm.Spm

variable {pl : Platform} {s s' : SpmState} {m m' m'' : Machine} {chain : List Nat} {desc : SfnReq}

/-! ## The stack pointer

Moving it changes nothing that the invariant is about. -/

/-- The running code moves the process stack pointer. -/
def SpmState.withPsp (s : SpmState) (psp : Nat) : SpmState := { s with psp := psp }

/-- The same for the machine. -/
def Machine.withPsp (m : Machine) (psp : Nat) : Machine := ⟨m.spm.withPsp psp, m.frames⟩

/-- The open requests do not depend on the stack pointer. -/
theorem Frames.withPsp {frames : List Nat} (h : Frames pl s chain frames) (psp : Nat) :
    Frames pl (s.withPsp psp) chain frames :=
  h.congr (fun _ => rfl) fun _ _ => rfl

theorem Inv.withPsp (h : Inv pl m chain) (psp : Nat) : Inv pl (m.withPsp psp) chain where
  init := ⟨h.init.count_pos, h.init.count_le, h.init.nonSecure, h.init.apiInit⟩
  calls := ⟨h.calls.head, h.calls.last, h.calls.range, h.calls.nodup, h.calls.linked,
    h.calls.running, h.calls.blocked, h.calls.off, h.calls.lock⟩
  frames := h.frames.withPsp psp

/-! ## Saved contexts

A partition that is off the chain has a cleared entry. This is what makes the state after a return
the state before the request, and not only one that looks like it. -/

/-- Nothing of an earlier call is left in the entry. -/
structure PartitionRuntimeData.Cleared (r : PartitionRuntimeData) : Prop where
  caller : r.callerPartitionIdx = spmInvalidPartitionIdx
  psp : r.origPsp = 0
  psplim : r.origPsplim = 0
  lr : r.origLr = 0
  share : r.share = .disable

/-- The call-chain invariant with the saved contexts: an entry holds a context only while its
partition is on the chain. -/
structure CallInv (pl : Platform) (m : Machine) (chain : List Nat) : Prop extends
    Inv pl m chain where
  cleared : ∀ i < m.spm.partitionCount, i ∉ chain → (m.spm.runtimeData i).Cleared

theorem CallInv.withPsp (h : CallInv pl m chain) (psp : Nat) : CallInv pl (m.withPsp psp) chain :=
  ⟨h.toInv.withPsp psp, h.cleared⟩

/-- A request keeps cleared entries cleared: it writes to the entries of the caller and of the
target, which are on the chain. -/
theorem CallInv.push (h : CallInv pl m chain) (hreg : Registered m.spm desc.spId)
    (hrules : tfmCoreCheckSfnReqRules m.spm desc = .success)
    (hside : (m.spm.staticData m.spm.runningPartitionIdx).isSecure = !desc.nsCaller)
    (hidle : m.spm.state (getPartitionIdx m.spm desc.spId) = .idle) :
    CallInv pl ⟨entered pl m.spm desc pl.returnFromSfn m.spm.runningPartitionIdx
        (getPartitionIdx m.spm desc.spId), desc.excNum :: m.frames⟩
      (getPartitionIdx m.spm desc.spId :: chain) := by
  refine ⟨h.toInv.push hreg hrules hside hidle, fun i hi hmem => ?_⟩
  obtain ⟨hit, hmem⟩ := not_or.mp (mt List.mem_cons.mpr hmem)
  have hir : i ≠ m.spm.runningPartitionIdx := fun heq => hmem (heq ▸ h.calls.running_mem)
  show (SpmState.runtimeData _ i).Cleared
  rw [runtimeData_entered_of_ne hir hit]
  exact h.cleared i hi hmem

/-- A return clears the entry of the partition that leaves the chain. -/
theorem CallInv.pop {x y : Nat} {l frames : List Nat} {restore : Bool}
    (h : CallInv pl m (x :: y :: l))
    (hinv : Inv pl ⟨left m.spm restore x y, frames⟩ (y :: l)) :
    CallInv pl ⟨left m.spm restore x y, frames⟩ (y :: l) := by
  have hx := (List.nodup_cons.mp h.calls.nodup).1
  have hne : x ≠ y := fun heq => hx (heq ▸ List.mem_cons_self)
  refine ⟨hinv, fun i hi hmem => ?_⟩
  show (SpmState.runtimeData _ i).Cleared
  by_cases hix : i = x
  · rw [hix, runtimeData_left_current hne]
    exact ⟨rfl, rfl, rfl, rfl, rfl⟩
  · have hiy : i ≠ y := fun heq => hmem (heq ▸ List.mem_cons_self)
    rw [runtimeData_left_of_ne hix hiy]
    exact h.cleared i hi fun hmem' => (List.mem_cons.mp hmem').elim hix hmem

/-- Requests and returns keep the invariant. -/
theorem CallInv.step {e : Event} (h : CallInv pl m chain) (hreg : e.TargetsRegistered m.spm)
    (hstep : m.step pl e = .ok m') : ∃ chain', CallInv pl m' chain' := by
  obtain rfl | ⟨desc, hreg, hrules, hside, hidle, rfl⟩ | ⟨x, y, l, frames, rfl, rfl, hinv⟩ :=
    h.step_cases hreg hstep
  · exact ⟨chain, h⟩
  · exact ⟨_, h.push hreg hrules hside hidle⟩
  · exact ⟨y :: l, h.pop hinv⟩

/-- Requests to registered partitions and returns lead from `m` to `m'`. -/
inductive Machine.Leads (pl : Platform) (m : Machine) : Machine → Prop where
  | refl : Leads pl m m
  | step {m' m'' : Machine} (e : Event) (h : Leads pl m m') (hreg : e.TargetsRegistered m'.spm)
      (hstep : m'.step pl e = .ok m'') : Leads pl m m''

/-- The invariant holds all along a run. The induction is on the run, the chain changes with it. -/
theorem CallInv.leads (h : CallInv pl m chain) (hrun : m.Leads pl m') :
    ∃ chain', CallInv pl m' chain' := by
  induction hrun with
  | refl => exact ⟨chain, h⟩
  | step e _ hreg hstep ih =>
    obtain ⟨chain', h'⟩ := ih
    exact h'.step hreg hstep

/-- The initialisation establishes the invariant: `main` leaves the contexts as `tfm_spm_db_init` has
cleared them. -/
theorem AfterInit.callInv (h : AfterInit s)
    (hclear : ∀ i < s.partitionCount, (s.runtimeData i).Cleared) :
    CallInv pl ⟨s, []⟩ [tfmSpNonSecureId] :=
  ⟨.start h, fun i hi _ => hclear i hi⟩

/-! ## A return takes a call back

Field by field: what the request has written, the return writes back. -/

/-- Two states with equal fields and entries are equal. -/
theorem SpmState.eq_of_fields (hcount : s.partitionCount = s'.partitionCount)
    (hstatic : ∀ i, s.staticData i = s'.staticData i)
    (hruntime : ∀ i, s.runtimeData i = s'.runtimeData i)
    (hrunning : s.runningPartitionIdx = s'.runningPartitionIdx)
    (hlock : s.tfmSecureLock = s'.tfmSecureLock)
    (hinit : s.tfmSecureApiInit = s'.tfmSecureApiInit) (hpsp : s.psp = s'.psp)
    (hpsplim : s.psplim = s'.psplim) : s = s' := by
  have hparts : s.partitions = s'.partitions := by
    funext i
    have hi := hstatic i
    have hi' := hruntime i
    unfold SpmState.staticData at hi
    unfold SpmState.runtimeData at hi'
    generalize s.partitions i = d at hi hi' ⊢
    generalize s'.partitions i = d' at hi hi' ⊢
    cases d
    cases d'
    cases hi
    cases hi'
    rfl
  cases s
  cases s'
  cases hcount
  cases hparts
  cases hrunning
  cases hlock
  cases hinit
  cases hpsp
  cases hpsplim
  rfl

/-- Leaving the partition that was just entered. The stack pointer may have been moved in between;
if it is not restored it was put back, and the stack was not switched. -/
theorem left_entered (pl : Platform) {lr target psp : Nat} {restore : Bool} (hinit : s.tfmSecureApiInit = false)
    (hne : s.runningPartitionIdx ≠ target) (hrun : s.state s.runningPartitionIdx = .running)
    (hidle : s.state target = .idle) (hclear : (s.runtimeData target).Cleared)
    (hrestore : restore = decide (desc.excNum ≠ excNumThreadMode))
    (hpsp : restore = false → psp = s.psp) :
    left ((entered pl s desc lr s.runningPartitionIdx target).withPsp psp) restore target
      s.runningPartitionIdx = s := by
  have hsaved : ((entered pl s desc lr s.runningPartitionIdx target).withPsp psp).runtimeData target
      = (entered pl s desc lr s.runningPartitionIdx target).runtimeData target := rfl
  apply SpmState.eq_of_fields
  · rfl
  · intro i
    rw [staticData_left]
    show (entered pl s desc lr s.runningPartitionIdx target).staticData i = s.staticData i
    rw [staticData_entered]
  · intro i
    -- the entry of the partition: cleared before the call, and cleared again
    by_cases hit : i = target
    · rw [hit, runtimeData_left_current hne.symm]
      have hstate : (s.runtimeData target).partitionState = .idle := hidle
      generalize s.runtimeData target = r at hclear hstate
      obtain ⟨hcaller, horigPsp, horigPsplim, horigLr, hshare⟩ := hclear
      cases r
      cases hstate
      cases hcaller
      cases horigPsp
      cases horigPsplim
      cases horigLr
      cases hshare
      rfl
    · -- the entry of the caller: running before the call, blocked, and running again
      by_cases hir : i = s.runningPartitionIdx
      · rw [hir, runtimeData_left_ret hne.symm]
        show { (entered pl s desc lr s.runningPartitionIdx target).runtimeData
          s.runningPartitionIdx with partitionState := .running } = _
        rw [runtimeData_entered_caller hne]
        have hstate : (s.runtimeData s.runningPartitionIdx).partitionState = .running := hrun
        generalize s.runtimeData s.runningPartitionIdx = r at hstate ⊢
        cases r
        cases hstate
        rfl
      · rw [runtimeData_left_of_ne hit hir]
        show (entered pl s desc lr s.runningPartitionIdx target).runtimeData i = s.runtimeData i
        rw [runtimeData_entered_of_ne hir hit]
  · rfl
  · show s.tfmSecureLock + 1 - 1 = s.tfmSecureLock
    omega
  · rfl
  · show (if restore = true then (SpmState.runtimeData _ target).origPsp else psp) = s.psp
    cases restore with
    | true => rw [if_pos rfl, hsaved, runtimeData_entered_target hne]
    | false => exact hpsp rfl
  · show (if restore = true then (SpmState.runtimeData _ target).origPsplim
      else (entered pl s desc lr s.runningPartitionIdx target).psplim) = s.psplim
    cases restore with
    | true => rw [if_pos rfl, hsaved, runtimeData_entered_target hne]
    | false =>
      -- nothing is restored, so the request came from thread mode and nothing was switched
      have hthread : ¬ (desc.excNum ≠ excNumThreadMode ∨ s.tfmSecureApiInit = true) := by
        rw [hinit]
        simpa using hrestore.symm
      show (if decide _ = true then pl.secureStackBase else s.psplim) = s.psplim
      rw [if_neg (by simpa using hthread)]

/-! ## Bodies

By induction on the body, which has bodies of other calls inside. -/

/-- What a partition does between its entry and its return: it moves its stack pointer, makes
requests that are refused, and calls other partitions. -/
inductive Nested (pl : Platform) : Machine → Machine → Prop where
  | done (m : Machine) : Nested pl m m
  | stack {m m' : Machine} (psp : Nat) : Nested pl (m.withPsp psp) m' → Nested pl m m'
  | refused {m m' : Machine} {descPtr : Option SfnReq} {res : TfmStatus} {s' : SpmState} :
      (∀ desc ∈ descPtr, Registered m.spm desc.spId) →
      tfmCoreSfnRequestFunction pl m.spm descPtr = .ok (res, s') → res ≠ .success →
      Nested pl ⟨s', m.frames⟩ m' → Nested pl m m'
  | call {m m₁ m₂ m' : Machine} {desc : SfnReq} {s' : SpmState} {retVal : Int} {lr : Nat} :
      Registered m.spm desc.spId →
      tfmCoreSfnRequestFunction pl m.spm (some desc) = .ok (.success, s') →
      Nested pl ⟨s', desc.excNum :: m.frames⟩ m₁ →
      (desc.excNum = excNumThreadMode → m₁.spm.psp = s'.psp) →
      m₁.ret pl retVal lr = .ok m₂ → Nested pl m₂ m' → Nested pl m m'

/-- A refused request changes nothing. -/
theorem CallInv.refused {descPtr : Option SfnReq} {res : TfmStatus} (h : CallInv pl m chain)
    (hreg : ∀ desc ∈ descPtr, Registered m.spm desc.spId)
    (hreq : tfmCoreSfnRequestFunction pl m.spm descPtr = .ok (res, s')) (hres : res ≠ .success) :
    s' = m.spm := by
  obtain ⟨res', -, hreq'⟩ | ⟨desc, -, -, -, -, hreq'⟩ := h.request_cases hreg
  · rw [hreq] at hreq'
    cases hreq'
    rfl
  · rw [hreq] at hreq'
    cases hreq'
    exact absurd rfl hres

/-- What an accepted request says about the state before it. -/
theorem CallInv.accepted (h : CallInv pl m chain) (hreg : Registered m.spm desc.spId)
    (hreq : tfmCoreSfnRequestFunction pl m.spm (some desc) = .ok (.success, s')) :
    tfmCoreCheckSfnReqRules m.spm desc = .success ∧
    (m.spm.staticData m.spm.runningPartitionIdx).isSecure = !desc.nsCaller ∧
    m.spm.state (getPartitionIdx m.spm desc.spId) = .idle ∧
    s' = entered pl m.spm desc pl.returnFromSfn m.spm.runningPartitionIdx
      (getPartitionIdx m.spm desc.spId) := by
  have hregs : ∀ d ∈ some desc, Registered m.spm d.spId := by
    rintro _ ⟨⟩
    exact hreg
  obtain ⟨res, hres, hreq'⟩ | ⟨d, ⟨⟩, hrules, hside, hidle, hreq'⟩ := h.request_cases hregs
  · rw [hreq] at hreq'
    cases hreq'
    exact absurd rfl hres
  · rw [hreq] at hreq'
    cases hreq'
    exact ⟨hrules, hside, hidle, rfl⟩

/-- The partition that was just entered returns: the machine is the one before the request, or the
return handler halts. -/
theorem CallInv.ret_of_accepted {psp : Nat} (h : CallInv pl m chain)
    (hreg : Registered m.spm desc.spId)
    (hreq : tfmCoreSfnRequestFunction pl m.spm (some desc) = .ok (.success, s'))
    (hm' : m' = Machine.withPsp ⟨s', desc.excNum :: m.frames⟩ psp)
    (hbal : desc.excNum = excNumThreadMode → m'.spm.psp = s'.psp) (retVal : Int) (lr : Nat) :
    m'.ret pl retVal lr = .ok m ∨
    (m'.ret pl retVal lr = .error .halted ∧
      (excReturnStackProcess lr = false ∨ isReservedReturnValue retVal = true)) := by
  obtain ⟨hrules, hside, hidle, hs'⟩ := h.accepted hreg hreq
  have hpsp : desc.excNum = excNumThreadMode → psp = s'.psp := by
    rw [hm'] at hbal
    exact hbal
  have hfresh := h.calls.notMem_of_idle hidle
  have hne : m.spm.runningPartitionIdx ≠ getPartitionIdx m.spm desc.spId :=
    fun heq => hfresh (heq ▸ h.calls.running_mem)
  have hclear := h.cleared _ (getPartitionIdx_lt hreg) hfresh
  have hstatic : ∀ i, m'.spm.staticData i = m.spm.staticData i := by
    intro i
    rw [hm', hs']
    show (entered pl m.spm desc _ _ _).staticData i = _
    rw [staticData_entered]
  have hin : CallInv pl m' (getPartitionIdx m.spm desc.spId :: chain) := by
    rw [hm', hs']
    exact (h.push hreg hrules hside hidle).withPsp psp
  have hframes : m'.frames = desc.excNum :: m.frames := by rw [hm']; rfl
  -- the partition returns to the head of the old chain, or the handler halts
  obtain ⟨x, y, l, hchain, hentered, hret, -⟩ | hhalted := hin.ret_cases hframes retVal lr
  · left
    obtain ⟨rfl, rfl⟩ := List.cons.inj hchain
    have hrunning : m.spm.runningPartitionIdx = y := h.calls.head_eq
    have hmode := hentered.threadMode_iff
    rw [hstatic] at hmode hret
    have hrestore : (!(m.spm.staticData y).isSecure) = decide (desc.excNum ≠ excNumThreadMode) := by
      rw [Bool.eq_iff_iff]
      simp [hmode]
    have hback : left m'.spm (!(m.spm.staticData y).isSecure)
        (getPartitionIdx m.spm desc.spId) y = m.spm := by
      rw [hm', hs', ← hrunning]
      refine left_entered pl h.init.apiInit hne h.calls.running hidle hclear ?_ ?_
      · rw [hrunning, hrestore]
      · intro hsecure
        -- nothing is restored: the call came from thread mode, which does not switch the stack
        have hthread : desc.excNum = excNumThreadMode := by
          rw [hrunning, hrestore] at hsecure
          simpa using hsecure
        rw [hpsp hthread, hs']
        show (if decide _ = true then _ else m.spm.psp) = m.spm.psp
        rw [if_neg (by simp [hthread, h.init.apiInit])]
    rw [hret, hback]
  · exact .inr hhalted

/-- A body gives the machine back, but for the stack pointer. -/
theorem CallInv.nested (h : CallInv pl m chain) (hbody : Nested pl m m') :
    ∃ psp, m' = m.withPsp psp := by
  induction hbody generalizing chain with
  | done m => exact ⟨m.spm.psp, rfl⟩
  | stack psp _ ih =>
    obtain ⟨psp', hm'⟩ := ih (h.withPsp psp)
    exact ⟨psp', hm'⟩
  | refused hreg hreq hres _ ih =>
    obtain rfl := h.refused hreg hreq hres
    exact ih h
  -- a call in the body: its own body first, then its return, then the rest
  | call hreg hreq _ hbal hret _ ihbody ihrest =>
    obtain ⟨hrules, hside, hidle, hs'⟩ := h.accepted hreg hreq
    have hin := h.push hreg hrules hside hidle
    rw [← hs'] at hin
    obtain ⟨psp, hm₁⟩ := ihbody hin
    obtain hback | ⟨hhalted, -⟩ := h.ret_of_accepted hreg hreq hm₁ hbal _ _
    · rw [hret] at hback
      cases hback
      exact ihrest h
    · rw [hret] at hhalted
      cases hhalted

/-- **A call is undone by its return.** In every machine that requests and returns lead to from one
with the invariant: whatever calls the partition has made in between, the whole state is the one
before the request. The stack was switched on the way in exactly if it is switched back on the way
out. A request that is refused changes nothing. -/
theorem call_undone {m₀ : Machine} (h₀ : CallInv pl m₀ chain) (hrun : m₀.Leads pl m) :
    (∀ desc s' m₁, Registered m.spm desc.spId →
      tfmCoreSfnRequestFunction pl m.spm (some desc) = .ok (.success, s') →
      Nested pl ⟨s', desc.excNum :: m.frames⟩ m₁ →
      (desc.excNum = excNumThreadMode → m₁.spm.psp = s'.psp) →
      (∀ retVal lr m₂, m₁.ret pl retVal lr = .ok m₂ → m₂ = m) ∧
      (∀ retVal lr, excReturnStackProcess lr = true → isReservedReturnValue retVal = false →
        m₁.ret pl retVal lr = .ok m) ∧
      (desc.excNum ≠ excNumThreadMode ↔
        (m.spm.staticData m.spm.runningPartitionIdx).isSecure = false)) ∧
    (∀ descPtr res s', (∀ desc ∈ descPtr, Registered m.spm desc.spId) →
      tfmCoreSfnRequestFunction pl m.spm descPtr = .ok (res, s') → res ≠ .success →
      s' = m.spm) := by
  obtain ⟨chain', h⟩ := h₀.leads hrun
  refine ⟨fun desc s' m₁ hreg hreq hbody hbal => ?_, fun descPtr res s' => h.refused⟩
  obtain ⟨hrules, hside, hidle, hs'⟩ := h.accepted hreg hreq
  have hin := h.push hreg hrules hside hidle
  rw [← hs'] at hin
  obtain ⟨psp, hm₁⟩ := hin.nested hbody
  have hret := h.ret_of_accepted hreg hreq hm₁ hbal
  -- what a return gives, that there is one, and which way the stack was switched
  refine ⟨fun retVal lr m₂ hm₂ => ?_, fun retVal lr hlr hval => ?_, ?_⟩
  · obtain hback | ⟨hhalted, -⟩ := hret retVal lr
    · rw [hm₂] at hback
      cases hback
      rfl
    · rw [hm₂] at hhalted
      cases hhalted
  · obtain hback | ⟨-, hbad⟩ := hret retVal lr
    · exact hback
    · simp [hlr, hval] at hbad
  · rw [hside]
    rcases tfmCoreCheckSfnReqRules_success hrules with ⟨hns, hexc, _⟩ | ⟨hns, hexc⟩
    · simp [hns, hexc]
    · simp [hns, hexc]

/-- The non-secure side calls the first service, which is refused a call of itself, calls the second
one and moves its stack pointer before it returns. While the first service runs, its call of the
second one is undone as well. -/
theorem call_undone_of_nestedCall :
    (∃ s' m₁, tfmCoreSfnRequestFunction samplePlatform fourPartitions
        (some ⟨2, false, excNumSvcall, true⟩) = .ok (.success, s') ∧
      Nested samplePlatform ⟨s', [excNumSvcall]⟩ m₁ ∧ m₁.spm.psp = 0x30000800 ∧
      m₁.ret samplePlatform 0 4 = .ok ⟨fourPartitions, []⟩) ∧
    nestedCall.ret samplePlatform 0 4 = .ok ⟨entered samplePlatform fourPartitions
      ⟨2, false, excNumSvcall, true⟩ samplePlatform.returnFromSfn 0 2, [excNumSvcall]⟩ := by
  have hstart : CallInv samplePlatform ⟨fourPartitions, []⟩ [tfmSpNonSecureId] :=
    fourPartitions_afterInit.callInv fun i _ => ⟨rfl, rfl, rfl, rfl, rfl⟩
  have hreg2 : Registered fourPartitions 2 := ⟨by decide, 2, by decide, rfl⟩
  have hreg3 : Registered (entered samplePlatform fourPartitions ⟨2, false, excNumSvcall, true⟩
      samplePlatform.returnFromSfn 0 2) 3 := ⟨by decide, 3, by decide, rfl⟩
  have hreq : tfmCoreSfnRequestFunction samplePlatform fourPartitions
      (some ⟨2, false, excNumSvcall, true⟩) = .ok (.success, entered samplePlatform fourPartitions
        ⟨2, false, excNumSvcall, true⟩ samplePlatform.returnFromSfn 0 2) := rfl
  have hself : tfmCoreSfnRequestFunction samplePlatform (entered samplePlatform fourPartitions
      ⟨2, false, excNumSvcall, true⟩ samplePlatform.returnFromSfn 0 2)
      (some ⟨2, false, excNumThreadMode, false⟩) = .ok (.partitionBusy, _) := rfl
  have hinner : tfmCoreSfnRequestFunction samplePlatform (entered samplePlatform fourPartitions
      ⟨2, false, excNumSvcall, true⟩ samplePlatform.returnFromSfn 0 2)
      (some ⟨3, false, excNumThreadMode, false⟩) = .ok (.success, nestedCall.spm) := rfl
  have hbody : Nested samplePlatform ⟨_, [excNumSvcall]⟩ _ :=
    .refused (by rintro _ ⟨⟩; exact ⟨by decide, 2, by decide, rfl⟩) hself (by decide)
      (.call hreg3 hinner (.done _) (fun _ => rfl)
        (show Machine.ret samplePlatform nestedCall 0 4 = .ok _ from rfl)
        (.stack 0x30000800 (.done _)))
  have hentered : Machine.Leads samplePlatform ⟨fourPartitions, []⟩ ⟨entered samplePlatform
      fourPartitions ⟨2, false, excNumSvcall, true⟩ samplePlatform.returnFromSfn 0 2,
      [excNumSvcall]⟩ :=
    .step (.request (some ⟨2, false, excNumSvcall, true⟩)) .refl (by rintro _ ⟨⟩; exact hreg2) rfl
  refine ⟨⟨_, _, hreq, hbody, rfl, ((call_undone hstart .refl).1 _ _ _ hreg2 hreq hbody
    (by decide)).2.1 0 4 (by decide) (by decide)⟩, ?_⟩
  exact ((call_undone hstart hentered).1 _ _ _ hreg3 hinner (.done _) fun _ => rfl).2.1 0 4
    (by decide) (by decide)

end Tfm.Spm
