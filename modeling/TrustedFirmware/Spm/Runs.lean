import TrustedFirmware.Spm.CallChain

/-!
# Secure partition manager — runs of requests and returns

From the state that `main` establishes, any sequence of requests to registered partitions and of
returns keeps the call chain (**`callChain_of_reachable`**). A return finds its way back because the
request recorded it: a call from thread mode has a secure caller, so no return address is restored,
and a call from handler mode has a non-secure one, so the address that the return handler expects is
restored.

The invariant `Inv` joins the database to the open requests: each call of the chain is an open
request (`Frames`), entered in the mode that its caller's side requires (`EnteredFrom`).
-/

namespace Tfm.Spm

open LinkedStack

variable {pl : Platform} {s s' : SpmState} {m m' : Machine} {chain frames : List Nat}

/-- What holds of the database from the end of the initialisation on: its first entry is the
non-secure partition. -/
structure Initialised (s : SpmState) : Prop where
  count_pos : 0 < s.partitionCount
  count_le : s.partitionCount ≤ spmInvalidPartitionIdx
  nonSecure : s.staticData tfmSpNonSecureId = ⟨tfmSpNonSecureId, 0⟩
  apiInit : s.tfmSecureApiInit = false

/-- The state `main` jumps to non-secure code in. -/
structure AfterInit (s : SpmState) : Prop extends Initialised s where
  running : s.runningPartitionIdx = tfmSpNonSecureId
  nonSecureRunning : s.state tfmSpNonSecureId = .running
  coreClosed : s.state tfmSpCoreId = .closed
  othersIdle : ∀ i < s.partitionCount, i ≠ tfmSpNonSecureId → i ≠ tfmSpCoreId → s.state i = .idle
  noCaller : ∀ i < s.partitionCount, s.caller i = spmInvalidPartitionIdx
  unlocked : s.tfmSecureLock = 0

/-- Requests name registered partitions. -/
def Event.TargetsRegistered (s : SpmState) : Event → Prop
  | .request descPtr => ∀ desc ∈ descPtr, Registered s desc.spId
  | .ret _ _ => True

/-- The machines that requests and returns lead to. -/
inductive Reachable (pl : Platform) : Machine → Prop where
  | start {s : SpmState} : AfterInit s → Reachable pl ⟨s, []⟩
  | step {m m' : Machine} (e : Event) : Reachable pl m → e.TargetsRegistered m.spm →
      m.step pl e = .ok m' → Reachable pl m'

/-! ## Open requests

The machine keeps the exception numbers of the open requests. They run in parallel with the chain. -/

/-- Partition `x` was entered from `y` by a request with this exception number. -/
structure EnteredFrom (pl : Platform) (s : SpmState) (x y excNum : Nat) : Prop where
  threadMode_iff : excNum = excNumThreadMode ↔ (s.staticData y).isSecure = true
  origLr : (s.runtimeData x).origLr = pl.returnFromSfn

/-- Each call of the chain is an open request. -/
def Frames (pl : Platform) (s : SpmState) : List Nat → List Nat → Prop
  | [_], [] => True
  | x :: y :: l, excNum :: frames => EnteredFrom pl s x y excNum ∧ Frames pl s (y :: l) frames
  | _, _ => False

/-- The open requests depend on the static data and on the return addresses of the chain. -/
theorem Frames.congr (h : Frames pl s chain frames)
    (hstatic : ∀ i, s'.staticData i = s.staticData i)
    (hlr : ∀ i ∈ chain, (s'.runtimeData i).origLr = (s.runtimeData i).origLr) :
    Frames pl s' chain frames := by
  -- the chain is one longer than the list of open requests
  induction chain generalizing frames with
  | nil => exact h
  | cons x l ih =>
    cases l with
    | nil =>
      cases frames with
      | nil => trivial
      | cons excNum frames => exact h
    | cons y l =>
      cases frames with
      | nil => exact h
      | cons excNum frames =>
        obtain ⟨⟨hmode, horig⟩, hrest⟩ := h
        refine ⟨⟨?_, ?_⟩, ih hrest fun i hi => hlr i (List.mem_cons_of_mem _ hi)⟩
        · rw [hstatic y]
          exact hmode
        · rw [hlr x List.mem_cons_self]
          exact horig

/-- An open request has a partition that called it. -/
theorem Frames.cons_inv {excNum : Nat} (h : Frames pl s chain (excNum :: frames)) :
    ∃ x y l, chain = x :: y :: l ∧ EnteredFrom pl s x y excNum ∧ Frames pl s (y :: l) frames := by
  match chain, h with
  | x :: y :: l, ⟨hx, hrest⟩ => exact ⟨x, y, l, rfl, hx, hrest⟩

/-- Without a call there is no open request. -/
theorem Frames.nil_of_singleton {x : Nat} (h : Frames pl s chain frames) (hchain : chain = [x]) :
    frames = [] := by
  subst hchain
  cases frames with
  | nil => rfl
  | cons excNum frames => exact h.elim

/-- What every reachable machine satisfies. -/
structure Inv (pl : Platform) (m : Machine) (chain : List Nat) : Prop where
  init : Initialised m.spm
  calls : CallChain m.spm chain
  frames : Frames pl m.spm chain m.frames

/-- The non-secure partition is running, no call is open, and all other partitions are idle or
closed. -/
structure Quiet (s : SpmState) : Prop extends Initialised s where
  running : s.runningPartitionIdx = tfmSpNonSecureId
  nonSecureRunning : s.state tfmSpNonSecureId = .running
  others : ∀ i < s.partitionCount, i ≠ tfmSpNonSecureId → s.state i = .idle ∨ s.state i = .closed
  noCaller : ∀ i < s.partitionCount, s.caller i = spmInvalidPartitionIdx
  unlocked : s.tfmSecureLock = 0

/-- `main` leaves a state in which no call is open. -/
theorem AfterInit.quiet (h : AfterInit s) : Quiet s where
  toInitialised := h.toInitialised
  running := h.running
  nonSecureRunning := h.nonSecureRunning
  others := by
    intro i hi hns
    by_cases hcore : i = tfmSpCoreId
    · rw [hcore]
      exact .inr h.coreClosed
    · exact .inl (h.othersIdle i hi hns hcore)
  noCaller := h.noCaller
  unlocked := h.unlocked

/-- Such a state satisfies the invariant, with the non-secure partition as its chain. -/
theorem Quiet.inv (h : Quiet s) : Inv pl ⟨s, []⟩ [tfmSpNonSecureId] where
  init := h.toInitialised
  calls := {
    head := by rw [h.running]; rfl
    last := rfl
    range := by
      intro i hi
      rw [List.mem_singleton.mp hi]
      exact h.count_pos
    nodup := by simp
    linked := h.noCaller _ h.count_pos
    running := by rw [h.running]; exact h.nonSecureRunning
    blocked := fun i hi => absurd hi List.not_mem_nil
    off := fun i hi hmem => ⟨h.others i hi (mt List.mem_singleton.mpr hmem), h.noCaller i hi⟩
    lock := h.unlocked }
  frames := trivial

/-- The invariant holds at the start. -/
theorem Inv.start (h : AfterInit s) : Inv pl ⟨s, []⟩ [tfmSpNonSecureId] := h.quiet.inv

/-! ## One step

What a request and a return do to the invariant, and which of the ways they take. -/

theorem Inv.running_lt (h : Inv pl m chain) :
    m.spm.runningPartitionIdx < m.spm.partitionCount :=
  h.calls.range _ h.calls.running_mem

/-- A request is answered: it is refused without a change, or it enters an idle partition. -/
theorem Inv.request_cases {descPtr : Option SfnReq} (h : Inv pl m chain)
    (hreg : ∀ desc ∈ descPtr, Registered m.spm desc.spId) :
    (∃ res, res ≠ .success ∧ tfmCoreSfnRequestFunction pl m.spm descPtr = .ok (res, m.spm)) ∨
    (∃ desc, descPtr = some desc ∧ tfmCoreCheckSfnReqRules m.spm desc = .success ∧
      (m.spm.staticData m.spm.runningPartitionIdx).isSecure = !desc.nsCaller ∧
      m.spm.state (getPartitionIdx m.spm desc.spId) = .idle ∧
      tfmCoreSfnRequestFunction pl m.spm descPtr = .ok (.success,
        entered pl m.spm desc pl.returnFromSfn m.spm.runningPartitionIdx
          (getPartitionIdx m.spm desc.spId))) :=
  Spm.request_cases pl h.init.apiInit h.init.count_le h.running_lt hreg

/-! ### Requests -/

/-- An accepted request opens a frame. -/
theorem Inv.push {desc : SfnReq} (h : Inv pl m chain) (hreg : Registered m.spm desc.spId)
    (hrules : tfmCoreCheckSfnReqRules m.spm desc = .success)
    (hside : (m.spm.staticData m.spm.runningPartitionIdx).isSecure = !desc.nsCaller)
    (hidle : m.spm.state (getPartitionIdx m.spm desc.spId) = .idle) :
    Inv pl ⟨entered pl m.spm desc pl.returnFromSfn m.spm.runningPartitionIdx
        (getPartitionIdx m.spm desc.spId), desc.excNum :: m.frames⟩
      (getPartitionIdx m.spm desc.spId :: chain) := by
  have hfresh := h.calls.notMem_of_idle hidle
  have hne : m.spm.runningPartitionIdx ≠ getPartitionIdx m.spm desc.spId :=
    fun heq => hfresh (heq ▸ h.calls.running_mem)
  -- the rules for requests tie the mode to the side of the caller
  have hmode : desc.excNum = excNumThreadMode ↔ desc.nsCaller = false := by
    rcases tfmCoreCheckSfnReqRules_success hrules with ⟨hns, hexc, _⟩ | ⟨hns, hexc⟩
    · simp [hns, hexc]
    · simp [hns, hexc]
  refine ⟨⟨h.init.count_pos, h.init.count_le, ?_, h.init.apiInit⟩,
    h.calls.push (getPartitionIdx_lt hreg) hidle, ?_⟩
  · rw [staticData_entered]
    exact h.init.nonSecure
  · obtain _ | ⟨x, l⟩ := chain
    · cases h.calls.head
    have hx := h.calls.head_eq
    refine ⟨⟨?_, ?_⟩, h.frames.congr staticData_entered fun i hi => ?_⟩
    · rw [staticData_entered, ← hx, hside, hmode]
      simp
    · rw [runtimeData_entered_target hne]
    · by_cases hix : i = m.spm.runningPartitionIdx
      · rw [hix, runtimeData_entered_caller hne]
      · have hit : i ≠ getPartitionIdx m.spm desc.spId := fun heq => hfresh (heq ▸ hi)
        rw [runtimeData_entered_of_ne hix hit]

/-- The unlock of the innermost call succeeds, and restores the address that the return handler
expects if the call came from handler mode. -/
theorem Inv.unlock {excNum : Nat} (h : Inv pl m chain) (hframes : m.frames = excNum :: frames)
    (lrPtr : Option Nat) (hlr : excNum ≠ excNumThreadMode → lrPtr ≠ none) :
    ∃ x y l lrPtr', chain = x :: y :: l ∧ EnteredFrom pl m.spm x y excNum ∧
      tfmPopLock m.spm lrPtr
        = .ok (.success, lrPtr', left m.spm (!(m.spm.staticData y).isSecure) x y) ∧
      (excNum ≠ excNumThreadMode → lrPtr' = some pl.returnFromSfn) ∧
      Inv pl ⟨left m.spm (!(m.spm.staticData y).isSecure) x y, frames⟩ (y :: l) := by
  have hfr := h.frames
  rw [hframes] at hfr
  obtain ⟨x, y, l, rfl, hentered, hrest⟩ := hfr.cons_inv
  have hmode := hentered.threadMode_iff
  have hx := (List.nodup_cons.mp h.calls.nodup).1
  have hne : x ≠ y := fun heq => hx (heq ▸ List.mem_cons_self)
  have hpop := tfmPopLock_eq lrPtr h.init.apiInit h.init.count_le h.calls.head_eq
    (h.calls.range x List.mem_cons_self) h.calls.linked.1
    (h.calls.range y (List.mem_cons_of_mem _ List.mem_cons_self)) ?_
  · refine ⟨x, y, l, _, rfl, hentered, hpop, ?_, ⟨⟨h.init.count_pos, h.init.count_le, ?_,
      h.init.apiInit⟩, h.calls.pop _, hrest.congr staticData_left fun i hi => ?_⟩⟩
    · intro hexc
      rw [if_neg (mt hmode.mpr hexc), hentered.origLr]
    · rw [staticData_left]
      exact h.init.nonSecure
    · have hix : i ≠ x := fun heq => hx (heq ▸ hi)
      by_cases hiy : i = y
      · rw [hiy, runtimeData_left_ret hne]
      · rw [runtimeData_left_of_ne hix hiy]
  · -- a non-secure caller has called from handler mode, where `lr_ptr` is not null
    intro hsecure
    refine hlr fun hexc => ?_
    rw [hmode.mp hexc] at hsecure
    cases hsecure

/-! ### Returns

A return has two ends: behind a direct call, and in the handler of the exception return. -/

/-- A return is completed, unless it reports a reserved value or did not use the process stack,
for which the return handler halts. -/
theorem Inv.ret_cases {excNum : Nat} (h : Inv pl m chain) (hframes : m.frames = excNum :: frames)
    (retVal : Int) (lr : Nat) :
    (∃ x y l, chain = x :: y :: l ∧ EnteredFrom pl m.spm x y excNum ∧
      m.ret pl retVal lr = .ok ⟨left m.spm (!(m.spm.staticData y).isSecure) x y, frames⟩ ∧
      Inv pl ⟨left m.spm (!(m.spm.staticData y).isSecure) x y, frames⟩ (y :: l)) ∨
    (m.ret pl retVal lr = .error .halted ∧
      (excReturnStackProcess lr = false ∨ isReservedReturnValue retVal = true)) := by
  -- a direct call ends in `tfm_core_call_sfn`, any other one in the return handler
  by_cases hexc : excNum = excNumThreadMode
  · obtain ⟨x, y, l, lrPtr', hchain, hentered, hpop, -, hinv⟩ :=
      h.unlock hframes none fun hne => absurd hexc hne
    refine .inl ⟨x, y, l, hchain, hentered, ?_, hinv⟩
    simp [Machine.ret, hframes, hexc, h.init.apiInit, tfmCoreCallSfn.finish, hpop, bind,
      Except.bind, pure, Except.pure]
  · obtain ⟨x, y, l, lrPtr', hchain, hentered, hpop, hlr', hinv⟩ :=
      h.unlock hframes (some lr) fun _ => Option.some_ne_none lr
    cases hlr : excReturnStackProcess lr with
    | false =>
      refine .inr ⟨?_, .inl rfl⟩
      simp [Machine.ret, hframes, hexc, tfmCorePartitionReturnHandler, hlr, bind, Except.bind]
    | true =>
      cases hret : isReservedReturnValue retVal with
      | true =>
        refine .inr ⟨?_, .inr rfl⟩
        simp [Machine.ret, hframes, hexc, tfmCorePartitionReturnHandler, hlr, hret, bind,
          Except.bind]
      | false =>
        refine .inl ⟨x, y, l, hchain, hentered, ?_, hinv⟩
        simp [Machine.ret, hframes, hexc, tfmCorePartitionReturnHandler, hlr, hret, hpop,
          hlr' hexc, bind, Except.bind, pure, Except.pure]

/-- What a step can do: nothing, enter an idle partition, or leave the running one. -/
theorem Inv.step_cases {e : Event} (h : Inv pl m chain) (hreg : e.TargetsRegistered m.spm)
    (hstep : m.step pl e = .ok m') :
    m' = m ∨
    (∃ desc, Registered m.spm desc.spId ∧ tfmCoreCheckSfnReqRules m.spm desc = .success ∧
      (m.spm.staticData m.spm.runningPartitionIdx).isSecure = (!desc.nsCaller) ∧
      m.spm.state (getPartitionIdx m.spm desc.spId) = .idle ∧
      m' = ⟨entered pl m.spm desc pl.returnFromSfn m.spm.runningPartitionIdx
        (getPartitionIdx m.spm desc.spId), desc.excNum :: m.frames⟩) ∨
    (∃ x y l frames, chain = x :: y :: l ∧
      m' = ⟨left m.spm (!(m.spm.staticData y).isSecure) x y, frames⟩ ∧ Inv pl m' (y :: l)) := by
  cases e with
  | ret retVal lr =>
    change m.ret pl retVal lr = .ok m' at hstep
    cases hframes : m.frames with
    | nil =>
      simp only [Machine.ret, hframes, Except.ok.injEq] at hstep
      exact .inl hstep.symm
    | cons excNum frames =>
      obtain ⟨x, y, l, hchain, -, hret, hinv⟩ | ⟨hret, -⟩ := h.ret_cases hframes retVal lr
      · rw [hret] at hstep
        cases hstep
        exact .inr (.inr ⟨x, y, l, frames, hchain, rfl, hinv⟩)
      · rw [hret] at hstep
        cases hstep
  | request descPtr =>
    change m.request pl descPtr = .ok m' at hstep
    unfold Machine.request at hstep
    -- refused or accepted
    obtain ⟨res, hres, hreq⟩ | ⟨desc, rfl, hrules, hside, hidle, hreq⟩ := h.request_cases hreg
    · rw [hreq] at hstep
      left
      cases descPtr with
      | none => cases hstep; rfl
      | some desc =>
        simp only [bind, Except.bind, if_neg hres, pure, Except.pure, Except.ok.injEq] at hstep
        exact hstep.symm
    · rw [hreq] at hstep
      cases hstep
      exact .inr (.inl ⟨desc, hreg desc rfl, hrules, hside, hidle, rfl⟩)

/-- One step keeps the invariant. -/
theorem Inv.step {e : Event} (h : Inv pl m chain) (hreg : e.TargetsRegistered m.spm)
    (hstep : m.step pl e = .ok m') : ∃ chain', Inv pl m' chain' := by
  obtain rfl | ⟨desc, hreg, hrules, hside, hidle, rfl⟩ | ⟨x, y, l, frames, -, -, hinv⟩ :=
    h.step_cases hreg hstep
  · exact ⟨chain, h⟩
  · exact ⟨_, h.push hreg hrules hside hidle⟩
  · exact ⟨y :: l, hinv⟩

/-- A partition that is closed stays closed. -/
theorem Inv.step_closed {e : Event} {i : Nat} (h : Inv pl m chain)
    (hreg : e.TargetsRegistered m.spm) (hstep : m.step pl e = .ok m')
    (hclosed : m.spm.state i = .closed) : m'.spm.state i = .closed := by
  -- partitions on the chain are running or blocked
  have hoff : i ∉ chain := by
    intro hi
    rcases h.calls.state_of_mem hi with hs | hs <;> rw [hs] at hclosed <;> cases hclosed
  obtain rfl | ⟨desc, -, -, -, hidle, rfl⟩ | ⟨x, y, l, frames, rfl, rfl, -⟩ :=
    h.step_cases hreg hstep
  · exact hclosed
  · show (SpmState.runtimeData _ i).partitionState = _
    rw [runtimeData_entered_of_ne]
    · exact hclosed
    · exact fun hir => hoff (hir ▸ h.calls.running_mem)
    · rintro rfl
      rw [hidle] at hclosed
      cases hclosed
  · show (SpmState.runtimeData _ i).partitionState = _
    rw [runtimeData_left_of_ne (fun hix => hoff (by simp [hix])) fun hiy => hoff (by simp [hiy])]
    exact hclosed

/-! ## Whole runs

By induction on the run; the chain is found anew after every step. -/

theorem Reachable.inv (h : Reachable pl m) : ∃ chain, Inv pl m chain := by
  induction h with
  | start hinit => exact ⟨_, .start hinit⟩
  | step e _ hreg hstep ih =>
    obtain ⟨chain, hinv⟩ := ih
    exact hinv.step hreg hstep

/-- A request to a registered partition is answered. It changes nothing if it is refused; if it
is accepted, the partition that is entered was idle, so was not on the chain of open calls, and a
non-secure caller finds the non-secure partition running and no call open. -/
def RequestSafe (pl : Platform) (m : Machine) : Prop :=
  ∀ descPtr, (∀ desc ∈ descPtr, Registered m.spm desc.spId) →
    ∃ res s', tfmCoreSfnRequestFunction pl m.spm descPtr = .ok (res, s') ∧
      (res ≠ .success → s' = m.spm) ∧
      (res = .success → ∃ desc, descPtr = some desc ∧
        s'.runningPartitionIdx = getPartitionIdx m.spm desc.spId ∧
        m.spm.state s'.runningPartitionIdx = .idle ∧
        (desc.nsCaller = true → m.spm.runningPartitionIdx = tfmSpNonSecureId ∧ m.frames = []))

/-- The running partition can return while a request is open: the unlock succeeds on the way that
the request chose, and the return handler halts only for a value that it does not accept. -/
def ReturnSafe (pl : Platform) (m : Machine) : Prop :=
  ∀ excNum frames, m.frames = excNum :: frames →
    (∀ lr, ∃ lrPtr s', tfmPopLock m.spm (if excNum = excNumThreadMode then none else some lr) =
      .ok (.success, lrPtr, s')) ∧
    ∀ retVal lr, excReturnStackProcess lr = true → isReservedReturnValue retVal = false →
      ∃ s', m.ret pl retVal lr = .ok ⟨s', frames⟩

theorem Inv.requestSafe (h : Inv pl m chain) : RequestSafe pl m := by
  intro descPtr hreg
  obtain ⟨res, hres, hreq⟩ | ⟨desc, rfl, hrules, hside, hidle, hreq⟩ := h.request_cases hreg
  · exact ⟨res, _, hreq, fun _ => rfl, fun heq => absurd heq hres⟩
  · refine ⟨.success, _, hreq, fun hne => absurd rfl hne, fun _ => ⟨desc, rfl, rfl, hidle, ?_⟩⟩
    intro hns
    -- the lock is free, so the chain has one element, which is its last
    have hlock : m.spm.tfmSecureLock = 0 := by
      rcases tfmCoreCheckSfnReqRules_success hrules with ⟨_, _, hlock⟩ | ⟨hns', _⟩
      · exact hlock
      · rw [hns] at hns'
        cases hns'
    obtain ⟨x, hx⟩ := h.calls.singleton_of_unlocked hlock
    exact ⟨h.calls.running_of_singleton hx, h.frames.nil_of_singleton hx⟩

theorem Inv.returnSafe (h : Inv pl m chain) : ReturnSafe pl m := by
  intro excNum frames hframes
  constructor
  · intro lr
    obtain ⟨_, _, _, lrPtr', -, -, hpop, -⟩ := h.unlock hframes
      (if excNum = excNumThreadMode then none else some lr) fun hne => by simp [hne]
    exact ⟨lrPtr', _, hpop⟩
  · intro retVal lr hlr hval
    obtain ⟨_, _, _, -, -, hret, -⟩ | ⟨-, hbad⟩ := h.ret_cases hframes retVal lr
    · exact ⟨_, hret⟩
    · simp [hlr, hval] at hbad

/-- The call chain is well formed in every run of requests and returns, exactly one partition is
running, and neither a request nor a return can go wrong. -/
theorem callChain_of_reachable (h : Reachable pl m) :
    (∃ chain, CallChain m.spm chain) ∧
    (∀ i < m.spm.partitionCount, m.spm.state i = .running ↔ i = m.spm.runningPartitionIdx) ∧
    RequestSafe pl m ∧ ReturnSafe pl m := by
  obtain ⟨chain, hinv⟩ := h.inv
  exact ⟨⟨chain, hinv.calls⟩, fun i hi => hinv.calls.running_iff hi, hinv.requestSafe,
    hinv.returnSafe⟩

/-- Four partitions as `main` leaves them: the non-secure one, the core and two services. -/
def fourPartitions : SpmState where
  partitionCount := 4
  partitions := fun i =>
    { staticData := ⟨i, if i = 0 then 0 else 1⟩
      runtimeData :=
        { partitionState := if i = 0 then .running else if i = 1 then .closed else .idle
          callerPartitionIdx := spmInvalidPartitionIdx
          origPsp := 0
          origPsplim := 0
          origLr := 0
          share := .disable } }
  runningPartitionIdx := 0
  tfmSecureLock := 0
  tfmSecureApiInit := false
  psp := 0x20000400
  psplim := 0x20000000

/-- The four partitions are in the state that `main` establishes. -/
theorem fourPartitions_afterInit : AfterInit fourPartitions where
  count_pos := by decide
  count_le := by decide
  nonSecure := rfl
  apiInit := rfl
  running := rfl
  nonSecureRunning := rfl
  coreClosed := rfl
  othersIdle := by decide
  noCaller := by decide
  unlocked := rfl

/-- Addresses for the examples. -/
def samplePlatform : Platform := ⟨0x30000000, 0x30001000, 0x10000401, false⟩

/-- The non-secure side calls the first service, which calls the second one. -/
def nestedCall : Machine :=
  let outer : SfnReq := ⟨2, false, excNumSvcall, true⟩
  let inner : SfnReq := ⟨3, false, excNumThreadMode, false⟩
  let lr := samplePlatform.returnFromSfn
  ⟨entered samplePlatform (entered samplePlatform fourPartitions outer lr 0 2) inner lr 2 3,
    [excNumThreadMode, excNumSvcall]⟩

/-- Two open calls. -/
theorem callChain_of_nestedCall :
    nestedCall.spm.tfmSecureLock = 2 ∧
    (∃ chain, CallChain nestedCall.spm chain) ∧
    (∀ i < nestedCall.spm.partitionCount,
      nestedCall.spm.state i = .running ↔ i = nestedCall.spm.runningPartitionIdx) ∧
    RequestSafe samplePlatform nestedCall ∧ ReturnSafe samplePlatform nestedCall := by
  have houter : Reachable samplePlatform _ :=
    .step (.request (some ⟨2, false, excNumSvcall, true⟩)) (.start fourPartitions_afterInit)
      (by rintro _ ⟨⟩; exact ⟨by decide, 2, by decide, rfl⟩) rfl
  have hinner : Reachable samplePlatform nestedCall :=
    .step (.request (some ⟨3, false, excNumThreadMode, false⟩)) houter
      (by rintro _ ⟨⟩; exact ⟨by decide, 3, by decide, rfl⟩) rfl
  exact ⟨rfl, callChain_of_reachable hinner⟩

end Tfm.Spm
