import TrustedFirmware.Spm.Init
import TrustedFirmware.Spm.Unregistered

/-!
# Secure partition manager — partitions that fail to initialise

A partition whose init function fails should be closed, and stay closed. The handler for the
failure addresses the entry by the partition's id, so the right entries are closed exactly if the
ids of the partitions that fail are their indices, and no init function returns a value that halts
the return handler. The declared partitions have ids from 256 on and the database has at most eight
entries, so in practice the handler writes behind the database and the failed partition is left
idle.

Two misplaced closings cannot make up for each other: a partition that is closed before its turn is
not entered, and keeps the caller it never had; so a partition with a foreign id must be closed by a
later one, which has a foreign id too, and the last of them is not closed (`initEntries_at_home`).
-/

namespace Tfm.Spm

variable (pl : Platform) {hasInit : Nat → Bool} {results : Nat → Int} {s₀ s s' : SpmState}
  {m m' : Machine} {e e' : Nat → PartitionRuntimeData} {count rounds idx : Nat} {ids : Nat → Nat}
  {partitionInit : Nat → Option Int}

/-! ## The property

What the initialisation is expected to do about failures. -/

/-- The init function of the partition fails. -/
def Failed (hasInit : Nat → Bool) (results : Nat → Int) (idx : Nat) : Prop :=
  hasInit idx = true ∧ results idx ≠ 0

/-- The database behind `tfm_spm_partition_init`: exactly the partitions that failed are closed, the
others are idle but for the core, and nothing else has changed (the callers are marked as
invalid). -/
structure ClosedExactly (hasInit : Nat → Bool) (results : Nat → Int) (s₀ s : SpmState) : Prop where
  count : s.partitionCount = s₀.partitionCount
  static : ∀ i, s.staticData i = s₀.staticData i
  closed_iff : ∀ i < s₀.partitionCount, s.state i = .closed ↔ Failed hasInit results i
  idle : ∀ i < s₀.partitionCount, i ≠ tfmSpCoreId → ¬ Failed hasInit results i → s.state i = .idle
  context : ∀ i < s₀.partitionCount, s.runtimeData i = { s₀.runtimeData i with
    partitionState := s.state i, callerPartitionIdx := spmInvalidPartitionIdx }
  behind : ∀ i, s₀.partitionCount ≤ i → s.runtimeData i = s₀.runtimeData i
  running : s.runningPartitionIdx = tfmSpCoreId
  unlocked : s.tfmSecureLock = 0

/-- The machines that requests and returns lead to from `m`. -/
inductive RunsFrom (m : Machine) : Machine → Prop where
  | refl : RunsFrom m m
  | step {m₁ m₂ : Machine} (e : Event) : RunsFrom m m₁ → m₁.step pl e = .ok m₂ → RunsFrom m m₂

/-- For the results that the init functions return: the initialisation ends, exactly the partitions
that fail are closed by it, and they are closed in all later runs. -/
def FailuresClosed (hasInit : Nat → Bool) (results : Nat → Int) (s₀ : SpmState) : Prop :=
  ∃ err s₁ s₂, tfmSpmPartitionInit pl (initFunctions hasInit results) s₀ = .ok (err, s₁) ∧
    ClosedExactly hasInit results s₀ s₁ ∧ mainFinish s₁ = .ok s₂ ∧
    ∀ m, RunsFrom pl ⟨s₂, []⟩ m → ∀ i < s₀.partitionCount, Failed hasInit results i →
      m.spm.state i = .closed

/-! ## Later runs

Requests for unknown ids change nothing, so the runs that count are those to registered partitions. -/

variable {pl}

/-- A request for a partition that does not exist changes nothing. -/
theorem WellIndexed.targetsRegistered_or_eq {e : Event} (hidx : WellIndexed m.spm)
    (hstep : m.step pl e = .ok m') : e.TargetsRegistered m.spm ∨ m' = m := by
  cases e with
  | ret retVal lr => exact .inl trivial
  | request descPtr =>
    cases descPtr with
    | none => exact .inl fun desc hdesc => nomatch hdesc
    | some desc =>
      by_cases hreg : Registered m.spm desc.spId
      · refine .inl ?_
        rintro _ ⟨⟩
        exact hreg
      · right
        change m.request pl (some desc) = .ok m' at hstep
        unfold Machine.request at hstep
        obtain ⟨res, hres, hreq, -⟩ | ⟨hreg', -⟩ | ⟨-, -, hreq⟩ :=
          request_cases_of_wellIndexed pl hidx desc
        · rw [hreq] at hstep
          simp only [bind, Except.bind, if_neg hres, pure, Except.pure, Except.ok.injEq] at hstep
          exact hstep.symm
        · exact absurd hreg' hreg
        · rw [hreq] at hstep
          cases hstep

/-- From a state in which no call is open, closed partitions stay closed. -/
theorem RunsFrom.closed {i : Nat} (hquiet : Quiet s) (h : RunsFrom pl ⟨s, []⟩ m)
    (hclosed : s.state i = .closed) : m.spm.state i = .closed := by
  have hall : WellIndexed m.spm ∧ (∃ chain, Inv pl m chain) ∧ m.spm.state i = .closed := by
    -- on the run, with valid indices and the call chain as the invariant
    induction h with
    | refl =>
      exact ⟨⟨hquiet.count_le, .inr (hquiet.running ▸ hquiet.count_pos),
        fun j hj => .inl (hquiet.noCaller j hj)⟩, ⟨_, hquiet.inv⟩, hclosed⟩
    | step e _ hstep ih =>
      obtain ⟨hidx, ⟨chain, hinv⟩, hi⟩ := ih
      obtain hreg | rfl := hidx.targetsRegistered_or_eq hstep
      · exact ⟨Machine.step_wellIndexed hidx hstep, hinv.step hreg hstep,
          hinv.step_closed hreg hstep hi⟩
      · exact ⟨hidx, ⟨chain, hinv⟩, hi⟩
  exact hall.2.2

/-! ## The entries

On the abstract loop: which rounds change which entry, followed to the end of the loop. -/

/-- The last round is the last step of the fold. -/
theorem initEntries_succ : initEntries count ids partitionInit e (rounds + 1) =
    (initEntries count ids partitionInit e rounds).bind
      fun e' => initEntry count ids partitionInit e' rounds := by
  unfold initEntries
  rw [List.range_succ, List.foldlM_append]
  simp only [List.foldlM_cons, List.foldlM_nil, bind_pure]
  rfl

/-- An entry that is closed is one of the database. -/
theorem closeEntry_eq_some (h : closeEntry count e idx = some e') :
    idx < count ∧ e' = Function.update e idx { e idx with partitionState := .closed } := by
  unfold closeEntry at h
  split at h
  · rename_i hlt
    cases h
    exact ⟨hlt, rfl⟩
  · cases h

/-! ### One round

The kinds of rounds, and what each of them does to the entries: its own, and the one that it closes. -/

/-- What a round that ends does to the entries. -/
inductive InitRound (count : Nat) (ids : Nat → Nat) (partitionInit : Nat → Option Int)
    (e : Nat → PartitionRuntimeData) (idx : Nat) : (Nat → PartitionRuntimeData) → Prop where
  | null (hinit : partitionInit idx = none) : InitRound count ids partitionInit e idx
      (Function.update e idx
        { e idx with partitionState := .idle, callerPartitionIdx := spmInvalidPartitionIdx })
  | refused (hinit : partitionInit idx ≠ none) (hclosed : (e idx).partitionState = .closed) :
      InitRound count ids partitionInit e idx
        (Function.update e (ids idx) { e (ids idx) with partitionState := .closed })
  | succeeded (hinit : partitionInit idx = some 0) (hopen : (e idx).partitionState ≠ .closed) :
      InitRound count ids partitionInit e idx (Function.update e idx idleEntry)
  | failed {result : Int} (hinit : partitionInit idx = some result)
      (hopen : (e idx).partitionState ≠ .closed) (hfails : result ≠ 0)
      (hends : isReservedReturnValue result = false) :
      InitRound count ids partitionInit e idx (Function.update (Function.update e idx idleEntry)
        (ids idx) { Function.update e idx idleEntry (ids idx) with partitionState := .closed })

/-- A round that ends is one of the four kinds. -/
theorem initEntry_round (h : initEntry count ids partitionInit e idx = some e') :
    InitRound count ids partitionInit e idx e' := by
  unfold initEntry at h
  cases hinit : partitionInit idx with
  | none =>
    rw [hinit] at h
    cases h
    exact .null hinit
  | some result =>
    simp only [hinit] at h
    by_cases hclosed : (e idx).partitionState = .closed
    · rw [if_pos hclosed] at h
      rw [(closeEntry_eq_some h).2]
      exact .refused (by rw [hinit]; exact Option.some_ne_none result) hclosed
    rw [if_neg hclosed] at h
    cases hends : isReservedReturnValue result with
    | true =>
      rw [hends, if_pos rfl] at h
      cases h
    | false =>
      rw [hends, if_neg Bool.false_ne_true] at h
      by_cases hzero : result = 0
      · rw [if_pos hzero] at h
        cases h
        exact .succeeded (hzero ▸ hinit) hclosed
      · rw [if_neg hzero] at h
        rw [(closeEntry_eq_some h).2]
        exact .failed hinit hclosed hzero hends

/-- The rounds before a round that ends have ended. -/
theorem initEntries_of_le {k : Nat} (hk : k ≤ rounds)
    (h : initEntries count ids partitionInit e rounds = some e') :
    ∃ e₁, initEntries count ids partitionInit e k = some e₁ := by
  induction rounds, hk using Nat.le_induction generalizing e' with
  | base => exact ⟨e', h⟩
  | succ rounds _ ih =>
    rw [initEntries_succ] at h
    obtain ⟨e₁, he₁, -⟩ := Option.bind_eq_some_iff.mp h
    exact ih he₁

/-- A round leaves the caller of every entry alone, but for its own entry if it is entered or has no
init function. -/
theorem InitRound.caller {i : Nat} (h : InitRound count ids partitionInit e idx e')
    (hinit : partitionInit i ≠ none) :
    (e' i).callerPartitionIdx = (e i).callerPartitionIdx
      ∨ i = idx ∧ (e idx).partitionState ≠ .closed := by
  -- its own entry, or one that it closes
  by_cases hi : i = idx
  · subst hi
    cases h with
    | null hnull => exact absurd hnull hinit
    | refused _ _ =>
      left
      by_cases hid : i = ids i
      · rw [← hid, Function.update_self]
      · rw [Function.update_of_ne hid]
    | succeeded _ hopen => exact .inr ⟨rfl, hopen⟩
    | failed _ hopen _ _ => exact .inr ⟨rfl, hopen⟩
  · left
    cases h with
    | null _ => rw [Function.update_of_ne hi]
    | refused _ _ =>
      by_cases hid : i = ids idx
      · rw [← hid, Function.update_self]
      · rw [Function.update_of_ne hid]
    | succeeded _ _ => rw [Function.update_of_ne hi]
    | failed _ _ _ _ =>
      by_cases hid : i = ids idx
      · rw [← hid, Function.update_self, Function.update_of_ne hi]
      · rw [Function.update_of_ne hid, Function.update_of_ne hi]

/-! ### From a round to the end

An entry is closed by its own round or by a later one. Whether the entry has a caller tells which. -/

/-- An entry whose caller has changed was entered in its round. Induction on the rounds. -/
theorem initEntries_entered {i : Nat} (hinit : partitionInit i ≠ none)
    (h : initEntries count ids partitionInit e rounds = some e')
    (hcaller : (e' i).callerPartitionIdx ≠ (e i).callerPartitionIdx) :
    ∃ e₁, initEntries count ids partitionInit e i = some e₁ ∧ (e₁ i).partitionState ≠ .closed := by
  induction rounds generalizing e' with
  | zero =>
    cases h
    exact absurd rfl hcaller
  | succ rounds ih =>
    rw [initEntries_succ] at h
    obtain ⟨e₁, he₁, hround⟩ := Option.bind_eq_some_iff.mp h
    -- the caller was changed before this round, or in it
    obtain hsame | ⟨rfl, hopen⟩ := (initEntry_round hround).caller hinit
    · exact ih he₁ (hsame ▸ hcaller)
    · exact ⟨e₁, he₁, hopen⟩

/-- A round closes no entry but that at its id, after a failure or a refusal. -/
theorem InitRound.closes {i : Nat} (h : InitRound count ids partitionInit e idx e') (hi : i ≠ idx)
    (hopen : (e i).partitionState ≠ .closed) (hclosed : (e' i).partitionState = .closed) :
    ids idx = i ∧ partitionInit idx ≠ none
      ∧ ((e idx).partitionState ≠ .closed → partitionInit idx ≠ some 0) := by
  by_contra hnot
  refine hopen ?_
  cases h with
  | null _ => rwa [Function.update_of_ne hi] at hclosed
  | refused hinit hidx =>
    by_cases hid : ids idx = i
    · exact absurd ⟨hid, hinit, fun hne => absurd hidx hne⟩ hnot
    · rwa [Function.update_of_ne (Ne.symm hid)] at hclosed
  | succeeded _ _ => rwa [Function.update_of_ne hi] at hclosed
  | failed hinit _ hfails _ =>
    by_cases hid : ids idx = i
    · refine absurd ⟨hid, ?_, fun _ => ?_⟩ hnot <;> rw [hinit]
      · exact Option.some_ne_none _
      · exact fun hzero => hfails (Option.some.inj hzero)
    · rwa [Function.update_of_ne (Ne.symm hid), Function.update_of_ne hi] at hclosed

/-- An entry that is open behind its round and closed in the end was closed by a later round. -/
theorem initEntries_closed_later {i : Nat} {e₁ : Nat → PartitionRuntimeData} (hi : i < rounds)
    (h₁ : initEntries count ids partitionInit e (i + 1) = some e₁)
    (hopen : (e₁ i).partitionState ≠ .closed)
    (h : initEntries count ids partitionInit e rounds = some e')
    (hclosed : (e' i).partitionState = .closed) :
    ∃ k e₂, i < k ∧ k < rounds ∧ initEntries count ids partitionInit e k = some e₂ ∧
      ids k = i ∧ partitionInit k ≠ none ∧
      ((e₂ k).partitionState ≠ .closed → partitionInit k ≠ some 0) := by
  induction rounds, hi using Nat.le_induction generalizing e' with
  | base =>
    rw [h₁] at h
    cases h
    exact absurd hclosed hopen
  | succ rounds hle ih =>
    rw [initEntries_succ] at h
    obtain ⟨e₂, he₂, hround⟩ := Option.bind_eq_some_iff.mp h
    by_cases hbefore : (e₂ i).partitionState = .closed
    · obtain ⟨k, e₃, hik, hk, hrest⟩ := ih he₂ hbefore
      exact ⟨k, e₃, hik, Nat.lt_succ_of_lt hk, hrest⟩
    · exact ⟨rounds, e₂, hle, Nat.lt_succ_self rounds, he₂,
        (initEntry_round hround).closes (Nat.ne_of_lt hle) hbefore hclosed⟩

/-- If every partition with an init function is entered, and the ones that fail are closed in the
end, then the partitions that fail have their index as id. Otherwise the last of them that has not
would have to be closed by a later one. -/
theorem initEntries_at_home (h : initEntries count ids partitionInit e count = some e')
    (hentered : ∀ i < count, partitionInit i ≠ none →
      ∃ e₁, initEntries count ids partitionInit e i = some e₁ ∧ (e₁ i).partitionState ≠ .closed)
    (hclosed : ∀ i < count, ∀ result, partitionInit i = some result → result ≠ 0 →
      (e' i).partitionState = .closed) :
    ∀ i < count, ∀ result, partitionInit i = some result → result ≠ 0 → ids i = i := by
  intro i hi
  -- induction on the number of partitions behind `i`
  induction hn : count - i using Nat.strong_induction_on generalizing i with
  | _ n ih =>
    intro result hinit hfails
    by_contra hid
    have hsome : partitionInit i ≠ none := by rw [hinit]; exact Option.some_ne_none result
    obtain ⟨e₁, he₁, hopen₁⟩ := hentered i hi hsome
    obtain ⟨e₂, he₂⟩ := initEntries_of_le (Nat.succ_le_of_lt hi) h
    have hround := he₂
    rw [initEntries_succ, he₁, Option.bind_some] at hround
    -- the failure has closed another entry
    have hopen₂ : (e₂ i).partitionState ≠ .closed := by
      cases initEntry_round hround with
      | null hnull => exact absurd hnull hsome
      | refused _ hrefused => exact absurd hrefused hopen₁
      | succeeded _ _ =>
        rw [Function.update_self]
        decide
      | failed _ _ _ _ =>
        rw [Function.update_of_ne (Ne.symm hid), Function.update_self]
        decide
    -- so a later round must have closed this one, and that round has a foreign id too
    obtain ⟨k, e₃, hik, hk, he₃, hidk, hsomek, hfailsk⟩ := initEntries_closed_later hi he₂ hopen₂ h
      (hclosed i hi result hinit hfails)
    obtain ⟨e₄, he₄, hopen₄⟩ := hentered k hk hsomek
    rw [he₃] at he₄
    cases he₄
    obtain ⟨resultk, hresultk⟩ := Option.ne_none_iff_exists'.mp hsomek
    have hhome := ih (count - k) (by omega) k hk rfl resultk hresultk
      fun hzero => hfailsk hopen₄ (hzero ▸ hresultk)
    omega

/-! ### Partitions at home

If all failing partitions have their index for an id, every round ends in the state that is wanted. -/

/-- A round that ends and is entered has a result that is not reserved. -/
theorem InitRound.ends {result : Int} (h : InitRound count ids partitionInit e idx e')
    (hinit : partitionInit idx = some result) (hopen : (e idx).partitionState ≠ .closed) :
    isReservedReturnValue result = false := by
  cases h with
  | null hnull =>
    rw [hnull] at hinit
    cases hinit
  | refused _ hclosed => exact absurd hclosed hopen
  | succeeded hzero _ =>
    rw [hzero] at hinit
    cases hinit
    decide
  | failed hresult _ _ hends =>
    rw [hresult] at hinit
    cases hinit
    exact hends

/-- What the initialisation should make of an entry. -/
def initialisedEntry (hasInit : Nat → Bool) (results : Nat → Int) (idx : Nat) :
    PartitionRuntimeData :=
  ⟨if hasInit idx = true ∧ results idx ≠ 0 then .closed else .idle, spmInvalidPartitionIdx, 0, 0, 0,
    .disable⟩

/-- When the partitions that fail have their index as id, the entries behind the first rounds are
idle or closed as they should be. -/
theorem initEntries_of_ids (hdecl : Declared hasInit s₀)
    (hids : ∀ i < s₀.partitionCount, hasInit i = true → isReservedReturnValue (results i) = false
      ∧ (results i ≠ 0 → (s₀.staticData i).partitionId = i))
    (hrounds : rounds ≤ s₀.partitionCount) :
    ∃ e, initEntries s₀.partitionCount (fun i => (s₀.staticData i).partitionId)
        (initFunctions hasInit results) s₀.runtimeData rounds = some e ∧
      (∀ i < rounds, i ≠ tfmSpCoreId → e i = initialisedEntry hasInit results i) ∧
      ∀ i, rounds ≤ i → e i = s₀.runtimeData i := by
  induction rounds with
  | zero => exact ⟨_, rfl, fun i hi => absurd hi (Nat.not_lt_zero i), fun _ _ => rfl⟩
  | succ rounds ih =>
    obtain ⟨e, he, hbehind, hahead⟩ := ih (Nat.le_of_succ_le hrounds)
    rw [initEntries_succ, he, Option.bind_some]
    -- the round rewrites its own entry only
    have hround : ∃ r, initEntry s₀.partitionCount (fun i => (s₀.staticData i).partitionId)
        (initFunctions hasInit results) e rounds = some (Function.update e rounds r) ∧
        (rounds ≠ tfmSpCoreId → r = initialisedEntry hasInit results rounds) := by
      unfold initEntry initFunctions initialisedEntry
      cases hinit : hasInit rounds with
      | false =>
        refine ⟨_, rfl, fun hcore => ?_⟩
        rw [hahead rounds (Nat.le_refl _), hdecl.runtime rounds hrounds, if_neg hcore]
        rfl
      | true =>
        have hcore : rounds ≠ tfmSpCoreId := by
          rintro rfl
          rw [hdecl.internal.2] at hinit
          cases hinit
        have hopen : (e rounds).partitionState ≠ .closed := by
          rw [hahead rounds (Nat.le_refl _), hdecl.runtime rounds hrounds, if_neg hcore]
          decide
        obtain ⟨hends, hhome⟩ := hids rounds hrounds hinit
        simp only [if_true, if_neg hopen, hends, Bool.false_eq_true, if_false]
        by_cases hres : results rounds = 0
        · rw [if_pos hres]
          refine ⟨_, rfl, fun _ => ?_⟩
          rw [if_neg (by simp [hres])]
          rfl
        · rw [if_neg hres, hhome hres, closeEntry, if_pos (Nat.lt_of_succ_le hrounds),
            Function.update_idem]
          refine ⟨_, rfl, fun _ => ?_⟩
          rw [if_pos ⟨trivial, hres⟩, Function.update_self]
          rfl
    obtain ⟨r, hround, hr⟩ := hround
    refine ⟨_, hround, fun i hi hcore => ?_, fun i hi => ?_⟩
    · by_cases heq : i = rounds
      · subst heq
        rw [Function.update_self]
        exact hr hcore
      · rw [Function.update_of_ne heq]
        exact hbehind i (by omega) hcore
    · rw [Function.update_of_ne (by omega)]
      exact hahead i (by omega)

/-! ## The result

Back to the database, by the refinement, and on to the state in which the non-secure side starts. -/

theorem tfmSpmPartitionSetState_running (hidx : idx < s.partitionCount) :
    tfmSpmPartitionSetState s idx .running =
      .ok { s.modifyRuntimeData idx (fun r => { r with partitionState := .running }) with
        runningPartitionIdx := idx } := by
  unfold tfmSpmPartitionSetState
  rw [SpmState.setRuntimeData_of_lt hidx]
  rfl

/-! ### The start of the non-secure side

What `main` does behind the loop: the core is closed, and the non-secure partition runs. -/

/-- The entries when `main` jumps to non-secure code. -/
def handedOverEntries (s : SpmState) : SpmState :=
  (s.modifyRuntimeData tfmSpCoreId fun r => { r with partitionState := .closed }).modifyRuntimeData
    tfmSpNonSecureId fun r => { r with partitionState := .running }

/-- The state in which `main` jumps to non-secure code. -/
def handedOver (s : SpmState) : SpmState :=
  { handedOverEntries s with runningPartitionIdx := tfmSpNonSecureId }

/-- `main` closes the core and starts the non-secure side. -/
theorem mainFinish_eq (hcount : tfmSpCoreId < s.partitionCount) :
    mainFinish s = .ok (handedOver s) := by
  unfold mainFinish
  rw [tfmSpmPartitionSetState_of_lt hcount (by decide)]
  exact tfmSpmPartitionSetState_running (Nat.lt_of_le_of_lt (Nat.zero_le _) hcount)

theorem staticData_handedOver (i : Nat) : (handedOver s).staticData i = s.staticData i := by
  show (handedOverEntries s).staticData i = _
  unfold handedOverEntries
  rw [SpmState.staticData_modifyRuntimeData, SpmState.staticData_modifyRuntimeData]

theorem runtimeData_handedOver_of_ne {i : Nat} (hns : i ≠ tfmSpNonSecureId)
    (hcore : i ≠ tfmSpCoreId) : (handedOver s).runtimeData i = s.runtimeData i := by
  show (handedOverEntries s).runtimeData i = _
  unfold handedOverEntries
  rw [SpmState.runtimeData_modifyRuntimeData_of_ne hns,
    SpmState.runtimeData_modifyRuntimeData_of_ne hcore]

theorem runtimeData_handedOver_nonSecure :
    (handedOver s).runtimeData tfmSpNonSecureId =
      { s.runtimeData tfmSpNonSecureId with partitionState := .running } := by
  show (handedOverEntries s).runtimeData tfmSpNonSecureId = _
  unfold handedOverEntries
  rw [SpmState.runtimeData_modifyRuntimeData_self,
    SpmState.runtimeData_modifyRuntimeData_of_ne (by decide)]

theorem runtimeData_handedOver_core :
    (handedOver s).runtimeData tfmSpCoreId =
      { s.runtimeData tfmSpCoreId with partitionState := .closed } := by
  show (handedOverEntries s).runtimeData tfmSpCoreId = _
  unfold handedOverEntries
  rw [SpmState.runtimeData_modifyRuntimeData_of_ne (by decide),
    SpmState.runtimeData_modifyRuntimeData_self]

/-! ### Necessity and sufficiency -/

/-- The non-secure side starts with no call open. -/
theorem ClosedExactly.quiet (hdecl : Declared hasInit s₀) (h : ClosedExactly hasInit results s₀ s)
    (hapi : s.tfmSecureApiInit = false) : Quiet (handedOver s) where
  count_pos := by
    show 0 < s.partitionCount
    rw [h.count]
    exact Nat.lt_of_lt_of_le Nat.zero_lt_two hdecl.count_ge
  count_le := by
    show s.partitionCount ≤ _
    rw [h.count]
    exact Nat.le_trans hdecl.count_le (by decide)
  nonSecure := by
    rw [staticData_handedOver, h.static, hdecl.nonSecure]
  apiInit := hapi
  running := rfl
  nonSecureRunning := by
    unfold SpmState.state
    rw [runtimeData_handedOver_nonSecure]
  others := by
    intro i hi hns
    have hi' : i < s₀.partitionCount := h.count ▸ hi
    unfold SpmState.state
    by_cases hcore : i = tfmSpCoreId
    · rw [hcore, runtimeData_handedOver_core]
      exact .inr rfl
    · rw [runtimeData_handedOver_of_ne hns hcore]
      by_cases hfailed : Failed hasInit results i
      · exact .inr ((h.closed_iff i hi').mpr hfailed)
      · exact .inl (h.idle i hi' hcore hfailed)
  noCaller := by
    intro i hi
    have hcaller : (s.runtimeData i).callerPartitionIdx = spmInvalidPartitionIdx := by
      rw [h.context i (h.count ▸ hi)]
    unfold SpmState.caller
    by_cases hns : i = tfmSpNonSecureId
    · rw [hns, runtimeData_handedOver_nonSecure, ← hns]
      exact hcaller
    · by_cases hcore : i = tfmSpCoreId
      · rw [hcore, runtimeData_handedOver_core, ← hcore]
        exact hcaller
      · rw [runtimeData_handedOver_of_ne hns hcore]
        exact hcaller
  unlocked := h.unlocked

/-- A partition that failed is not one of the internal ones. -/
theorem Declared.failed_ne (hdecl : Declared hasInit s₀) (h : Failed hasInit results idx) :
    idx ≠ tfmSpNonSecureId ∧ idx ≠ tfmSpCoreId := by
  constructor
  · rintro rfl
    rw [Failed, hdecl.internal.1] at h
    cases h.1
  · rintro rfl
    rw [Failed, hdecl.internal.2] at h
    cases h.1

/-- The loop on the entries is all of the initialisation, but for the core. -/
theorem LoopInv.closedExactly (hdecl : Declared hasInit s₀)
    (h : LoopInv s₀ s₀.partitionCount s e)
    (hentries : ∀ i < s₀.partitionCount, i ≠ tfmSpCoreId →
      e i = initialisedEntry hasInit results i)
    (hbehind : ∀ i, s₀.partitionCount ≤ i → e i = s₀.runtimeData i) :
    ClosedExactly hasInit results s₀ { s with tfmSecureApiInit := false } := by
  have hstate : ∀ i < s₀.partitionCount, i ≠ tfmSpCoreId → s.state i =
      if hasInit i = true ∧ results i ≠ 0 then .closed else .idle := by
    intro i hi hcore
    unfold SpmState.state
    rw [h.entries i hcore, hentries i hi hcore]
    rfl
  refine ⟨h.count, h.static, fun i hi => ?_, fun i hi hcore hgood => ?_, fun i hi => ?_,
    fun i hi => ?_, h.running, h.unlocked⟩
  · show s.state i = .closed ↔ _
    by_cases hcore : i = tfmSpCoreId
    · refine iff_of_false ?_ fun hfailed => (hdecl.failed_ne hfailed).2 hcore
      rw [hcore]
      rcases h.coreState with hs | hs <;> rw [hs] <;> decide
    · rw [hstate i hi hcore]
      unfold Failed
      split <;> simp_all
  · show s.state i = .idle
    rw [hstate i hi hcore]
    exact if_neg hgood
  · show s.runtimeData i = { s₀.runtimeData i with
      partitionState := s.state i, callerPartitionIdx := spmInvalidPartitionIdx }
    rw [hdecl.runtime i hi]
    by_cases hcore : i = tfmSpCoreId
    · subst hcore
      -- the core's entry is not one of the abstract loop, but of the invariant
      have hcontext := h.coreContext
      have hcaller : (s.runtimeData tfmSpCoreId).callerPartitionIdx = _ := h.coreCaller hi
      unfold SpmState.state
      generalize s.runtimeData tfmSpCoreId = r at hcontext hcaller ⊢
      cases r
      cases hcaller
      cases hcontext
      rfl
    · unfold SpmState.state
      rw [h.entries i hcore, hentries i hi hcore]
      rfl
  · show s.runtimeData i = _
    rw [h.entries i (by unfold tfmSpCoreId; have := hdecl.count_ge; omega), hbehind i hi]

/-- The initialisation could have closed the right entries only with results and ids that lead
there. -/
theorem ClosedExactly.at_home (hdecl : Declared hasInit s₀) (h : ClosedExactly hasInit results s₀ s)
    (he : initEntries s₀.partitionCount (fun i => (s₀.staticData i).partitionId)
      (initFunctions hasInit results) s₀.runtimeData s₀.partitionCount = some e)
    (hentries : ∀ i ≠ tfmSpCoreId, s.runtimeData i = e i) :
    ∀ i < s₀.partitionCount, hasInit i = true → isReservedReturnValue (results i) = false
      ∧ (results i ≠ 0 → (s₀.staticData i).partitionId = i) := by
  have hsome : ∀ i, initFunctions hasInit results i ≠ none → hasInit i = true := by
    intro i hi
    unfold initFunctions at hi
    split at hi
    · assumption
    · exact absurd rfl hi
  have hcore : ∀ i, hasInit i = true → i ≠ tfmSpCoreId := by
    rintro i hi rfl
    rw [hdecl.internal.2] at hi
    cases hi
  -- the callers are marked as invalid, so every partition with an init function was entered
  have hentered : ∀ i < s₀.partitionCount, initFunctions hasInit results i ≠ none →
      ∃ e₁, initEntries s₀.partitionCount (fun i => (s₀.staticData i).partitionId)
          (initFunctions hasInit results) s₀.runtimeData i = some e₁ ∧
        (e₁ i).partitionState ≠ .closed := by
    intro i hi hinit
    refine initEntries_entered hinit he ?_
    rw [← hentries i (hcore i (hsome i hinit)), h.context i hi, hdecl.runtime i hi]
    show spmInvalidPartitionIdx ≠ 0
    decide
  have hclosed : ∀ i < s₀.partitionCount, ∀ result, initFunctions hasInit results i = some result →
      result ≠ 0 → (e i).partitionState = .closed := by
    intro i hi result hresult hfails
    have hinit := hsome i (by rw [hresult]; exact Option.some_ne_none result)
    have heq : result = results i := by
      simpa [initFunctions, hinit] using hresult.symm
    rw [← hentries i (hcore i hinit)]
    exact (h.closed_iff i hi).mpr ⟨hinit, heq ▸ hfails⟩
  intro i hi hinit
  have hresult : initFunctions hasInit results i = some (results i) := by
    simp [initFunctions, hinit]
  refine ⟨?_, initEntries_at_home he hentered hclosed i hi _ hresult⟩
  obtain ⟨e₁, he₁, hopen⟩ := hentered i hi (by rw [hresult]; exact Option.some_ne_none _)
  obtain ⟨e₂, he₂⟩ := initEntries_of_le (Nat.succ_le_of_lt hi) he
  rw [initEntries_succ, he₁, Option.bind_some] at he₂
  exact (initEntry_round he₂).ends hresult hopen

/-- For every database and all results of the init functions: the initialisation ends and closes
exactly the partitions that fail, if and only if no init function returns a reserved value and the
id of each partition that fails is its index. -/
theorem failuresClosed_iff (hdecl : Declared hasInit s₀) :
    FailuresClosed pl hasInit results s₀ ↔
      ∀ i < s₀.partitionCount, hasInit i = true → isReservedReturnValue (results i) = false
        ∧ (results i ≠ 0 → (s₀.staticData i).partitionId = i) := by
  obtain ⟨hok, herr⟩ := partitionInitLoop_spec pl hdecl results (Nat.le_refl s₀.partitionCount)
  constructor
  · rintro ⟨err, s₁, s₂, hrun, hclosed, -⟩
    unfold tfmSpmPartitionInit at hrun
    cases he : initEntries s₀.partitionCount (fun i => (s₀.staticData i).partitionId)
        (initFunctions hasInit results) s₀.runtimeData s₀.partitionCount with
    -- the abstract loop stops, and so does the source
    | none =>
      obtain ⟨fault, hfault⟩ := herr he
      rw [hfault] at hrun
      cases hrun
    | some e =>
      obtain ⟨s, failCnt, hloop, hinv⟩ := hok e he
      rw [hloop] at hrun
      cases hrun
      exact hclosed.at_home hdecl he hinv.entries
  · intro hids
    obtain ⟨e, he, hentries, hbehind⟩ :=
      initEntries_of_ids hdecl hids (Nat.le_refl s₀.partitionCount)
    obtain ⟨s, failCnt, hloop, hinv⟩ := hok e he
    have hexact := hinv.closedExactly hdecl hentries hbehind
    have hquiet := hexact.quiet hdecl rfl
    have hcount : tfmSpCoreId < s.partitionCount := hinv.count ▸ hdecl.count_ge
    refine ⟨if failCnt = 0 then .ok else .partitionNotAvailable, _, _, ?_, hexact,
      mainFinish_eq hcount, ?_⟩
    · unfold tfmSpmPartitionInit
      rw [hloop]
      rfl
    · intro m hm i hi hfailed
      refine hm.closed hquiet ?_
      obtain ⟨hns, hcore⟩ := hdecl.failed_ne hfailed
      unfold SpmState.state
      rw [runtimeData_handedOver_of_ne hns hcore]
      exact (hexact.closed_iff i hi).mpr hfailed

/-! ### A database with one partition -/

/-- The database with one declared partition, which has an init function. -/
def oneDeclared (partitionId : Nat) : SpmState where
  partitionCount := 3
  partitions := fun i =>
    { staticData := if i = 0 then ⟨0, 0⟩ else if i = 1 then ⟨1, 3⟩ else ⟨partitionId, 3⟩
      runtimeData := ⟨if i = 1 then .running else .uninit, 0, 0, 0, 0, .disable⟩ }
  runningPartitionIdx := 1
  tfmSecureLock := 0
  tfmSecureApiInit := true
  psp := 0x38000400
  psplim := 0x38000000

/-- Such a database is one that `main` hands over. -/
theorem oneDeclared_declared {partitionId : Nat}
    (hid : getPartitionIdx (oneDeclared partitionId) partitionId = 2) :
    Declared (fun i => i == 2) (oneDeclared partitionId) where
  count_ge := show 2 ≤ 3 by decide
  count_le := show 3 ≤ spmMaxPartitions by decide
  nonSecure := rfl
  core := rfl
  internal := by decide
  lookup := by
    intro i _ hinit
    obtain rfl : i = 2 := by simpa using hinit
    exact hid
  runtime := fun i _ => rfl
  running := rfl
  unlocked := rfl
  apiInit := rfl

/-- A partition that fails and has its index as id; and the storage partition, with the id 256 at
index 2, when it does not fail. -/
theorem failuresClosed_of_index :
    FailuresClosed samplePlatform (fun i => i == 2) (fun _ => -1) (oneDeclared 2) ∧
    FailuresClosed samplePlatform (fun i => i == 2) (fun _ => 0) (oneDeclared tfmSpStorageId) :=
  ⟨(failuresClosed_iff (oneDeclared_declared (by decide))).mpr (by decide),
    (failuresClosed_iff (oneDeclared_declared (by decide))).mpr (by decide)⟩

/-- The storage partition has the id 256 at index 2. If it fails to initialise, the handler writes
behind the database. -/
theorem storage_failure_not_closed :
    Declared (fun i => i == 2) (oneDeclared tfmSpStorageId) ∧
    tfmSpmPartitionInit samplePlatform (initFunctions (fun i => i == 2) fun _ => -1)
      (oneDeclared tfmSpStorageId) = .error (.outOfRange tfmSpStorageId) ∧
    ¬ FailuresClosed samplePlatform (fun i => i == 2) (fun _ => -1)
      (oneDeclared tfmSpStorageId) := by
  have hrun : tfmSpmPartitionInit samplePlatform (initFunctions (fun i => i == 2) fun _ => -1)
      (oneDeclared tfmSpStorageId) = .error (.outOfRange tfmSpStorageId) := rfl
  refine ⟨oneDeclared_declared (by decide), hrun, ?_⟩
  rintro ⟨err, s₁, s₂, hok, -⟩
  rw [hrun] at hok
  cases hok

end Tfm.Spm
