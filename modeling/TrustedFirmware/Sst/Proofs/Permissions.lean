import TrustedFirmware.Sst.AssetManagement
import Mathlib.Data.List.Basic

/-!
# Secure storage — what the permission checks let through

Every function of the asset management either reports an error that it finds on its own, or makes
one call of the object layer (`AmCall.forward`, `AmCall.run_eq`). A call that changes an asset other
than by its attributes needs `SST_PERM_WRITE`, one that reads its data needs `SST_PERM_READ`.

The permission that is looked up is not always the one that is asked for. A secure caller that
passes on the id of another application needs `SST_PERM_REFERENCE` instead, and is refused unless it
asks for read access.

The last section relates two object layers: runs of the asset management over one are runs over the
other, if the first refines the second call by call.
-/

namespace Tfm.Sst

variable {db : PolicyDb} {σ : Type} {layer : ObjectLayer σ} {partialAssetRw : Bool}
  {secureCaller : Bool} {appId uuid : UInt32} {requestType : UInt8}

/-! ## What the policy grants -/

/-- The policy gives the application one of these permissions on the asset. -/
def PolicyDb.grants (db : PolicyDb) (appId uuid : UInt32) (perms : UInt8) : Bool :=
  match sstAmLookupDbEntry db uuid with
  | none => false
  | some dbEntry =>
    match sstAmLookupAppPerms db dbEntry appId with
    | none => false
    | some permEntry => permEntry.perm &&& perms ≠ 0

/-- A non-secure caller passes the check when the policy grants what it asks for. -/
theorem sstAmGetDbEntry_isSome_ns (happ : appId ≠ sAppId) (hreq : requestType ≠ sstPermForbidden)
    (hbypass : requestType ≠ sstPermBypass) :
    (sstAmGetDbEntry db false appId uuid requestType).isSome = db.grants appId uuid requestType := by
  unfold sstAmGetDbEntry sstAmCheckSNsPolicy PolicyDb.grants
  simp only [Bool.false_eq_true, if_false, happ, hreq]
  cases sstAmLookupDbEntry db uuid with
  | none => rfl
  | some dbEntry =>
    simp only [hbypass, if_false]
    cases sstAmLookupAppPerms db dbEntry appId with
    | none => rfl
    | some permEntry =>
      by_cases h : permEntry.perm &&& requestType = 0 <;> simp [h]

/-- A non-secure caller cannot use the id of the secure side. -/
theorem sstAmGetDbEntry_spoofed :
    sstAmGetDbEntry db false sAppId uuid requestType = none := by
  simp [sstAmGetDbEntry, sstAmCheckSNsPolicy]

/-- A secure caller that passes on another id needs `SST_PERM_REFERENCE`, whatever it asks for. -/
theorem grants_of_delegated (happ : appId ≠ sAppId)
    (h : (sstAmGetDbEntry db true appId uuid requestType).isSome) :
    requestType &&& sstPermRead ≠ 0 ∧ db.grants appId uuid sstPermReference = true := by
  unfold sstAmGetDbEntry sstAmCheckSNsPolicy at h
  simp only [if_true, happ, ne_eq, not_false_eq_true] at h
  -- without read access the request is turned into one that is forbidden
  by_cases hread : requestType &&& sstPermRead = 0
  · simp [hread] at h
  · refine ⟨hread, ?_⟩
    unfold PolicyDb.grants
    simp only [hread, not_false_eq_true, if_true] at h
    cases hdb : sstAmLookupDbEntry db uuid with
    | none => simp [hdb, sstPermReference, sstPermForbidden] at h
    | some dbEntry =>
      cases happs : sstAmLookupAppPerms db dbEntry appId with
      | none =>
        simp [hdb, happs, sstPermReference, sstPermForbidden, sstPermBypass] at h
      | some permEntry =>
        simp only [hdb, happs, sstPermReference, sstPermForbidden, sstPermBypass] at h
        by_cases hperm : permEntry.perm &&& 1 = 0
        · simp [hperm] at h
        · simp only [happs]
          exact decide_eq_true hperm

/-! ## The call of the object layer

`AmCall.forward` computes what a request passes on, as a pure function of the policy, the caller's
memory and the checks. -/

/-- A call is made on behalf of an application: by non-secure code with its id, or by secure code
that passes on an id other than its own. -/
def AmCall.OnBehalfOf (c : AmCall) (appId : UInt32) : Prop :=
  c.appId = appId ∧ (c.env.secureCaller = true → appId ≠ sAppId)

/-- The call of the object layer that a request leads to when it passes the checks, and the
buffer for its output. -/
def AmCall.forward (db : PolicyDb) (partialAssetRw : Bool) (c : AmCall) (mem : Memory) :
    Except SstErr (ObjectCall × Option OutputBuf) :=
  let entry := sstAmGetDbEntry db c.env.secureCaller c.appId c.assetUuid
  match c.function with
  | .getInfo info =>
    if !c.env.memoryPermissionCheck info psaSstAssetInfoSize .rw then .error .paramError
    else match entry allPerms with
      | none => .error .assetNotFound
      | some _ => .ok (.getInfo c.assetUuid, some ⟨info, psaSstAssetInfoSize⟩)
  | .getAttributes attrs =>
    if !c.env.memoryPermissionCheck attrs psaSstAssetAttrSize .rw then .error .paramError
    else match entry allPerms with
      | none => .error .assetNotFound
      | some _ => .ok (.getAttributes c.assetUuid, some ⟨attrs, psaSstAssetAttrSize⟩)
  | .setAttributes attrs =>
    if !c.env.memoryPermissionCheck attrs psaSstAssetAttrSize .ro then .error .paramError
    else match entry allPerms with
      | none => .error .assetNotFound
      | some _ =>
        let value : AssetAttrs := Vector.ofFn fun i => mem (attrs + i)
        if !value.validityUnset then .error .paramError
        else .ok (.setAttributes c.assetUuid value, none)
  | .create =>
    match entry sstPermWrite with
    | none => .error .assetNotFound
    | some dbEntry =>
      .ok (.create c.assetUuid dbEntry.type.toNat dbEntry.maxSize.toNat, none)
  | .read data =>
    match entry sstPermRead with
    | none => .error .assetNotFound
    | some _ =>
      match validateCopyValidateIovec c.env mem data .rw with
      | none => .error .assetNotFound
      | some localData =>
        if !partialAssetRw ∧ localData.offset ≠ 0 then .error .paramError
        else .ok (.read c.assetUuid localData.offset localData.size,
          some ⟨localData.data, localData.size⟩)
  | .write data =>
    match entry sstPermWrite with
    | none => .error .assetNotFound
    | some dbEntry =>
      match validateCopyValidateIovec c.env mem data .ro with
      | none => .error .assetNotFound
      | some localData =>
        match sstUtilsCheckContainedIn 0 dbEntry.maxSize.toNat localData.offset localData.size with
        | .error e => .error e
        | .ok _ =>
          if !partialAssetRw ∧ localData.offset ≠ 0 then .error .paramError
          else .ok (.write c.assetUuid (mem.read localData.data localData.size) localData.offset,
            none)
  | .delete =>
    match entry sstPermWrite with
    | none => .error .assetNotFound
    | some _ => .ok (.delete c.assetUuid, none)

/-- A request is refused without a trace, or it is one call of the object layer. -/
theorem AmCall.run_eq (c : AmCall) (s : AmState σ) :
    c.run db layer partialAssetRw s =
      match c.forward db partialAssetRw s.mem with
      | .error e => (.error e, s)
      | .ok (call, out) => s.callLayer layer call out := by
  obtain ⟨env, appId, uuid, function⟩ := c
  -- for each function of the source, its checks in their order
  cases function with
  | getInfo info =>
    simp only [AmCall.run, AmCall.forward, sstAmGetInfo]
    cases env.memoryPermissionCheck info psaSstAssetInfoSize .rw with
    | false => rfl
    | true => cases sstAmGetDbEntry db env.secureCaller appId uuid allPerms <;> rfl
  | getAttributes attrs =>
    simp only [AmCall.run, AmCall.forward, sstAmGetAttributes]
    cases env.memoryPermissionCheck attrs psaSstAssetAttrSize .rw with
    | false => rfl
    | true => cases sstAmGetDbEntry db env.secureCaller appId uuid allPerms <;> rfl
  | setAttributes attrs =>
    simp only [AmCall.run, AmCall.forward, sstAmSetAttributes]
    cases env.memoryPermissionCheck attrs psaSstAssetAttrSize .ro with
    | false => rfl
    | true =>
      cases sstAmGetDbEntry db env.secureCaller appId uuid allPerms with
      | none => rfl
      | some _ =>
        cases AssetAttrs.validityUnset (Vector.ofFn fun i => s.mem (attrs + i)) <;> rfl
  | create =>
    simp only [AmCall.run, AmCall.forward, sstAmCreate]
    cases sstAmGetDbEntry db env.secureCaller appId uuid sstPermWrite <;> rfl
  | read data =>
    simp only [AmCall.run, AmCall.forward, sstAmRead]
    cases sstAmGetDbEntry db env.secureCaller appId uuid sstPermRead with
    | none => rfl
    | some _ =>
      cases validateCopyValidateIovec env s.mem data .rw with
      | none => rfl
      | some localData =>
        dsimp only
        split <;> rfl
  | write data =>
    simp only [AmCall.run, AmCall.forward, sstAmWrite]
    cases sstAmGetDbEntry db env.secureCaller appId uuid sstPermWrite with
    | none => rfl
    | some dbEntry =>
      cases validateCopyValidateIovec env s.mem data .ro with
      | none => rfl
      | some localData =>
        dsimp only
        cases sstUtilsCheckContainedIn 0 dbEntry.maxSize.toNat localData.offset localData.size with
        | error e => rfl
        | ok _ =>
          dsimp only
          split <;> rfl
  | delete =>
    simp only [AmCall.run, AmCall.forward, sstAmDelete]
    cases sstAmGetDbEntry db env.secureCaller appId uuid sstPermWrite <;> rfl

/-! ## What passes the checks

Read off `AmCall.forward`, function by function. -/

variable {c : AmCall} {mem : Memory} {call : ObjectCall} {out : Option OutputBuf}

/-- A request acts on the asset it names. -/
theorem AmCall.uuid_forward (h : c.forward db partialAssetRw mem = .ok (call, out)) :
    call.uuid = c.assetUuid := by
  obtain ⟨env, appId, uuid, function⟩ := c
  cases function <;> simp only [AmCall.forward] at h <;> (repeat' split at h) <;> cases h <;> rfl

/-- What changes an asset is a request to set its attributes, or needs `SST_PERM_WRITE`. -/
theorem AmCall.entry_of_update (h : c.forward db partialAssetRw mem = .ok (call, out))
    (hupdate : call.isQuery = false) :
    (∃ attrs, c.function = .setAttributes attrs ∧
      c.env.memoryPermissionCheck attrs psaSstAssetAttrSize .ro = true ∧
      (sstAmGetDbEntry db c.env.secureCaller c.appId c.assetUuid allPerms).isSome) ∨
    (sstAmGetDbEntry db c.env.secureCaller c.appId c.assetUuid sstPermWrite).isSome := by
  obtain ⟨env, appId, uuid, function⟩ := c
  cases function <;> simp only [AmCall.forward] at h <;> (repeat' split at h) <;> cases h <;>
    simp_all [ObjectCall.isQuery]

/-- Only queries return bytes. -/
theorem AmCall.out_of_update (h : c.forward db partialAssetRw mem = .ok (call, out))
    (hupdate : call.isQuery = false) : out = none := by
  obtain ⟨env, appId, uuid, function⟩ := c
  cases function <;> simp only [AmCall.forward] at h <;> (repeat' split at h) <;> cases h <;>
    simp_all [ObjectCall.isQuery]

/-- What returns data bytes needs `SST_PERM_READ`. -/
theorem AmCall.entry_of_read (h : c.forward db partialAssetRw mem = .ok (call, out))
    (hread : call.isRead = true) :
    (sstAmGetDbEntry db c.env.secureCaller c.appId c.assetUuid sstPermRead).isSome := by
  obtain ⟨env, appId, uuid, function⟩ := c
  cases function <;> simp only [AmCall.forward] at h <;> (repeat' split at h) <;> cases h <;>
    simp_all [ObjectCall.isRead]

/-- Nobody but a writer passes a check for `SST_PERM_WRITE`. -/
theorem AmCall.grants_of_write {appId : UInt32} (hc : c.OnBehalfOf appId)
    (h : (sstAmGetDbEntry db c.env.secureCaller c.appId c.assetUuid sstPermWrite).isSome) :
    db.grants appId c.assetUuid sstPermWrite = true := by
  obtain ⟨rfl, hdelegated⟩ := hc
  -- write access cannot be delegated, so only a non-secure caller with its own id is left
  cases hsecure : c.env.secureCaller with
  | true =>
    rw [hsecure] at h
    exact absurd (grants_of_delegated (hdelegated hsecure) h).1 (by decide)
  | false =>
    rw [hsecure] at h
    by_cases happ : c.appId = sAppId
    · rw [happ, sstAmGetDbEntry_spoofed] at h
      cases h
    · rw [← sstAmGetDbEntry_isSome_ns happ (by decide) (by decide)]
      exact h

/-! ## Object layers that do the same

The asset management sees the object layer through its results only. When one layer refines another, a
run of the asset management over it is the run over the other, as far as the caller can tell. -/

/-- **One object layer refines another** through a relation of their states, for the calls of a set. -/
def ObjectLayer.Refines {τ : Type} (layer : ObjectLayer σ) (spec : ObjectLayer τ) (R : σ → τ → Prop)
    (admissible : ObjectCall → Prop) : Prop :=
  ∀ call s t, admissible call → R s t →
    (layer call s).1 = (spec call t).1 ∧ R (layer call s).2 (spec call t).2

section Refinement

variable {τ : Type} {spec : ObjectLayer τ} {R : σ → τ → Prop} {admissible : ObjectCall → Prop}

theorem AmState.store_callLayer (call : ObjectCall) (out : Option OutputBuf) (s : AmState σ) :
    (s.callLayer layer call out).2.store = (layer call s.store).2 := by
  unfold AmState.callLayer
  rcases layer call s.store with ⟨_ | bytes, store⟩
  · rfl
  · cases out <;> rfl

theorem AmState.fst_callLayer (call : ObjectCall) (out : Option OutputBuf) (s : AmState σ) :
    (s.callLayer layer call out).1 = (layer call s.store).1.map fun _ => () := by
  unfold AmState.callLayer
  rcases layer call s.store with ⟨_ | bytes, store⟩
  · rfl
  · cases out <;> rfl

/-- Bytes are copied to the caller on success only. -/
theorem AmState.mem_callLayer (call : ObjectCall) (out : Option OutputBuf) (s : AmState σ) :
    (s.callLayer layer call out).2.mem =
      match (layer call s.store).1, out with
      | .ok bytes, some buf => s.mem.write buf.addr (bufBytes bytes buf.size)
      | _, _ => s.mem := by
  unfold AmState.callLayer
  rcases layer call s.store with ⟨_ | bytes, store⟩
  · rfl
  · cases out <;> rfl

/-- One request over either layer. -/
theorem ObjectLayer.Refines.run (h : layer.Refines spec R admissible)
    (hadmissible : ∀ mem call out, c.forward db partialAssetRw mem = .ok (call, out) → admissible call)
    {s : AmState σ} {t : AmState τ} (hmem : s.mem = t.mem) (hR : R s.store t.store) :
    (c.run db layer partialAssetRw s).1 = (c.run db spec partialAssetRw t).1 ∧
    (c.run db layer partialAssetRw s).2.mem = (c.run db spec partialAssetRw t).2.mem ∧
    R (c.run db layer partialAssetRw s).2.store (c.run db spec partialAssetRw t).2.store := by
  rw [c.run_eq, c.run_eq, ← hmem]
  -- which call is made depends on the memory of the caller, which is the same on both sides
  rcases hforward : c.forward db partialAssetRw s.mem with e | ⟨call, out⟩
  · exact ⟨rfl, hmem, hR⟩
  · obtain ⟨hres, hR'⟩ := h call s.store t.store (hadmissible _ _ _ hforward) hR
    dsimp only
    rw [AmState.store_callLayer, AmState.store_callLayer, AmState.fst_callLayer, AmState.fst_callLayer,
      AmState.mem_callLayer, AmState.mem_callLayer, hres, hmem]
    exact ⟨rfl, rfl, hR'⟩

/-- **A sequence of requests over either layer**, by induction on the sequence. -/
theorem ObjectLayer.Refines.runAm (h : layer.Refines spec R admissible)
    (hadmissible : ∀ (c : AmCall) mem call out, c.forward db partialAssetRw mem = .ok (call, out) →
      admissible call)
    (calls : List AmCall) {s : AmState σ} {t : AmState τ} (hmem : s.mem = t.mem) (hR : R s.store t.store) :
    (runAm db layer partialAssetRw calls s).1 = (runAm db spec partialAssetRw calls t).1 ∧
    (runAm db layer partialAssetRw calls s).2.mem = (runAm db spec partialAssetRw calls t).2.mem ∧
    R (runAm db layer partialAssetRw calls s).2.store (runAm db spec partialAssetRw calls t).2.store := by
  -- the relation between the stores is what carries the induction
  induction calls generalizing s t with
  | nil => exact ⟨rfl, hmem, hR⟩
  | cons c calls ih =>
    obtain ⟨hres, hmem', hR'⟩ := h.run (hadmissible c) hmem hR
    obtain ⟨hrest, hend⟩ := ih hmem' hR'
    refine ⟨?_, hend⟩
    show (c.run db layer partialAssetRw s).1 :: _ = (c.run db spec partialAssetRw t).1 :: _
    rw [hres]
    exact congrArg (List.cons _) hrest

end Refinement

end Tfm.Sst
