import TrustedFirmware.Sst.Proofs.AssetStore

/-!
# Secure storage — who can change an asset

The asset management is the reference monitor of the store: whatever an application calls, it
reaches an asset only through the checks of its permissions. Writers are the only ones that can
change an asset, except that any permission is enough to set its attributes.

* `unchanged_iff_no_setAttributes` — over every object layer that acts only on the asset it is called
  with (`ObjectLayer.Confined`), a run on behalf of an application that is no writer leaves the asset
  alone exactly when none of its calls may set the attributes.
* `boundedCall_confined` and `represents_runAm` — the object layer of `sst_object_system.c` is such a
  layer: what it keeps of the other assets is read off the store of assets that it refines.
-/

namespace Tfm.Sst

variable {db : PolicyDb} {σ φ : Type} {layer : ObjectLayer σ}
  {stored : σ → UInt32 → Option Asset} {partialAssetRw : Bool} {appId u : UInt32}

/-!
## Runs that leave an asset alone

A request that passes the checks is one call of the object layer (`AmCall.run_eq`). A call on another
asset, or one that only looks, leaves `u` alone by confinement; any other call on `u` has passed a check
for `SST_PERM_WRITE`, or sets attributes.
-/

/-- The object layer acts only on the asset it is called with, and its queries on none. -/
structure ObjectLayer.Confined (layer : ObjectLayer σ) (stored : σ → UInt32 → Option Asset) :
    Prop where
  other : ∀ call s v, v ≠ call.uuid → stored (layer call s).2 v = stored s v
  query : ∀ call s v, call.isQuery = true → stored (layer call s).2 v = stored s v

/-- A request to set the attributes of `u` that passes the checks of pointer and permissions. -/
def AmCall.MaySetAttributes (db : PolicyDb) (u : UInt32) (c : AmCall) : Prop :=
  ∃ attrs, c.function = .setAttributes attrs ∧ c.assetUuid = u ∧
    c.env.memoryPermissionCheck attrs psaSstAssetAttrSize .ro = true ∧
    (sstAmGetDbEntry db c.env.secureCaller c.appId u allPerms).isSome

/-- One call by an application that is no writer of `u` leaves `u` alone, unless it may set its
attributes. -/
theorem stored_run (hlayer : layer.Confined stored) (hwrite : db.grants appId u sstPermWrite = false)
    {c : AmCall} (hc : c.OnBehalfOf appId) (hset : ¬ c.MaySetAttributes db u) (s : AmState σ) :
    stored (c.run db layer partialAssetRw s).2.store u = stored s.store u := by
  rw [c.run_eq]
  rcases hforward : c.forward db partialAssetRw s.mem with e | ⟨call, out⟩
  · rfl
  · show stored (s.callLayer layer call out).2.store u = _
    rw [AmState.store_callLayer]
    -- only a call on `u` itself matters, and of these only the updates
    by_cases hu : u = call.uuid
    · cases hquery : call.isQuery with
      | true => exact hlayer.query call _ _ hquery
      | false =>
        have huuid := c.uuid_forward hforward
        rcases c.entry_of_update hforward hquery with ⟨attrs, hf, hptr, hentry⟩ | hentry
        · -- attributes: excluded by assumption
          rw [← huuid, ← hu] at hentry
          exact absurd ⟨attrs, hf, by rw [hu, huuid], hptr, hentry⟩ hset
        · -- anything else: the application would be a writer
          have hgrants := c.grants_of_write hc hentry
          rw [← huuid, ← hu, hwrite] at hgrants
          cases hgrants
    · exact hlayer.other call _ _ hu

/-- A run is its calls, one after the other. -/
theorem stored_runAm (hlayer : layer.Confined stored)
    (hwrite : db.grants appId u sstPermWrite = false) {calls : List AmCall}
    (hcalls : ∀ c ∈ calls, c.OnBehalfOf appId) (hset : ∀ c ∈ calls, ¬ c.MaySetAttributes db u)
    (s : AmState σ) :
    stored (runAm db layer partialAssetRw calls s).2.store u = stored s.store u := by
  induction calls generalizing s with
  | nil => rfl
  | cons c calls ih =>
    have hstep : stored (c.run db layer partialAssetRw s).2.store u = stored s.store u :=
      stored_run hlayer hwrite (hcalls c List.mem_cons_self) (hset c List.mem_cons_self) s
    have hrest := ih (fun c hc => hcalls c (List.mem_cons_of_mem _ hc))
      (fun c hc => hset c (List.mem_cons_of_mem _ hc)) (c.run db layer partialAssetRw s).2
    exact hrest.trans hstep

/-!
## Runs that change an asset

The condition is needed: over an object layer that only sets attributes, and from an empty store, each
call that may set the attributes of `u` leaves a trace that no later call removes.
-/

/-- An object layer that knows only how to set attributes. -/
def attributeLayer : ObjectLayer AssetMap
  | .setAttributes uuid attrs, m => (.ok [], Function.update m uuid (some ⟨0, 0, [], attrs⟩))
  | _, m => (.error .systemError, m)

/-- Such a layer acts only on the asset it is called with. -/
theorem attributeLayer_confined : ObjectLayer.Confined attributeLayer id where
  other := by
    intro call s v hv
    cases call with
    | setAttributes uuid attrs => exact Function.update_of_ne hv ..
    | _ => rfl
  query := by
    intro call s v hquery
    cases call with
    | setAttributes uuid attrs => cases hquery
    | _ => rfl

/-- Memory in which every attribute is zero. -/
def zeroMemory : Memory := fun _ => 0

/-- The layer never writes to memory, and an asset that was touched stays. -/
theorem attributeLayer_callLayer (call : ObjectCall) (out : Option OutputBuf) (m : AssetMap)
    (hout : call.isQuery = false → out = none) :
    ((AmState.mk zeroMemory m).callLayer attributeLayer call out).2.mem = zeroMemory ∧
    (m u ≠ none → ((AmState.mk zeroMemory m).callLayer attributeLayer call out).2.store u ≠ none) := by
  cases call with
  | setAttributes uuid attrs =>
    rw [hout rfl]
    refine ⟨rfl, fun hm => ?_⟩
    show Function.update m uuid (some _) u ≠ none
    -- setting attributes never removes an asset
    by_cases huv : u = uuid
    · subst huv
      rw [Function.update_self]
      exact Option.some_ne_none _
    · rw [Function.update_of_ne huv]
      exact hm
  | _ => exact ⟨rfl, id⟩

/-- Zero attributes pass the check of the validity period. -/
theorem validityUnset_zeroMemory (attrs : Nat) :
    AssetAttrs.validityUnset (Vector.ofFn fun i => zeroMemory (attrs + i)) = true := by
  show AssetAttrs.validityUnset (Vector.ofFn fun _ => 0) = true
  decide

/-- With zero memory, a call that may set attributes does. -/
theorem AmCall.MaySetAttributes.forward {c : AmCall} (h : c.MaySetAttributes db u)
    (partialAssetRw : Bool) :
    ∃ attrs, c.forward db partialAssetRw zeroMemory = .ok (.setAttributes u attrs, none) := by
  obtain ⟨attrs, hf, rfl, hptr, hentry⟩ := h
  obtain ⟨dbEntry, hentry⟩ := Option.isSome_iff_exists.mp hentry
  exact ⟨_, by simp [AmCall.forward, hf, hptr, hentry, validityUnset_zeroMemory]; rfl⟩

/-- One call over such a layer: memory stays zero, assets stay, and attributes are set where they
may be. -/
theorem attributeLayer_run (db : PolicyDb) (partialAssetRw : Bool) (u : UInt32) (c : AmCall)
    (m : AssetMap) :
    ∃ m', (c.run db attributeLayer partialAssetRw ⟨zeroMemory, m⟩).2 = ⟨zeroMemory, m'⟩ ∧
      (m u ≠ none → m' u ≠ none) ∧ (c.MaySetAttributes db u → m' u ≠ none) := by
  rw [c.run_eq]
  rcases hforward : c.forward db partialAssetRw zeroMemory with e | ⟨call, out⟩
  · -- a refused call: but one that may set attributes is not refused
    refine ⟨m, rfl, id, fun hmay => ?_⟩
    obtain ⟨attrs, hset⟩ := hmay.forward partialAssetRw
    rw [hforward] at hset
    cases hset
  · obtain ⟨hmem, hkept⟩ := attributeLayer_callLayer (u := u) call out m
      fun hquery => c.out_of_update hforward hquery
    refine ⟨((AmState.mk zeroMemory m).callLayer attributeLayer call out).2.store, ?_, hkept,
      fun hmay => ?_⟩
    · show ((AmState.mk zeroMemory m).callLayer attributeLayer call out).2 = _
      generalize (AmState.mk zeroMemory m).callLayer attributeLayer call out = o at hmem
      obtain ⟨res, mem, store⟩ := o
      cases hmem
      rfl
    · obtain ⟨attrs, hset⟩ := hmay.forward partialAssetRw
      rw [hforward] at hset
      cases hset
      show Function.update m u (some _) u ≠ none
      rw [Function.update_self]
      exact Option.some_ne_none _

/-- A sequence of calls that may set the attributes of `u` does so in some store. -/
theorem attributeLayer_runAm {calls : List AmCall} {m : AssetMap}
    (h : m u ≠ none ∨ ∃ c ∈ calls, c.MaySetAttributes db u) :
    (runAm db attributeLayer partialAssetRw calls ⟨zeroMemory, m⟩).2.store u ≠ none := by
  -- on the calls: once `u` is there it stays
  induction calls generalizing m with
  | nil =>
    rcases h with h | ⟨c, hc, -⟩
    · exact h
    · cases hc
  | cons c calls ih =>
    obtain ⟨m', hrun, hkept, hset⟩ := attributeLayer_run db partialAssetRw u c m
    show (runAm db attributeLayer partialAssetRw calls
      (c.run db attributeLayer partialAssetRw ⟨zeroMemory, m⟩).2).2.store u ≠ none
    rw [hrun]
    apply ih
    rcases h with h | ⟨c', hc', hmay⟩
    · exact .inl (hkept h)
    · rcases List.mem_cons.mp hc' with rfl | hc'
      · exact .inl (hset hmay)
      · exact .inr ⟨c', hc', hmay⟩

/-- A sequence of calls on behalf of an application that is no writer of `u` leaves `u` as it is,
in every store and for every object layer that acts only on the asset it is called with, exactly
when none of the calls may set the attributes of `u`. -/
theorem unchanged_iff_no_setAttributes (hwrite : db.grants appId u sstPermWrite = false)
    {calls : List AmCall} (hcalls : ∀ c ∈ calls, c.OnBehalfOf appId) :
    (∀ (σ : Type) (layer : ObjectLayer σ) (stored : σ → UInt32 → Option Asset),
      layer.Confined stored → ∀ s : AmState σ,
        stored (runAm db layer partialAssetRw calls s).2.store u = stored s.store u) ↔
    ∀ c ∈ calls, ¬ c.MaySetAttributes db u := by
  constructor
  · intro h c hc hmay
    -- a layer and an empty store in which the call shows
    have hnone := h AssetMap attributeLayer id attributeLayer_confined ⟨zeroMemory, fun _ => none⟩
    exact attributeLayer_runAm (.inr ⟨c, hc, hmay⟩) hnone
  · intro hset σ layer stored hlayer s
    exact stored_runAm hlayer hwrite hcalls hset s

/-- Application 10 may read asset 4 but not write it. Whatever it reads, queries, writes and deletes, and
when it passes attributes from memory that is not its own, the asset stays as it is. -/
theorem unchanged_by_queries :
    let env : CallEnv := ⟨false, fun addr _ _ => addr ≠ 7⟩
    let calls : List AmCall := [⟨env, 10, 4, .read 0⟩, ⟨env, 10, 4, .getInfo 100⟩, ⟨env, 10, 4, .write 0⟩,
      ⟨env, 10, 4, .setAttributes 7⟩, ⟨env, 10, 4, .delete⟩]
    assetPolicyDb.grants 10 4 sstPermWrite = false ∧
    ∀ (σ : Type) (layer : ObjectLayer σ) (stored : σ → UInt32 → Option Asset),
      layer.Confined stored → ∀ s : AmState σ,
        stored (runAm assetPolicyDb layer true calls s).2.store 4 = stored s.store 4 := by
  intro env calls
  have hwrite : assetPolicyDb.grants 10 4 sstPermWrite = false := by decide
  refine ⟨hwrite, (unchanged_iff_no_setAttributes hwrite (by simp [calls, env, AmCall.OnBehalfOf])).mpr ?_⟩
  rintro c hc ⟨attrs, hf, -, hptr, -⟩
  simp only [calls, List.mem_cons, List.not_mem_nil, or_false] at hc
  rcases hc with rfl | rfl | rfl | rfl | rfl <;> cases hf
  exact absurd hptr (by decide)

/-- The application with id 9 may only refer to asset 4 (an AES key), not write it. -/
theorem reference_suffices_to_set_attributes :
    let mem : Memory := fun a => if a = 16 then 1 else 0
    let assets : AssetMap := fun v => if v = 4 then some ⟨0x04000001, 24, [1, 2], noAttrs⟩ else none
    let call : AmCall := ⟨⟨false, fun _ _ _ => true⟩, 9, 4, .setAttributes 0⟩
    assetPolicyDb.grants 9 4 sstPermWrite = false ∧ call.OnBehalfOf 9 ∧
    (runAm assetPolicyDb AssetMap.call true [call] ⟨mem, assets⟩).2.store 4 ≠ assets 4 := by
  refine ⟨by decide, ⟨rfl, fun h => by cases h⟩, ?_⟩
  decide

/-!
## The modelled object layer

`ObjectLayer.Confined` is what is known of the object layer above. Below, it holds of the store of
assets, which the code of `sst_object_system.c` refines over every core that acts as a map.
-/

/-- The store of assets acts on the asset it is called with, and its queries on none. -/
theorem boundedCall_confined (cfg : BuildOptions) (space : Space φ) :
    ObjectLayer.Confined (AssetMap.boundedCall cfg space) Prod.fst where
  other := by
    rintro call ⟨m, rest⟩ v hv
    -- every call updates the map at its own asset, or leaves it
    cases call <;> simp only [AssetMap.boundedCall, AssetMap.boundedCall.unlimited, AssetMap.call] <;>
      (repeat' split) <;> first | rfl | exact Function.update_of_ne hv ..
  query := by
    rintro call ⟨m, rest⟩ v hquery
    cases call <;> first | cases hquery | skip
    all_goals
      simp only [AssetMap.boundedCall, AssetMap.boundedCall.unlimited, AssetMap.call]
      (repeat' split) <;> rfl

/-- **The assets of the modelled object layer.** A run of the asset management over the object layer, on
behalf of an application that is no writer of `u` and with no call that may set the attributes of `u`,
ends in a state that stands for a map of assets with the same `u`. -/
theorem represents_runAm {cfg : Config} {core : CoreInterface (StateM σ)} {space : Space φ}
    {objects : σ → ObjectMap UInt32} {free : σ → φ} (hcore : core.ActsAsMap space objects free)
    (hcrypto : cfg.encryption = true → cfg.crypto.Inverse)
    (hwrite : db.grants appId u sstPermWrite = false) {calls : List AmCall}
    (hcalls : ∀ c ∈ calls, c.OnBehalfOf appId) (hset : ∀ c ∈ calls, ¬ c.MaySetAttributes db u)
    {s : AmState (ObjectStatics × σ)} {m : AssetMap}
    (hs : Represents cfg m s.store.1 (objects s.store.2)) :
    let s' := (runAm db (objectLayer cfg.toBuildOptions core) cfg.enablePartialAssetRw calls s).2
    ∃ m', Represents cfg m' s'.store.1 (objects s'.store.2) ∧ m' u = m u := by
  intro s'
  have hstands : StandsFor cfg objects free s.store (m, free s.store.2) := ⟨hs, rfl⟩
  obtain ⟨-, -, hend⟩ := StandsFor.runAm hcore hcrypto db calls (t := ⟨s.mem, (m, free s.store.2)⟩) rfl
    hstands
  exact ⟨_, hend.1, stored_runAm (boundedCall_confined cfg.toBuildOptions space) hwrite hcalls hset
    ⟨s.mem, (m, free s.store.2)⟩⟩

end Tfm.Sst
