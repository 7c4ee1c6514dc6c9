import TrustedFirmware.Sst.Properties.AccessControl
import TrustedFirmware.Sst.Properties.ByteArrays

/-!
# Secure storage — who can see an asset

The data bytes of an asset stay hidden from an application that may not read it, in the sense of two
runs: stores that differ in those bytes only cannot be told apart, whatever the application calls.

The argument has three steps.

* `AgreeExcept.run` and `AgreeExcept.runAm` — over an object layer that looks at the data bytes of an
  asset for reads of it only (`ObjectLayer.Contract`), a run by an application that may not read `u`
  returns the same from both stores. A read of `u` does not pass the checks.
* `boundedCall_contract` — the store of assets is such a layer. A partial write keeps bytes of `u` that it
  never shows; a creation looks at the free space, not at what other assets hold.
* `runAm_agree_of_not_reader` — `sst_object_system.c` refines the store of assets, over every core that
  acts as a map. Its static buffers hold bytes of `u` between two calls; the refinement says that no later
  call shows them.
-/

namespace Tfm.Sst

variable {db : PolicyDb} {σ φ : Type} {layer : ObjectLayer σ} {stored : σ → UInt32 → Option Asset}
  {appId u : UInt32}

/-! ## Layers that are blind for data

What is asked of an object layer, and two runs over it side by side. -/

/-- The object layer acts only on the asset it is called with. What it returns, the next state of
that asset and the free space depend on the asset and on the free space only; except for reads of
its data, they do not depend on the data bytes. -/
structure ObjectLayer.Contract (layer : ObjectLayer σ) (stored : σ → UInt32 → Option Asset)
    (free : σ → φ) : Prop where
  other : ∀ call s v, v ≠ call.uuid → stored (layer call s).2 v = stored s v
  determined : ∀ call s s', stored s call.uuid = stored s' call.uuid → free s = free s' →
    (layer call s).1 = (layer call s').1 ∧
      stored (layer call s).2 call.uuid = stored (layer call s').2 call.uuid ∧
      free (layer call s).2 = free (layer call s').2
  blind : ∀ call s s', call.isRead = false →
    (stored s call.uuid).map Asset.shape = (stored s' call.uuid).map Asset.shape →
    free s = free s' →
    (layer call s).1 = (layer call s').1 ∧
      (stored (layer call s).2 call.uuid).map Asset.shape
        = (stored (layer call s').2 call.uuid).map Asset.shape ∧
      free (layer call s).2 = free (layer call s').2

/-- Two stores that differ at most in the data bytes of `u`. -/
structure AgreeExcept (stored : σ → UInt32 → Option Asset) (free : σ → φ) (u : UInt32) (s s' : σ) :
    Prop where
  other : ∀ v ≠ u, stored s v = stored s' v
  shape : (stored s u).map Asset.shape = (stored s' u).map Asset.shape
  free : free s = free s'

variable {free : σ → φ} {s s' : AmState σ}

/-- A call of the object layer that does not read `u` cannot tell the stores apart. -/
theorem AgreeExcept.callLayer (hlayer : layer.Contract stored free)
    (h : AgreeExcept stored free u s.store s'.store) (hmem : s.mem = s'.mem) {call : ObjectCall}
    (hread : call.uuid = u → call.isRead = false) (out : Option OutputBuf) :
    (s.callLayer layer call out).1 = (s'.callLayer layer call out).1 ∧
    (s.callLayer layer call out).2.mem = (s'.callLayer layer call out).2.mem ∧
    AgreeExcept stored free u (s.callLayer layer call out).2.store
      (s'.callLayer layer call out).2.store := by
  have hagree : (layer call s.store).1 = (layer call s'.store).1 ∧
      AgreeExcept stored free u (layer call s.store).2 (layer call s'.store).2 := by
    -- a call on `u`, which sees its shape, or on an asset that is the same in both
    by_cases hu : call.uuid = u
    · subst hu
      obtain ⟨hres, hshape, hfree⟩ := hlayer.blind call s.store s'.store (hread rfl) h.shape h.free
      refine ⟨hres, fun v hv => ?_, hshape, hfree⟩
      rw [hlayer.other call _ v hv, hlayer.other call _ v hv]
      exact h.other v hv
    · obtain ⟨hres, hstored, hfree⟩ :=
        hlayer.determined call s.store s'.store (h.other _ hu) h.free
      refine ⟨hres, fun v hv => ?_, ?_, hfree⟩
      · by_cases hvc : v = call.uuid
        · rw [hvc]
          exact hstored
        · rw [hlayer.other call _ v hvc, hlayer.other call _ v hvc]
          exact h.other v hv
      · rw [hlayer.other call _ u (Ne.symm hu), hlayer.other call _ u (Ne.symm hu)]
        exact h.shape
  rw [AmState.store_callLayer, AmState.store_callLayer]
  refine ⟨?_, ?_, hagree.2⟩
  · rw [AmState.fst_callLayer, AmState.fst_callLayer, hagree.1]
  · rw [AmState.mem_callLayer, AmState.mem_callLayer, hagree.1, hmem]

/-- One call by a non-secure application that may not read `u`: it is refused in both runs, or it is the
same call of the object layer in both, and no read of `u`. -/
theorem AgreeExcept.run (partialAssetRw : Bool) (hlayer : layer.Contract stored free)
    (hgrants : db.grants appId u sstPermRead = false) {c : AmCall} (happ : c.appId = appId)
    (hns : c.env.secureCaller = false) (h : AgreeExcept stored free u s.store s'.store)
    (hmem : s.mem = s'.mem) :
    (c.run db layer partialAssetRw s).1 = (c.run db layer partialAssetRw s').1 ∧
    (c.run db layer partialAssetRw s).2.mem = (c.run db layer partialAssetRw s').2.mem ∧
    AgreeExcept stored free u (c.run db layer partialAssetRw s).2.store
      (c.run db layer partialAssetRw s').2.store := by
  rw [c.run_eq, c.run_eq, ← hmem]
  rcases hforward : c.forward db partialAssetRw s.mem with e | ⟨call, out⟩
  · -- refused: the checks depend on the memory, not on the store
    exact ⟨rfl, hmem, h⟩
  · refine h.callLayer hlayer hmem (fun hu => ?_) out
    cases hread : call.isRead with
    | false => rfl
    | true =>
      -- a read of `u` has passed the check for `SST_PERM_READ`, which the database does not grant
      have hentry := c.entry_of_read hforward hread
      rw [hns, happ, ← c.uuid_forward hforward, hu] at hentry
      by_cases hs : appId = sAppId
      · rw [hs, sstAmGetDbEntry_spoofed] at hentry
        cases hentry
      · rw [sstAmGetDbEntry_isSome_ns hs (by decide) (by decide), hgrants] at hentry
        cases hentry

/-- A sequence of such calls, by induction on the sequence. -/
theorem AgreeExcept.runAm (partialAssetRw : Bool) (hlayer : layer.Contract stored free)
    (hgrants : db.grants appId u sstPermRead = false) {calls : List AmCall}
    (hcalls : ∀ c ∈ calls, c.appId = appId ∧ c.env.secureCaller = false)
    (hmem : s.mem = s'.mem) (h : AgreeExcept stored free u s.store s'.store) :
    (Sst.runAm db layer partialAssetRw calls s).1 = (Sst.runAm db layer partialAssetRw calls s').1 ∧
    (Sst.runAm db layer partialAssetRw calls s).2.mem
      = (Sst.runAm db layer partialAssetRw calls s').2.mem ∧
    AgreeExcept stored free u (Sst.runAm db layer partialAssetRw calls s).2.store
      (Sst.runAm db layer partialAssetRw calls s').2.store := by
  induction calls generalizing s s' with
  | nil => exact ⟨rfl, hmem, h⟩
  | cons c calls ih =>
    obtain ⟨happ, hns⟩ := hcalls c List.mem_cons_self
    obtain ⟨hres, hmem', hstep⟩ := h.run partialAssetRw hlayer hgrants happ hns hmem
    obtain ⟨hrest, hmem'', hagree⟩ :=
      ih (fun c hc => hcalls c (List.mem_cons_of_mem _ hc)) hmem' hstep
    refine ⟨?_, hmem'', hagree⟩
    show (c.run db layer partialAssetRw s).1 :: _ = (c.run db layer partialAssetRw s').1 :: _
    rw [hres]
    exact congrArg (List.cons _) hrest

/-! ## The store of assets is blind for data

Case by case over the calls: what is returned and what is left depend on the shape of an asset. -/

/-- Overlaying bytes within an asset or at its end keeps shapes equal. -/
theorem Asset.shape_overlay {a a' : Asset} (h : a.shape = a'.shape) {offset : Nat}
    (hoffset : offset ≤ a.data.length) (data : List UInt8) :
    Asset.shape { a with data := ObjectMap.overlay a.data offset data } =
      Asset.shape { a' with data := ObjectMap.overlay a'.data offset data } := by
  simp only [Asset.shape, Asset.info, AssetShape.mk.injEq, AssetInfo.mk.injEq] at h ⊢
  obtain ⟨⟨htype, hlen, hmax⟩, hattrs⟩ := h
  rw [ObjectMap.length_overlay hoffset, ObjectMap.length_overlay (hlen ▸ hoffset), hlen]
  exact ⟨⟨htype, rfl, hmax⟩, hattrs⟩

/-- Assets of one shape have the same information, attributes and length. -/
theorem Asset.of_shape {a a' : Asset} (h : a.shape = a'.shape) :
    a.info = a'.info ∧ a.attrs = a'.attrs ∧ a.data.length = a'.data.length ∧ a.sizeMax = a'.sizeMax :=
  have hinfo : a.info = a'.info := congrArg AssetShape.info h
  ⟨hinfo, congrArg AssetShape.attrs h, congrArg AssetInfo.sizeCurrent hinfo, congrArg AssetInfo.sizeMax hinfo⟩

/-- **Except for reads, the store of assets does not look at data**: from assets of one shape, and the same
free space, a call returns the same and leaves assets of one shape again. -/
theorem boundedCall_blind (cfg : BuildOptions) (space : Space φ) {call : ObjectCall} {m m' : AssetMap}
    (rest : φ) (hread : call.isRead = false)
    (h : (m call.uuid).map Asset.shape = (m' call.uuid).map Asset.shape) :
    let o := AssetMap.boundedCall cfg space call (m, rest)
    let o' := AssetMap.boundedCall cfg space call (m', rest)
    o.1 = o'.1 ∧ (o.2.1 call.uuid).map Asset.shape = (o'.2.1 call.uuid).map Asset.shape
      ∧ o.2.2 = o'.2.2 := by
  intro o o'
  -- the asset exists in both stores or in neither
  cases hm : m call.uuid with
  | none =>
    rw [hm] at h
    have hm' : m' call.uuid = none := Option.map_eq_none_iff.mp h.symm
    cases call with
    | create uuid type size =>
      simp only [ObjectCall.uuid] at hm hm'
      simp only [o, o', AssetMap.boundedCall, hm, hm', ObjectCall.uuid]
      cases space.reserve rest uuid (cfg.objectHeaderSize + size) <;> simp [hm, hm']
    | _ =>
      simp only [ObjectCall.uuid] at hm hm'
      simp [o, o', AssetMap.boundedCall, AssetMap.boundedCall.unlimited, AssetMap.call, hm, hm',
        ObjectCall.uuid]
  | some a =>
    rw [hm] at h
    obtain ⟨a', hm', hshape⟩ := Option.map_eq_some_iff.mp h.symm
    obtain ⟨hinfo, hattrs, hlen, hmax⟩ := Asset.of_shape hshape
    cases call with
    | read uuid offset size => cases hread
    | write uuid data offset =>
      simp only [ObjectCall.uuid] at hm hm'
      simp only [o, o', AssetMap.boundedCall, hm, hm', hlen, hmax, ObjectCall.uuid]
      -- the checks of a write look at sizes only
      by_cases hgap : a.data.length < offset
      · simp [hgap, hm, hm', hshape]
      by_cases hbuf : cfg.maxAssetSize < offset + data.length
      · simp [hgap, hbuf, hm, hm', hshape]
      by_cases hsize : a.sizeMax < offset + data.length
      · simp [hgap, hbuf, hsize, hm, hm', hshape]
      · -- a partial write: the bytes around it are kept, and may differ
        have hoverlay := Asset.shape_overlay hshape.symm (Nat.le_of_not_lt hgap) data
        simp [hgap, hbuf, hsize, hoverlay, hmax]
    | setAttributes uuid attrs =>
      simp only [ObjectCall.uuid] at hm hm'
      have hshape' : Asset.shape { a with attrs := attrs } = Asset.shape { a' with attrs := attrs } :=
        congrArg (fun info => AssetShape.mk info attrs) hinfo.symm
      simp [o, o', AssetMap.boundedCall, AssetMap.boundedCall.unlimited, AssetMap.call, hm, hm',
        ObjectCall.uuid, hshape']
    | _ =>
      simp only [ObjectCall.uuid] at hm hm'
      simp [o, o', AssetMap.boundedCall, AssetMap.boundedCall.unlimited, AssetMap.call, hm, hm',
        ObjectCall.uuid, hshape, hinfo, hattrs]

/-- The store of assets keeps the contract. -/
theorem boundedCall_contract (cfg : BuildOptions) (space : Space φ) :
    ObjectLayer.Contract (AssetMap.boundedCall cfg space) Prod.fst Prod.snd where
  other := (boundedCall_confined cfg space).other
  determined := by
    -- a call looks up its own asset and nothing else
    rintro call ⟨m, rest⟩ ⟨m', -⟩ h rfl
    dsimp only at h
    refine ⟨?_, ?_, ?_⟩ <;> cases call <;> simp only [ObjectCall.uuid] at h <;>
      simp only [AssetMap.boundedCall, AssetMap.boundedCall.unlimited, AssetMap.call, h] <;>
      (repeat' split) <;> simp_all [ObjectCall.uuid]
  blind := by
    rintro call ⟨m, rest⟩ ⟨m', -⟩ hread h rfl
    exact boundedCall_blind cfg space rest hread h

/-! ## The modelled object layer

From the store of assets to the code, by the refinement. -/

/-- **Two states of the object layer that differ at most in the data bytes of `u`**: they stand for maps
of assets with the same assets but for `u`, the same existence, sizes and attributes of `u`, and the same
free space. Nothing is said of the static buffers, nor of how the core stores the assets. -/
def StoresAgreeExcept (cfg : Config) (objects : σ → ObjectMap UInt32) (free : σ → φ) (u : UInt32)
    (s s' : ObjectStatics × σ) : Prop :=
  ∃ m m', Represents cfg m s.1 (objects s.2) ∧ Represents cfg m' s'.1 (objects s'.2) ∧
    (∀ v ≠ u, m v = m' v) ∧ (m u).map Asset.shape = (m' u).map Asset.shape ∧ free s.2 = free s'.2

/-- What a non-secure application that may not read `u` gets from any sequence of calls does not depend
on the data bytes of `u`: over the object layer of `sst_object_system.c`, two stores that differ in them
only return the same results, write the same bytes to memory, and still differ in those bytes only. -/
theorem runAm_agree_of_not_reader {cfg : Config} {core : CoreInterface (StateM σ)} {space : Space φ}
    {objects : σ → ObjectMap UInt32} {free : σ → φ} (hcore : core.ActsAsMap space objects free)
    (hcrypto : cfg.encryption = true → cfg.crypto.Inverse)
    (hgrants : db.grants appId u sstPermRead = false) {calls : List AmCall}
    (hcalls : ∀ c ∈ calls, c.appId = appId ∧ c.env.secureCaller = false)
    {s s' : AmState (ObjectStatics × σ)} (hmem : s.mem = s'.mem)
    (h : StoresAgreeExcept cfg objects free u s.store s'.store) :
    let o := runAm db (objectLayer cfg.toBuildOptions core) cfg.enablePartialAssetRw calls s
    let o' := runAm db (objectLayer cfg.toBuildOptions core) cfg.enablePartialAssetRw calls s'
    o.1 = o'.1 ∧ o.2.mem = o'.2.mem ∧ StoresAgreeExcept cfg objects free u o.2.store o'.2.store := by
  intro o o'
  obtain ⟨m, m', hm, hm', hother, hshape, hfree⟩ := h
  -- both runs, seen as runs over the store of assets
  obtain ⟨hres, hmem₁, hend⟩ := StandsFor.runAm hcore hcrypto db calls
    (t := ⟨s.mem, (m, free s.store.2)⟩) rfl ⟨hm, rfl⟩
  obtain ⟨hres', hmem₁', hend'⟩ := StandsFor.runAm hcore hcrypto db calls
    (t := ⟨s'.mem, (m', free s'.store.2)⟩) rfl ⟨hm', rfl⟩
  have hstart : AgreeExcept Prod.fst Prod.snd u (m, free s.store.2) (m', free s'.store.2) :=
    ⟨hother, hshape, hfree⟩
  have hmem₀ : (AmState.mk s.mem (m, free s.store.2)).mem = (AmState.mk s'.mem (m', free s'.store.2)).mem :=
    hmem
  obtain ⟨hagree, hagreeMem, hagreeEnd⟩ := AgreeExcept.runAm cfg.enablePartialAssetRw
    (boundedCall_contract cfg.toBuildOptions space) hgrants hcalls hmem₀ hstart
  refine ⟨hres.trans (hagree.trans hres'.symm), hmem₁.trans (hagreeMem.trans hmem₁'.symm), ?_⟩
  exact ⟨_, _, hend.1, hend'.1, hagreeEnd.other, hagreeEnd.shape,
    hend.2.trans (hagreeEnd.free.trans hend'.2.symm)⟩

/-- Space for a number of objects. -/
def Space.slots : Space Nat :=
  ⟨fun rest _ _ => if rest = 0 then .error .storageSystemFull else .ok (rest - 1), fun rest _ => rest + 1⟩

/-- Asset 12 of the policy database when it is new. -/
def newHash : Asset := ⟨0x02000001, 48, [], noAttrs⟩

/-- The image of the asset with a hash of two bytes, in the encrypted build. -/
def hashImage (a b : UInt8) : List UInt8 :=
  bufBytes (writtenImage encryptedConfig newHash
    (sstObjectInitObject encryptedConfig.toBuildOptions 12 newHash.type newHash.sizeMax) [a, b] 0)
    (encryptedConfig.objectHeaderSize + 2)

/-- The image is that of an asset with these two bytes. -/
theorem stored_hashImage (a b : UInt8) :
    Stored encryptedConfig { newHash with data := [a, b] } (hashImage a b) := by
  have hnew : Holds encryptedConfig newHash
      (sstObjectInitObject encryptedConfig.toBuildOptions 12 newHash.type newHash.sizeMax) :=
    holds_initObject 12 (by decide) (by decide)
  have hbuf : 0 + [a, b].length ≤ encryptedConfig.maxAssetSize := by
    show 0 + 2 ≤ 8
    decide
  have hholds : Holds encryptedConfig { newHash with data := [a, b] } (writtenImage encryptedConfig newHash
      (sstObjectInitObject encryptedConfig.toBuildOptions 12 newHash.type newHash.sizeMax) [a, b] 0) :=
    hnew.write (Nat.zero_le _) (Nat.zero_le _) hbuf
  refine stored_bufBytes hholds.toHoldsHeader (fun _ => hholds.data) fun _ => ?_
  exact congrArg Except.ok hholds.data

/-- A store that holds the hash alone, with space for one more object. The static buffers are full of the
first byte of the hash. -/
def hashStore (a b : UInt8) : ObjectStatics × CoreMap × Nat :=
  (⟨true, .replicate encryptedConfig.objectBufSize a, .replicate encryptedConfig.maxAssetSize a⟩,
    ⟨fun v => if v = 12 then some ⟨encryptedConfig.objectHeaderSize + 48, hashImage a b⟩ else none,
      .replicate 12 0⟩, 1)

theorem hashStore_free (a b : UInt8) : (hashStore a b).2.2 = 1 := rfl

theorem hashStore_represents (a b : UInt8) :
    Represents encryptedConfig (fun v => if v = 12 then some { newHash with data := [a, b] } else none)
      (hashStore a b).1 (hashStore a b).2.1.objects := by
  refine ⟨⟨rfl, List.length_replicate, List.length_replicate⟩, fun v hv => ?_, fun v asset hv => ?_⟩
  · -- there is no object but 12
    by_cases hv12 : v = 12
    · simp [hv12] at hv
    · simp [hashStore, hv12]
  · by_cases hv12 : v = 12
    · subst hv12
      simp only [if_true, Option.some.injEq] at hv
      subst hv
      refine ⟨⟨?_, ?_, ?_, ?_⟩, hashImage a b, rfl, stored_hashImage a b⟩
      · show 0x02000001 < 2 ^ 32
        decide
      · show 2 ≤ 48
        decide
      · show 2 ≤ 8
        decide
      · show 72 + 48 < 2 ^ 32
        decide
    · simp [hv12] at hv

/-- Application 11 may write asset 12 of the database, but not read it: it tries to read, asks for the size,
overwrites the second byte, creates asset 10 and then asset 4. -/
def writerCalls : List AmCall :=
  [.read 200, .getInfo 100, .write 200].map (AmCall.mk ⟨false, fun _ _ _ => true⟩ 11 12) ++
    [10, 4].map (AmCall.mk ⟨false, fun _ _ _ => true⟩ 11 · .create)

/-- All calls are non-secure calls of application 11. -/
theorem calls_of_writer : ∀ c ∈ writerCalls, c.appId = 11 ∧ c.env.secureCaller = false := by
  simp [writerCalls]

/-- The buffer that the calls describe at address 200: one byte at address 0, for offset 1. -/
def writerMemory : Memory := fun addr => if addr = 204 ∨ addr = 208 then 1 else 0

/-- The run of the calls from the store that holds the hash `a`, `b`. -/
def writerRun (a b : UInt8) : List (Except SstErr Unit) × AmState (ObjectStatics × CoreMap × Nat) :=
  runAm assetPolicyDb (objectLayer encryptedConfig.toBuildOptions (spacedCore .slots))
    encryptedConfig.enablePartialAssetRw writerCalls ⟨writerMemory, hashStore a b⟩

theorem identityCipher_inverse : identityCipher.Inverse :=
  ⟨rfl, fun _ _ _ => ⟨_, _, rfl, rfl, rfl⟩⟩

/-- The results are those of the store of assets. -/
theorem writerRun_results :
    (writerRun 1 2).1
      = [.error .assetNotFound, .ok (), .ok (), .ok (), .error .storageSystemFull] := by
  have hstore : StandsFor encryptedConfig (fun c : CoreMap × Nat => c.1.objects) Prod.snd (hashStore 1 2)
      (_, 1) := ⟨hashStore_represents 1 2, hashStore_free 1 2⟩
  have hresults := (StandsFor.runAm (spacedCore_actsAsMap Space.slots) (fun _ => identityCipher_inverse)
    assetPolicyDb writerCalls (s := ⟨writerMemory, hashStore 1 2⟩) (t := ⟨writerMemory, _⟩) rfl hstore).1
  rw [writerRun, hresults]
  decide +kernel

/-- Two stores that hold different hashes give application 11 the same: it may not read, and it has no
space for the second asset it creates. -/
theorem runAm_agree_of_writer :
    hashImage 1 2 ≠ hashImage 3 4 ∧
    (writerRun 1 2).1 = [.error .assetNotFound, .ok (), .ok (), .ok (), .error .storageSystemFull] ∧
    (writerRun 1 2).1 = (writerRun 3 4).1 ∧
    (writerRun 1 2).2.mem = (writerRun 3 4).2.mem ∧
    StoresAgreeExcept encryptedConfig (fun c : CoreMap × Nat => c.1.objects) Prod.snd 12
      (writerRun 1 2).2.store (writerRun 3 4).2.store := by
  have hagree : StoresAgreeExcept encryptedConfig (fun c : CoreMap × Nat => c.1.objects) Prod.snd 12
      (hashStore 1 2) (hashStore 3 4) :=
    ⟨_, _, hashStore_represents 1 2, hashStore_represents 3 4, fun v hv => by simp [hv], rfl,
      (hashStore_free 1 2).trans (hashStore_free 3 4).symm⟩
  have hgrants : assetPolicyDb.grants 11 12 sstPermRead = false := by decide
  -- the two images stand for different assets
  have hne : hashImage 1 2 ≠ hashImage 3 4 := by
    intro heq
    have hstored := stored_hashImage 3 4
    rw [← heq] at hstored
    have hdata : ([1, 2] : List UInt8) = [3, 4] := congrArg Asset.data ((stored_hashImage 1 2).unique hstored)
    exact absurd hdata (by decide)
  have hmem : (AmState.mk writerMemory (hashStore 1 2)).mem = (AmState.mk writerMemory (hashStore 3 4)).mem :=
    rfl
  have hrun := runAm_agree_of_not_reader (spacedCore_actsAsMap Space.slots)
    (fun _ => identityCipher_inverse) hgrants calls_of_writer hmem hagree
  refine ⟨hne, writerRun_results, ?_⟩
  unfold writerRun
  exact hrun

end Tfm.Sst
