import TrustedFirmware.Sst.Proofs.AssetStore
import TrustedFirmware.Sst.Properties.LayoutInvariant

/-!
# Assets behave as byte arrays at the object layer

Over a core that is a map from ids to bounded byte strings, the object layer refines the map of
assets (`AssetMap.call`) in the plain and in the encrypted build
(**`objects_behave_as_byte_arrays`**). The refinement is that of the store of assets
(`Represents.call`): for calls that keep to the sizes, a store with space for every object refuses
nothing (`AssetMap.boundedCall_of_inBounds`).
-/

namespace Tfm.Sst

/-! ## Calls that keep to the sizes

The map of assets knows no limits but the maximum size of each asset. The object layer has a buffer,
and fails where an asset does not fit in it. -/

/-- The sizes that a call may ask for: an asset is created within the buffer, and written within its
maximum size. -/
def ObjectCall.InBounds (cfg : Config) (m : AssetMap) : ObjectCall → Prop
  | .create _ type size => type < 2 ^ 32 ∧ size ≤ cfg.maxAssetSize
  | .write uuid data offset => ∀ a, m uuid = some a → offset + data.length ≤ a.sizeMax
  | _ => True

/-- No asset has a maximum size beyond the buffer. -/
def AssetMap.WithinBuffer (cfg : Config) (m : AssetMap) : Prop :=
  ∀ u a, m u = some a → a.sizeMax ≤ cfg.maxAssetSize

section Bounds

variable {cfg : Config} {m : AssetMap} {call : ObjectCall}

/-- Such calls keep to what the object layer expects of its callers. -/
theorem ObjectCall.InBounds.admissible (h : call.InBounds cfg m) (hrw : cfg.enablePartialAssetRw = true) :
    call.Admissible cfg.toBuildOptions := by
  cases call with
  | create uuid type size =>
    have hlt := headerSize_add_maxAssetSize_lt cfg
    obtain ⟨htype, hsize⟩ := h
    exact ⟨htype, by omega⟩
  | read uuid offset size => exact .inl hrw
  | write uuid data offset => exact .inl hrw
  | _ => trivial

/-- A new asset within the buffer keeps all of them within it. -/
theorem AssetMap.WithinBuffer.update (h : m.WithinBuffer cfg) {u : UInt32} {o : Option Asset}
    (ho : ∀ a, o = some a → a.sizeMax ≤ cfg.maxAssetSize) :
    AssetMap.WithinBuffer cfg (Function.update m u o) := by
  intro v a hv
  by_cases hvu : v = u
  · subst hvu
    rw [Function.update_self] at hv
    exact ho a hv
  · rw [Function.update_of_ne hvu] at hv
    exact h v a hv

/-- Maximum sizes are set by creations only. -/
theorem AssetMap.WithinBuffer.after_call (h : m.WithinBuffer cfg) (hbounds : call.InBounds cfg m) :
    (AssetMap.call call m).2.WithinBuffer cfg := by
  -- a write or new attributes keep the maximum size of their asset
  cases call with
  | create uuid type size =>
    cases hm : m uuid with
    | some a => simpa [AssetMap.call, hm] using h
    | none =>
      simp only [AssetMap.call, hm]
      refine h.update fun a ha => ?_
      cases ha
      exact hbounds.2
  | write uuid data offset =>
    cases hm : m uuid with
    | none => simpa [AssetMap.call, hm] using h
    | some a =>
      simp only [AssetMap.call, hm]
      split
      · exact h
      · refine h.update fun b hb => ?_
        cases hb
        exact h uuid a hm
  | setAttributes uuid attrs =>
    cases hm : m uuid with
    | none => simpa [AssetMap.call, hm] using h
    | some a =>
      simp only [AssetMap.call, hm]
      refine h.update fun b hb => ?_
      cases hb
      exact h uuid a hm
  | delete uuid =>
    cases hm : m uuid with
    | none => simpa [AssetMap.call, hm] using h
    | some a =>
      simp only [AssetMap.call, hm]
      exact h.update fun b hb => by cases hb
  | read uuid offset size =>
    cases hm : m uuid with
    | none => simpa [AssetMap.call, hm] using h
    | some a =>
      simp only [AssetMap.call, hm]
      split <;> exact h
  | getInfo uuid => cases hm : m uuid <;> simpa [AssetMap.call, hm] using h
  | getAttributes uuid => cases hm : m uuid <;> simpa [AssetMap.call, hm] using h

/-- **Nothing is refused** for lack of space or for its size. -/
theorem AssetMap.boundedCall_of_inBounds (h : m.WithinBuffer cfg) (hbounds : call.InBounds cfg m) :
    AssetMap.boundedCall cfg.toBuildOptions .unlimited call (m, ())
      = ((AssetMap.call call m).1, ((AssetMap.call call m).2, ())) := by
  cases call with
  | create uuid type size => cases hm : m uuid <;> simp [boundedCall, AssetMap.call, hm, Space.unlimited]
  | write uuid data offset =>
    cases hm : m uuid with
    | none => simp [boundedCall, AssetMap.call, hm]
    | some a =>
      -- the two checks that the map does not make
      have hsize := hbounds a hm
      have hmax := h uuid a hm
      simp only [boundedCall, AssetMap.call, hm]
      split
      · rfl
      · rw [if_neg (by omega), if_neg (by omega)]
  | delete uuid => cases hm : m uuid <;> simp [boundedCall, AssetMap.call, hm, Space.unlimited]
  | _ => rfl

end Bounds

/-! ## Runs

Only the results are compared: the map is the state on one side, the statics and the core on the
other. -/

/-- The results of some calls on the map of assets. -/
def AssetMap.run : List ObjectCall → AssetMap → List (Except SstErr (List UInt8))
  | [], _ => []
  | call :: calls, m => (AssetMap.call call m).1 :: AssetMap.run calls (AssetMap.call call m).2

/-- The results of some calls of the object layer over a core that is a map. -/
def runObjects (cfg : Config) : List ObjectCall → ObjectStatics → CoreMap →
    List (Except SstErr (List UInt8))
  | [], _, _ => []
  | call :: calls, st, c =>
    let o := sstObjectCall cfg.toBuildOptions mapCore call st c
    o.1.1 :: runObjects cfg calls o.1.2 o.2

/-- Every call of the run keeps to the sizes. -/
def RunInBounds (cfg : Config) : List ObjectCall → AssetMap → Prop
  | [], _ => True
  | call :: calls, m => call.InBounds cfg m ∧ RunInBounds cfg calls (AssetMap.call call m).2

/-- From a state that stands for some assets, the results of a run are those of the map: each call
returns what the map returns, and the state it leaves stands for the next map. -/
theorem Represents.run {cfg : Config} (hcrypto : cfg.encryption = true → cfg.crypto.Inverse)
    (hrw : cfg.enablePartialAssetRw = true) {calls : List ObjectCall} {m : AssetMap}
    {st : ObjectStatics} {c : CoreMap} (h : Represents cfg m st c.objects) (hm : m.WithinBuffer cfg)
    (hbounds : RunInBounds cfg calls m) :
    runObjects cfg calls st c = AssetMap.run calls m := by
  -- on the calls, along with the map they have led to
  induction calls generalizing m st c with
  | nil => rfl
  | cons call calls ih =>
    have hstep := h.call mapCore_actsAsMap hcrypto (hbounds.1.admissible hrw)
    rw [AssetMap.boundedCall_of_inBounds hm hbounds.1] at hstep
    obtain ⟨st', c', hperf, hrep, -⟩ := hstep
    have hrest := ih hrep (hm.after_call hbounds.1) hbounds.2
    unfold Performs at hperf
    rw [runObjects, AssetMap.run, hperf, ← hrest]

/-- Assets behave as byte arrays, in the plain and in the encrypted build: over a core that is a map, from
an empty store and with whatever the static buffers hold, all calls give the results of the map of
assets. -/
theorem objects_behave_as_byte_arrays (cfg : Config) (hrw : cfg.enablePartialAssetRw = true)
    (hcrypto : cfg.encryption = true → cfg.crypto.Inverse) (st : ObjectStatics) (hst : StaticsFit cfg st)
    (iv : Vector UInt8 12) (calls : List ObjectCall) (hbounds : RunInBounds cfg calls fun _ => none) :
    runObjects cfg calls st ⟨fun _ => none, iv⟩ = AssetMap.run calls fun _ => none :=
  Represents.run hcrypto hrw ⟨hst, fun _ _ => rfl, fun _ _ h => nomatch h⟩ (fun _ _ h => nomatch h) hbounds

/-- A cipher that leaves the text as it is. -/
def identityCipher : CryptoLib :=
  ⟨.ok (), fun _ _ input => .ok (.replicate 16 0, input), fun _ _ input _ => .ok input⟩

/-- An encrypted build for two assets of up to eight bytes. -/
def encryptedConfig : Config where
  totalNumOfBlocks := 4
  blockSize := 160
  numAssets := 2
  maxAssetSize := 8
  flashProgramUnit := 1
  encryption := true
  validateMetadataFromFlash := true
  enablePartialAssetRw := true
  crypto := identityCipher
  blocks_ok := smallConfig.blocks_ok
  unit_ok := smallConfig.unit_ok
  largest_asset_fits := by decide
  asset_fits_in_data_area := by decide
  metadata_fits := by decide
  area_addressable := by decide

/-- Two assets in turn: a write that extends one, a write that would leave a gap, a read behind the
end. -/
def interleavedCalls : List ObjectCall :=
  [.create 1 0 8, .create 2 0 3, .write 1 [1, 2, 3] 0, .write 2 [9] 0, .write 1 [7, 8] 2, .read 1 1 3,
    .write 2 [5] 2, .read 2 0 2, .read 2 0 1]

/-- In the encrypted build, with static buffers that are not clean. -/
theorem objects_behave_as_byte_arrays_interleaved :
    StaticsFit encryptedConfig ⟨true, .replicate encryptedConfig.objectBufSize 0xAA, .replicate 8 0xAA⟩
      ∧ runObjects encryptedConfig interleavedCalls
          ⟨true, .replicate encryptedConfig.objectBufSize 0xAA, .replicate 8 0xAA⟩
          ⟨fun _ => none, .replicate 12 0⟩
        = [.ok [], .ok [], .ok [], .ok [], .ok [], .ok [2, 7, 8], .error .paramError, .error .paramError,
          .ok [9]] := by
  have hst : StaticsFit encryptedConfig
      ⟨true, .replicate encryptedConfig.objectBufSize 0xAA, .replicate 8 0xAA⟩ :=
    ⟨rfl, List.length_replicate, rfl⟩
  refine ⟨hst, (objects_behave_as_byte_arrays encryptedConfig rfl
    (fun _ => ⟨rfl, fun _ _ _ => ⟨_, _, rfl, rfl, rfl⟩⟩) _ hst _ interleavedCalls ?_).trans rfl⟩
  refine ⟨⟨by decide, by decide⟩, ⟨by decide, by decide⟩, ?_, ?_, ?_, trivial, ?_, trivial, trivial, trivial⟩
  all_goals
    intro a ha
    cases ha
    decide

end Tfm.Sst
