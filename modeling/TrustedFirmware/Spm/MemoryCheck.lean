import TrustedFirmware.Spm.Runs

/-!
# Secure partition manager — the memory permission check

`tfm_core_memory_permission_check_handler` (isolation level 1) decides whether the running
partition may use a buffer. The security attribution of addresses is the hardware's: it is a
parameter of the model (`Cmse`), with what the architecture promises about it as an assumption
(`Cmse.Sound`). The comparisons with the secure data region are made in 32-bit words, and the last
one is arranged so that neither side can wrap to a wrong answer.
-/

namespace Tfm.Spm

open Word32

/-! ## The hardware

The attribution of memory by the SAU and the MPU, as the `cmse` intrinsics report it. -/

/-- `enum tfm_memory_access_e`. The argument of the call is an `int32_t`, so other values occur. -/
def tfmMemoryAccessRw : Int := 2

/-- `enum tfm_ns_region_e`, as far as the check names it. -/
def tfmNsRegionCode : Nat := 0
def tfmNsRegionData : Nat := 1

/-- The flags that are passed to `cmse_check_address_range`: `CMSE_MPU_UNPRIV`, and
`CMSE_MPU_READWRITE` or `CMSE_MPU_READ`. -/
structure MpuFlags where
  unpriv : Bool
  readWrite : Bool
  deriving DecidableEq, Repr

/-- The fields of `cmse_address_info_t` that the check reads. -/
structure AddressInfo where
  secure : Bool
  sauRegionValid : Bool
  sauRegion : Nat
  deriving DecidableEq, Repr

/-- The attribution of addresses by the hardware. -/
structure Cmse where
  /-- `cmse_check_address_range` returns a pointer that is not null. -/
  checkAddressRange : Nat → Nat → MpuFlags → Bool
  /-- `cmse_TT`. -/
  tt : Nat → AddressInfo

/-- A range that passes does not wrap, and all of it has the attributes of its first byte. -/
def Cmse.Sound (cmse : Cmse) : Prop :=
  ∀ ptr size flags, cmse.checkAddressRange ptr size flags = true →
    ptr + size ≤ 2 ^ 32 ∧ ∀ a, ptr ≤ a → a < ptr + size → cmse.tt a = cmse.tt ptr

/-- The secure data region of the platform. -/
structure DataRegion where
  sDataStart : Nat
  sDataSize : Nat
  sDataLimit : Nat

/-- `S_DATA_LIMIT` is the last address of the region. -/
structure DataRegion.Valid (region : DataRegion) : Prop where
  limit : region.sDataLimit + 1 = region.sDataStart + region.sDataSize
  limit_lt : region.sDataLimit < 2 ^ 32

/-! ## The check

The order of the tests is that of the source; the first that fails decides. -/

/-- The flags that the handler computes. -/
def memoryCheckFlags (share : BufferShare) (access : Int) : MpuFlags :=
  ⟨share ≠ .priv, access = tfmMemoryAccessRw⟩

/-- `tfm_core_memory_permission_check_handler`: the value stored in `svc_args[0]`. -/
def tfmCoreMemoryPermissionCheckHandler (cmse : Cmse) (region : DataRegion) (s : SpmState)
    (ptr size : Nat) (access : Int) : Except SpmFault TfmStatus := do
  let part ← s.getPartition s.runningPartitionIdx
  if !part.staticData.isSecure ∨ size = 0 then
    pure .errorInvalidParameter
  else
    let flags := memoryCheckFlags part.runtimeData.share access
    let addrInfo := cmse.tt ptr
    if !cmse.checkAddressRange ptr size flags then
      pure .errorInvalidParameter
    else if addrInfo.secure then
      -- level 1: a secure buffer has to lie in the secure data region
      if size ≤ region.sDataSize ∧ region.sDataStart ≤ ptr ∧
          ptr ≤ sub32 (add32 region.sDataLimit 1) size then
        pure .success
      else
        pure .errorInvalidParameter
    else if !addrInfo.sauRegionValid then
      pure .errorInvalidParameter
    else if addrInfo.sauRegion = tfmNsRegionCode then
      -- code may be read
      if access = tfmMemoryAccessRw then pure .errorInvalidParameter else pure .success
    else if addrInfo.sauRegion = tfmNsRegionData then
      pure .success
    else
      pure .errorInvalidParameter

section

variable {cmse : Cmse} {region : DataRegion} {s : SpmState} {ptr size : Nat} {access : Int}

/-! ## What the check accepts -/

/-- The bytes are those of the secure data region. -/
def InDataRegion (region : DataRegion) (ptr size : Nat) : Prop :=
  region.sDataStart ≤ ptr ∧ ptr + size ≤ region.sDataLimit + 1

/-- What the partition may use: secure data memory, non-secure data, and non-secure code if it only
reads. -/
def Accessible (cmse : Cmse) (region : DataRegion) (ptr size : Nat) (access : Int) : Prop :=
  ((cmse.tt ptr).secure = true ∧ InDataRegion region ptr size) ∨
  ((cmse.tt ptr).secure = false ∧ (cmse.tt ptr).sauRegionValid = true ∧
    ((cmse.tt ptr).sauRegion = tfmNsRegionData ∨
      (cmse.tt ptr).sauRegion = tfmNsRegionCode ∧ access ≠ tfmMemoryAccessRw))

/-- The comparisons in 32-bit words decide containment. -/
theorem rangeCheck_iff (hregion : region.Valid) (hsize : 0 < size) (hlt : size < 2 ^ 32) :
    (size ≤ region.sDataSize ∧ region.sDataStart ≤ ptr ∧
      ptr ≤ sub32 (add32 region.sDataLimit 1) size) ↔ InDataRegion region ptr size := by
  have hlimit := hregion.limit
  have hlimit_lt := hregion.limit_lt
  unfold InDataRegion
  by_cases hfits : size ≤ region.sDataSize
  · -- the end of the region may be the end of memory, where `limit + 1` wraps to zero
    have hbound : sub32 (add32 region.sDataLimit 1) size = region.sDataLimit + 1 - size := by
      unfold sub32 add32 u32
      omega
    rw [hbound]
    omega
  · omega

/-- What the handler stores when a secure partition runs. -/
theorem memoryCheck_cases (cmse : Cmse) (ptr : Nat) (access : Int) (hregion : region.Valid) (hlt : size < 2 ^ 32)
    (hrun : s.runningPartitionIdx < s.partitionCount)
    (hsecure : (s.staticData s.runningPartitionIdx).isSecure = true) :
    ∃ res, tfmCoreMemoryPermissionCheckHandler cmse region s ptr size access = .ok res ∧
      (res = .success ↔ 0 < size ∧
        cmse.checkAddressRange ptr size
          (memoryCheckFlags (s.runtimeData s.runningPartitionIdx).share access) = true ∧
        Accessible cmse region ptr size access) := by
  have hsecure' : (s.partitions s.runningPartitionIdx).staticData.isSecure = true := hsecure
  have hshare : (s.partitions s.runningPartitionIdx).runtimeData.share =
      (s.runtimeData s.runningPartitionIdx).share := rfl
  unfold tfmCoreMemoryPermissionCheckHandler
  simp only [SpmState.getPartition_of_lt hrun, bind, Except.bind, pure, Except.pure, hsecure',
    hshare]
  by_cases hsize : size = 0
  · exact ⟨.errorInvalidParameter, by simp [hsize], by simp [hsize]⟩
  have hpos : 0 < size := Nat.pos_of_ne_zero hsize
  cases hrange : cmse.checkAddressRange ptr size
      (memoryCheckFlags (s.runtimeData s.runningPartitionIdx).share access) with
  | false => exact ⟨.errorInvalidParameter, by simp [hsize], by simp⟩
  | true =>
    unfold Accessible
    -- secure memory: only the containment is left
    cases hattr : (cmse.tt ptr).secure with
    | true =>
      by_cases hin : InDataRegion region ptr size
      · exact ⟨.success, by simp [hsize, (rangeCheck_iff hregion hpos hlt).mpr hin], by simp [*]⟩
      · refine ⟨.errorInvalidParameter, ?_, by simp [hin]⟩
        rw [if_neg (by simp [hsize]), if_neg (by simp), if_pos rfl,
          if_neg (mt (rangeCheck_iff hregion hpos hlt).mp hin)]
    | false =>
      cases hvalid : (cmse.tt ptr).sauRegionValid with
      | false => exact ⟨.errorInvalidParameter, by simp [hsize], by simp⟩
      | true =>
        -- non-secure memory: the region decides
        by_cases hcode : (cmse.tt ptr).sauRegion = tfmNsRegionCode
        · have hdata : ¬ tfmNsRegionCode = tfmNsRegionData := by decide
          by_cases hrw : access = tfmMemoryAccessRw
          · exact ⟨.errorInvalidParameter, by simp [hsize, hcode, hrw], by simp [hcode, hrw, hdata]⟩
          · exact ⟨.success, by simp [hsize, hcode, hrw], by simp [hpos, hcode, hrw]⟩
        · by_cases hdata : (cmse.tt ptr).sauRegion = tfmNsRegionData
          · have hother : ¬ tfmNsRegionData = tfmNsRegionCode := by decide
            exact ⟨.success, by simp [hsize, hdata, hother], by simp [hpos, hdata]⟩
          · exact ⟨.errorInvalidParameter, by simp [hsize, hcode, hdata], by simp [hcode, hdata]⟩

/-- The check accepts only ranges that the partition may use: each byte of the range is secure and
in the secure data region, or non-secure and in a region that the access is allowed for. A secure
range that passes the hardware's check is accepted whenever it is contained in the region. -/
theorem memoryCheck_sound (hcmse : cmse.Sound) (hregion : region.Valid) (hsize : size < 2 ^ 32)
    (hrun : s.runningPartitionIdx < s.partitionCount)
    (hsecure : (s.staticData s.runningPartitionIdx).isSecure = true) :
    (tfmCoreMemoryPermissionCheckHandler cmse region s ptr size access = .ok .success →
      0 < size ∧ Accessible cmse region ptr size access ∧
      ∀ a, ptr ≤ a → a < ptr + size → a < 2 ^ 32 ∧ Accessible cmse region a 1 access) ∧
    ((cmse.tt ptr).secure = true → 0 < size →
      cmse.checkAddressRange ptr size
        (memoryCheckFlags (s.runtimeData s.runningPartitionIdx).share access) = true →
      InDataRegion region ptr size →
      tfmCoreMemoryPermissionCheckHandler cmse region s ptr size access = .ok .success) := by
  obtain ⟨res, hres, hiff⟩ := memoryCheck_cases cmse ptr access hregion hsize hrun hsecure
  rw [hres]
  constructor
  · intro hok
    cases hok
    obtain ⟨hpos, hrange, hacc⟩ := hiff.mp rfl
    refine ⟨hpos, hacc, fun a hle hlt => ?_⟩
    -- the hardware has compared the attributes of all bytes with those of the first
    obtain ⟨hwrap, hsame⟩ := hcmse ptr size _ hrange
    refine ⟨by omega, ?_⟩
    unfold Accessible at hacc ⊢
    rw [hsame a hle hlt]
    rcases hacc with ⟨hattr, hstart, hend⟩ | hns
    · exact .inl ⟨hattr, by omega, by omega⟩
    · exact .inr hns
  · intro hattr hpos hrange hin
    rw [hiff.mpr ⟨hpos, hrange, .inl ⟨hattr, hin⟩⟩]

end

/-- All memory is secure, and ranges pass that do not wrap. -/
def allSecure : Cmse where
  checkAddressRange := fun ptr size _ => ptr + size ≤ 2 ^ 32
  tt := fun _ => ⟨true, false, 0⟩

/-- A secure data region at the end of memory, whose last page is checked. -/
theorem memoryCheck_of_lastPage :
    tfmCoreMemoryPermissionCheckHandler allSecure ⟨0xFFFF0000, 0x10000, 0xFFFFFFFF⟩ nestedCall.spm
      0xFFFFF000 0x1000 tfmMemoryAccessRw = .ok .success := by
  have hsound : allSecure.Sound :=
    fun _ _ _ hrange => ⟨of_decide_eq_true hrange, fun _ _ _ => rfl⟩
  exact (memoryCheck_sound hsound ⟨rfl, by decide⟩ (by decide) (by decide) rfl).2 rfl (by decide)
    (by decide) ⟨by decide, by decide⟩

end Tfm.Spm
