import TrustedFirmware.Boot.Proofs.Acceptance
import TrustedFirmware.Boot.Properties.Pss
import TrustedFirmware.Boot.Properties.SwapRecovery

/-!
# Only valid images are booted

Whatever the flash holds and whichever calls of the flash driver fail, `boot_go` reports success
only if a valid image starts at slot 0 at that moment, and the header in the response is the header
of this image. The image may have been swapped, restored or left alone before: a header that is
cached is read again unless nothing was written since.

What a valid image is worth is said without the code (`Authentic`): header and body are stored with
their hash, and with a value that the public operation of a built-in key turns into the EMSA-PSS
encoding of this hash. This needs keys of 2048 bits: for any other length `bootutil_verify_sig`
takes every signature for a good one.

* `ImageOk.authentic`: what the validation accepts is authentic.
* `triple_bootGo`: what a boot that succeeds has validated.
* `boot_go_boots_valid_image`: both together, for every fault and every flash.
-/

namespace Tfm.Boot

open Device LinearFlash Word32
open BlockFlash (Row)

/-! ## Authentic images

The validation keeps three locals while it walks over the records. `Backed` says what each of them
stands for, and is kept by every record. -/

section Authentic

variable (crypto : BootCrypto)

/-- Every built-in key that can be parsed has 2048 bits. -/
def BootCrypto.Keys2048 : Prop :=
  ∀ key ∈ crypto.keys, ∀ ctx, crypto.parseRsakey key = some ctx → ctx.len = pssEmlen

/-- The public operation of a built-in key turns the signature into the encoding of the hash with some
salt, up to the top bit. -/
def SignedBy (hash sig : List UInt8) : Prop :=
  ∃ key ∈ crypto.keys, ∃ ctx em salt, crypto.parseRsakey key = some ctx ∧ ctx.rsaPublic sig = some em
    ∧ salt.length = pssSlen ∧ clearTopBit em.toList = emsaPss crypto hash salt

/-- What an image is for: header and body are stored with their hash, and with a signature of this hash
by a key that is built in. -/
structure Authentic (bytes : List UInt8) : Prop where
  body : (imageHeader bytes).imageEnd ≤ bytes.length
  hash : ∃ off, readBytes bytes off 32
    = some (crypto.sha256 (slice bytes 0 (imageHeader bytes).imageEnd)).toList
  signature : ∃ off sig, readBytes bytes off 256 = some sig
    ∧ SignedBy crypto (crypto.sha256 (slice bytes 0 (imageHeader bytes).imageEnd)).toList sig

variable {crypto} {bytes hash : List UInt8} {tlv : Tlv} {st st' : ValidateState}

/-- A signature that is accepted is one, if the lengths leave no other way to accept it. -/
theorem signedBy_of_verify (hkeys : crypto.Keys2048) {sig : List UInt8} {keyId : Nat}
    (hkey : keyId < crypto.keys.length) (hsig : sig.length = pssEmlen)
    (h : bootutilVerifySig crypto hash sig keyId = true) : SignedBy crypto hash sig := by
  have hmem : crypto.keys.getD keyId [] ∈ crypto.keys := by
    rw [List.getD_eq_getElem?_getD, List.getElem?_eq_getElem hkey]
    exact List.getElem_mem hkey
  unfold bootutilVerifySig at h
  cases hctx : crypto.parseRsakey (crypto.keys.getD keyId []) with
  | none =>
    rw [hctx] at h
    cases h
  | some ctx =>
    have hlen : sig.length = ctx.len := hsig.trans (hkeys _ hmem ctx hctx).symm
    simp only [hctx, ne_eq, hlen, not_true_eq_false, if_false] at h
    unfold bootutilCmpRsasig at h
    cases hem : ctx.rsaPublic sig with
    | none =>
      rw [hem] at h
      simp at h
    | some em =>
      simp only [hem, Bool.if_false_left, Bool.and_eq_true] at h
      have hlength : em.toList.length = pssEmlen := Vector.length_toList
      obtain ⟨salt, hsalt, hencoded⟩ := (pssConsistent_iff hlength).mp h.2.2
      exact ⟨_, hmem, ctx, em, salt, hctx, hem, hsalt, hencoded⟩

/-- What the locals of the validation stand for. -/
structure Backed (crypto : BootCrypto) (bytes hash : List UInt8) (st : ValidateState) : Prop where
  digest : st.sha256Valid = true → ∃ off, readBytes bytes off 32 = some hash
  signature : st.validSignature = true →
    ∃ off sig, readBytes bytes off 256 = some sig ∧ SignedBy crypto hash sig
  key : ∀ keyId, st.keyId = some keyId → keyId < crypto.keys.length

/-- A key that was found is built in. -/
theorem bootutilFindKey_lt {keyhash : List UInt8} {keyId : Nat}
    (h : bootutilFindKey crypto keyhash = some keyId) : keyId < crypto.keys.length :=
  (List.findIdx?_eq_some_iff_getElem.mp h).1

/-- One record. A digest or a signature is noted where its record was read. -/
theorem Backed.record (hkeys : crypto.Keys2048) (h : Backed crypto bytes hash st)
    (hok : recordOk crypto bytes hash tlv st = some st') : Backed crypto bytes hash st' := by
  unfold recordOk at hok
  split at hok
  · split at hok
    · rename_i hsha
      obtain rfl := Option.some.inj hok
      exact ⟨fun _ => ⟨_, hsha.2⟩, h.signature, h.key⟩
    · exact absurd hok (by simp)
  · split at hok
    · split at hok
      · obtain ⟨keyhash, -, rfl⟩ := Option.map_eq_some_iff.mp hok
        exact ⟨h.digest, h.signature, fun _ => bootutilFindKey_lt⟩
      · exact absurd hok (by simp)
    · split at hok
      · split at hok
        · obtain rfl := Option.some.inj hok
          exact h
        · rename_i keyId hkey
          split at hok
          · obtain ⟨sig, hsig, rfl⟩ := Option.map_eq_some_iff.mp hok
            -- the flag is set by this record or was set before; the key is used up either way
            refine ⟨h.digest, fun hvalid => ?_, fun _ hnone => absurd hnone (by simp)⟩
            rcases Bool.or_eq_true_iff.mp hvalid with hbefore | hverify
            · exact h.signature hbefore
            · have hlen : sig.length = pssEmlen := by
                obtain ⟨hle, rfl⟩ := readBytes_eq_some hsig
                rw [slice, List.length_take, List.length_drop]
                unfold pssEmlen
                omega
              exact ⟨_, sig, hsig, signedBy_of_verify hkeys (h.key keyId hkey) hlen hverify⟩
          · exact absurd hok (by simp)
      · obtain rfl := Option.some.inj hok
        exact h

/-- All records, by induction on the number of records that may be left. -/
theorem Backed.records (hkeys : crypto.Keys2048) {stop fuel off : Nat} (h : Backed crypto bytes hash st)
    (hok : recordsOk crypto bytes hash stop fuel off st = some st') : Backed crypto bytes hash st' := by
  induction fuel generalizing off st with
  | zero =>
    unfold recordsOk at hok
    split at hok
    · exact absurd hok (by simp)
    · exact Option.some.inj hok ▸ h
  | succ fuel ih =>
    unfold recordsOk at hok
    split at hok
    · obtain ⟨rec, -, hok⟩ := Option.bind_eq_some_iff.mp hok
      obtain ⟨st1, hrec, hok⟩ := Option.bind_eq_some_iff.mp hok
      exact ih (h.record hkeys hrec) hok
    · exact Option.some.inj hok ▸ h

/-- A valid image is authentic. -/
theorem ImageOk.authentic (hkeys : crypto.Keys2048) (h : ImageOk crypto bytes) : Authentic crypto bytes := by
  have hcontent := h.content
  unfold contentOk at hcontent
  cases hst : recordsState crypto bytes (imageHeader bytes) with
  | none =>
    rw [hst] at hcontent
    exact absurd hcontent (by decide)
  | some st =>
    rw [hst, Option.any_some, Bool.and_eq_true] at hcontent
    obtain ⟨data, hdata, hst⟩ := Option.bind_eq_some_iff.mp hst
    obtain ⟨info, -, hst⟩ := Option.bind_eq_some_iff.mp hst
    obtain ⟨hbody, rfl⟩ := readBytes_eq_some hdata
    split at hst
    · have hstart : Backed crypto bytes (crypto.sha256 (slice bytes 0 (imageHeader bytes).imageEnd)).toList
          ⟨false, false, none⟩ :=
        ⟨fun h => absurd h (by decide), fun h => absurd h (by decide), fun _ h => absurd h (by simp)⟩
      have hend := hstart.records hkeys hst
      exact ⟨by omega, hend.digest hcontent.1, hend.signature hcontent.2⟩
    · exact absurd hst (by simp)

end Authentic

variable {fm : FlashMap} {crypto : BootCrypto} {area : FlashArea}

/-! ## Functions that only read

In front of the decision whether to swap nothing is written, so that the header that was read stays
the header of slot 0. -/

section ReadOnly

variable {α β : Type} {m : BootM α}

theorem readOnly_flashAreaRead {off len : Nat} :
    ReadOnly (device fm.sectorSize) (flashAreaRead fm area off len) := by
  unfold flashAreaRead readData
  split
  · exact ReadOnly.call _ fun _ => rfl
  · exact ReadOnly.fail _

theorem readOnly_bootReadSwapState : ReadOnly (device fm.sectorSize) (bootReadSwapState fm area) := by
  unfold bootReadSwapState
  refine readOnly_flashAreaRead.bind fun magic => ?_
  split
  · exact (ReadOnly.pure _).bind fun _ => readOnly_flashAreaRead.bind fun _ => ReadOnly.pure _
  · exact readOnly_flashAreaRead.bind fun _ => readOnly_flashAreaRead.bind fun _ => ReadOnly.pure _

theorem readOnly_bootSwapType : ReadOnly (device fm.sectorSize) (bootSwapType fm) := by
  unfold bootSwapType
  refine readOnly_bootReadSwapState.attempt.bind fun slot0 => ?_
  cases slot0 with
  | error e => exact ReadOnly.pure _
  | ok slot0 =>
    refine readOnly_bootReadSwapState.attempt.bind fun slot1 => ?_
    cases slot1 with
    | error e => exact ReadOnly.pure _
    | ok slot1 => exact ReadOnly.pure _

theorem readOnly_bootStatusOff : ReadOnly (device fm.sectorSize) (bootStatusOff fm area) := by
  unfold bootStatusOff
  split
  · exact ReadOnly.pure _
  · exact ReadOnly.fail _

theorem readOnly_scanStatus {off left i : Nat} {found : Bool} :
    ReadOnly (device fm.sectorSize) (scanStatus fm area off left i found) := by
  induction left generalizing i found with
  | zero => exact ReadOnly.pure _
  | succ left ih =>
    unfold scanStatus
    refine readOnly_flashAreaRead.bind fun status => ?_
    split
    · split
      · exact ReadOnly.pure _
      · exact ih
    · exact ih

theorem readOnly_bootReadStatusBytes {bs : BootStatus} :
    ReadOnly (device fm.sectorSize) (bootReadStatusBytes fm area bs) := by
  unfold bootReadStatusBytes
  refine readOnly_bootStatusOff.bind fun off => readOnly_scanStatus.bind fun o => ?_
  split
  · exact ReadOnly.pure _
  · exact ReadOnly.pure _

theorem readOnly_bootReadStatus : ReadOnly (device fm.sectorSize) (bootReadStatus fm) := by
  have hsource : ReadOnly (device fm.sectorSize) (bootStatusSource fm) :=
    (readOnly_bootReadSwapState.orElse _).bind fun _ =>
      (readOnly_bootReadSwapState.orElse _).bind fun _ => ReadOnly.pure _
  unfold bootReadStatus
  refine hsource.bind fun source => ?_
  cases source with
  | none => exact ReadOnly.pure _
  | scratch => exact readOnly_bootReadStatusBytes
  | slot0 => exact readOnly_bootReadStatusBytes

end ReadOnly

/-! ## The cached header

`boot_go` reads the headers again unless the swap type is `BOOT_SWAP_TYPE_NONE`. So every function
on the way has to report another type once it may have written to slot 0 (`HeaderKept`). -/

/-- The header in memory is the header in slot 0. -/
def HeaderRead (fm : FlashMap) (r : BootLoaderState) (g : Row) : Prop :=
  readBytes (flashFrom fm g .image0) 0 imageHeaderSize = some r.img0.hdr

/-- Unless a swap was made, the header is up to date. -/
def HeaderKept (fm : FlashMap) (t : BootSwapType) (r : BootLoaderState) (g : Row) : Prop :=
  t = .none → HeaderRead fm r g

/-- A type that makes the headers be read again asks for nothing. -/
theorem triple_ne_none {P : BootLoaderState → Row → Prop} {t : BootSwapType} (h : t ≠ .none) :
    Triple (device fm.sectorSize) P (pure t : BootM BootSwapType) (HeaderKept fm) :=
  Triple.pure fun _ _ _ hnone => absurd hnone h

/-- A function that can end only with such a type asks for nothing, either. -/
theorem triple_bind_ne_none {α : Type} {P : BootLoaderState → Row → Prop} {m : BootM α}
    {k : α → BootM BootSwapType} (hk : ∀ a, ∃ t, k a = pure t ∧ t ≠ .none) :
    Triple (device fm.sectorSize) P (m >>= k) (HeaderKept fm) := by
  refine (Triple.top m).bind fun a => ?_
  obtain ⟨t, hka, ht⟩ := hk a
  rw [hka]
  exact triple_ne_none ht

theorem triple_bootReadImageHeaders (hroom : RoomBehind fm .image0) {P : BootLoaderState → Row → Prop} :
    Triple (device fm.sectorSize) P (bootReadImageHeaders fm) fun _ => HeaderRead fm := by
  have hbase := hroom.base
  have hend := hroom.room
  have hread : Triple (device fm.sectorSize) P (bootReadImageHeader fm .image0) fun hdr _ g =>
      readBytes (flashFrom fm g .image0) 0 imageHeaderSize = some hdr := by
    refine Triple.start fun _ g _ => ?_
    have hsz : imageHeaderSize = 32 := rfl
    refine Triple.conseq (finds_flashAreaRead (g := g) (by omega)) (fun _ _ hs => hs) ?_
    rintro hdr r s ⟨rfl, hhdr⟩
    exact hhdr
  unfold bootReadImageHeaders
  refine hread.bind fun hdr => Triple.bind (Q := fun _ => HeaderRead fm) (Triple.modifyMem fun _ _ h => h) fun _ => ?_
  refine Triple.bind (ReadOnly.triple readOnly_flashAreaRead.attempt) fun o => ?_
  cases o with
  | error e => exact Triple.pure fun _ _ h => h
  | ok hdr1 => exact Triple.modifyMem fun _ _ h => h

/-- An image in slot 1 may be erased here, but only under a type that is not `none`. -/
theorem triple_bootValidatedSwapType :
    Triple (device fm.sectorSize) (HeaderRead fm) (bootValidatedSwapType fm crypto) (HeaderKept fm) := by
  unfold bootValidatedSwapType
  refine (ReadOnly.triple readOnly_bootSwapType).bind fun t => ?_
  cases t with
  | none => exact Triple.pure fun _ _ h _ => h
  | test | perm | revert =>
    refine Triple.getMem_bind fun s => triple_bind_ne_none fun o => ?_
    cases o with
    | error e => exact ⟨_, rfl, by decide⟩
    | ok _ => exact ⟨_, rfl, by decide⟩
  | fail | panic => exact triple_ne_none (by decide)

/-- What completes an interrupted swap is never reported as nothing. -/
theorem triple_bootPreviousSwapType {P : BootLoaderState → Row → Prop} :
    Triple (device fm.sectorSize) P (bootPreviousSwapType fm) (HeaderKept fm) := by
  unfold bootPreviousSwapType
  refine (Triple.top _).bind fun t => ?_
  cases t <;> exact triple_ne_none (by decide)

theorem triple_bootSwapIfNeeded :
    Triple (device fm.sectorSize) (HeaderRead fm) (bootSwapIfNeeded fm crypto) (HeaderKept fm) := by
  unfold bootSwapIfNeeded
  refine (ReadOnly.triple (readOnly_bootReadStatus.orElse _)).bind fun bs => ?_
  split
  · exact (Triple.top _).bind fun _ => triple_bootPreviousSwapType
  · refine triple_bootValidatedSwapType.bind fun t => ?_
    cases t with
    | none => exact Triple.pure fun _ _ h => h
    | test => exact (Triple.top _).bind fun _ => triple_ne_none (by decide)
    | perm => exact (Triple.top _).bind fun _ => triple_ne_none (by decide)
    | revert => exact (Triple.top _).bind fun _ => triple_ne_none (by decide)
    | fail => exact triple_ne_none (by decide)
    | panic => exact triple_ne_none (by decide)

/-- The flags do not change the type to `none`. -/
theorem triple_markSwap (t : BootSwapType) :
    Triple (device fm.sectorSize) (HeaderKept fm t) (markSwap fm t) (HeaderKept fm) := by
  unfold markSwap
  cases t with
  | none | panic => exact Triple.pure_bind (Triple.pure fun _ _ h => h)
  | test | perm =>
    refine Triple.pure_bind (triple_bind_ne_none fun o => ?_)
    cases o with
    | error e => exact ⟨_, rfl, by decide⟩
    | ok _ => exact ⟨_, rfl, by decide⟩
  | fail =>
    refine (Triple.top _).bind fun o => ?_
    cases o with
    | error e => exact Triple.pure_bind (triple_ne_none (by decide))
    | ok _ => exact Triple.pure_bind (triple_ne_none (by decide))
  | revert =>
    refine (Triple.top _).bind fun o => ?_
    cases o with
    | error e => exact Triple.pure_bind (triple_ne_none (by decide))
    | ok _ =>
      -- both flags are set after a revert
      refine Triple.pure_bind (triple_bind_ne_none fun o => ?_)
      cases o with
      | error e => exact ⟨_, rfl, by decide⟩
      | ok _ => exact ⟨_, rfl, by decide⟩

/-! ## Validation of slot 0

The last thing that `boot_go` does before it returns. -/

/-- **The validation of slot 0 accepts valid images only.** -/
theorem triple_bootValidateSlot (hroom : RoomBehind fm .image0) (hdr : ImageHeader) :
    Triple (device fm.sectorSize)
      (fun _ g => readBytes (flashFrom fm g .image0) 0 imageHeaderSize = some hdr)
      (bootValidateSlot fm crypto .image0 hdr) fun _ _ g =>
        hdr = imageHeader (flashFrom fm g .image0) ∧ ImageOk crypto (flashFrom fm g .image0) := by
  refine Triple.start fun _ g hhdr => ?_
  have hlen := (readBytes_eq_some hhdr).1
  obtain rfl : hdr = imageHeader (flashFrom fm g .image0) := (readBytes_eq_some hhdr).2
  have hcheck : Finds fm g (bootImageCheck fm crypto (imageHeader (flashFrom fm g .image0)) .image0) _ :=
    Triple.orElse _ (finds_bootutilImgValidate hroom)
  unfold bootValidateSlot
  by_cases hboot : (imageHeader (flashFrom fm g .image0)).ihMagic = imageMagicNone
      ∨ (imageHeader (flashFrom fm g .image0)).ihFlags &&& imageFNonBootable ≠ 0
  · rw [if_pos hboot]
    exact Triple.fail _
  · rw [if_neg hboot]
    by_cases hmagic : (imageHeader (flashFrom fm g .image0)).ihMagic = imageMagic
    · simp only [if_pos hmagic]
      -- slot 0 is never erased, so a failed check ends the run
      refine Triple.bind hcheck.attempt fun o => ?_
      cases o with
      | error e => exact Triple.fail _
      | ok u =>
        refine Triple.pure fun _ g' hg' => ?_
        obtain ⟨rfl, hcontent⟩ := hg' () rfl
        exact ⟨rfl, by omega, hmagic, not_not.mp (not_or.mp hboot).2, hcontent⟩
    · simp only [if_neg hmagic]
      exact Triple.pure_bind (Triple.fail _)

/-- The end of `boot_go`: the header that is validated is the one that is returned. -/
theorem triple_validateAndReturn (crypto : BootCrypto) (hroom : RoomBehind fm .image0) :
    Triple (device fm.sectorSize) (HeaderRead fm) (do
      let s ← M.getMem
      assertOk (bootValidateSlot fm crypto .image0 s.img0.hdr)
      pure (⟨s.img0.hdr, fm.faOff .image0⟩ : BootRsp)) fun rsp _ g =>
        ImageOk crypto (flashFrom fm g .image0)
          ∧ rsp = ⟨imageHeader (flashFrom fm g .image0), fm.faOff .image0⟩ := by
  refine Triple.getMem_bind fun s => ?_
  have hvalidate : Triple (device fm.sectorSize) _ (assertOk (bootValidateSlot fm crypto .image0 s.img0.hdr)) _ :=
    (triple_bootValidateSlot hroom s.img0.hdr).orElse .assertFailed
  refine (hvalidate.conseq ?_ fun _ _ _ h => h).bind fun _ => Triple.pure ?_
  · rintro r g ⟨hread, rfl⟩
    exact hread
  · rintro r g ⟨hhdr, hok⟩
    exact ⟨hok, by rw [hhdr]⟩

/-- **A boot that succeeds has validated what it returns.** -/
theorem triple_bootGo (hroom : RoomBehind fm .image0) :
    Triple (device fm.sectorSize) (fun _ _ => True) (bootGo fm crypto) fun rsp _ g =>
      ImageOk crypto (flashFrom fm g .image0)
        ∧ rsp = ⟨imageHeader (flashFrom fm g .image0), fm.faOff .image0⟩ := by
  have hend := triple_validateAndReturn crypto hroom
  unfold bootGo
  refine (Triple.top _).bind fun _ => (triple_bootReadImageHeaders hroom).bind fun _ => ?_
  refine Triple.getMem_bind fun s => ?_
  refine Triple.conseq (P := HeaderRead fm) ?_ (fun _ _ h => h.1) fun _ _ _ h => h
  dsimp only
  -- slots that are not compatible are not swapped at all
  split
  · refine (triple_bootSwapIfNeeded.orElse _).bind fun t => (triple_markSwap t).bind fun t => ?_
    cases t with
    | none => exact hend.conseq (fun _ _ h => h rfl) fun _ _ _ h => h
    | panic => exact Triple.bind (Q := fun _ => HeaderRead fm) (Triple.fail _) fun _ => hend
    | test => exact (triple_bootReadImageHeaders hroom).bind fun _ => hend
    | perm => exact (triple_bootReadImageHeaders hroom).bind fun _ => hend
    | revert => exact (triple_bootReadImageHeaders hroom).bind fun _ => hend
    | fail => exact (triple_bootReadImageHeaders hroom).bind fun _ => hend
  · exact Triple.pure_bind hend

/-- A run that succeeds has found a valid image at the start of slot 0, and returns its header; with keys
of 2048 bits the image is authentic. -/
theorem boot_go_boots_valid_image (hroom : RoomBehind fm .image0) (fails : Nat → Bool) (n : Nat)
    (r : BootLoaderState) (f : Row) {rsp : BootRsp}
    (hrun : (exec (device fm.sectorSize) fails n (bootGo fm crypto) r f).val = .ok rsp) :
    let bytes := flashFrom fm (exec (device fm.sectorSize) fails n (bootGo fm crypto) r f).dev .image0
    ImageOk crypto bytes ∧ (crypto.Keys2048 → Authentic crypto bytes)
      ∧ rsp = ⟨imageHeader bytes, fm.faOff .image0⟩ := by
  obtain ⟨hok, hrsp⟩ := triple_bootGo hroom fails n r f trivial rsp hrun
  exact ⟨hok, fun hkeys => hok.authentic hkeys, hrsp⟩

/-- The key of the small device has 2048 bits. -/
theorem toyCrypto_keys : toyCrypto.Keys2048 := by
  rintro key - ctx hctx
  cases hctx
  rfl

/-- The image that was swapped in is valid and authentic. -/
theorem toy_boots_valid_image :
    ImageOk toyCrypto (flashFrom smallMap.toFlashMap
        (exec (device 1024) noFaults 0 (bootGo smallMap.toFlashMap toyCrypto) ⟨⟨[], []⟩, ⟨[], []⟩⟩ toyFlash).dev
        .image0)
      ∧ Authentic toyCrypto (flashFrom smallMap.toFlashMap
        (exec (device 1024) noFaults 0 (bootGo smallMap.toFlashMap toyCrypto) ⟨⟨[], []⟩, ⟨[], []⟩⟩ toyFlash).dev
        .image0) := by
  obtain ⟨rsp, hrun, -⟩ := (Upgrade.wpc_bootGo (r := ⟨⟨[], []⟩, ⟨[], []⟩⟩) (Or.inl (Or.inl toyFlash_pending))).exec 0
  have hroom : RoomBehind smallMap.toFlashMap .image0 := ⟨by decide, by decide⟩
  have hboots := boot_go_boots_valid_image hroom noFaults 0 _ toyFlash hrun
  exact ⟨hboots.1, hboots.2.1 toyCrypto_keys⟩

end Tfm.Boot
