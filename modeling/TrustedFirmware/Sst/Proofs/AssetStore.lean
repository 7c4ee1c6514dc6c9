import TrustedFirmware.Sst.Proofs.AssetImages
import TrustedFirmware.Sst.Proofs.Permissions

/-!
# Secure storage — the object layer as a store of assets

What the object layer is for is a map from ids to assets. `AssetMap.call` says so for a store with room
for everything; `AssetMap.boundedCall` also says what is refused: a creation for which the core has no
space, a write past the buffer, and a write past the maximum size of the asset.

The result is `Represents.call`: over any core that acts as a map (`CoreInterface.ActsAsMap`), every call
of `sst_object_system.c` returns what `boundedCall` returns, and leaves statics and core in a state that
stands for the assets `boundedCall` leaves. This holds in the plain and in the encrypted build, and
whatever the static buffers still hold of earlier calls: `Represents` asks nothing of their content.
-/

namespace Tfm.Sst

open Word32

/-! ## The store of assets

What is refused is part of the description: by the space of the core, and by the sizes that the
object layer checks itself. -/

/-- **One call on a store of assets with limited space.** The caller's bytes are copied into
`g_sst_object` before the core looks at the maximum size of the object, so a write that is too long for
both runs past the buffer. -/
def AssetMap.boundedCall {φ : Type} (cfg : BuildOptions) (space : Space φ) : ObjectLayer (AssetMap × φ)
  | .create uuid type size, (m, free) =>
    match m uuid with
    | some _ => (.ok [], (m, free))
    | none =>
      match space.reserve free uuid (cfg.objectHeaderSize + size) with
      | .error e => (.error e, (m, free))
      | .ok rest => (.ok [], (Function.update m uuid (some ⟨type, size, [], noAttrs⟩), rest))
  | .write uuid data offset, (m, free) =>
    match m uuid with
    | none => (.error .assetNotFound, (m, free))
    | some a =>
      if a.data.length < offset then (.error .paramError, (m, free))
      else if cfg.maxAssetSize < offset + data.length then (.error .bufferOverrun, (m, free))
      else if a.sizeMax < offset + data.length then (.error .paramError, (m, free))
      else (.ok [], (Function.update m uuid
        (some { a with data := ObjectMap.overlay a.data offset data }), free))
  | .delete uuid, (m, free) =>
    match m uuid with
    | none => (.error .assetNotFound, (m, free))
    | some _ => (.ok [], (Function.update m uuid none, space.release free uuid))
  | .read uuid offset size, (m, free) => unlimited (.read uuid offset size) m free
  | .getInfo uuid, (m, free) => unlimited (.getInfo uuid) m free
  | .getAttributes uuid, (m, free) => unlimited (.getAttributes uuid) m free
  | .setAttributes uuid attrs, (m, free) => unlimited (.setAttributes uuid attrs) m free
where
  -- the calls for which size and space do not matter
  unlimited (call : ObjectCall) (m : AssetMap) (free : φ) :=
    ((AssetMap.call call m).1, ((AssetMap.call call m).2, free))

/-- What the asset management keeps to: types and sizes are those of a policy entry, and a build without
partial access asks for offset 0 only. -/
def ObjectCall.Admissible (cfg : BuildOptions) : ObjectCall → Prop
  | .create _ type size => type < 2 ^ 32 ∧ cfg.objectHeaderSize + size < 2 ^ 32
  | .read _ offset _ => cfg.enablePartialAssetRw = true ∨ offset = 0
  | .write _ _ offset => cfg.enablePartialAssetRw = true ∨ offset = 0
  | _ => True

/-! ## What statics and core stand for

The core holds an image for every asset. The static buffers hold whatever the last call has left
there. -/

/-- The statics and the objects of the core stand for these assets. -/
structure Represents (cfg : Config) (m : AssetMap) (st : ObjectStatics) (objects : ObjectMap UInt32) :
    Prop where
  statics : StaticsFit cfg st
  absent : ∀ u, m u = none → objects u = none
  present : ∀ u a, m u = some a → a.Fits cfg ∧ ∃ content,
    objects u = some ⟨cfg.objectHeaderSize + a.sizeMax, content⟩ ∧ Stored cfg a content

section Represents

variable {cfg : Config} {m m' : AssetMap} {st st' : ObjectStatics} {objects : ObjectMap UInt32}
  {u : UInt32} {a a' : Asset} {content : List UInt8}

/-- The bytes of the core determine the asset. -/
theorem Stored.unique (h : Stored cfg a content) (h' : Stored cfg a' content) : a = a' := by
  have hinfo : a.info = a'.info := h.info.symm.trans h'.info
  have hattrs : a.attrs = a'.attrs := h.attrs.symm.trans h'.attrs
  -- in the encrypted build the bytes decrypt to one plaintext only
  have hdata : a.data = a'.data := by
    cases henc : cfg.encryption with
    | false => exact (h.plain henc).symm.trans (h'.plain henc)
    | true => exact Except.ok.inj ((h.encrypted henc).symm.trans (h'.encrypted henc))
  obtain ⟨type, sizeMax, data, attrs⟩ := a
  obtain ⟨type', sizeMax', data', attrs'⟩ := a'
  simp only [Asset.info, AssetInfo.mk.injEq] at hinfo
  simp_all

/-- A core stands for one map of assets at most. -/
theorem Represents.unique (h : Represents cfg m st objects) (h' : Represents cfg m' st' objects) : m = m' := by
  funext u
  -- an id has an asset in both maps or in neither
  cases hm : m u with
  | none =>
    cases hm' : m' u with
    | none => rfl
    | some a =>
      obtain ⟨-, content, hob, -⟩ := h'.present u a hm'
      rw [h.absent u hm] at hob
      cases hob
  | some a =>
    obtain ⟨-, content, hob, hstored⟩ := h.present u a hm
    cases hm' : m' u with
    | none =>
      rw [h'.absent u hm'] at hob
      cases hob
    | some a' =>
      obtain ⟨-, content', hob', hstored'⟩ := h'.present u a' hm'
      have hcontent : content = content' :=
        congrArg StoredObject.content (Option.some.inj (hob.symm.trans hob'))
      rw [← hcontent] at hstored'
      rw [hstored.unique hstored']

/-- The asset of one id is replaced. -/
theorem Represents.update (h : Represents cfg m st objects) (hst : StaticsFit cfg st') (hfits : a.Fits cfg)
    (hstored : Stored cfg a content) :
    Represents cfg (Function.update m u (some a)) st'
      (objects.put u ⟨cfg.objectHeaderSize + a.sizeMax, content⟩) := by
  refine ⟨hst, fun v hv => ?_, fun v b hv => ?_⟩
  · by_cases hvu : v = u
    · subst hvu
      rw [Function.update_self] at hv
      cases hv
    · rw [Function.update_of_ne hvu] at hv
      rw [ObjectMap.put_of_ne hvu]
      exact h.absent v hv
  · by_cases hvu : v = u
    · subst hvu
      rw [Function.update_self] at hv
      cases hv
      exact ⟨hfits, content, ObjectMap.put_self _, hstored⟩
    · rw [Function.update_of_ne hvu] at hv
      rw [ObjectMap.put_of_ne hvu]
      exact h.present v b hv

/-- The asset of one id is removed. -/
theorem Represents.erase (h : Represents cfg m st objects) (u : UInt32) :
    Represents cfg (Function.update m u none) st (Function.update objects u none) := by
  refine ⟨h.statics, fun v hv => ?_, fun v b hv => ?_⟩
  · by_cases hvu : v = u
    · rw [hvu]
      exact Function.update_self ..
    · rw [Function.update_of_ne hvu] at hv
      exact (Function.update_of_ne hvu ..).trans (h.absent v hv)
  · by_cases hvu : v = u
    · subst hvu
      rw [Function.update_self] at hv
      cases hv
    · rw [Function.update_of_ne hvu] at hv
      obtain ⟨hfits, content, hob, hstored⟩ := h.present v b hv
      exact ⟨hfits, content, (Function.update_of_ne hvu ..).trans hob, hstored⟩

/-- What the buffers hold between calls does not matter. -/
theorem Represents.of_statics (h : Represents cfg m st objects) (hst : StaticsFit cfg st') :
    Represents cfg m st' objects := ⟨hst, h.absent, h.present⟩

end Represents

/-!
## The calls

One lemma for each function of `sst_object_system.c`, in the order in which they depend on each other.
The argument is the same in all: the object is loaded into the buffer (`performs_load`), the buffer then
holds the asset, and what the function does to the buffer it does to the asset.
-/

section Calls

variable {cfg : Config} {m : AssetMap} {st st' : ObjectStatics} {u : UInt32} {σ φ : Type}
  {core : CoreInterface (StateM σ)} {space : Space φ} {objects : σ → ObjectMap UInt32} {free : σ → φ}
  {c c' : σ}

/-- **One call simulates another**: it returns the same, and leaves statics and core in a state that
stands for the assets and the free space that the other leaves. -/
def Simulates (cfg : Config) (objects : σ → ObjectMap UInt32) (free : σ → φ) (st : ObjectStatics) (c : σ)
    (x : ObjM (StateM σ) (List UInt8)) (result : Except SstErr (List UInt8) × AssetMap × φ) : Prop :=
  ∃ st' c', Performs x st c result.1 st' c' ∧ Represents cfg result.2.1 st' (objects c')
    ∧ free c' = result.2.2

/-- A build without partial access starts at offset 0, where it has been told to start. -/
theorem start_eq {offset : Nat} (h : cfg.enablePartialAssetRw = true ∨ offset = 0) :
    (if cfg.enablePartialAssetRw then offset else 0) = offset := by
  rcases h with h | rfl
  · rw [if_pos h]
  · exact ite_self _

variable (hcore : core.ActsAsMap space objects free)
  (hcrypto : cfg.encryption = true → cfg.crypto.Inverse)

include hcore hcrypto

/-- Reading data. -/
theorem Represents.read (h : Represents cfg m st (objects c)) (u : UInt32) {offset : Nat} (size : Nat)
    (hstart : cfg.enablePartialAssetRw = true ∨ offset = 0) :
    Simulates cfg objects free st c (sstObjectRead cfg.toBuildOptions core u offset size)
      (AssetMap.boundedCall cfg.toBuildOptions space (.read u offset size) (m, free c)) := by
  rw [AssetMap.boundedCall, AssetMap.boundedCall.unlimited, AssetMap.call]
  cases hm : m u with
  | none => exact ⟨st, c, .bind_error (performs_load_none hcore (h.absent u hm)), h, rfl⟩
  | some a =>
    obtain ⟨hfits, content, hob, hstored⟩ := h.present u a hm
    obtain ⟨st', hload, hst', hholds⟩ := performs_load hcore (fun henc => (hcrypto henc).setkey)
      h.statics hob hfits hstored
    dsimp only
    -- the range is checked against the data in the buffer, after loading
    by_cases hin : offset + size ≤ a.data.length
    · have hcheck : sstUtilsCheckContainedIn 0 (objectInfo cfg.toBuildOptions st'.object).sizeCurrent
          offset size = .ok () := by
        rw [hholds.sizeCurrent, sstUtilsCheckContainedIn, if_neg (by omega)]
      rw [if_pos hin]
      refine ⟨st', c, .bind hload (.bind .getStatics (.bind (.ofExcept hcheck) ?_)), h.of_statics hst', rfl⟩
      rw [start_eq hstart]
      dsimp only
      rw [hholds.read hin]
      exact .pure _
    · rw [if_neg hin]
      refine ⟨st', c, .bind hload (.bind .getStatics (.bind_error ?_)), h.of_statics hst', rfl⟩
      rw [hholds.sizeCurrent, sstUtilsCheckContainedIn, if_pos (by omega)]
      exact .fail _

theorem Represents.getInfo (h : Represents cfg m st (objects c)) (u : UInt32) :
    Simulates cfg objects free st c (sstObjectGetInfo cfg.toBuildOptions core u)
      (AssetMap.boundedCall cfg.toBuildOptions space (.getInfo u) (m, free c)) := by
  rw [AssetMap.boundedCall, AssetMap.boundedCall.unlimited, AssetMap.call]
  cases hm : m u with
  | none => exact ⟨st, c, .bind_error (performs_loadHeader_none hcore (h.absent u hm)), h, rfl⟩
  | some a =>
    obtain ⟨hfits, content, hob, hstored⟩ := h.present u a hm
    obtain ⟨st', hload, hst', hheader, -⟩ := performs_loadHeader hcore (fun henc => (hcrypto henc).setkey)
      h.statics hob hfits hstored
    refine ⟨st', c, .bind hload (.bind .getStatics ?_), h.of_statics hst', rfl⟩
    rw [bufBytes_info hheader.info]
    exact .pure _

theorem Represents.getAttributes (h : Represents cfg m st (objects c)) (u : UInt32) :
    Simulates cfg objects free st c (sstObjectGetAttributes cfg.toBuildOptions core u)
      (AssetMap.boundedCall cfg.toBuildOptions space (.getAttributes u) (m, free c)) := by
  rw [AssetMap.boundedCall, AssetMap.boundedCall.unlimited, AssetMap.call]
  cases hm : m u with
  | none => exact ⟨st, c, .bind_error (performs_loadHeader_none hcore (h.absent u hm)), h, rfl⟩
  | some a =>
    obtain ⟨hfits, content, hob, hstored⟩ := h.present u a hm
    obtain ⟨st', hload, hst', hheader, -⟩ := performs_loadHeader hcore (fun henc => (hcrypto henc).setkey)
      h.statics hob hfits hstored
    refine ⟨st', c, .bind hload (.bind .getStatics ?_), h.of_statics hst', rfl⟩
    rw [bufBytes_attrs hheader.attrs]
    exact .pure _

/-! ### Calls that store

They load the object, change the buffer and store it again. -/

omit hcore hcrypto in
/-- A write that starts within the data and stays within the buffer changes the asset in the buffer, and
then stores what the buffer holds. -/
theorem performs_write_of_store {a : Asset} {st₁ : ObjectStatics} {data : List UInt8} {offset : Nat}
    {res : Except SstErr Unit}
    (hload : Performs (sstObjectLoad cfg.toBuildOptions core u) st c (.ok ()) st₁ c)
    (hst₁ : StaticsFit cfg st₁) (hholds : Holds cfg a st₁.object) (hoffset : offset ≤ a.data.length)
    (hbuf : offset + data.length ≤ cfg.maxAssetSize)
    (hstart : cfg.enablePartialAssetRw = true ∨ offset = 0)
    (hstore : Performs (storeObject cfg core u)
      { st₁ with object := writtenImage cfg a st₁.object data offset } c res st' c') :
    Performs (sstObjectWrite cfg.toBuildOptions core u data offset) st c res st' c' := by
  have hlt := headerSize_add_maxAssetSize_lt cfg
  refine .bind hload (.bind .getStatics ?_)
  rw [hholds.sizeCurrent, if_neg (Nat.not_lt.mpr hoffset), start_eq hstart]
  dsimp only
  refine .bind (.copyToObject ?_) (.bind .getStatics ?_)
  · rw [hst₁.object, objectBufSize_eq]
    omega
  · dsimp only
    rw [add32_eq (by omega), (hholds.toHoldsHeader.memcpy hbuf).info]
    exact .ite_setObject hstore

/-- Writing data. -/
theorem Represents.write (h : Represents cfg m st (objects c)) (u : UInt32) (data : List UInt8)
    {offset : Nat} (hstart : cfg.enablePartialAssetRw = true ∨ offset = 0) :
    Simulates cfg objects free st c (do
        sstObjectWrite cfg.toBuildOptions core u data offset
        pure [])
      (AssetMap.boundedCall cfg.toBuildOptions space (.write u data offset) (m, free c)) := by
  rw [AssetMap.boundedCall]
  cases hm : m u with
  | none =>
    exact ⟨st, c, .bind_error (.bind_error (performs_load_none hcore (h.absent u hm))), h, rfl⟩
  | some a =>
    obtain ⟨hfits, content, hob, hstored⟩ := h.present u a hm
    obtain ⟨st₁, hload, hst₁, hholds⟩ := performs_load hcore (fun henc => (hcrypto henc).setkey) h.statics
      hob hfits hstored
    have hlen := hstored.length
    have hle := hfits.data_le_buf
    dsimp only
    by_cases hgap : a.data.length < offset
    · -- there would be a gap
      rw [if_pos hgap]
      refine ⟨st₁, c, .bind_error (.bind hload (.bind .getStatics ?_)), h.of_statics hst₁, rfl⟩
      rw [hholds.sizeCurrent, if_pos hgap]
      exact .fail _
    rw [if_neg hgap]
    have hoffset := Nat.le_of_not_lt hgap
    -- the bytes are copied into the buffer before anybody has compared them with the maximum size
    by_cases hbuf : cfg.maxAssetSize < offset + data.length
    · rw [if_pos hbuf]
      refine ⟨st₁, c, .bind_error (.bind hload (.bind .getStatics ?_)), h.of_statics hst₁, rfl⟩
      rw [hholds.sizeCurrent, if_neg hgap, start_eq hstart]
      refine .bind_error (.copyToObject_error ?_)
      rw [hst₁.object, objectBufSize_eq]
      omega
    rw [if_neg hbuf]
    have hover := ObjectMap.length_overlay (d := data) hoffset
    have hholds' := hholds.write hle hoffset (Nat.le_of_not_lt hbuf)
    have hst₂ : StaticsFit cfg { st₁ with object := writtenImage cfg a st₁.object data offset } :=
      ⟨hst₁.ready, hholds'.length, hst₁.plaintextBuf⟩
    by_cases hmax : a.sizeMax < offset + data.length
    · -- the buffer holds the longer asset, but the core does not take it
      rw [if_pos hmax]
      obtain ⟨st', c', hstore, hst', hobjects, hfree⟩ := performs_storeObject_refused
        (a := { a with data := ObjectMap.overlay a.data offset data }) hcore hcrypto hst₂ hob
        (by dsimp only; omega) (by dsimp only; omega) hholds'
      refine ⟨st', c', .bind_error (performs_write_of_store hload hst₁ hholds hoffset
        (Nat.le_of_not_lt hbuf) hstart hstore), ?_, hfree⟩
      rw [hobjects]
      exact h.of_statics hst'
    · rw [if_neg hmax]
      have hfits' : Asset.Fits cfg { a with data := ObjectMap.overlay a.data offset data } := by
        have := hfits.data_le
        refine ⟨hfits.type_lt, ?_, ?_, hfits.size_lt⟩ <;>
        · dsimp only
          omega
      obtain ⟨st', c', content', hstore, hst', hobjects, hfree, hstored'⟩ := performs_storeObject
        (a := { a with data := ObjectMap.overlay a.data offset data }) hcore hcrypto hst₂ hob rfl
        (by dsimp only; omega) hfits' hholds'
      refine ⟨st', c', .bind (performs_write_of_store hload hst₁ hholds hoffset (Nat.le_of_not_lt hbuf)
        hstart hstore) (.pure _), ?_, hfree⟩
      rw [hobjects]
      exact h.update hst' hfits' hstored'

theorem Represents.setAttributes (h : Represents cfg m st (objects c)) (u : UInt32) (attrs : AssetAttrs) :
    Simulates cfg objects free st c (do
        sstObjectSetAttributes cfg.toBuildOptions core u attrs
        pure [])
      (AssetMap.boundedCall cfg.toBuildOptions space (.setAttributes u attrs) (m, free c)) := by
  rw [AssetMap.boundedCall, AssetMap.boundedCall.unlimited, AssetMap.call]
  cases hm : m u with
  | none =>
    exact ⟨st, c, .bind_error (.bind_error (performs_loadHeader_none hcore (h.absent u hm))), h, rfl⟩
  | some a =>
    obtain ⟨hfits, content, hob, hstored⟩ := h.present u a hm
    obtain ⟨st₁, hload, hst₁, hheader, hholds⟩ := performs_loadHeader hcore
      (fun henc => (hcrypto henc).setkey) h.statics hob hfits hstored
    have hlay := header_layout cfg.toBuildOptions
    have hattrs : attrs.toList.length = 24 := Vector.length_toList
    have hroom : cfg.attrOffset + attrs.toList.length ≤ st₁.object.length := by
      rw [hst₁.object, objectBufSize_eq]
      omega
    have hfits' : Asset.Fits cfg { a with attrs := attrs } :=
      ⟨hfits.type_lt, hfits.data_le, hfits.data_le_buf, hfits.size_lt⟩
    have hheader' := hheader.setAttrs attrs
    have hst₂ : StaticsFit cfg
        { st₁ with object := sstUtilsMemcpy st₁.object cfg.attrOffset attrs.toList } :=
      ⟨hst₁.ready, hheader'.length, hst₁.plaintextBuf⟩
    cases henc : cfg.encryption with
    | false =>
      -- the plain build writes the header back and leaves the data in the core
      obtain ⟨c', hwrite, hobjects, hfree⟩ := hcore.write_ok (n := cfg.objectHeaderSize) hob
        (Nat.le_add_right _ _) (sstUtilsMemcpy st₁.object cfg.attrOffset attrs.toList)
      have hset : Performs (sstObjectSetAttributes cfg.toBuildOptions core u attrs) st c (.ok ())
          { st₁ with object := sstUtilsMemcpy st₁.object cfg.attrOffset attrs.toList } c' := by
        refine .bind hload (.bind (.copyToObject hroom) ?_)
        rw [if_neg (by rw [henc]; exact Bool.false_ne_true)]
        exact .bind .getStatics (.core hwrite)
      refine ⟨_, c', .bind hset (.pure _), ?_, hfree⟩
      rw [hobjects, ObjectMap.write_eq_put hob]
      exact h.update hst₂ hfits' (stored_overlay_header henc hstored hheader' rfl)
    | true =>
      obtain ⟨st', c', content', hstore, hst', hobjects, hfree, hstored'⟩ := performs_storeObject
        (a := { a with attrs := attrs }) hcore hcrypto hst₂ hob rfl (Nat.le_of_eq hstored.length) hfits'
        ((hholds henc).setAttrs attrs)
      have hset : Performs (sstObjectSetAttributes cfg.toBuildOptions core u attrs) st c (.ok ())
          st' c' := by
        refine .bind hload (.bind (.copyToObject hroom) ?_)
        rw [storeObject, if_pos henc] at hstore
        rw [if_pos henc]
        exact hstore
      refine ⟨st', c', .bind hset (.pure _), ?_, hfree⟩
      rw [hobjects]
      exact h.update hst' hfits' hstored'

omit hcrypto in
/-- Deleting an asset. -/
theorem Represents.delete (h : Represents cfg m st (objects c)) (u : UInt32) :
    Simulates cfg objects free st c (do
        sstObjectDelete core u
        pure []) (AssetMap.boundedCall cfg.toBuildOptions space (.delete u) (m, free c)) := by
  rw [AssetMap.boundedCall]
  cases hm : m u with
  | none => exact ⟨st, c, .bind_error (.core (hcore.delete_none (h.absent u hm))), h, rfl⟩
  | some a =>
    obtain ⟨-, content, hob, -⟩ := h.present u a hm
    obtain ⟨c', hdelete, hobjects, hfree⟩ := hcore.delete_some hob
    refine ⟨st, c', .bind (.core hdelete) (.pure _), ?_, hfree⟩
    rw [hobjects]
    exact h.erase u

/-! ### Creation

An object is created in the core before its header is stored. When the core has no space for it, the
result is that of the core. -/

omit hcrypto in
/-- An id that does not exist is looked up before it is created. -/
theorem performs_create_of_none (hob : objects c u = none) {type size : Nat}
    {res : Except SstErr Unit}
    (hcreate : Performs (do
      ObjM.setObject (sstObjectInitObject cfg.toBuildOptions u type size)
      if cfg.encryption then sstEncryptedObjectCreate cfg.toBuildOptions core u
      else
        ObjM.core (core.create u (sstObjectSize cfg.toBuildOptions size))
        let st ← ObjM.getStatics
        ObjM.core (core.write u st.object 0 cfg.objectHeaderSize)) st c res st' c') :
    Performs (sstObjectCreate cfg.toBuildOptions core u type size) st c res st' c' := by
  unfold Performs sstObjectCreate
  simp only [bind, StateT.bind, hcore.exist_none hob]
  exact hcreate

omit hcrypto in
/-- The core has no space for the object. -/
theorem performs_create_refused (st : ObjectStatics) (type : Nat) (hob : objects c u = none) {size : Nat}
    {e : SstErr}
    (hsize : cfg.objectHeaderSize + size < 2 ^ 32)
    (hreserve : space.reserve (free c) u (cfg.objectHeaderSize + size) = .error e) :
    ∃ c', Performs (sstObjectCreate cfg.toBuildOptions core u type size) st c (.error e)
        { st with object := sstObjectInitObject cfg.toBuildOptions u type size } c'
      ∧ objects c' = objects c ∧ free c' = free c := by
  obtain ⟨c', hcreate, hobjects, hfree⟩ := hcore.create_error hob hreserve
  refine ⟨c', performs_create_of_none hcore hob (.bind (.setObject _) ?_), hobjects, hfree⟩
  cases henc : cfg.encryption with
  | false =>
    rw [if_neg Bool.false_ne_true, sstObjectSize, add32_eq hsize]
    exact .bind_error (.core hcreate)
  | true =>
    rw [if_pos rfl]
    refine .bind .getStatics ?_
    rw [sstObjectSize_initObject, sstObjectSize, add32_eq hsize]
    exact .bind_error (.core hcreate)

omit hcore hcrypto in
/-- A new object in the buffer. -/
theorem StaticsFit.initObject (h : StaticsFit cfg st) (u : UInt32) {type size : Nat}
    (htype : type < 2 ^ 32) (hsize : size < 2 ^ 32) :
    StaticsFit cfg { st with object := sstObjectInitObject cfg.toBuildOptions u type size } :=
  ⟨h.ready, (holds_initObject u htype hsize).length, h.plaintextBuf⟩

/-- The core has space for the object: both builds write a header with no data behind it. -/
theorem performs_create (hst : StaticsFit cfg st) (hnone : objects c u = none) {type size : Nat}
    (htype : type < 2 ^ 32) (hsize : cfg.objectHeaderSize + size < 2 ^ 32) {rest : φ}
    (hreserve : space.reserve (free c) u (cfg.objectHeaderSize + size) = .ok rest) :
    ∃ st' c' content,
      Performs (sstObjectCreate cfg.toBuildOptions core u type size) st c (.ok ()) st' c'
      ∧ StaticsFit cfg st' ∧ objects c' = (objects c).put u ⟨cfg.objectHeaderSize + size, content⟩
      ∧ free c' = rest ∧ Stored cfg ⟨type, size, [], noAttrs⟩ content := by
  have hholds : Holds cfg ⟨type, size, [], noAttrs⟩ (sstObjectInitObject cfg.toBuildOptions u type size) :=
    holds_initObject u htype (by omega)
  have hst₁ := hst.initObject u htype (show size < 2 ^ 32 by omega)
  obtain ⟨c₁, hcreate₁, hobjects₁, hfree₁⟩ := hcore.create_ok hnone hreserve
  have hob : objects c₁ u = some ⟨cfg.objectHeaderSize + size, []⟩ := by
    rw [hobjects₁]
    exact ObjectMap.create_self _
  cases henc : cfg.encryption with
  | false =>
    obtain ⟨c', hwrite, hobjects, hfree⟩ := hcore.write_ok (n := cfg.objectHeaderSize) hob
      (Nat.le_add_right _ _) (sstObjectInitObject cfg.toBuildOptions u type size)
    refine ⟨_, c', _, performs_create_of_none hcore hnone (.bind (.setObject _) ?_), hst₁, ?_,
      hfree.trans hfree₁, stored_bufBytes hholds.toHoldsHeader (fun _ => hholds.data)
        fun h => by rw [henc] at h; cases h⟩
    · rw [if_neg (by rw [henc]; exact Bool.false_ne_true), sstObjectSize, add32_eq hsize]
      exact .bind (.core hcreate₁) (.bind .getStatics (.core hwrite))
    · rw [hobjects, write_zero hob (Nat.zero_le _), hobjects₁, ObjectMap.put_create]
      rfl
  | true =>
    obtain ⟨st', c₂, hencrypt, hobjects₂, hfree₂, hst', hheader, hstored⟩ := performs_authEncrypt
      (a := ⟨type, size, [], noAttrs⟩) (c := c₁) hcore henc (hcrypto henc) hst₁ (Nat.zero_le _) hholds
    have hob₂ : objects c₂ u = some ⟨cfg.objectHeaderSize + size, []⟩ := by
      rw [hobjects₂]
      exact hob
    obtain ⟨c', hwrite, hobjects, hfree⟩ := hcore.write_ok (n := cfg.objectHeaderSize) hob₂
      (Nat.le_add_right _ _) st'.object
    refine ⟨st', c', _, performs_create_of_none hcore hnone (.bind (.setObject _) ?_), hst', ?_,
      hfree.trans (hfree₂.trans hfree₁), hstored⟩
    · rw [if_pos henc]
      refine .bind .getStatics ?_
      rw [sstObjectSize_initObject, sstObjectSize, add32_eq hsize]
      refine .bind (.core hcreate₁) (.bind hencrypt (.bind .getStatics ?_))
      rw [sstObjectSize_eq cfg (Nat.zero_le _)]
      exact .core hwrite
    · rw [hobjects, write_zero hob₂ (Nat.zero_le _), hobjects₂, hobjects₁, ObjectMap.put_create]
      rfl

/-- Creating an asset. An id that exists is left as it is, and the call succeeds. -/
theorem Represents.create (h : Represents cfg m st (objects c)) (u : UInt32) {type size : Nat}
    (htype : type < 2 ^ 32) (hsize : cfg.objectHeaderSize + size < 2 ^ 32) :
    Simulates cfg objects free st c (do
        sstObjectCreate cfg.toBuildOptions core u type size
        pure [])
      (AssetMap.boundedCall cfg.toBuildOptions space (.create u type size) (m, free c)) := by
  rw [AssetMap.boundedCall]
  cases hm : m u with
  | some a =>
    obtain ⟨-, content, hob, -⟩ := h.present u a hm
    have hcreate : Performs (sstObjectCreate cfg.toBuildOptions core u type size) st c (.ok ()) st c := by
      unfold Performs sstObjectCreate
      simp only [bind, StateT.bind, hcore.exist_some hob]
      rfl
    exact ⟨st, c, .bind hcreate (.pure _), h, rfl⟩
  | none =>
    have hnone := h.absent u hm
    dsimp only
    -- the space manager decides, before anything is written
    cases hreserve : space.reserve (free c) u (cfg.objectHeaderSize + size) with
    | error e =>
      obtain ⟨c', hcreate, hobjects, hfree⟩ := performs_create_refused hcore st type hnone hsize
        hreserve
      refine ⟨_, c', .bind_error hcreate, ?_, hfree⟩
      rw [hobjects]
      exact h.of_statics (h.statics.initObject u htype (by omega))
    | ok rest =>
      obtain ⟨st', c', content, hcreate, hst', hobjects, hfree, hstored⟩ := performs_create hcore hcrypto
        h.statics hnone htype hsize hreserve
      refine ⟨st', c', .bind hcreate (.pure _), ?_, hfree⟩
      rw [hobjects]
      exact h.update hst' ⟨htype, Nat.zero_le _, Nat.zero_le _, hsize⟩ hstored

/-- **A call on the object layer is the call on the store of assets.** -/
theorem Represents.call (h : Represents cfg m st (objects c)) {call : ObjectCall}
    (hcall : call.Admissible cfg.toBuildOptions) :
    Simulates cfg objects free st c (sstObjectCall cfg.toBuildOptions core call)
      (AssetMap.boundedCall cfg.toBuildOptions space call (m, free c)) := by
  have hready {x : ObjM (StateM σ) (List UInt8)} {result : Except SstErr (List UInt8) × AssetMap × φ}
      (hx : Simulates cfg objects free st c x result) :
      Simulates cfg objects free st c (do
        let st ← ObjM.getStatics
        if !st.systemReady then ObjM.fail .systemError else x) result := by
    obtain ⟨st', c', hperf, hrep⟩ := hx
    refine ⟨st', c', .bind .getStatics ?_, hrep⟩
    rw [h.statics.ready]
    exact hperf
  -- the check of `sst_system_ready` comes first in every function
  cases call with
  | create uuid type size => exact hready (h.create hcore hcrypto uuid hcall.1 hcall.2)
  | read uuid offset size => exact hready (h.read hcore hcrypto uuid size hcall)
  | write uuid data offset => exact hready (h.write hcore hcrypto uuid data hcall)
  | getInfo uuid => exact hready (h.getInfo hcore hcrypto uuid)
  | getAttributes uuid => exact hready (h.getAttributes hcore hcrypto uuid)
  | setAttributes uuid attrs => exact hready (h.setAttributes hcore hcrypto uuid attrs)
  | delete uuid => exact hready (h.delete hcore uuid)

end Calls

/-!
## Below the asset management

The asset management calls the object layer with a type and a size from a policy entry, and in a build
without partial access with offset 0. So every call it makes is admissible, and its runs over
`sst_object_system.c` are its runs over the store of assets (`ObjectLayer.Refines.runAm`).
-/

section Managed

variable {cfg : Config} {σ φ : Type} {core : CoreInterface (StateM σ)} {space : Space φ}
  {objects : σ → ObjectMap UInt32} {free : σ → φ}

/-- The object layer over a core, as the asset management calls it. -/
def objectLayer (cfg : BuildOptions) (core : CoreInterface (StateM σ)) : ObjectLayer (ObjectStatics × σ) :=
  fun call s => match sstObjectCall cfg core call s.1 s.2 with
    | ((res, st), c) => (res, (st, c))

/-- Statics and core stand for these assets and this free space. -/
def StandsFor (cfg : Config) (objects : σ → ObjectMap UInt32) (free : σ → φ) (s : ObjectStatics × σ)
    (t : AssetMap × φ) : Prop :=
  Represents cfg t.1 s.1 (objects s.2) ∧ free s.2 = t.2

/-- The modelled object layer refines the store of assets. -/
theorem objectLayer_refines (hcore : core.ActsAsMap space objects free)
    (hcrypto : cfg.encryption = true → cfg.crypto.Inverse) :
    (objectLayer cfg.toBuildOptions core).Refines (AssetMap.boundedCall cfg.toBuildOptions space)
      (StandsFor cfg objects free) (ObjectCall.Admissible cfg.toBuildOptions) := by
  rintro call ⟨st, c⟩ ⟨m, rest⟩ hcall ⟨hrep, rfl⟩
  obtain ⟨st', c', hperf, hstands⟩ := hrep.call hcore hcrypto hcall
  unfold Performs at hperf
  simp only [objectLayer, hperf]
  exact ⟨trivial, hstands⟩

/-- What the asset management passes on is admissible. -/
theorem AmCall.admissible_forward {db : PolicyDb} {c : AmCall} {mem : Memory} {call : ObjectCall}
    {out : Option OutputBuf}
    (h : c.forward db cfg.enablePartialAssetRw mem = .ok (call, out)) :
    call.Admissible cfg.toBuildOptions := by
  have hoffset {offset : Nat} (h : ¬ ((!cfg.enablePartialAssetRw) = true ∧ offset ≠ 0)) :
      cfg.enablePartialAssetRw = true ∨ offset = 0 := by
    cases hrw : cfg.enablePartialAssetRw with
    | true => exact .inl rfl
    | false => exact .inr (by simpa [hrw] using h)
  -- sizes of the policy have 16 bits, so the header cannot make them wrap
  have hheader : cfg.objectHeaderSize ≤ 72 := by
    unfold BuildOptions.objectHeaderSize
    split <;> omega
  obtain ⟨env, appId, uuid, function⟩ := c
  cases function with
  | create =>
    simp only [AmCall.forward] at h
    split at h
    · cases h
    · rename_i dbEntry _
      cases h
      have hsize := dbEntry.maxSize.toNat_lt
      exact ⟨dbEntry.type.toNat_lt, by omega⟩
  | read data =>
    simp only [AmCall.forward] at h
    (repeat' split at h) <;> cases h
    rename_i hnot
    exact hoffset hnot
  | write data =>
    simp only [AmCall.forward] at h
    (repeat' split at h) <;> cases h
    rename_i hnot
    exact hoffset hnot
  | _ =>
    simp only [AmCall.forward] at h
    (repeat' split at h) <;> cases h <;> trivial

/-- **Runs of the asset management** over the modelled object layer are its runs over the store of
assets: same results, same memory of the caller, and the last states stand for each other. -/
theorem StandsFor.runAm (hcore : core.ActsAsMap space objects free)
    (hcrypto : cfg.encryption = true → cfg.crypto.Inverse) (db : PolicyDb) (calls : List AmCall)
    {s : AmState (ObjectStatics × σ)} {t : AmState (AssetMap × φ)} (hmem : s.mem = t.mem)
    (h : StandsFor cfg objects free s.store t.store) :
    let o := Sst.runAm db (objectLayer cfg.toBuildOptions core) cfg.enablePartialAssetRw calls s
    let o' := Sst.runAm db (AssetMap.boundedCall cfg.toBuildOptions space) cfg.enablePartialAssetRw calls t
    o.1 = o'.1 ∧ o.2.mem = o'.2.mem ∧ StandsFor cfg objects free o.2.store o'.2.store :=
  (objectLayer_refines hcore hcrypto).runAm (fun _ _ _ _ => AmCall.admissible_forward) calls hmem h

end Managed

end Tfm.Sst
