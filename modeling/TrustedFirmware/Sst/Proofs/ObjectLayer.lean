import TrustedFirmware.Sst.Proofs.Buffers

/-!
# Secure storage — the object layer over a map of byte strings

What the core is for is a map from ids to bounded byte strings (`mapCore`), as long as there is space
for them (`ActsAsMap`). Over such a core the object layer keeps an asset as the byte string `Stored`
describes; loading an object fills `g_sst_object` with the asset (`Holds`), and storing the buffer again
stores what it holds. The plain and the encrypted build differ in these two steps only.
-/

namespace Tfm.Sst

open Word32

/-! ## The core as a map

The functions of `mapCore` look at the objects only. Its IV counter stands for the one of the crypto
interface, which the encrypted build advances with every write. -/

/-- The objects, and the IV counter of the crypto interface. -/
structure CoreMap where
  objects : ObjectMap UInt32
  iv : Vector UInt8 12

/-- The core with room for every object. -/
def mapCore : CoreInterface (StateM CoreMap) where
  exist uuid := fun c =>
    match c.objects uuid with
    | none => (.error .assetNotFound, c)
    | some _ => (.ok (), c)
  create uuid size := fun c => (.ok (), { c with objects := c.objects.create uuid size })
  write uuid data offset size := fun c =>
    match c.objects uuid with
    | none => (.error .assetNotFound, c)
    | some ob =>
      if ob.content.length < offset ∨ ob.maxSize < offset + size then (.error .paramError, c)
      else (.ok (), { c with objects := c.objects.write uuid offset (bufBytes data size) })
  read uuid offset size := fun c =>
    match c.objects uuid with
    | none => (.error .assetNotFound, c)
    | some ob =>
      if offset + size ≤ ob.content.length then (.ok ((ob.content.drop offset).take size), c)
      else (.error .paramError, c)
  getInfo uuid := fun c =>
    match c.objects uuid with
    | none => (.error .assetNotFound, c)
    | some ob => (.ok ⟨ob.content.length, ob.maxSize⟩, c)
  delete uuid := fun c =>
    match c.objects uuid with
    | none => (.error .assetNotFound, c)
    | some _ => (.ok (), { c with objects := Function.update c.objects uuid none })
  cryptoGetIv := fun c => (sstCryptoNextIv c.iv, { c with iv := sstCryptoNextIv c.iv })

/-!
## Cores that act as a map

The object layer is proved over any core that acts as `mapCore` does as long as there is space: its
objects are a map, and whether a new one is accepted depends on what is free and on the size that is
asked for, never on what the objects hold. `ActsAsMap` has one equation for each function and each of
its outcomes; the proofs above use these equations by name and look at no core.
-/

/-- What a store does with its free space: it reserves it for a new object or refuses to, and gets it
back when the object is deleted. -/
structure Space (φ : Type) where
  reserve : φ → (uuid : UInt32) → (size : Nat) → Except SstErr φ
  release : φ → (uuid : UInt32) → φ

/-- Space for every object. -/
def Space.unlimited : Space Unit := ⟨fun _ _ _ => .ok (), fun _ _ => ()⟩

/-- **The core acts as a map** from ids to bounded byte strings, with a space manager. A function that
reports an error, and one that only looks, leaves objects and free space as they are. -/
structure CoreInterface.ActsAsMap {σ φ : Type} (core : CoreInterface (StateM σ)) (space : Space φ)
    (objects : σ → ObjectMap UInt32) (free : σ → φ) : Prop where
  exist_none : ∀ {c u}, objects c u = none → core.exist u c = (.error .assetNotFound, c)
  exist_some : ∀ {c u ob}, objects c u = some ob → core.exist u c = (.ok (), c)
  create_ok : ∀ {c u size f}, objects c u = none → space.reserve (free c) u size = .ok f →
    ∃ c', core.create u size c = (.ok (), c') ∧ objects c' = (objects c).create u size ∧ free c' = f
  create_error : ∀ {c u size e}, objects c u = none → space.reserve (free c) u size = .error e →
    ∃ c', core.create u size c = (.error e, c') ∧ objects c' = objects c ∧ free c' = free c
  -- the object layer writes objects from their start
  write_ok : ∀ {c u ob n}, objects c u = some ob → n ≤ ob.maxSize → ∀ data,
    ∃ c', core.write u data 0 n c = (.ok (), c')
      ∧ objects c' = (objects c).write u 0 (bufBytes data n) ∧ free c' = free c
  write_refused : ∀ {c u ob n}, objects c u = some ob → ob.maxSize < n → ∀ data,
    ∃ c', core.write u data 0 n c = (.error .paramError, c') ∧ objects c' = objects c ∧ free c' = free c
  read_none : ∀ {c u}, objects c u = none → ∀ offset n,
    core.read u offset n c = (.error .assetNotFound, c)
  read_some : ∀ {c u ob offset n}, objects c u = some ob → offset + n ≤ ob.content.length →
    core.read u offset n c = (.ok ((ob.content.drop offset).take n), c)
  getInfo_none : ∀ {c u}, objects c u = none → core.getInfo u c = (.error .assetNotFound, c)
  getInfo_some : ∀ {c u ob}, objects c u = some ob →
    core.getInfo u c = (.ok ⟨ob.content.length, ob.maxSize⟩, c)
  delete_none : ∀ {c u}, objects c u = none → core.delete u c = (.error .assetNotFound, c)
  delete_some : ∀ {c u ob}, objects c u = some ob →
    ∃ c', core.delete u c = (.ok (), c') ∧ objects c' = Function.update (objects c) u none
      ∧ free c' = space.release (free c) u
  cryptoGetIv : ∀ c, ∃ iv c', core.cryptoGetIv c = (iv, c') ∧ objects c' = objects c ∧ free c' = free c

/-- The map acts as a map, with room for every object. -/
theorem mapCore_actsAsMap : mapCore.ActsAsMap .unlimited CoreMap.objects fun _ => () where
  exist_none h := by simp only [mapCore, h]
  exist_some h := by simp only [mapCore, h]
  create_ok _ _ := ⟨_, rfl, rfl, rfl⟩
  create_error _ h := nomatch h
  write_ok {c u ob n} h hn data := by
    refine ⟨{ c with objects := c.objects.write u 0 (bufBytes data n) }, ?_, rfl, rfl⟩
    simp only [mapCore, h]
    rw [if_neg (by omega)]
  write_refused {c u ob n} h hn data := by
    refine ⟨c, ?_, rfl, rfl⟩
    simp only [mapCore, h]
    rw [if_pos (by omega)]
  read_none h offset n := by simp only [mapCore, h]
  read_some h hn := by simp only [mapCore, h, if_pos hn]
  getInfo_none h := by simp only [mapCore, h]
  getInfo_some h := by simp only [mapCore, h]
  delete_none h := by simp only [mapCore, h]
  delete_some {c u ob} h := by
    refine ⟨{ c with objects := Function.update c.objects u none }, ?_, rfl, rfl⟩
    simp only [mapCore, h]
  cryptoGetIv _ := ⟨_, _, rfl, rfl, rfl⟩

/-- Run a function of the map beside the free space. -/
def CoreMap.beside {φ α : Type} (x : StateM CoreMap α) : StateM (CoreMap × φ) α :=
  fun c => match x c.1 with
    | (res, c') => (res, (c', c.2))

/-- The core with a space manager. -/
def spacedCore {φ : Type} (space : Space φ) : CoreInterface (StateM (CoreMap × φ)) where
  exist uuid := CoreMap.beside (mapCore.exist uuid)
  create uuid size := fun c =>
    match space.reserve c.2 uuid size with
    | .error e => (.error e, c)
    | .ok rest => (.ok (), ({ c.1 with objects := c.1.objects.create uuid size }, rest))
  write uuid data offset size := CoreMap.beside (mapCore.write uuid data offset size)
  read uuid offset size := CoreMap.beside (mapCore.read uuid offset size)
  getInfo uuid := CoreMap.beside (mapCore.getInfo uuid)
  delete uuid := fun c =>
    match c.1.objects uuid with
    | none => (.error .assetNotFound, c)
    | some _ => (.ok (), ({ c.1 with objects := Function.update c.1.objects uuid none },
        space.release c.2 uuid))
  cryptoGetIv := CoreMap.beside mapCore.cryptoGetIv

/-- With a space manager, creations may be refused; nothing else changes. -/
theorem spacedCore_actsAsMap {φ : Type} (space : Space φ) :
    (spacedCore space).ActsAsMap space (fun c => c.1.objects) Prod.snd where
  exist_none {c u} h := by simp only [spacedCore, CoreMap.beside, mapCore_actsAsMap.exist_none h]
  exist_some {c u ob} h := by simp only [spacedCore, CoreMap.beside, mapCore_actsAsMap.exist_some h]
  create_ok {c u size f} _ hreserve := by
    refine ⟨({ c.1 with objects := c.1.objects.create u size }, f), ?_, rfl, rfl⟩
    simp only [spacedCore, hreserve]
  create_error {c u size e} _ hreserve := ⟨c, by simp only [spacedCore, hreserve], rfl, rfl⟩
  write_ok {c u ob n} h hn data := by
    obtain ⟨c', hwrite, hobjects, -⟩ := mapCore_actsAsMap.write_ok h hn data
    exact ⟨(c', c.2), by simp only [spacedCore, CoreMap.beside, hwrite], hobjects, rfl⟩
  write_refused {c u ob n} h hn data := by
    obtain ⟨c', hwrite, hobjects, -⟩ := mapCore_actsAsMap.write_refused h hn data
    exact ⟨(c', c.2), by simp only [spacedCore, CoreMap.beside, hwrite], hobjects, rfl⟩
  read_none {c u} h offset n := by
    simp only [spacedCore, CoreMap.beside, mapCore_actsAsMap.read_none h]
  read_some {c u ob offset n} h hn := by
    simp only [spacedCore, CoreMap.beside, mapCore_actsAsMap.read_some h hn]
  getInfo_none {c u} h := by simp only [spacedCore, CoreMap.beside, mapCore_actsAsMap.getInfo_none h]
  getInfo_some {c u ob} h := by simp only [spacedCore, CoreMap.beside, mapCore_actsAsMap.getInfo_some h]
  delete_none {c u} h := by simp only [spacedCore, h]
  delete_some {c u ob} h := by
    refine ⟨({ c.1 with objects := Function.update c.1.objects u none }, space.release c.2 u), ?_, rfl, rfl⟩
    simp only [spacedCore, h]
  cryptoGetIv c := ⟨_, _, rfl, rfl, rfl⟩

/-! ## Evaluation

The object layer is a state monad over the core, with errors. `Performs` is a big-step description
of one run; each constructor of the monad has its rule. -/

variable {α β σ : Type} {st st' st'' : ObjectStatics} {c c' c'' : σ}

/-- `x` ends with this result, these statics and this core. -/
def Performs (x : ObjM (StateM σ) α) (st : ObjectStatics) (c : σ) (res : Except SstErr α)
    (st' : ObjectStatics) (c' : σ) : Prop :=
  x st c = ((res, st'), c')

theorem Performs.pure (a : α) : Performs (pure a) st c (.ok a) st c := rfl

theorem Performs.fail (e : SstErr) : Performs (ObjM.fail e : ObjM _ α) st c (.error e) st c := rfl

theorem Performs.getStatics : Performs ObjM.getStatics st c (.ok st) st c := rfl

theorem Performs.setObject (object : List UInt8) :
    Performs (ObjM.setObject object) st c (.ok ()) { st with object := object } c := rfl

theorem Performs.setPlaintextBuf (buf : List UInt8) :
    Performs (ObjM.setPlaintextBuf buf) st c (.ok ()) { st with plaintextBuf := buf } c := rfl

theorem Performs.ofExcept {x : Except SstErr α} {a : α} (h : x = .ok a) :
    Performs (ObjM.ofExcept x) st c (.ok a) st c := by
  subst h
  rfl

/-- A function of the core runs beside the statics. -/
theorem Performs.core {x : StateM σ (Except SstErr α)} {res : Except SstErr α}
    (h : x c = (res, c')) : Performs (ObjM.core x) st c res st c' := by
  show (fun r : Except SstErr α × σ => ((r.1, st), r.2)) (x c) = _
  rw [h]

theorem ObjM.bind_apply {S : Type} {c : S} (x : ObjM (StateM S) α) (f : α → ObjM (StateM S) β) :
    (x >>= f) st c =
      match x st c with
      | ((.ok a, st'), c') => f a st' c'
      | ((.error e, st'), c') => ((.error e, st'), c') := by
  simp only [bind, StateT.bind]
  rcases x st c with ⟨⟨_ | a, st'⟩, c'⟩ <;> rfl

theorem Performs.bind {x : ObjM (StateM σ) α} {f : α → ObjM (StateM σ) β} {a : α}
    {res : Except SstErr β} (hx : Performs x st c (.ok a) st' c') (hf : Performs (f a) st' c' res st'' c'') :
    Performs (x >>= f) st c res st'' c'' := by
  unfold Performs at hx ⊢
  rw [ObjM.bind_apply, hx]
  exact hf

/-- The buffer is set on a condition. -/
theorem Performs.ite_setObject {p : Prop} [Decidable p] {object : List UInt8}
    {k : Unit → ObjM (StateM σ) α} {res : Except SstErr α}
    (h : Performs (k ()) { st with object := if p then object else st.object } c res st' c') :
    Performs (if p then ObjM.setObject object >>= k else k ()) st c res st' c' := by
  split
  · rename_i hp
    rw [if_pos hp] at h
    exact .bind (.setObject object) h
  · rename_i hp
    rw [if_neg hp] at h
    exact h

theorem Performs.bind_error {x : ObjM (StateM σ) α} {f : α → ObjM (StateM σ) β} {e : SstErr}
    (hx : Performs x st c (.error e) st' c') : Performs (x >>= f) st c (.error e) st' c' := by
  unfold Performs at hx ⊢
  rw [ObjM.bind_apply, hx]

/-- A copy within the bounds of the buffer. -/
theorem Performs.copyToObject {pos : Nat} {bytes : List UInt8}
    (h : pos + bytes.length ≤ st.object.length) :
    Performs (ObjM.copyToObject pos bytes) st c (.ok ())
      { st with object := sstUtilsMemcpy st.object pos bytes } c :=
  .bind .getStatics (.bind (.ofExcept (if_pos h)) (.setObject _))

/-- A copy past the buffer. -/
theorem Performs.copyToObject_error {pos : Nat} {bytes : List UInt8}
    (h : ¬ pos + bytes.length ≤ st.object.length) :
    Performs (ObjM.copyToObject pos bytes) st c (.error .bufferOverrun) st c := by
  refine .bind .getStatics (.bind_error ?_)
  rw [memcpyInto, if_neg h]
  exact .fail _

end Tfm.Sst
