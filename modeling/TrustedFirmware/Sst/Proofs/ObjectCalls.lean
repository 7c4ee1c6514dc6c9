import TrustedFirmware.Sst.ObjectStore
import TrustedFirmware.Sst.Proofs.ObjectLayer
import TrustedFirmware.Sst.Proofs.Advances

/-!
# Calls of the object layer on the core

The object layer reaches the store through the functions of the core only. What each of these keeps
is therefore kept by the calls of the object layer (`Leads`, with one rule for each constructor of
its monad); creating an object is the exception, it is the one function with an obligation.

The results are about invariants, and about runs in which flash calls may fail: `F` is the set of
calls that may. Which bytes an asset has is not their subject (that is
`TrustedFirmware.Sst.Proofs.AssetStore`).
-/

namespace Tfm.Sst

open Word32 BlockFlash Device

variable {α β : Type} {F : Call → Prop} {P Q Q' : CoreState → Prop}

/-! ## Programs over the core

A state of the core carries the log of its flash calls, so "only calls in `F` have failed" can be
said about the whole run and is inherited by its parts. -/

/-- `y'` is a later state than `y`. -/
structure CoreState.Later (y y' : CoreState) : Prop where
  log : y.log <+: y'.log
  tables : y.tables <+: y'.tables

theorem CoreState.Later.refl (y : CoreState) : y.Later y := ⟨List.prefix_rfl, List.prefix_rfl⟩

theorem CoreState.Later.trans {y y' y'' : CoreState} (h : y.Later y') (h' : y'.Later y'') :
    y.Later y'' := ⟨h.log.trans h'.log, h.tables.trans h'.tables⟩

theorem CoreState.Later.onlyFails {y y' : CoreState} (h : y.Later y') (hf : OnlyFails F y'.log) :
    OnlyFails F y.log := fun c hc => hf c (h.log.subset hc)

/-- A function that the object layer calls leads from `P` to `Q` if only calls in `F` fail. -/
def CoreLeads (F : Call → Prop) (P Q : CoreState → Prop) (x : StateM CoreState α) : Prop :=
  ∀ y, y.Later (x y).2 ∧ (P y → OnlyFails F (x y).2.log → Q (x y).2)

/-- A function of the object layer leads from `P` to `Q` if only calls in `F` fail. It does not
touch `sst_system_ready`. -/
def Leads (F : Call → Prop) (P Q : CoreState → Prop) (x : ObjM (StateM CoreState) α) : Prop :=
  ∀ st y, (x st y).1.2.systemReady = st.systemReady ∧ y.Later (x st y).2
    ∧ (P y → OnlyFails F (x st y).2.log → Q (x st y).2)

theorem Leads.pure (a : α) : Leads F P P (pure a) := fun _ y => ⟨rfl, .refl y, fun h _ => h⟩

theorem Leads.fail (e : SstErr) : Leads F P P (ObjM.fail e : ObjM (StateM CoreState) α) :=
  fun _ y => ⟨rfl, .refl y, fun h _ => h⟩

theorem Leads.ofExcept (x : Except SstErr α) :
    Leads F P P (ObjM.ofExcept x : ObjM (StateM CoreState) α) := by
  cases x with
  | ok a => exact Leads.pure a
  | error e => exact Leads.fail e

theorem Leads.getStatics : Leads F P P (ObjM.getStatics : ObjM (StateM CoreState) _) :=
  fun _ y => ⟨rfl, .refl y, fun h _ => h⟩

theorem Leads.setObject (object : List UInt8) :
    Leads F P P (ObjM.setObject object : ObjM (StateM CoreState) _) :=
  fun _ y => ⟨rfl, .refl y, fun h _ => h⟩

theorem Leads.setPlaintextBuf (buf : List UInt8) :
    Leads F P P (ObjM.setPlaintextBuf buf : ObjM (StateM CoreState) _) :=
  fun _ y => ⟨rfl, .refl y, fun h _ => h⟩

theorem CoreLeads.core {x : StateM CoreState (Except SstErr α)} (hx : CoreLeads F P Q x) :
    Leads F P Q (ObjM.core x) := fun _ y => ⟨rfl, hx y⟩

/-- Parts in sequence. When the first one fails, `Q'` has to hold already. -/
theorem Leads.bind {x : ObjM (StateM CoreState) α} {k : α → ObjM (StateM CoreState) β}
    (hx : Leads F P Q x) (hk : ∀ a, Leads F Q Q' (k a)) (hQ : ∀ y, Q y → Q' y) :
    Leads F P Q' (x >>= k) := by
  intro st y
  have h1 := hx st y
  rw [ObjM.bind_apply]
  -- the first part fails, or the rest goes on from where it ended
  rcases hxy : x st y with ⟨⟨_ | a, st'⟩, y'⟩ <;> rw [hxy] at h1
  · exact ⟨h1.1, h1.2.1, fun hP hf => hQ _ (h1.2.2 hP hf)⟩
  · have h2 := hk a st' y'
    exact ⟨h2.1.trans h1.1, h1.2.1.trans h2.2.1,
      fun hP hf => h2.2.2 (h1.2.2 hP (h2.2.1.onlyFails hf)) hf⟩

/-- The state that is reached may be described less precisely. -/
theorem Leads.mono {x : ObjM (StateM CoreState) α} (hx : Leads F P Q x) (h : ∀ y, Q y → Q' y) :
    Leads F P Q' x :=
  fun st y => ⟨(hx st y).1, (hx st y).2.1, fun hP hf => h _ ((hx st y).2.2 hP hf)⟩

/-- Sequencing of parts that keep `P`. -/
theorem Leads.seq {x : ObjM (StateM CoreState) α} {k : α → ObjM (StateM CoreState) β}
    (hx : Leads F P P x) (hk : ∀ a, Leads F P P (k a)) : Leads F P P (x >>= k) :=
  hx.bind hk fun _ h => h

theorem Leads.copyToObject (pos : Nat) (bytes : List UInt8) :
    Leads F P P (ObjM.copyToObject pos bytes : ObjM (StateM CoreState) _) :=
  Leads.getStatics.seq fun _ => (Leads.ofExcept _).seq fun _ => Leads.setObject _

/-- What is left of a create when the object is not found. -/
def createNew (cfg : BuildOptions) (core : CoreInterface (StateM CoreState)) (uuid : UInt32)
    (type size : Nat) : ObjM (StateM CoreState) Unit := do
  ObjM.setObject (sstObjectInitObject cfg uuid type size)
  if cfg.encryption then sstEncryptedObjectCreate cfg core uuid
  else
    ObjM.core (core.create uuid (sstObjectSize cfg size))
    let st ← ObjM.getStatics
    ObjM.core (core.write uuid st.object 0 cfg.objectHeaderSize)

/-- The call of a create ends where the create itself ends. -/
theorem objectCall_create_snd {cfg : BuildOptions} {core : CoreInterface (StateM CoreState)}
    {uuid : UInt32} {type size : Nat} {st : ObjectStatics} {y : CoreState}
    (hready : st.systemReady = true) :
    (sstObjectCall cfg core (.create uuid type size) st y).2
      = (sstObjectCreate cfg core uuid type size st y).2 := by
  rw [sstObjectCall, ObjM.bind_apply]
  show ((if !st.systemReady then ObjM.fail .systemError else do
    sstObjectCreate cfg core uuid type size
    pure []) st y : (Except SstErr (List UInt8) × ObjectStatics) × CoreState).2 = _
  rw [hready]
  show ((sstObjectCreate cfg core uuid type size >>= fun _ => pure []) st y :
    (Except SstErr (List UInt8) × ObjectStatics) × CoreState).2 = _
  rw [ObjM.bind_apply]
  rcases sstObjectCreate cfg core uuid type size st y with ⟨⟨_ | a, st'⟩, y''⟩ <;> rfl

/-- An id that is not found is created. -/
theorem objectCall_create_of_notFound {cfg : BuildOptions} {core : CoreInterface (StateM CoreState)}
    {uuid : UInt32} {type size : Nat} {st : ObjectStatics} {y y' : CoreState}
    (hready : st.systemReady = true) (h : core.exist uuid y = (.error .assetNotFound, y')) :
    (sstObjectCall cfg core (.create uuid type size) st y).2
      = (createNew cfg core uuid type size st y').2 := by
  have happly {α β : Type} (x : StateM CoreState α) (k : α → StateM CoreState β) :
      (x >>= k) y = k (x y).1 (x y).2 := rfl
  rw [objectCall_create_snd hready, sstObjectCreate, happly, h]
  rfl

/-- Every other result of the lookup is the end of a create. -/
theorem objectCall_create_of_ne_notFound {cfg : BuildOptions}
    {core : CoreInterface (StateM CoreState)} {uuid : UInt32} {type size : Nat}
    {st : ObjectStatics} {y y' : CoreState} {res : Except SstErr Unit}
    (hready : st.systemReady = true) (h : core.exist uuid y = (res, y'))
    (hres : res ≠ .error .assetNotFound) :
    (sstObjectCall cfg core (.create uuid type size) st y).2 = y' := by
  have happly {α β : Type} (x : StateM CoreState α) (k : α → StateM CoreState β) :
      (x >>= k) y = k (x y).1 (x y).2 := rfl
  rw [objectCall_create_snd hready, sstObjectCreate, happly, h]
  cases res with
  | ok _ => rfl
  -- an error of the lookup other than "not found" is returned as it is
  | error e => cases e <;> first | rfl | exact absurd rfl hres

/-! ## What the functions of the core keep

One lemma for each function of `sst_object_system.c`, by the structure of its body. -/

/-- The functions of the core other than create keep `P`. -/
structure CoreKeeps (F : Call → Prop) (core : CoreInterface (StateM CoreState))
    (P : CoreState → Prop) : Prop where
  exist : ∀ uuid, CoreLeads F P P (core.exist uuid)
  write : ∀ uuid data offset size, CoreLeads F P P (core.write uuid data offset size)
  read : ∀ uuid offset size, CoreLeads F P P (core.read uuid offset size)
  getInfo : ∀ uuid, CoreLeads F P P (core.getInfo uuid)
  delete : ∀ uuid, CoreLeads F P P (core.delete uuid)
  cryptoGetIv : CoreLeads F P P core.cryptoGetIv

section Calls

variable {cfg : BuildOptions} {core : CoreInterface (StateM CoreState)} (hcore : CoreKeeps F core P)
include hcore

omit hcore in
theorem leads_authDecrypt (curSize : Nat) :
    Leads F P P (sstObjectAuthDecrypt cfg curSize : ObjM (StateM CoreState) Unit) := by
  refine (Leads.ofExcept _).seq fun _ => (Leads.setPlaintextBuf _).seq fun _ =>
    Leads.getStatics.seq fun st => ?_
  split
  · exact Leads.fail _
  · exact (Leads.ofExcept _).seq fun _ => (Leads.setPlaintextBuf _).seq fun _ =>
      Leads.getStatics.seq fun _ => Leads.copyToObject _ _

theorem leads_authEncrypt (curSize : Nat) : Leads F P P (sstObjectAuthEncrypt cfg core curSize) := by
  have hiv : Leads F P P (ObjM.core (Except.ok <$> core.cryptoGetIv)) := by
    intro st y
    exact ⟨rfl, hcore.cryptoGetIv y⟩
  refine (Leads.ofExcept _).seq fun _ => hiv.seq fun iv => (Leads.copyToObject _ _).seq fun _ =>
    Leads.getStatics.seq fun st => ?_
  split
  · exact Leads.fail _
  · exact (Leads.ofExcept _).seq fun _ => (Leads.copyToObject _ _).seq fun _ =>
      (Leads.setPlaintextBuf _).seq fun _ => Leads.getStatics.seq fun _ => Leads.copyToObject _ _

theorem leads_readEncryptedObject (uuid : UInt32) :
    Leads F P P (sstReadEncryptedObject cfg core uuid) :=
  (hcore.getInfo uuid).core.seq fun _ => (Leads.setObject _).seq fun _ =>
    (hcore.read _ _ _).core.seq fun _ => (Leads.copyToObject _ _).seq fun _ => leads_authDecrypt _

theorem leads_encryptedObjectWrite (uuid : UInt32) :
    Leads F P P (sstEncryptedObjectWrite cfg core uuid) :=
  Leads.getStatics.seq fun _ => (leads_authEncrypt hcore _).seq fun _ =>
    Leads.getStatics.seq fun _ => (hcore.write _ _ _ _).core

theorem leads_load (uuid : UInt32) : Leads F P P (sstObjectLoad cfg core uuid) := by
  unfold sstObjectLoad
  split
  · exact leads_readEncryptedObject hcore uuid
  · refine (hcore.read _ _ _).core.seq fun _ => (Leads.copyToObject _ _).seq fun _ =>
      Leads.getStatics.seq fun _ => ?_
    dsimp only
    split
    · exact (hcore.read _ _ _).core.seq fun _ => Leads.copyToObject _ _
    · exact Leads.pure ()

theorem leads_loadHeader (uuid : UInt32) : Leads F P P (sstObjectLoadHeader cfg core uuid) := by
  unfold sstObjectLoadHeader
  split
  · exact leads_readEncryptedObject hcore uuid
  · exact (hcore.read _ _ _).core.seq fun _ => Leads.copyToObject _ _

theorem leads_read (uuid : UInt32) (offset size : Nat) :
    Leads F P P (sstObjectRead cfg core uuid offset size) :=
  (leads_load hcore uuid).seq fun _ => Leads.getStatics.seq fun _ => (Leads.ofExcept _).seq fun _ =>
    Leads.pure _

theorem leads_write (uuid : UInt32) (data : List UInt8) (offset : Nat) :
    Leads F P P (sstObjectWrite cfg core uuid data offset) := by
  refine (leads_load hcore uuid).seq fun _ => Leads.getStatics.seq fun st => ?_
  -- the object is stored again
  have hstore : Leads F P P (if cfg.encryption then sstEncryptedObjectWrite cfg core uuid
      else do
        let st ← ObjM.getStatics
        ObjM.core (core.write uuid st.object 0
          (sstObjectSize cfg (objectInfo cfg st.object).sizeCurrent))) := by
    split
    · exact leads_encryptedObjectWrite hcore uuid
    · exact Leads.getStatics.seq fun _ => (hcore.write _ _ _ _).core
  -- the size grows if the new bytes end behind the old ones
  have hgrow (newSize : Nat) (object : List UInt8) : Leads F P P (do
      if newSize > (objectInfo cfg object).sizeCurrent then
        ObjM.setObject (setSizeCurrent cfg object newSize)
      if cfg.encryption then sstEncryptedObjectWrite cfg core uuid
      else do
        let st ← ObjM.getStatics
        ObjM.core (core.write uuid st.object 0
          (sstObjectSize cfg (objectInfo cfg st.object).sizeCurrent))) := by
    dsimp only
    split
    · exact (Leads.setObject _).seq fun _ => hstore
    · exact hstore
  split
  · exact Leads.fail _
  · exact (Leads.copyToObject _ _).seq fun _ => Leads.getStatics.seq fun _ => hgrow _ _

/-- Setting the attributes keeps what the core keeps. -/
theorem leads_setAttributes (uuid : UInt32) (attrs : AssetAttrs) :
    Leads F P P (sstObjectSetAttributes cfg core uuid attrs) := by
  refine (leads_loadHeader hcore uuid).seq fun _ => (Leads.copyToObject _ _).seq fun _ => ?_
  split
  · exact leads_encryptedObjectWrite hcore uuid
  · exact Leads.getStatics.seq fun _ => (hcore.write _ _ _ _).core

omit hcore in
/-- The rest of a function runs or does not run, depending on a result of the core. -/
theorem leads_of_checked {x : StateM CoreState (Except SstErr Unit)}
    {body : ObjM (StateM CoreState) Unit}
    {k : ObjectStatics → Except SstErr Unit → StateM CoreState (Except SstErr Unit × ObjectStatics)}
    (hk : ∀ st res, k st res = body st ∨ k st res = pure (res, st))
    (hx : CoreLeads F P P x) (hbody : Leads F P Q body) (hPQ : ∀ y, P y → Q y) :
    Leads F P Q (fun st => x >>= k st) := by
  intro st y
  have h1 := hx y
  show (fun o : (Except SstErr Unit × ObjectStatics) × CoreState =>
      o.1.2.systemReady = st.systemReady ∧ y.Later o.2 ∧ (P y → OnlyFails F o.2.log → Q o.2))
    (k st (x y).1 (x y).2)
  rcases hk st (x y).1 with h | h <;> rw [h]
  · have h2 := hbody st (x y).2
    exact ⟨h2.1, h1.1.trans h2.2.1,
      fun hy hf => h2.2.2 (h1.2 hy (h2.2.1.onlyFails hf)) hf⟩
  · exact ⟨rfl, h1.1, fun hy hf => hPQ _ (h1.2 hy hf)⟩

omit hcore in
/-- The rest of a create leads to `Q`, if reserving the object does. -/
theorem leads_createNew {uuid : UInt32} (type : Nat) {size : Nat} (hQ : CoreKeeps F core Q)
    (hcreate : CoreLeads F P Q (core.create uuid (sstObjectSize cfg size))) :
    Leads F P Q (createNew cfg core uuid type size) := by
  intro st y
  unfold createNew
  by_cases henc : cfg.encryption = true
  · simp only [henc, if_true]
    -- the size is taken from the object that was just initialised
    have hrest : Leads F P Q (do
        ObjM.core (core.create uuid (sstObjectSize cfg size))
        sstObjectAuthEncrypt cfg core 0
        let st ← ObjM.getStatics
        ObjM.core (core.write uuid st.object 0 (sstObjectSize cfg 0))) :=
      hcreate.core.bind (fun _ => (leads_authEncrypt hQ 0).seq fun _ =>
        Leads.getStatics.seq fun _ => (hQ.write _ _ _ _).core) fun _ h => h
    have h := hrest { st with object := sstObjectInitObject cfg uuid type size } y
    rw [← sstObjectSize_initObject cfg uuid type size] at h
    exact h
  · simp only [henc]
    have hrest : Leads F P Q (do
        ObjM.core (core.create uuid (sstObjectSize cfg size))
        let st ← ObjM.getStatics
        ObjM.core (core.write uuid st.object 0 cfg.objectHeaderSize)) :=
      hcreate.core.bind (fun _ => Leads.getStatics.seq fun _ => (hQ.write _ _ _ _).core) fun _ h => h
    exact hrest { st with object := sstObjectInitObject cfg uuid type size } y

omit hcore in
/-- A create leads to `Q`, if reserving the object does and the rest keeps `Q`. -/
theorem leads_create {uuid : UInt32} (type : Nat) {size : Nat} (hPQ : ∀ y, P y → Q y)
    (hexist : CoreLeads F P P (core.exist uuid)) (hQ : CoreKeeps F core Q)
    (hcreate : CoreLeads F P Q (core.create uuid (sstObjectSize cfg size))) :
    Leads F P Q (sstObjectCreate cfg core uuid type size) := by
  refine leads_of_checked (fun st res => ?_) hexist (leads_createNew type hQ hcreate) hPQ
  -- only "not found" lets the create go on
  cases res with
  | ok _ => exact Or.inr rfl
  | error e => cases e <;> first | exact Or.inl rfl | exact Or.inr rfl

/-- Every call of the object layer but a create keeps what the core keeps. -/
theorem leads_objectCall {call : ObjectCall}
    (hcall : ∀ uuid type size, call ≠ .create uuid type size) :
    Leads F P P (sstObjectCall cfg core call) := by
  refine Leads.getStatics.seq fun st => ?_
  split
  · exact Leads.fail _
  · cases call with
    | create uuid type size => exact absurd rfl (hcall uuid type size)
    | read uuid offset size => exact leads_read hcore uuid offset size
    | write uuid data offset => exact (leads_write hcore uuid data offset).seq fun _ => Leads.pure _
    | getInfo uuid =>
      exact (leads_loadHeader hcore uuid).seq fun _ => Leads.getStatics.seq fun _ => Leads.pure _
    | getAttributes uuid =>
      exact (leads_loadHeader hcore uuid).seq fun _ => Leads.getStatics.seq fun _ => Leads.pure _
    | setAttributes uuid attrs =>
      exact (leads_setAttributes hcore uuid attrs).seq fun _ => Leads.pure _
    | delete uuid => exact (hcore.delete uuid).core.seq fun _ => Leads.pure _

omit hcore in
theorem leads_objectCall_create {uuid : UInt32} (type : Nat) {size : Nat} (hPQ : ∀ y, P y → Q y)
    (hexist : CoreLeads F P P (core.exist uuid)) (hQ : CoreKeeps F core Q)
    (hcreate : CoreLeads F P Q (core.create uuid (sstObjectSize cfg size))) :
    Leads F P Q (sstObjectCall cfg core (.create uuid type size)) := by
  refine Leads.getStatics.bind (fun st => ?_) hPQ
  split
  · exact (Leads.fail _).mono hPQ
  · exact (leads_create type hPQ hexist hQ hcreate).bind (fun _ => Leads.pure _) fun _ h => h

end Calls

end Tfm.Sst
