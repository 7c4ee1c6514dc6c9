import TrustedFirmware.Sst.Properties.LayoutInvariant
import TrustedFirmware.Sst.Proofs.ObjectCalls

/-!
# Ids of stored objects stay unique, unless a stored object is created again

`sst_object_create` takes every error of the lookup for "not found", also that of a flash read that
failed, and goes on to create the object. A run of the object layer is a list of calls, each with the
flash reads that fail while it runs. Its committed tables have unique ids as long as no create is
told that a stored object does not exist while there is room for another one; and in every state of
every run such a create is only a failing read away.

The core runs on under failing reads (`Advances`), so all that has to be known of a write and of a
delete is that they add no entry; a create adds the one it was called with.
-/

namespace Tfm.Sst

open Word32 BlockFlash Device

variable {cfg : Config}

/-! ## One call

The functions of the core as steps of the object layer, for a property of tables in place of "the
ids are unique": creates need one condition, the other calls none. -/

/-- A property of tables that writing and deleting keep. -/
structure KeptByUpdates (cfg : Config) (A : Tables → Prop) : Prop where
  written : ∀ T s d i curSize, A T → A (T.written s d i curSize)
  deleted : ∀ T s d i, A T → A (T.deleted cfg s d i)

theorem idsUnique_kept : KeptByUpdates cfg Tables.UniqueIds :=
  ⟨fun _ _ _ _ _ h => h.written, fun _ _ _ _ h => h.deleted⟩

theorem true_kept : KeptByUpdates cfg fun _ => True := ⟨fun _ _ _ _ _ h => h, fun _ _ _ _ h => h⟩

/-- The core is running with active tables in `A`, and has committed tables in `Q`. -/
structure RunningWith (cfg : Config) (A Q : Tables → Prop) (y : CoreState) : Prop where
  running : Running cfg y.ram y.flash
  active : A (activeTables cfg y.ram y.flash)
  committed : ∀ T ∈ y.tables, Q T

/-- The faults: flash reads. -/
abbrev ReadFault (c : Call) : Prop := c.readsFlash = true

section Calls

variable {A A' Q : Tables → Prop} {fails : Nat → Bool}

/-- A call of the core adds to the log and to the committed tables. -/
theorem later_call {α : Type} (m : SstM α) (y : CoreState) :
    y.Later (CoreState.call cfg fails m y).2 := ⟨List.prefix_append _ _, List.prefix_append _ _⟩

/-- A function of the core that goes from `A` to `A'`. -/
theorem coreLeads_call {α : Type} {m : SstM α} (hA : ∀ T, A' T → Q T)
    (h : ∀ r f n, Running cfg r f → A (activeTables cfg r f) →
      OnlyFails ReadFault (exec device fails n m r f).log →
      Running cfg (exec device fails n m r f).mem (exec device fails n m r f).dev
        ∧ A' (activeTables cfg (exec device fails n m r f).mem (exec device fails n m r f).dev)) :
    CoreLeads ReadFault (RunningWith cfg A Q) (RunningWith cfg A' Q) (CoreState.call cfg fails m) := by
  refine fun y => ⟨later_call m y, fun hy hf => ?_⟩
  obtain ⟨hrun, hact⟩ := h y.ram y.flash _ hy.running hy.active (OnlyFails.append_iff.mp hf).2
  refine ⟨hrun, hact, fun T hT => ?_⟩
  -- committed before the call, or by it
  rcases List.mem_append.mp hT with hT | hT
  · exact hy.committed T hT
  · rw [List.mem_singleton.mp hT]
    exact hA _ hact

/-- A function that only reads keeps any property. -/
theorem coreLeads_readsOnly {α : Type} {m : SstM α} (hA : ∀ T, A T → Q T) (hm : ReadsOnly m) :
    CoreLeads ReadFault (RunningWith cfg A Q) (RunningWith cfg A Q) (CoreState.call cfg fails m) := by
  refine coreLeads_call hA fun r f n hrun hact _ => ?_
  obtain ⟨hmem, hdev⟩ := ReadsOnly.readOnly hm fails n r f
  rw [hmem, hdev]
  exact ⟨hrun, hact⟩

variable (hc : cfg.CryptoWorks)
include hc

/-- The functions of the core other than create keep what writing and deleting keep. -/
theorem coreKeeps_of_kept (hA : KeptByUpdates cfg A) :
    CoreKeeps ReadFault (flashCore cfg fails) (RunningWith cfg A A) where
  exist u := coreLeads_readsOnly (fun _ h => h) (readsOnly_exist u)
  write u data offset size := coreLeads_call (fun _ h => h) fun r f n hrun hact hf => by
    refine (write_advances hrun hc u data _ _ fails n hf).imp_right fun h => ?_
    rcases h with h | ⟨i, curSize, h⟩ <;> rw [h]
    · exact hact
    · exact hA.written _ _ _ _ _ hact
  read u offset size := coreLeads_readsOnly (fun _ h => h) (readsOnly_read u _ _)
  getInfo u := coreLeads_readsOnly (fun _ h => h) (readsOnly_getInfo u)
  delete u := coreLeads_call (fun _ h => h) fun r f n hrun hact hf => by
    refine (delete_advances hrun hc u fails n hf).imp_right fun h => ?_
    rcases h with h | ⟨i, -, h⟩ <;> rw [h]
    · exact hact
    · exact hA.deleted _ _ _ _ hact
  cryptoGetIv y := ⟨⟨List.prefix_rfl, List.prefix_rfl⟩, fun hy _ =>
    ⟨⟨hy.running.metablocks, hy.running.placed, hy.running.dataScratch⟩, hy.active, hy.committed⟩⟩

omit hc in
/-- The size that the object layer asks the core to reserve. -/
theorem toNat_objectSize (size : Nat) :
    (UInt32.ofNat (sstObjectSize cfg.toBuildOptions size)).toNat
      = sstObjectSize cfg.toBuildOptions size :=
  Nat.mod_eq_of_lt (add32_lt _ _)

/-- A create leads from `A` to `Q`, when `Q` holds of what it may add. -/
theorem coreLeads_create {u : UInt32} {size : Nat}
    (hA : ∀ T, A T → Q T)
    (hnew : ∀ T s i l, A T → T.HasRoom cfg (sstObjectSize cfg.toBuildOptions size) → ¬ T.Live i →
      Q (T.created cfg s i l (sstObjectSize cfg.toBuildOptions size) u)) :
    CoreLeads ReadFault (RunningWith cfg A Q) (RunningWith cfg Q Q)
      ((flashCore cfg fails).create u (sstObjectSize cfg.toBuildOptions size)) := by
  refine coreLeads_call (fun _ h => h) fun r f n hrun hact hf => ?_
  refine (create_advances hrun hc u _ fails n hf).imp_right fun h => ?_
  rw [toNat_objectSize] at h
  rcases h with h | ⟨hroom, i, l, hcan, h⟩ <;> rw [h]
  · exact hA _ hact
  · exact hnew _ _ _ _ hact hroom hcan.entry_free

end Calls

/-! ## Creating a stored object again

The counterpart: one failing read, of the first flash call, and the create goes through. -/

/-- The new entry has the id of the stored object. -/
theorem Tables.Holds.not_unique_created {T : Tables} {s i l size : Nat} {u : UInt32} (h : T.Holds u) (hi : ¬ T.Live i) :
    ¬ (T.created cfg s i l size u).UniqueIds := by
  obtain ⟨j, hj, hid⟩ := h
  -- the new entry was free, so it is another one than that of the stored object
  have hji : j ≠ i := fun he => hi (he ▸ hj)
  intro hunique
  refine hji (hunique j i ?_ ?_ ?_)
  · rwa [Tables.Live, Tables.created_obj_ne hji]
  · rw [Tables.Live, Tables.created_obj_self, ← hid]
    exact hj
  · rw [Tables.created_obj_ne hji, Tables.created_obj_self, hid]

section Recreate

/-- Only the first flash call fails. -/
def firstFails : Nat → Bool := fun n => n == 0

theorem firstFails_of_pos {n : Nat} (hn : 0 < n) (k : Nat) (hk : n ≤ k) : firstFails k = false := by
  rw [firstFails, beq_eq_false_iff_ne]
  omega

variable {r : Ram} {f : Flash} {u : UInt32}

/-- When its first read fails, the lookup finds nothing. -/
theorem exist_of_firstFails (hpos : 0 < cfg.numAssets) :
    exec device firstFails 0 (sstCoreObjectExist cfg u) r f
      = ⟨.error .assetNotFound, r, f, [(.read r.ctx.activeMetablock (sstMetaObjectMetaOffset cfg 0)
          sizeofAssetmeta, false)]⟩ := by
  -- the scan of the table starts with entry 0, and stops at the failed read
  obtain ⟨k, hk⟩ := Nat.exists_eq_succ_of_ne_zero hpos.ne'
  have hread : exec device firstFails 0 (sstMetaReadObjectMeta cfg 0) r f
      = ⟨.error .systemError, r, f, [(.read r.ctx.activeMetablock (sstMetaObjectMetaOffset cfg 0)
          sizeofAssetmeta, false)]⟩ := rfl
  rw [sstCoreObjectExist, exec_bind, exec_orElse, sstCoreGetObjectIdx, hk, List.range_succ_eq_map,
    sstCoreGetObjectIdxFrom, exec_bind, exec_orElse, hread]

/-- Without faults no call fails. -/
theorem onlyFails_noFaults {α : Type} {F : Call → Prop} (m : SstM α) (n : Nat) :
    OnlyFails F (exec device noFaults n m r f).log := by
  obtain ⟨v, r', l, hruns⟩ := exists_runs device m r f
  rw [hruns n]
  intro c hc
  obtain ⟨c', -, h⟩ := List.mem_map.mp hc
  cases h

/-- Tables with an id twice were committed, after the first call had failed. -/
structure Duplicated (y : CoreState) : Prop where
  pos : 0 < y.log.length
  faults : OnlyFails ReadFault y.log
  committed : ∃ T ∈ y.tables, ¬ T.UniqueIds

/-- After the first call, functions of the core run without faults. -/
theorem call_firstFails {α : Type} (m : SstM α) {y : CoreState} (hpos : 0 < y.log.length) :
    exec device firstFails y.log.length m y.ram y.flash
      = exec device noFaults y.log.length m y.ram y.flash :=
  exec_of_fails_before m _ _ (firstFails_of_pos hpos)

/-- A later call adds no failed calls to the log. -/
theorem onlyFails_call {α : Type} (cfg : Config) (m : SstM α) {y : CoreState} (hpos : 0 < y.log.length)
    (hf : OnlyFails ReadFault y.log) :
    0 < (CoreState.call cfg firstFails m y).2.log.length
      ∧ OnlyFails ReadFault (CoreState.call cfg firstFails m y).2.log := by
  refine ⟨by simp only [CoreState.call, List.length_append]; omega, OnlyFails.append_iff.mpr ⟨hf, ?_⟩⟩
  rw [call_firstFails m hpos]
  exact onlyFails_noFaults m _

theorem coreLeads_duplicated {α : Type} (m : SstM α) :
    CoreLeads (fun _ => True) Duplicated Duplicated (CoreState.call cfg firstFails m) := by
  refine fun y => ⟨later_call m y, fun hy _ => ?_⟩
  obtain ⟨hpos, hf⟩ := onlyFails_call cfg m hy.pos hy.faults
  obtain ⟨T, hT, hdup⟩ := hy.committed
  exact ⟨hpos, hf, T, List.mem_append_left _ hT, hdup⟩

/-- No function of the core takes the duplicate back from the record. -/
theorem coreKeeps_duplicated :
    CoreKeeps (fun _ => True) (flashCore cfg firstFails) Duplicated where
  exist _ := coreLeads_duplicated _
  write _ _ _ _ := coreLeads_duplicated _
  read _ _ _ := coreLeads_duplicated _
  getInfo _ := coreLeads_duplicated _
  delete _ := coreLeads_duplicated _
  cryptoGetIv _ := ⟨⟨List.prefix_rfl, List.prefix_rfl⟩,
    fun hy _ => ⟨hy.pos, hy.faults, hy.committed⟩⟩

variable {size : Nat} {x : ObjectStatics × CoreState} (hc : cfg.CryptoWorks)
  (hrun : Running cfg x.2.ram x.2.flash)
  (hholds : (activeTables cfg x.2.ram x.2.flash).Holds u)
  (hroom : (activeTables cfg x.2.ram x.2.flash).HasRoom cfg
    (sstObjectSize cfg.toBuildOptions size))
include hc hrun hholds hroom

/-- Once the lookup has failed, the object is created a second time. -/
theorem coreLeads_recreate :
    CoreLeads (fun _ => True)
      (fun y => 0 < y.log.length ∧ OnlyFails ReadFault y.log ∧ y.ram = x.2.ram ∧ y.flash = x.2.flash)
      Duplicated ((flashCore cfg firstFails).create u (sstObjectSize cfg.toBuildOptions size)) := by
  refine fun y => ⟨later_call _ y, ?_⟩
  rintro ⟨hpos, hf, hram, hflash⟩ -
  obtain ⟨hpos', hf'⟩ := onlyFails_call cfg
    (sstCoreObjectCreate cfg u (.ofNat (sstObjectSize cfg.toBuildOptions size))) hpos hf
  refine ⟨hpos', hf', _, List.mem_append_right _ (List.mem_singleton_self _), ?_⟩
  rw [call_firstFails _ hpos, hram, hflash]
  -- there is room, so the create commits
  rcases create_outcome hrun hc rfl u (.ofNat (sstObjectSize cfg.toBuildOptions size)) with
    ⟨-, hno⟩ | ⟨i, l, hcan, -, hcom⟩
  · rw [toNat_objectSize] at hno
    exact absurd hroom hno
  · have hrest := (create_running hrun hcan hcom).2
    rw [run, ← (exec_eq_noFaults (onlyFails_noFaults (F := fun _ => False) _ _) 0)] at hrest
    rw [hrest]
    exact hholds.not_unique_created hcan.entry_free

/-- A create of a stored object whose lookup fails commits its id twice. -/
theorem objectStep_recreate (hready : x.1.systemReady = true) (type : Nat) :
    Duplicated (objectStep cfg firstFails (.create u type size) x).2 := by
  obtain ⟨j, hj, -⟩ := id hholds
  have hpos : 0 < cfg.numAssets := Nat.zero_lt_of_lt (hrun.placed.slots.live_lt j hj)
  have hexist : (flashCore cfg firstFails).exist u { x.2 with log := [] }
      = (.error .assetNotFound, ⟨x.2.ram, x.2.flash, [(.read x.2.ram.ctx.activeMetablock
          (sstMetaObjectMetaOffset cfg 0) sizeofAssetmeta, false)],
          x.2.tables ++ [activeTables cfg x.2.ram x.2.flash]⟩) := by
    show CoreState.call cfg firstFails (sstCoreObjectExist cfg u) _ = _
    simp only [CoreState.call, List.length_nil, exist_of_firstFails hpos, List.nil_append]
  have hnew := leads_createNew type coreKeeps_duplicated (coreLeads_recreate hc hrun hholds hroom)
    x.1 ⟨x.2.ram, x.2.flash, [(.read x.2.ram.ctx.activeMetablock (sstMetaObjectMetaOffset cfg 0)
      sizeofAssetmeta, false)], x.2.tables ++ [activeTables cfg x.2.ram x.2.flash]⟩
  show Duplicated (sstObjectCall cfg.toBuildOptions (flashCore cfg firstFails)
    (.create u type size) x.1 { x.2 with log := [] } :
      (Except SstErr (List UInt8) × ObjectStatics) × CoreState).2
  rw [objectCall_create_of_notFound hready hexist]
  refine hnew.2.2 ⟨Nat.one_pos, fun c h => ?_, rfl, rfl⟩ fun _ _ => trivial
  cases List.mem_singleton.mp h
  rfl

end Recreate

/-! ## Runs

A run is a list of calls, each with its own faults; the committed tables of a run are collected in
its state. What a call must not do is said of the state the run has reached, under the faults of that
call. -/

/-- A call of the object layer, and the flash calls that fail while it runs. -/
abbrev FaultyCall := ObjectCall × (Nat → Bool)

/-- The calls of a run, one after the other. -/
def runCalls (cfg : Config) : ObjectStatics × CoreState → List FaultyCall → ObjectStatics × CoreState
  | x, [] => x
  | x, s :: steps => runCalls cfg (objectStep cfg s.2 s.1 x) steps

/-- Nothing but flash reads fails in the run. -/
def OnlyReadsFail (cfg : Config) : ObjectStatics × CoreState → List FaultyCall → Prop
  | _, [] => True
  | x, s :: steps => OnlyFails ReadFault (objectStep cfg s.2 s.1 x).2.log
      ∧ OnlyReadsFail cfg (objectStep cfg s.2 s.1 x) steps

/-- A create of a stored object, while there is room for another one, whose lookup reports under the
faults of the call that the object does not exist. -/
def Recreates (cfg : Config) (x : ObjectStatics × CoreState) : FaultyCall → Prop
  | (.create u _ size, fails) => (activeTables cfg x.2.ram x.2.flash).Holds u
      ∧ (activeTables cfg x.2.ram x.2.flash).HasRoom cfg (sstObjectSize cfg.toBuildOptions size)
      ∧ (exec device fails 0 (sstCoreObjectExist cfg u) x.2.ram x.2.flash).val
        = .error .assetNotFound
  | _ => False

/-- No call of the run creates a stored object again. -/
def NoneRecreated (cfg : Config) : ObjectStatics × CoreState → List FaultyCall → Prop
  | _, [] => True
  | x, s :: steps => ¬ Recreates cfg x s ∧ NoneRecreated cfg (objectStep cfg s.2 s.1 x) steps

theorem runCalls_append {x : ObjectStatics × CoreState} (steps later : List FaultyCall) :
    runCalls cfg x (steps ++ later) = runCalls cfg (runCalls cfg x steps) later := by
  induction steps generalizing x with
  | nil => rfl
  | cons s steps ih => exact ih

theorem OnlyReadsFail.append {x : ObjectStatics × CoreState} {steps later : List FaultyCall}
    (h : OnlyReadsFail cfg x steps) (h' : OnlyReadsFail cfg (runCalls cfg x steps) later) :
    OnlyReadsFail cfg x (steps ++ later) := by
  induction steps generalizing x with
  | nil => exact h'
  | cons s steps ih => exact ⟨h.1, ih h.2 h'⟩

section Runs

variable {x : ObjectStatics × CoreState} {call : ObjectCall} {fails : Nat → Bool}
  (hc : cfg.CryptoWorks)
include hc

/-- What one call keeps, a create under the condition that the new entry is acceptable. -/
theorem objectStep_keeps {A : Tables → Prop} (hA : KeptByUpdates cfg A)
    (hx : RunningWith cfg A A x.2)
    (hf : OnlyFails ReadFault (objectStep cfg fails call x).2.log)
    (hnew : ∀ u type size, call = .create u type size →
      (activeTables cfg x.2.ram x.2.flash).HasRoom cfg (sstObjectSize cfg.toBuildOptions size) →
      ∀ s i l, ¬ (activeTables cfg x.2.ram x.2.flash).Live i →
        A ((activeTables cfg x.2.ram x.2.flash).created cfg s i l
          (sstObjectSize cfg.toBuildOptions size) u)) :
    (objectStep cfg fails call x).1.systemReady = x.1.systemReady
      ∧ RunningWith cfg A A (objectStep cfg fails call x).2 := by
  have hkeeps : CoreKeeps ReadFault (flashCore cfg fails) (RunningWith cfg A A) :=
    coreKeeps_of_kept hc hA
  have hx' : RunningWith cfg A A { x.2 with log := [] } := ⟨hx.running, hx.active, hx.committed⟩
  -- a create, for which the condition is made, or one of the other calls
  by_cases hcreate : ∃ u type size, call = .create u type size
  · obtain ⟨u, type, size, rfl⟩ := hcreate
    -- the tables stay what they are until the object is created
    have hleads := leads_objectCall_create type
      (P := RunningWith cfg (fun T => A T ∧ T = activeTables cfg x.2.ram x.2.flash) A)
      (fun y hy => ⟨hy.running, hy.active.1, hy.committed⟩)
      (coreLeads_readsOnly (fun _ h => h.1) (readsOnly_exist u)) hkeeps
      (coreLeads_create hc (fun _ h => h.1) fun T s i l hT hroom hi => by
        obtain ⟨-, rfl⟩ := hT
        exact hnew u type size rfl hroom s i l hi)
    obtain ⟨hready, -, h⟩ := hleads x.1 { x.2 with log := [] }
    exact ⟨hready, h ⟨hx.running, ⟨hx.active, rfl⟩, hx.committed⟩ hf⟩
  · obtain ⟨hready, -, h⟩ := leads_objectCall hkeeps
      (fun u type size he => hcreate ⟨u, type, size, he⟩) x.1 { x.2 with log := [] }
    exact ⟨hready, h hx' hf⟩

/-- Whatever is called, the core runs on. -/
theorem objectStep_running (hrun : Running cfg x.2.ram x.2.flash)
    (hf : OnlyFails ReadFault (objectStep cfg fails call x).2.log) :
    (objectStep cfg fails call x).1.systemReady = x.1.systemReady
      ∧ Running cfg (objectStep cfg fails call x).2.ram (objectStep cfg fails call x).2.flash := by
  obtain ⟨hready, hrun'⟩ := objectStep_keeps hc true_kept ⟨hrun, trivial, fun _ _ => trivial⟩ hf
    fun _ _ _ _ _ _ _ _ _ => trivial
  exact ⟨hready, hrun'.running⟩

omit hc in
/-- A create whose lookup does not report "not found" ends with the lookup. -/
theorem objectStep_found {A : Tables → Prop} {u : UInt32} {type size : Nat}
    (hready : x.1.systemReady = true) (hx : RunningWith cfg A A x.2)
    (hf : OnlyFails ReadFault (objectStep cfg fails (.create u type size) x).2.log)
    (hfound : (exec device fails 0 (sstCoreObjectExist cfg u) x.2.ram x.2.flash).val
      ≠ .error .assetNotFound) :
    RunningWith cfg A A (objectStep cfg fails (.create u type size) x).2 := by
  have hend : (objectStep cfg fails (.create u type size) x).2
      = ((flashCore cfg fails).exist u { x.2 with log := [] }).2 :=
    objectCall_create_of_ne_notFound hready rfl hfound
  have hexist : CoreLeads ReadFault (RunningWith cfg A A) (RunningWith cfg A A)
      (CoreState.call cfg fails (sstCoreObjectExist cfg u)) :=
    coreLeads_readsOnly (fun _ h => h) (readsOnly_exist u)
  rw [hend] at hf ⊢
  exact (hexist { x.2 with log := [] }).2 ⟨hx.running, hx.active, hx.committed⟩ hf

/-- A call that does not create a stored object again keeps the ids unique. -/
theorem objectStep_unique (hready : x.1.systemReady = true)
    (hx : RunningWith cfg Tables.UniqueIds Tables.UniqueIds x.2)
    (hf : OnlyFails ReadFault (objectStep cfg fails call x).2.log)
    (hno : ¬ Recreates cfg x (call, fails)) :
    RunningWith cfg Tables.UniqueIds Tables.UniqueIds (objectStep cfg fails call x).2 := by
  -- a create that is told of the object ends there
  by_cases hfound : ∃ u type size, call = .create u type size
      ∧ (exec device fails 0 (sstCoreObjectExist cfg u) x.2.ram x.2.flash).val
        ≠ .error .assetNotFound
  · obtain ⟨u, type, size, rfl, hfound⟩ := hfound
    exact objectStep_found hready hx hf hfound
  · refine (objectStep_keeps hc idsUnique_kept hx hf ?_).2
    rintro u type size rfl hroom s i l -
    -- the lookup has found nothing, so the object is not stored
    refine hx.active.created fun hholds => hno ⟨hholds, hroom, ?_⟩
    exact not_not.mp fun hne => hfound ⟨u, type, size, rfl, hne⟩

/-- The core runs on along a run. -/
theorem runCalls_running {steps : List FaultyCall} (hrun : Running cfg x.2.ram x.2.flash)
    (hf : OnlyReadsFail cfg x steps) :
    (runCalls cfg x steps).1.systemReady = x.1.systemReady
      ∧ Running cfg (runCalls cfg x steps).2.ram (runCalls cfg x steps).2.flash := by
  induction steps generalizing x with
  | nil => exact ⟨rfl, hrun⟩
  | cons s steps ih =>
    obtain ⟨hready, hrun'⟩ := objectStep_running hc hrun hf.1
    exact (ih hrun' hf.2).imp_left fun h => h.trans hready

/-- The ids stay unique along a run that creates no stored object again. -/
theorem runCalls_unique {steps : List FaultyCall} (hready : x.1.systemReady = true)
    (hx : RunningWith cfg Tables.UniqueIds Tables.UniqueIds x.2)
    (hf : OnlyReadsFail cfg x steps) (hno : NoneRecreated cfg x steps) :
    RunningWith cfg Tables.UniqueIds Tables.UniqueIds (runCalls cfg x steps).2 := by
  induction steps generalizing x with
  | nil => exact hx
  | cons s steps ih =>
    have hready' := (objectStep_running hc hx.running hf.1).1.trans hready
    exact ih hready' (objectStep_unique hc hready hx hf.1 hno.1) hf.2 hno.2

end Runs

/-- From a running core with unique ids, for every run of the object layer with the flash reads that
fail in it: the ids are unique in every committed table, if no create is told that a stored object
does not exist while there is room for another one. The condition cannot be spared: whatever the run
was, when it ends in a store that holds an object and has room for another one, some failing read
makes a create of this object commit a table with its id twice. -/
theorem ids_stay_unique (hc : cfg.CryptoWorks) {x : ObjectStatics × CoreState}
    (hready : x.1.systemReady = true) (hrun : Running cfg x.2.ram x.2.flash)
    (hids : (activeTables cfg x.2.ram x.2.flash).UniqueIds) (hclean : x.2.tables = [])
    (steps : List FaultyCall) (hf : OnlyReadsFail cfg x steps) :
    (NoneRecreated cfg x steps → ∀ T ∈ (runCalls cfg x steps).2.tables, T.UniqueIds)
    ∧ ∀ u type size,
      (activeTables cfg (runCalls cfg x steps).2.ram (runCalls cfg x steps).2.flash).Holds u →
      (activeTables cfg (runCalls cfg x steps).2.ram (runCalls cfg x steps).2.flash).HasRoom cfg
        (sstObjectSize cfg.toBuildOptions size) →
      ∃ fails, OnlyReadsFail cfg x (steps ++ [(.create u type size, fails)])
        ∧ ∃ T ∈ (runCalls cfg x (steps ++ [(.create u type size, fails)])).2.tables,
          ¬ T.UniqueIds := by
  constructor
  · intro hno
    have hx : RunningWith cfg Tables.UniqueIds Tables.UniqueIds x.2 :=
      ⟨hrun, hids, fun T hT => by rw [hclean] at hT; cases hT⟩
    exact (runCalls_unique hc hready hx hf hno).committed
  · intro u type size hholds hroom
    obtain ⟨hready', hrun'⟩ := runCalls_running hc hrun hf
    have hdup := objectStep_recreate hc hrun' hholds hroom (hready'.trans hready) type
    refine ⟨firstFails, hf.append ⟨hdup.faults, trivial⟩, ?_⟩
    rw [runCalls_append]
    exact hdup.committed

/-! ### A store with one object

A run in which reads fail and the ids stay unique, and one in which a failing read lets a stored
object be created again. -/

/-- An empty store, with the object layer ready. -/
def readyStore (cfg : Config) : ObjectStatics × CoreState :=
  (⟨true, [], []⟩, ⟨(emptyStore cfg).mem, (emptyStore cfg).dev, [], []⟩)

/-- A store that holds the object 1, with a clean record. -/
def storeOfOne : ObjectStatics × CoreState :=
  let x := objectStep smallConfig noFaults (.create 1 0 1) (readyStore smallConfig)
  (x.1, { x.2 with tables := [] })

/-- The object 2 is created although its lookup fails, a write of 1 fails, 1 is deleted and created
again although its lookup fails; and 2 is created once more, which its lookup prevents. -/
def busyRun : List FaultyCall :=
  [(.create 2 0 1, firstFails), (.write 1 [7] 0, firstFails), (.delete 1, noFaults),
    (.create 1 0 1, firstFails), (.create 2 0 1, noFaults)]

/-- No entry of the table has the id, so no object has it. -/
theorem Running.not_holds {r : Ram} {f : Flash} {u : UInt32} (h : Running cfg r f)
    (hfree : ∀ i < cfg.numAssets, (activeTables cfg r f).Live i →
      ((activeTables cfg r f).obj i).uniqueId ≠ u) : ¬ (activeTables cfg r f).Holds u := by
  rintro ⟨i, hi, hid⟩
  exact hfree i (h.placed.slots.live_lt i hi) hi hid

/-- The plain build does not use the crypto engine. -/
theorem smallConfig_cryptoWorks : smallConfig.CryptoWorks := fun h => by cases h

set_option maxRecDepth 100000 in
theorem storeOfOne_running : storeOfOne.1.systemReady = true
    ∧ Running smallConfig storeOfOne.2.ram storeOfOne.2.flash := by
  have hf : OnlyFails ReadFault
      (objectStep smallConfig noFaults (.create 1 0 1) (readyStore smallConfig)).2.log := by
    decide +kernel
  have hrun : Running smallConfig (readyStore smallConfig).2.ram
      (readyStore smallConfig).2.flash := by
    simp only [readyStore]
    exact emptyStore_settled.toMounted.running
  have h := objectStep_running smallConfig_cryptoWorks hrun hf
  generalize hx : objectStep smallConfig noFaults (.create 1 0 1) (readyStore smallConfig) = x at h
  unfold storeOfOne
  rw [hx]
  exact h

set_option maxRecDepth 100000 in
theorem storeOfOne_unique :
    (activeTables smallConfig storeOfOne.2.ram storeOfOne.2.flash).UniqueIds := by
  have hone : ∀ i < smallConfig.numAssets,
      (activeTables smallConfig storeOfOne.2.ram storeOfOne.2.flash).Live i → i = 0 := by
    decide +kernel
  have hlt := storeOfOne_running.2.placed.slots.live_lt
  intro i j hi hj _
  rw [hone i (hlt i hi) hi, hone j (hlt j hj) hj]

set_option maxRecDepth 100000 in
theorem busyRun_onlyReadsFail : OnlyReadsFail smallConfig storeOfOne busyRun :=
  ⟨by decide +kernel, by decide +kernel, by decide +kernel, by decide +kernel, by decide +kernel,
    trivial⟩

set_option maxRecDepth 100000 in
/-- Each create is of an object that is not stored, or is told that it is. -/
theorem busyRun_noneRecreated : NoneRecreated smallConfig storeOfOne busyRun := by
  have hf := busyRun_onlyReadsFail
  have hf3 : OnlyReadsFail smallConfig storeOfOne (busyRun.take 3) :=
    ⟨hf.1, hf.2.1, hf.2.2.1, trivial⟩
  have hrun3 := (runCalls_running smallConfig_cryptoWorks storeOfOne_running.2 hf3).2
  refine ⟨fun h => ?_, id, id, fun h => ?_, fun h => ?_, trivial⟩
  · exact storeOfOne_running.2.not_holds (by decide +kernel) h.1
  · exact hrun3.not_holds (by decide +kernel) h.1
  · exact absurd h.2.2 (by decide +kernel)

/-- The run satisfies the condition. -/
theorem ids_stay_unique_busyRun :
    OnlyReadsFail smallConfig storeOfOne busyRun ∧ NoneRecreated smallConfig storeOfOne busyRun
      ∧ ∀ T ∈ (runCalls smallConfig storeOfOne busyRun).2.tables, T.UniqueIds := by
  have hrun := storeOfOne_running
  have hunique := ids_stay_unique smallConfig_cryptoWorks hrun.1 hrun.2 storeOfOne_unique rfl busyRun
    busyRun_onlyReadsFail
  exact ⟨busyRun_onlyReadsFail, busyRun_noneRecreated, hunique.1 busyRun_noneRecreated⟩

set_option maxRecDepth 100000 in
/-- The object with id 1 is created; when it is created once more, the first flash read fails. -/
theorem ids_not_unique_after_failed_lookup :
    OnlyReadsFail smallConfig (readyStore smallConfig)
        [(.create 1 0 1, noFaults), (.create 1 0 1, firstFails)]
      ∧ ∃ T ∈ (runCalls smallConfig (readyStore smallConfig)
          [(.create 1 0 1, noFaults), (.create 1 0 1, firstFails)]).2.tables, ¬ T.UniqueIds := by
  refine ⟨⟨by decide +kernel, by decide +kernel, trivial⟩, ?_⟩
  have hcommitted : ∃ T ∈ (runCalls smallConfig (readyStore smallConfig)
      [(.create 1 0 1, noFaults), (.create 1 0 1, firstFails)]).2.tables,
      T.Live 0 ∧ T.Live 1 ∧ (T.obj 0).uniqueId = (T.obj 1).uniqueId := by decide +kernel
  obtain ⟨T, hT, h0, h1, hid⟩ := hcommitted
  exact ⟨T, hT, fun hunique => absurd (hunique 0 1 h0 h1 hid) (by decide)⟩

end Tfm.Sst
