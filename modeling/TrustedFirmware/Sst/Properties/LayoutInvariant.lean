import TrustedFirmware.Sst.Proofs.Settled

/-!
# The layout invariant over whole runs

Runs start with `sst_core_wipe_all` and `sst_core_prepare` and go on with successful operations:
creates of ids that are not in the table, writes within the maximum size of the object, and deletes.
In every state reached, the slots of each logical block tile its used part, the physical blocks are
distributed over their roles without loss, and the objects of logical block 0 live next to the
active tables (**`layout_of_reachable`**).

The invariant carried along a run is `Consistent`: a settled store, unique ids, and no object larger
than `SST_MAX_OBJECT_SIZE`. `Op.consistent` is its step, `Reachable.consistent` the induction.
-/

namespace Tfm.Sst

open Word32 BlockFlash Device Tiling

variable {cfg : Config} {r : Ram} {f : Flash} {T : Tables}

/-! ## Runs

The operations and what is asked of their callers, the states reached by them, and what each of the
three updates of the tables does to ids and sizes. -/

/-- The operations of a run: a create takes an id that is not in the table and a size between
1 and `SST_MAX_OBJECT_SIZE`, a write stays within the maximum size of its object. -/
def Op.Admissible (cfg : Config) (T : Tables) : Op → Prop
  | .create u size =>
    T.find cfg u = none ∧ 0 < size.toNat ∧ size.toNat ≤ cfg.maxObjectSize
  | .write u _ offset size =>
    u ≠ 0 ∧ ∀ i, T.find cfg u = some i → offset.toNat + size.toNat ≤ (T.obj i).maxSize
  | .delete _ => True

instance (T : Tables) (op : Op) : Decidable (Op.Admissible cfg T op) :=
  match op with
  | .create _ _ => inferInstanceAs (Decidable (_ ∧ _ ∧ _))
  | .write u _ _ _ => inferInstanceAs (Decidable (_ ∧ ∀ i ∈ T.find cfg u, _))
  | .delete _ => inferInstanceAs (Decidable True)

instance (T : Tables) (op : Op) : Decidable (Op.Pre cfg T op) :=
  match op with
  | .create _ _ => inferInstanceAs (Decidable (_ ∧ _ ∧ _))
  | .write u _ _ _ => inferInstanceAs (Decidable (_ ∧ ∀ i ∈ T.find cfg u, _))
  | .delete _ => inferInstanceAs (Decidable True)

/-- The states reached from an empty store by successful operations that satisfy `adm`. -/
inductive Reachable (cfg : Config) (adm : Tables → Op → Prop) : Ram → Flash → Prop where
  | empty (r r1 : Ram) (f : Flash) (hwipe : (run (sstCoreWipeAll cfg) r f).val = .ok ())
      (hprep : (run (sstCorePrepare cfg) r1 (run (sstCoreWipeAll cfg) r f).dev).val = .ok ()) :
      Reachable cfg adm (run (sstCorePrepare cfg) r1 (run (sstCoreWipeAll cfg) r f).dev).mem
        (run (sstCorePrepare cfg) r1 (run (sstCoreWipeAll cfg) r f).dev).dev
  | step {r : Ram} {f : Flash} (op : Op) (h : Reachable cfg adm r f)
      (hadm : adm (activeTables cfg r f) op)
      (hok : (run (op.prog cfg) r f).val = .ok ()) :
      Reachable cfg adm (run (op.prog cfg) r f).mem (run (op.prog cfg) r f).dev

/-- No two live entries have the same id. -/
def Tables.UniqueIds (T : Tables) : Prop :=
  ∀ i j, T.Live i → T.Live j → (T.obj i).uniqueId = (T.obj j).uniqueId → i = j

/-- An object with this id is stored. -/
def Tables.Holds (T : Tables) (u : UInt32) : Prop := ∃ i, T.Live i ∧ (T.obj i).uniqueId = u

/-- What a lookup does not find is not stored. -/
theorem Tables.not_holds_of_find {u : UInt32} (hlt : ∀ j, T.Live j → j < cfg.numAssets)
    (hnone : T.find cfg u = none) : ¬ T.Holds u := by
  rintro ⟨i, hi, hid⟩
  exact Tables.find_eq_none.mp hnone i (hlt i hi) hid

/-- A create of an id that is not stored keeps ids unique. -/
theorem Tables.UniqueIds.created {s i l size : Nat} {u : UInt32} (h : T.UniqueIds) (hu : ¬ T.Holds u) :
    (T.created cfg s i l size u).UniqueIds := by
  intro j k hj hk hid
  -- at most one of the two entries is the new one
  by_cases hji : j = i <;> by_cases hki : k = i
  · rw [hji, hki]
  · rw [Tables.Live, Tables.created_obj_ne hki] at hk
    rw [hji, Tables.created_obj_self, Tables.created_obj_ne hki] at hid
    exact absurd ⟨k, hk, hid.symm⟩ hu
  · rw [Tables.Live, Tables.created_obj_ne hji] at hj
    rw [hki, Tables.created_obj_self, Tables.created_obj_ne hji] at hid
    exact absurd ⟨j, hj, hid⟩ hu
  · rw [Tables.Live, Tables.created_obj_ne hji] at hj
    rw [Tables.Live, Tables.created_obj_ne hki] at hk
    rw [Tables.created_obj_ne hji, Tables.created_obj_ne hki] at hid
    exact h j k hj hk hid

theorem Tables.uniqueId_written (T : Tables) (s d i curSize j : Nat) :
    ((T.written s d i curSize).obj j).uniqueId = (T.obj j).uniqueId := by
  obtain ⟨c, hc, -⟩ := T.written_obj s d i curSize j
  rw [hc]

/-- A write keeps ids unique. -/
theorem Tables.UniqueIds.written {s d i curSize : Nat} (h : T.UniqueIds) :
    (T.written s d i curSize).UniqueIds := by
  intro j k hj hk hid
  rw [Tables.uniqueId_written, Tables.uniqueId_written] at hid
  exact h j k (Tables.written_live.mp hj) (Tables.written_live.mp hk) hid

/-- A delete changes the id of its own entry only. -/
theorem Tables.uniqueId_deleted {s d i j : Nat} (hj : j ≠ i) :
    ((T.deleted cfg s d i).obj j).uniqueId = (T.obj j).uniqueId := by
  obtain ⟨x, hx⟩ := (T.deletedSlot cfg i).shift_eq (T.obj j)
  rw [Tables.deleted_obj_ne hj, hx]

/-- A delete keeps ids unique. -/
theorem Tables.UniqueIds.deleted {s d i : Nat} (h : T.UniqueIds) :
    (T.deleted cfg s d i).UniqueIds := by
  intro j k hj hk hid
  obtain ⟨hji, hj⟩ := Tables.deleted_live.mp hj
  obtain ⟨hki, hk⟩ := Tables.deleted_live.mp hk
  rw [Tables.uniqueId_deleted hji, Tables.uniqueId_deleted hki] at hid
  exact h j k hj hk hid

/-- A create of an object that is not too large keeps objects small. -/
theorem Tables.Sized.created {s i l size : Nat} {u : UInt32} (h : T.Sized cfg) (hu : u ≠ 0)
    (hsize : size ≤ cfg.maxObjectSize) : (T.created cfg s i l size u).Sized cfg := by
  intro j hj
  by_cases hji : j = i
  · subst hji
    rw [Tables.created_obj_self]
    exact hsize
  · rw [Tables.created_obj_ne hji]
    exact h j (((Tables.created_live hu).mp hj).resolve_left hji)

/-- A write does not change the maximum size of an object. -/
theorem Tables.Sized.written {s d i curSize : Nat} (h : T.Sized cfg) :
    (T.written s d i curSize).Sized cfg := by
  intro j hj
  obtain ⟨c, hc, -⟩ := T.written_obj s d i curSize j
  rw [hc]
  exact h j (Tables.written_live.mp hj)

/-- A delete keeps objects small. -/
theorem Tables.Sized.deleted {s d i : Nat} (h : T.Sized cfg) :
    (T.deleted cfg s d i).Sized cfg := by
  intro j hj
  obtain ⟨hji, hj⟩ := Tables.deleted_live.mp hj
  obtain ⟨x, hx⟩ := (T.deletedSlot cfg i).shift_eq (T.obj j)
  rw [Tables.deleted_obj_ne hji, hx]
  exact h j hj

/-- An id that is not in the table is not 0 where an entry is free: free entries have the id 0. -/
theorem Tables.CanCreate.ne_zero {i l size : Nat} {u : UInt32} (hcan : T.CanCreate cfg i l size)
    (hnone : T.find cfg u = none) : u ≠ 0 := by
  rintro rfl
  exact hcan.entry_free (Tables.find_eq_none.mp hnone i hcan.entry_lt)

/-- A create that succeeds was not given the id 0, if its id is not in the table. -/
theorem create_ne_zero (hm : Mounted cfg r f) (hc : cfg.CryptoWorks) {u size : UInt32}
    (hnone : (activeTables cfg r f).find cfg u = none)
    (hok : (run (sstCoreObjectCreate cfg u size) r f).val = .ok ()) : u ≠ 0 := by
  -- a create that succeeds has found a free entry
  rcases create_outcome hm.running hc rfl u size with ⟨h, -⟩ | ⟨i, l, hcan, -⟩
  · have habort : Aborts cfg (sstCoreObjectCreate cfg u size) r f := h.aborts
    exact absurd hok habort.run_ne_ok
  · exact hcan.ne_zero hnone

/-! ## What an operation keeps

One step of a run. An operation within the callers' obligations is refused without effect, or it
commits new tables; either way the store stays consistent. -/

/-- A settled store in which ids are unique and no object is too large. -/
structure Consistent (cfg : Config) (r : Ram) (f : Flash) : Prop where
  settled : Settled cfg r f
  unique : (activeTables cfg r f).UniqueIds
  sized : (activeTables cfg r f).Sized cfg

/-- The validators pass every record of a consistent store. -/
theorem Consistent.accepted (h : Consistent cfg r f) : (activeTables cfg r f).Accepted cfg :=
  (h.settled.layout.valid h.sized).accepted

/-- New tables keep ids unique and objects small. -/
theorem Op.Effect.unique_sized {op : Op} {T' : Tables} {s d : Nat} (heff : op.Effect cfg T s d T')
    (hadm : op.Admissible cfg T) (hlt : ∀ j, T.Live j → j < cfg.numAssets) (huniq : T.UniqueIds)
    (hsized : T.Sized cfg) : T'.UniqueIds ∧ T'.Sized cfg := by
  cases heff with
  | create hcan => exact ⟨huniq.created (Tables.not_holds_of_find hlt hadm.1),
      hsized.created (hcan.ne_zero hadm.1) hadm.2.2⟩
  | write => exact ⟨huniq.written, hsized.written⟩
  | delete => exact ⟨huniq.deleted, hsized.deleted⟩

/-- On a consistent store an operation is refused without effect, or commits. -/
theorem Op.refuses_or_commits (hc : cfg.CryptoWorks) (h : Consistent cfg r f) (op : Op)
    (hadm : op.Admissible cfg (activeTables cfg r f)) :
    Refuses (op.prog cfg) r f
      ∨ ∃ T' d' cs, op.Effect cfg (activeTables cfg r f) r.ctx.scratchMetablock
          r.ctx.metaBlockHeader.scratchIdx T' ∧ Plan cfg (op.prog cfg) r f T' d' cs := by
  have hm := h.settled.toMounted
  have hout (hpre : op.Pre cfg (activeTables cfg r f)) :=
    (op.outcome hm hc hpre).imp_left fun hfail => hfail.2 h.accepted
  cases op with
  -- that the id is not 0 is no obligation of an admissible create: a refused one may have it
  | create u size =>
    rcases create_outcome hm.running hc rfl u size with ⟨href, -⟩ | ⟨i, l, hcan, -⟩
    · exact Or.inl href
    · exact hout ⟨hcan.ne_zero hadm.1, hadm.2.1, cfg.rounds_of_le_maxObjectSize hadm.2.2⟩
  | write u data offset size => exact hout hadm
  | delete u => exact hout trivial

/-- What commits leaves a consistent store. -/
theorem Consistent.of_plan (h : Consistent cfg r f) {op : Op} {T' : Tables} {d' : Nat}
    {cs : List Call} (hadm : op.Admissible cfg (activeTables cfg r f))
    (heff : op.Effect cfg (activeTables cfg r f) r.ctx.scratchMetablock
      r.ctx.metaBlockHeader.scratchIdx T')
    (p : Plan cfg (op.prog cfg) r f T' d' cs) :
    Consistent cfg (run (op.prog cfg) r f).mem (run (op.prog cfg) r f).dev := by
  obtain ⟨-, h', hcom⟩ := p.run_committed h.settled.toMounted
  obtain ⟨huniq, hsized⟩ :=
    heff.unique_sized hadm h.settled.layout.slots.live_lt h.unique h.sized
  -- the tables in flash are the planned ones
  rw [← hcom.tables p] at huniq hsized
  exact ⟨hcom.settled p h.settled, huniq, hsized⟩

/-- Every operation leaves a consistent store, also when it is refused. -/
theorem Op.consistent (hc : cfg.CryptoWorks) (h : Consistent cfg r f) (op : Op)
    (hadm : op.Admissible cfg (activeTables cfg r f)) :
    Consistent cfg (run (op.prog cfg) r f).mem (run (op.prog cfg) r f).dev := by
  rcases op.refuses_or_commits hc h hadm with href | ⟨T', d', cs, heff, p⟩
  · obtain ⟨-, hmem, hdev⟩ := href.run_eq
    rw [hmem, hdev]
    exact h
  · exact h.of_plan hadm heff p

/-- An empty store is consistent. -/
theorem consistent_of_wipe (hc : cfg.CryptoWorks) (r r1 : Ram) (f : Flash)
    (hprep : (run (sstCorePrepare cfg) r1 (run (sstCoreWipeAll cfg) r f).dev).val = .ok ()) :
    Consistent cfg (run (sstCorePrepare cfg) r1 (run (sstCoreWipeAll cfg) r f).dev).mem
      (run (sstCorePrepare cfg) r1 (run (sstCoreWipeAll cfg) r f).dev).dev := by
  obtain ⟨hst, htab⟩ := (settled_of_wipe hc r r1 f).2 hprep
  refine ⟨hst, ?_, ?_⟩ <;> rw [htab]
  · exact fun i j hi => absurd hi (emptyTables_not_live i)
  · exact fun i hi => absurd hi (emptyTables_not_live i)

/-! ## Whole runs

By induction on the run, once for each notion of admissible operation. -/

/-- In every state of a run that keeps to the callers' obligations the store is settled. -/
theorem Reachable.settled (hc : cfg.CryptoWorks) (h : Reachable cfg (Op.Pre cfg) r f) :
    Settled cfg r f := by
  induction h with
  | empty r r1 f _ hprep => exact ((settled_of_wipe hc r r1 f).2 hprep).1
  | step op _ hpre hok ih => exact op.settled_of_ok ih hc hpre hok

/-- In every state of a run the store is consistent. -/
theorem Reachable.consistent (hc : cfg.CryptoWorks)
    (h : Reachable cfg (Op.Admissible cfg) r f) : Consistent cfg r f := by
  induction h with
  | empty r r1 f _ hprep => exact consistent_of_wipe hc r r1 f hprep
  | step op _ hadm _ ih => exact op.consistent hc ih hadm

/-! ## The invariant

The statement in terms of tilings and permutations follows from the fields of `Layout`. -/

/-- The dedicated blocks and the scratch block are the blocks from 2 on, in some order. -/
theorem BlocksOk.perm {scratch : Nat} (h : BlocksOk cfg T scratch)
    (hN : 2 < cfg.totalNumOfBlocks) :
    (((List.range' 1 (cfg.numActiveDblocks - 1)).map fun l => (T.blk l).physId)
      ++ [scratch]).Perm (List.range' 2 (cfg.totalNumOfBlocks - 2)) := by
  have hnb := cfg.numActiveDblocks_eq
  rw [if_neg (by omega)] at hnb
  have hmem {l : Nat} (hl : l ∈ List.range' 1 (cfg.numActiveDblocks - 1)) :
      0 < l ∧ l < cfg.numActiveDblocks := by
    have := List.mem_range'_1.mp hl
    omega
  have hnodup : (((List.range' 1 (cfg.numActiveDblocks - 1)).map fun l => (T.blk l).physId)
      ++ [scratch]).Nodup := by
    refine List.Nodup.append ?_ (List.nodup_singleton _) ?_
    · refine List.Nodup.map_on (fun l hl k hk heq => ?_) List.nodup_range'
      exact h.dataInj l k (hmem hl).1 (hmem hl).2 (hmem hk).1 (hmem hk).2 heq
    · intro b hb hbs
      obtain ⟨l, hl, rfl⟩ := List.mem_map.mp hb
      exact h.scratch_ne l (hmem hl).1 (hmem hl).2 (List.mem_singleton.mp hbs)
  have hsub : ((List.range' 1 (cfg.numActiveDblocks - 1)).map fun l => (T.blk l).physId)
      ++ [scratch] ⊆ List.range' 2 (cfg.totalNumOfBlocks - 2) := by
    intro b hb
    rw [List.mem_range'_1]
    rcases List.mem_append.mp hb with hb | hb
    · obtain ⟨l, hl, rfl⟩ := List.mem_map.mp hb
      have := h.dataHome l (hmem hl).1 (hmem hl).2
      omega
    · rw [List.mem_singleton] at hb
      have h1 := h.scratch_ge hN
      have h2 := h.scratch_lt
      omega
  -- without duplicates, among the blocks from 2 on, and as many as they
  refine (hnodup.subperm hsub).perm_of_length_le ?_
  simp only [List.length_range', List.length_append, List.length_map, List.length_singleton]
  omega

/-- **Layout invariant.** In every state of a run, with any configuration the build admits:
in each logical block the slots of the live objects are pairwise disjoint and cover exactly
the used part; the dedicated blocks and the scratch block are a permutation of the blocks
from 2 on, the metadata blocks are 0 and 1; whenever logical block 0 holds an object, its
descriptor names the active metadata block; and all records pass the validators. -/
theorem layout_of_reachable (hc : cfg.CryptoWorks) (h : Reachable cfg (Op.Admissible cfg) r f) :
    (∀ l < cfg.numActiveDblocks,
      Tiles ((activeTables cfg r f).objectsOf cfg l)
        (fun i => ((activeTables cfg r f).obj i).dataIndex)
        (fun i => sstGetAlignedFlashBytes cfg ((activeTables cfg r f).obj i).maxSize)
        ((activeTables cfg r f).blk l).dataStart
        (cfg.blockSize - ((activeTables cfg r f).blk l).freeSize))
    ∧ (4 ≤ cfg.totalNumOfBlocks →
        (((List.range' 1 (cfg.numActiveDblocks - 1)).map
            fun l => ((activeTables cfg r f).blk l).physId)
          ++ [r.ctx.metaBlockHeader.scratchIdx]).Perm
            (List.range' 2 (cfg.totalNumOfBlocks - 2)))
    ∧ ((r.ctx.activeMetablock = 0 ∧ r.ctx.scratchMetablock = 1)
        ∨ (r.ctx.activeMetablock = 1 ∧ r.ctx.scratchMetablock = 0))
    ∧ (∀ i, (activeTables cfg r f).Live i → ((activeTables cfg r f).obj i).lblock = 0 →
        ((activeTables cfg r f).blk 0).physId = r.ctx.activeMetablock)
    ∧ (activeTables cfg r f).Valid cfg := by
  obtain ⟨hst, -, hsized⟩ := h.consistent hc
  exact ⟨hst.layout.slots.tiles, fun hN => hst.layout.blocks.perm (by omega), hst.metablocks,
    hst.layout.home, hst.layout.valid hsized⟩

/-! ### A small store

A build in which runs can be evaluated, and runs of it. -/

/-- A plain build with four blocks and two objects of up to 56 bytes, so that logical block 0
has one byte for data. -/
def smallConfig : Config where
  totalNumOfBlocks := 4
  blockSize := 101
  numAssets := 2
  maxAssetSize := 1
  flashProgramUnit := 1
  encryption := false
  validateMetadataFromFlash := true
  enablePartialAssetRw := true
  crypto := ⟨.ok (), fun _ _ _ => .error (.mbedtls 0), fun _ _ _ _ => .error (.mbedtls 0)⟩
  blocks_ok := by decide
  unit_ok := by decide
  largest_asset_fits := by decide
  asset_fits_in_data_area := by decide
  metadata_fits := by decide
  area_addressable := by decide

/-- The statics of the service after reset. -/
def Ram.zero : Ram where
  ctx := { metaBlockHeader := ⟨⟨.replicate 16 0, .replicate 12 0⟩, 0, 0, 0, .replicate 2 0⟩
           activeMetablock := 0
           scratchMetablock := 0 }
  cryptoIvBuf := .replicate 12 0

/-- An area that was never programmed. -/
def Flash.blank : Flash := fun _ => Row.erased

/-- An empty store, wiped and prepared. -/
def emptyStore (cfg : Config) : Result Call SstErr Ram Flash Unit :=
  run (sstCorePrepare cfg) Ram.zero (run (sstCoreWipeAll cfg) Ram.zero Flash.blank).dev

/-- The store after one more operation. -/
def thenRun (cfg : Config) (s : Result Call SstErr Ram Flash Unit) (op : Op) :
    Result Call SstErr Ram Flash Unit :=
  run (op.prog cfg) s.mem s.dev

/-- A store with one object. -/
def oneObjectStore : Result Call SstErr Ram Flash Unit :=
  thenRun smallConfig (emptyStore smallConfig) (.create 1 1)

/-- All operations satisfy `adm` in their turn and succeed. -/
def Succeed (cfg : Config) (adm : Tables → Op → Prop) :
    Result Call SstErr Ram Flash Unit → List Op → Prop
  | _, [] => True
  | s, op :: ops => adm (activeTables cfg s.mem s.dev) op ∧ (thenRun cfg s op).val = .ok ()
    ∧ Succeed cfg adm (thenRun cfg s op) ops

instance decidableSucceed {adm : Tables → Op → Prop} [∀ T op, Decidable (adm T op)] :
    ∀ s ops, Decidable (Succeed cfg adm s ops)
  | _, [] => isTrue trivial
  | s, op :: ops =>
    have : Decidable (Succeed cfg adm (thenRun cfg s op) ops) := decidableSucceed _ ops
    inferInstanceAs (Decidable (_ ∧ _ ∧ _))

/-- A list of operations that succeed one after the other is a run. -/
theorem Reachable.run_all {adm : Tables → Op → Prop} {s : Result Call SstErr Ram Flash Unit}
    {ops : List Op} (h : Reachable cfg adm s.mem s.dev) (hs : Succeed cfg adm s ops) :
    Reachable cfg adm (ops.foldl (thenRun cfg) s).mem (ops.foldl (thenRun cfg) s).dev := by
  induction ops generalizing s with
  | nil => exact h
  | cons op ops ih => exact ih (h.step op hs.1 hs.2.1) hs.2.2

set_option maxRecDepth 100000 in
theorem emptyStore_settled :
    Settled smallConfig (emptyStore smallConfig).mem (emptyStore smallConfig).dev :=
  ((settled_of_wipe (fun h => by cases h) Ram.zero Ram.zero Flash.blank).2 (by decide +kernel)).1

/-- A store after a first object was deleted and a third one took its entry: two objects in logical
block 1. -/
def churnedStore : Result Call SstErr Ram Flash Unit :=
  [Op.create 1 2, .create 2 2, .write 2 [8, 9] 0 2, .delete 1, .create 3 2].foldl
    (thenRun smallConfig) (emptyStore smallConfig)

set_option maxRecDepth 100000 in
/-- The slots of the two objects tile logical block 1, and its physical block and the scratch block
are the blocks 2 and 3. -/
theorem layout_of_reachable_churned :
    (activeTables smallConfig churnedStore.mem churnedStore.dev).objectsOf smallConfig 1 = {0, 1}
    ∧ Tiles ((activeTables smallConfig churnedStore.mem churnedStore.dev).objectsOf smallConfig 1)
        (fun i => ((activeTables smallConfig churnedStore.mem churnedStore.dev).obj i).dataIndex)
        (fun i => sstGetAlignedFlashBytes smallConfig
          ((activeTables smallConfig churnedStore.mem churnedStore.dev).obj i).maxSize)
        ((activeTables smallConfig churnedStore.mem churnedStore.dev).blk 1).dataStart
        (smallConfig.blockSize
          - ((activeTables smallConfig churnedStore.mem churnedStore.dev).blk 1).freeSize)
    ∧ [((activeTables smallConfig churnedStore.mem churnedStore.dev).blk 1).physId,
        churnedStore.mem.ctx.metaBlockHeader.scratchIdx].Perm [2, 3] := by
  have hempty : Reachable smallConfig (Op.Admissible smallConfig) (emptyStore smallConfig).mem
      (emptyStore smallConfig).dev := .empty _ _ _ (by decide +kernel) (by decide +kernel)
  have h : Reachable smallConfig (Op.Admissible smallConfig) churnedStore.mem churnedStore.dev :=
    hempty.run_all (by decide +kernel)
  obtain ⟨htiles, hperm, -⟩ := layout_of_reachable (fun h => by cases h) h
  exact ⟨by decide +kernel, htiles 1 (by decide), hperm (by decide)⟩

end Tfm.Sst
