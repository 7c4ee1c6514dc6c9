import TrustedFirmware.Sst.Proofs.Tables

/-!
# Reading the tables

The read functions of the core, run without faults: they return what the tables hold as long as the
build accepts the records, and the scans are searches of the tables that give up at the first record
that is not accepted.

A build with `SST_VALIDATE_METADATA_FROM_FLASH` checks every record it reads. The record that fails
the check need not be the one asked for, so the results about scans say how far a scan gets
(`Tables.Reaches`).
-/

namespace Tfm.Sst

open Word32 BlockFlash Device

variable {cfg : Config} {r : Ram} {f : Flash}

/-- The tables of the active metadata block. -/
def activeTables (cfg : Config) (r : Ram) (f : Flash) : Tables :=
  tablesOf cfg (f r.ctx.activeMetablock)

/-- Every block descriptor passes the validator of the core. -/
def Tables.BlkValid (cfg : Config) (T : Tables) : Prop :=
  ∀ l < cfg.numActiveDblocks, sstMetaValidateBlockMeta cfg (T.blk l) = .ok ()

/-- A valid descriptor names a block of the flash area. -/
theorem Tables.BlkValid.physId_lt {T : Tables} (h : T.BlkValid cfg) {l : Nat}
    (hl : l < cfg.numActiveDblocks) : (T.blk l).physId < cfg.totalNumOfBlocks := by
  have hv := h l hl
  rw [sstMetaValidateBlockMeta] at hv
  by_contra hge
  rw [if_pos (by omega)] at hv
  cases hv

/-- The build accepts entry `i`: it passes the validator, if the build validates records. -/
def Tables.Passes (cfg : Config) (T : Tables) (i : Nat) : Prop :=
  cfg.validateMetadataFromFlash = true → sstMetaValidateObjectMeta cfg (T.obj i) = .ok ()

/-- The build accepts every entry. -/
def Tables.Accepted (cfg : Config) (T : Tables) : Prop := ∀ i < cfg.numAssets, T.Passes cfg i

/-- A scan of the table gets to entry `i`: no entry up to it is rejected. -/
def Tables.Reaches (cfg : Config) (T : Tables) (i : Nat) : Prop := ∀ j ≤ i, T.Passes cfg j

/-- Where every entry is accepted a scan gets to each of them. -/
theorem Tables.Accepted.reaches {T : Tables} (h : T.Accepted cfg) {i : Nat}
    (hi : i < cfg.numAssets) : T.Reaches cfg i := fun j hj => h j (by omega)

/-! ## Records

`does_*` lemmas state the result, the memory and the calls of a function of the core that runs
without faults; the functions here make no call that changes the flash. -/

@[simp] theorem does_curMetaActive :
    Does sstMetaCurMetaActive r f (.ok r.ctx.activeMetablock) r [] :=
  Does.read_bind Does.getMem (Does.pure _)

theorem does_curMetaScratch :
    Does sstMetaCurMetaScratch r f (.ok r.ctx.scratchMetablock) r [] :=
  Does.read_bind Does.getMem (Does.pure _)

/-- The block that receives the data of a logical block. -/
def AssetSystemContext.dataScratch (c : AssetSystemContext) (lblock : Nat) : Nat :=
  if lblock = 0 then c.scratchMetablock else c.metaBlockHeader.scratchIdx

theorem does_curDataScratch (l : Nat) :
    Does (sstMetaCurDataScratch l) r f (.ok (r.ctx.dataScratch l)) r [] := by
  refine Does.read_bind Does.getMem ?_
  rw [AssetSystemContext.dataScratch, sstLogicalDblock0]
  by_cases h : l = 0
  · simp only [h, if_true]
    exact Does.pure _
  · simp only [h, if_false]
    exact Does.pure _

/-- Validation of a record that is accepted. -/
theorem does_validate {b : Bool} {x : Except SstErr Unit} {α : Type} {a : α}
    (hx : b = true → x = .ok ()) :
    Does (do if b then M.ofExcept x
             pure a : SstM α) r f (.ok a) r [] := by
  cases b with
  | false => exact Does.pure a
  | true =>
    rw [hx rfl]
    exact Does.read_bind (k := fun _ => pure a) (Does.pure ()) (Does.pure a)

/-- A valid descriptor is read as it is in the tables. -/
theorem does_readBlockMetadata (hv : (activeTables cfg r f).BlkValid cfg) {l : Nat}
    (hl : l < cfg.numActiveDblocks) :
    Does (sstMetaReadBlockMetadata cfg l) r f (.ok ((activeTables cfg r f).blk l)) r [] := by
  refine Does.read_bind does_curMetaActive (Does.read_bind (Does.read _ _ _ _) ?_)
  have hb := hv l hl
  rw [activeTables, tablesOf_blk hl] at hb ⊢
  rw [sstMetaBlockMetaOffset_eq cfg hl.le]
  exact does_validate fun _ => hb

/-- An accepted entry is read as it is in the tables. -/
theorem does_readObjectMeta {i : Nat} (hp : (activeTables cfg r f).Passes cfg i)
    (hi : i < cfg.numAssets) :
    Does (sstMetaReadObjectMeta cfg i) r f (.ok ((activeTables cfg r f).obj i)) r [] := by
  refine Does.read_bind does_curMetaActive (Does.read_bind (Does.read _ _ _ _) ?_)
  rw [Tables.Passes, activeTables, tablesOf_obj hi] at hp
  rw [activeTables, tablesOf_obj hi, sstMetaObjectMetaOffset_eq cfg hi.le]
  exact does_validate hp

/-- An entry that is not accepted cannot be read. -/
theorem does_readObjectMeta_error {i : Nat} (hp : ¬ (activeTables cfg r f).Passes cfg i)
    (hi : i < cfg.numAssets) :
    ∃ e, Does (sstMetaReadObjectMeta cfg i) r f (.error e) r [] := by
  rw [Tables.Passes, Classical.not_imp] at hp
  obtain ⟨hval, hne⟩ := hp
  rw [activeTables, tablesOf_obj hi] at hne
  cases hx : sstMetaValidateObjectMeta cfg
      (.decode ((f r.ctx.activeMetablock).get (objOff cfg i) sizeofAssetmeta)) with
  | ok _ => exact absurd hx hne
  | error e =>
    refine ⟨e, Does.read_bind does_curMetaActive (Does.read_bind (Does.read _ _ _ _) ?_)⟩
    rw [sstMetaObjectMetaOffset_eq cfg hi.le]
    dsimp only
    rw [hval, hx]
    exact Does.bind_error (Does.ofExcept _)

/-! ## Scans

The three loops over a table: the lookup of an id, the search for a free entry, and the search for a
block with room. Each stops at the first entry it can use. -/

/-- The first table entry with the given id. -/
def Tables.find (cfg : Config) (T : Tables) (u : UInt32) : Option Nat :=
  (List.range cfg.numAssets).find? fun i => decide ((T.obj i).uniqueId = u)

theorem Tables.lt_of_find {T : Tables} {u : UInt32} {i : Nat} (h : T.find cfg u = some i) :
    i < cfg.numAssets := List.mem_range.mp (List.mem_of_find?_eq_some h)

theorem Tables.uniqueId_of_find {T : Tables} {u : UInt32} {i : Nat}
    (h : T.find cfg u = some i) : (T.obj i).uniqueId = u := by
  simpa using List.find?_some h

/-- A lookup fails when no entry has the id. -/
theorem Tables.find_eq_none {T : Tables} {u : UInt32} :
    T.find cfg u = none ↔ ∀ i < cfg.numAssets, (T.obj i).uniqueId ≠ u := by
  simp [Tables.find, List.find?_eq_none]

/-- The scan for an id finds the first entry with the id, unless it gives up at an entry before
that one which is not accepted. -/
theorem getObjectIdxFrom_outcome (u : UInt32) (is : List Nat) (hs : is.Pairwise (· < ·))
    (his : ∀ i ∈ is, i < cfg.numAssets) :
    (∃ e, Does (sstCoreGetObjectIdxFrom cfg u is) r f (.error e) r []
        ∧ ∀ i, is.find? (fun i => decide (((activeTables cfg r f).obj i).uniqueId = u)) = some i →
          ∃ j ≤ i, ¬ (activeTables cfg r f).Passes cfg j)
      ∨ ∃ i, is.find? (fun i => decide (((activeTables cfg r f).obj i).uniqueId = u)) = some i
        ∧ (∀ j ∈ is, j ≤ i → (activeTables cfg r f).Passes cfg j)
        ∧ Does (sstCoreGetObjectIdxFrom cfg u is) r f (.ok i) r [] := by
  -- over the entries still to be seen; they come in increasing order
  induction is with
  | nil => exact Or.inl ⟨_, Does.fail _, fun i hi => by cases hi⟩
  | cons i is ih =>
    have hi := his i List.mem_cons_self
    obtain ⟨hlt, hs⟩ := List.pairwise_cons.mp hs
    by_cases hp : (activeTables cfg r f).Passes cfg i
    · have hread := (does_readObjectMeta hp hi).orElse .systemError
      by_cases hu : ((activeTables cfg r f).obj i).uniqueId = u
      · refine Or.inr ⟨i, List.find?_cons_of_pos (by simpa using hu), fun j hj hji => ?_,
          Does.read_bind hread ?_⟩
        · rcases List.mem_cons.mp hj with rfl | hj
          · exact hp
          · have := hlt j hj
            omega
        · rw [if_pos hu]
          exact Does.pure i
      · rw [List.find?_cons_of_neg (by simpa using hu)]
        rcases ih hs fun j hj => his j (List.mem_cons_of_mem _ hj) with
          ⟨e, h, hnone⟩ | ⟨j, hj, hpj, h⟩
        · refine Or.inl ⟨e, Does.read_bind hread ?_, hnone⟩
          rw [if_neg hu]
          exact h
        · refine Or.inr ⟨j, hj, fun k hk hkj => ?_, Does.read_bind hread ?_⟩
          · rcases List.mem_cons.mp hk with rfl | hk
            · exact hp
            · exact hpj k hk hkj
          · rw [if_neg hu]
            exact h
    · -- the scan gives up here, and the id may be further back
      obtain ⟨e, h⟩ := does_readObjectMeta_error hp hi
      refine Or.inl ⟨_, Does.bind_error (h.orElse_error _), fun k hk => ⟨i, ?_, hp⟩⟩
      rcases List.mem_cons.mp (List.mem_of_find?_eq_some hk) with rfl | hk
      · exact le_rfl
      · exact (hlt k hk).le

/-- The lookup every operation starts with. -/
theorem lookup_outcome {T : Tables} (hT : activeTables cfg r f = T) (u : UInt32) (e : SstErr) :
    Does (M.orElse (sstCoreGetObjectIdx cfg u) e) r f (.error e) r []
        ∧ (∀ i, T.find cfg u = some i → ¬ T.Reaches cfg i)
      ∨ ∃ i, T.find cfg u = some i ∧ T.Reaches cfg i
        ∧ Does (M.orElse (sstCoreGetObjectIdx cfg u) e) r f (.ok i) r [] := by
  subst hT
  rcases getObjectIdxFrom_outcome u (List.range cfg.numAssets) List.pairwise_lt_range
    (fun _ hi => List.mem_range.mp hi) with ⟨e', h, hnone⟩ | ⟨i, hfind, hp, h⟩
  · refine Or.inl ⟨Does.orElse_error h e, fun i hi hreach => ?_⟩
    obtain ⟨j, hj, hpj⟩ := hnone i hi
    exact hpj (hreach j hj)
  · have hi := Tables.lt_of_find hfind
    exact Or.inr ⟨i, hfind, fun j hj => hp j (List.mem_range.mpr (by omega)) hj,
      Does.orElse h e⟩

/-- Where the build accepts the tables, only an id that is not there is not found. -/
theorem Tables.Accepted.find_eq_none {T : Tables} (h : T.Accepted cfg) {u : UInt32}
    (hnone : ∀ i, T.find cfg u = some i → ¬ T.Reaches cfg i) : T.find cfg u = none := by
  cases hfind : T.find cfg u with
  | none => rfl
  | some i => exact absurd (h.reaches (Tables.lt_of_find hfind)) (hnone i hfind)

/-- The scan for a free entry gives up, as there is none it gets to, or finds the first one. -/
theorem getFreeObjectIndexFrom_outcome (is : List Nat) (hs : is.Pairwise (· < ·))
    (his : ∀ i ∈ is, i < cfg.numAssets) :
    (¬ (∃ i ∈ is, ((activeTables cfg r f).obj i).uniqueId = 0
          ∧ ∀ j ∈ is, j ≤ i → (activeTables cfg r f).Passes cfg j)
        ∧ ((∃ e, Does (sstGetFreeObjectIndexFrom cfg is) r f (.error e) r [])
          ∨ Does (sstGetFreeObjectIndexFrom cfg is) r f (.ok sstMetadataInvalidIndex) r []))
      ∨ ∃ i ∈ is, ((activeTables cfg r f).obj i).uniqueId = 0
        ∧ (∀ j ∈ is, j < i → ((activeTables cfg r f).obj j).uniqueId ≠ 0)
        ∧ (∀ j ∈ is, j ≤ i → (activeTables cfg r f).Passes cfg j)
        ∧ Does (sstGetFreeObjectIndexFrom cfg is) r f (.ok i) r [] := by
  induction is with
  | nil =>
    refine Or.inl ⟨fun ⟨i, hi, _⟩ => absurd hi List.not_mem_nil, ?_⟩
    simp only [sstGetFreeObjectIndexFrom]
    split
    · exact Or.inr (Does.pure _)
    · exact Or.inl ⟨_, Does.fail _⟩
  | cons i is ih =>
    have hi := his i List.mem_cons_self
    obtain ⟨hlt, hs⟩ := List.pairwise_cons.mp hs
    by_cases hp : (activeTables cfg r f).Passes cfg i
    · have hread := (does_readObjectMeta hp hi).attempt
      by_cases hu : ((activeTables cfg r f).obj i).uniqueId = 0
      · refine Or.inr ⟨i, List.mem_cons_self, hu, fun j hj hji => ?_, fun j hj hji => ?_,
          Does.read_bind hread ?_⟩
        · rcases List.mem_cons.mp hj with rfl | hj
          · omega
          · have := hlt j hj
            omega
        · rcases List.mem_cons.mp hj with rfl | hj
          · exact hp
          · have := hlt j hj
            omega
        · simp only [sstUtilsValidateUuid, sstInvalidUuid, hu, if_true]
          exact Does.pure i
      · -- the entry is in use: the rest of the scan decides
        have hstep {v : Except SstErr Nat} (h : Does (sstGetFreeObjectIndexFrom cfg is) r f v r []) :
            Does (sstGetFreeObjectIndexFrom cfg (i :: is)) r f v r [] := by
          refine Does.read_bind hread ?_
          simp only [sstUtilsValidateUuid, sstInvalidUuid, hu, if_false]
          exact h
        rcases ih hs fun j hj => his j (List.mem_cons_of_mem _ hj) with
          ⟨hnone, h⟩ | ⟨j, hj, hju, hfirst, hpj, h⟩
        · refine Or.inl ⟨fun ⟨j, hj, hju, hpj⟩ => ?_, h.imp (fun ⟨e, h⟩ => ⟨e, hstep h⟩) hstep⟩
          rcases List.mem_cons.mp hj with rfl | hj
          · exact hu hju
          · exact hnone ⟨j, hj, hju, fun k hk => hpj k (List.mem_cons_of_mem _ hk)⟩
        · refine Or.inr ⟨j, List.mem_cons_of_mem _ hj, hju, fun k hk hkj => ?_,
            fun k hk hkj => ?_, hstep h⟩
          · rcases List.mem_cons.mp hk with rfl | hk
            · exact hu
            · exact hfirst k hk hkj
          · rcases List.mem_cons.mp hk with rfl | hk
            · exact hp
            · exact hpj k hk hkj
    · -- an entry that cannot be read ends the search with the invalid index
      obtain ⟨e, h⟩ := does_readObjectMeta_error hp hi
      refine Or.inl ⟨fun ⟨j, hj, _, hpj⟩ => hp (hpj i List.mem_cons_self ?_),
        Or.inr (Does.read_bind h.attempt (Does.pure _))⟩
      rcases List.mem_cons.mp hj with rfl | hj
      · exact le_rfl
      · exact (hlt j hj).le

/-- The first logical block with room for `size` bytes. -/
def Tables.firstFit (cfg : Config) (T : Tables) (size : Nat) : Option Nat :=
  (List.range cfg.numActiveDblocks).find? fun l =>
    decide (sstGetAlignedFlashBytes cfg size ≤ (T.blk l).freeSize)

/-- The slot that is reserved in logical block `l`. -/
def Tables.reserved (cfg : Config) (T : Tables) (l size : Nat) : Assetmeta × BlockMetadata :=
  ({ lblock := l, dataIndex := sub32 cfg.blockSize (T.blk l).freeSize, curSize := 0,
     maxSize := size, uniqueId := sstInvalidUuid },
   { T.blk l with
     freeSize := sub32 (T.blk l).freeSize (sstGetAlignedFlashBytes cfg size) })

/-- The first logical block with room is reserved, or the store is full. -/
theorem does_reserveObject (hv : (activeTables cfg r f).BlkValid cfg) (size : Nat) :
    Does (sstMetaReserveObject cfg size) r f
      (match (activeTables cfg r f).firstFit cfg size with
        | some l => .ok ((activeTables cfg r f).reserved cfg l size)
        | none => .error .storageSystemFull) r [] := by
  -- the loop from any block on
  suffices h : ∀ is : List Nat, (∀ l ∈ is, l < cfg.numActiveDblocks) →
      Does (sstMetaReserveObjectFrom cfg size (sstGetAlignedFlashBytes cfg size) is) r f
        (match is.find? fun l => decide (sstGetAlignedFlashBytes cfg size
            ≤ ((activeTables cfg r f).blk l).freeSize) with
          | some l => .ok ((activeTables cfg r f).reserved cfg l size)
          | none => .error .storageSystemFull) r [] from
    h _ fun _ hl => List.mem_range.mp hl
  intro is his
  induction is with
  | nil => exact Does.fail _
  | cons l is ih =>
    have hl := his l List.mem_cons_self
    refine Does.read_bind ((does_readBlockMetadata hv hl).orElse _) ?_
    by_cases hu : sstGetAlignedFlashBytes cfg size ≤ ((activeTables cfg r f).blk l).freeSize
    · rw [List.find?_cons_of_pos (by simpa using hu), if_pos hu]
      exact Does.pure _
    · rw [List.find?_cons_of_neg (by simpa using hu), if_neg hu]
      exact ih fun j hj => his j (List.mem_cons_of_mem _ hj)

end Tfm.Sst
