import TrustedFirmware.Lib.ObjectMap
import TrustedFirmware.Sst.Proofs.Content
import Mathlib.Data.List.Find

/-!
# The store as a map of objects

The abstract view of a store: the map from ids to objects that its tables and its data describe.
`sst_core_object_read` reads this map exactly when no lookup is stopped by an entry that the build
rejects (`readsBack_iff`).

Two stores with the same map can differ in everything else: which physical block holds the data, in
which order the entries stand, what free entries record. The results about operations are therefore
stated over the map.
-/

namespace Tfm.Sst

open Word32 BlockFlash Device

variable {cfg : Config} {r : Ram} {f : Flash} {T T' : Tables}

/-! ## The map

An id that several entries have stands for the first of them, as the lookup of the core would find
it. -/

/-- The objects described by the tables: the first entry with an id decides. Id 0 marks a free
entry and is no object. -/
def Tables.objects (cfg : Config) (T : Tables) (f : Flash) : ObjectMap UInt32 := fun v =>
  if v = sstInvalidUuid then none
  else (T.find cfg v).map fun i => ⟨(T.obj i).maxSize, contentOf f T i⟩

/-- The objects of the store. -/
def objectMap (cfg : Config) (r : Ram) (f : Flash) : ObjectMap UInt32 :=
  (activeTables cfg r f).objects cfg f

/-- An id that is found is an object, with the content of its entry. -/
theorem Tables.objects_of_find {v : UInt32} {i : Nat} (hv : v ≠ 0)
    (h : T.find cfg v = some i) :
    T.objects cfg f v = some ⟨(T.obj i).maxSize, contentOf f T i⟩ := by
  have hv' : ¬ v = sstInvalidUuid := hv
  rw [Tables.objects, if_neg hv', h]
  rfl

/-- An id that no entry has is no object. -/
theorem Tables.objects_of_find_none {v : UInt32} (h : T.find cfg v = none) :
    T.objects cfg f v = none := by
  rw [Tables.objects, h]
  split <;> rfl

theorem Tables.find_of_objects {v : UInt32} {ob : StoredObject}
    (h : T.objects cfg f v = some ob) :
    v ≠ 0 ∧ ∃ i, T.find cfg v = some i ∧ ob = ⟨(T.obj i).maxSize, contentOf f T i⟩ := by
  rw [Tables.objects] at h
  split at h
  · cases h
  · rename_i hv
    obtain ⟨i, hi, hob⟩ := Option.map_eq_some_iff.mp h
    exact ⟨hv, i, hi, hob.symm⟩

/-- The lookup of an id depends on which entries have the id. -/
theorem Tables.find_congr {v : UInt32}
    (h : ∀ i < cfg.numAssets, (T'.obj i).uniqueId = v ↔ (T.obj i).uniqueId = v) :
    T'.find cfg v = T.find cfg v := by
  refine List.find?_congr fun i hi => ?_
  rw [decide_eq_decide]
  exact h i (List.mem_range.mp hi)

/-- The lookup of an id that one entry has finds this entry. -/
theorem Tables.find_eq_some_of_unique {v : UInt32} {i : Nat} (hi : i < cfg.numAssets)
    (h : ∀ j < cfg.numAssets, (T.obj j).uniqueId = v ↔ j = i) : T.find cfg v = some i := by
  cases hfind : T.find cfg v with
  | none => exact absurd ((h i hi).mpr rfl) (Tables.find_eq_none.mp hfind i hi)
  | some j =>
    rw [(h j (Tables.lt_of_find hfind)).mp (Tables.uniqueId_of_find hfind)]

/-! ## Reads

Reads check their range against the current size. The lookup comes first, and it reads entries that
do not belong to the object. -/

/-- The records can be followed to the data. -/
structure Tables.Readable (cfg : Config) (T : Tables) : Prop where
  blkValid : T.BlkValid cfg
  lblock_lt : ∀ i < cfg.numAssets, (T.obj i).lblock < cfg.numActiveDblocks
  index_add_lt : ∀ i < cfg.numAssets, (T.obj i).dataIndex + (T.obj i).curSize < 2 ^ 32
  unused : ∀ i, ¬ T.Live i → (T.obj i).curSize = 0

/-- The records of a mounted store can be followed. -/
theorem Mounted.readable (hm : Mounted cfg r f) (hT : activeTables cfg r f = T) :
    T.Readable cfg := by
  have hL : Layout cfg T _ _ := hT ▸ hm.layout
  refine { blkValid := hL.blkValid, lblock_lt := fun i _ => ?_, index_add_lt := fun i _ => ?_,
           unused := fun i hi => (hL.slots.unused i hi).2.1 }
  · by_cases hi : T.Live i
    · exact hL.slots.lblock_lt i hi
    · rw [(hL.slots.unused i hi).1]
      exact cfg.numActiveDblocks_pos
  · by_cases hi : T.Live i
    · have hb := hL.slots.slot_bounds hi
      have hcur := hL.slots.cur_le i hi
      have hmax := hL.slots.maxSize_le_slotSize hi
      have hB := cfg.blockSize_le
      omega
    · rw [(hL.slots.unused i hi).2.1, ← hT]
      exact (tablesOf_obj_fits _ i).2.1

/-- The bytes `s` from `o` on, out of the bytes from `p` on. -/
theorem get_add_eq_drop_take {row : Row} {p n o s : Nat} (h : o + s ≤ n) :
    row.get (p + o) s = ((row.get p n).drop o).take s := by
  obtain ⟨t, rfl⟩ := Nat.exists_eq_add_of_le h
  rw [Nat.add_assoc, Row.get_add, Row.get_add, List.drop_left' (Row.length_get ..),
    List.take_left' (Row.length_get ..)]

/-- The result of a read of an object with the given content. -/
def readResult (content : List UInt8) (o s : Nat) : Except SstErr (List UInt8) :=
  if o + s ≤ content.length then .ok ((content.drop o).take s) else .error .paramError

/-- A read fails in the lookup, or checks its bounds and returns the bytes. -/
theorem read_outcome (hT : activeTables cfg r f = T) (hR : T.Readable cfg) (v o s : UInt32) :
    (Does (sstCoreObjectRead cfg v o s) r f (.error .assetNotFound) r []
        ∧ ∀ i, T.find cfg v = some i → ¬ T.Reaches cfg i)
      ∨ ∃ i, T.find cfg v = some i ∧ T.Reaches cfg i
        ∧ Does (sstCoreObjectRead cfg v o s) r f
            (readResult (contentOf f T i) o.toNat s.toNat) r [] := by
  rcases lookup_outcome hT v .assetNotFound with ⟨hlook, hnone⟩ | ⟨i, hfind, hreach, hlook⟩
  · exact Or.inl ⟨Does.bind_error hlook, hnone⟩
  refine Or.inr ⟨i, hfind, hreach, Does.read_bind hlook ?_⟩
  have hi := Tables.lt_of_find hfind
  have hobj := does_readObjectMeta (r := r) (f := f) (by rw [hT]; exact hreach i le_rfl) hi
  rw [hT] at hobj
  have hid : ¬ v ≠ (T.obj i).uniqueId := not_not.mpr (Tables.uniqueId_of_find hfind).symm
  refine Does.read_bind (hobj.orElse _) ?_
  rw [if_neg hid, sstUtilsCheckContainedIn, readResult, length_contentOf]
  -- the range is checked in 64 bits, so an offset that would wrap is refused
  by_cases hin : o.toNat + s.toNat ≤ (T.obj i).curSize
  · have hadd := hR.index_add_lt i hi
    rw [if_neg (by omega), if_pos hin, contentOf, ← get_add_eq_drop_take hin]
    exact (does_blockObjectReadRaw hT hR.blkValid (hR.lblock_lt i hi) (by omega)).orElse _
  · rw [if_pos (by omega), if_neg hin]
    exact Does.fail _

/-- The sizes of an object that the lookup gets to. -/
theorem does_getInfo (hT : activeTables cfg r f = T) {v : UInt32} {i : Nat}
    (hfind : T.find cfg v = some i) (hreach : T.Reaches cfg i) :
    Does (sstCoreObjectGetInfo cfg v) r f
      (.ok ⟨(contentOf f T i).length, (T.obj i).maxSize⟩) r [] := by
  rcases lookup_outcome hT v .assetNotFound with ⟨-, hnone⟩ | ⟨j, hj, -, hlook⟩
  · exact absurd hreach (hnone i hfind)
  obtain rfl : i = j := by simpa [hfind] using hj
  have hobj := does_readObjectMeta (r := r) (f := f) (by rw [hT]; exact hreach i le_rfl)
    (Tables.lt_of_find hfind)
  rw [hT] at hobj
  refine Does.read_bind hlook (Does.read_bind hobj ?_)
  rw [if_neg (not_not.mpr (Tables.uniqueId_of_find hfind).symm), length_contentOf]
  exact Does.pure _

/-- `sst_core_object_read` reads the objects of the store: it returns the bytes asked for where
the object has them, and an error otherwise. Id 0 is not an object: nothing can be read there. -/
def ReadsBack (cfg : Config) (r : Ram) (f : Flash) : Prop :=
  (∀ v o s, v ≠ 0 → (run (sstCoreObjectRead cfg v o s) r f).val.toOption
      = (objectMap cfg r f).read v o.toNat s.toNat)
    ∧ ∀ o s bytes, (run (sstCoreObjectRead cfg 0 o s) r f).val = .ok bytes →
      o.toNat + s.toNat = 0 ∧ bytes = []

/-- No lookup of a stored object is stopped by an entry that the build rejects. -/
def Tables.Searchable (cfg : Config) (T : Tables) : Prop :=
  ∀ v i, v ≠ 0 → T.find cfg v = some i → T.Reaches cfg i

/-- Reads work exactly when lookups do. -/
theorem readsBack_iff (hT : activeTables cfg r f = T) (hR : T.Readable cfg) :
    ReadsBack cfg r f ↔ T.Searchable cfg := by
  rw [ReadsBack, objectMap, hT]
  constructor
  · rintro ⟨hread, -⟩ v i hv hfind
    -- a stored object can at least be read for zero bytes
    have hsome := (hread v 0 0 hv).trans (ObjectMap.read_zero (by
      rw [Tables.objects_of_find hv hfind]; simp))
    rcases read_outcome hT hR v 0 0 with ⟨hdoes, -⟩ | ⟨j, hj, hreach, -⟩
    · rw [run, hdoes.val_eq] at hsome
      cases hsome
    · rw [hfind, Option.some.injEq] at hj
      exact hj ▸ hreach
  · intro hs
    constructor
    · intro v o s hv
      rcases read_outcome hT hR v o s with ⟨hdoes, hnone⟩ | ⟨i, hfind, -, hdoes⟩
      · have hfind : T.find cfg v = none := by
          cases h : T.find cfg v with
          | none => rfl
          | some i => exact absurd (hs v i hv h) (hnone i h)
        rw [run, hdoes.val_eq, ObjectMap.read_of_none (Tables.objects_of_find_none hfind)]
        rfl
      · rw [run, hdoes.val_eq, ObjectMap.read_of_some (Tables.objects_of_find hv hfind),
          readResult]
        dsimp only
        split <;> rfl
    · -- id 0 may find a free entry, whose size is 0
      intro o s bytes hok
      rcases read_outcome hT hR 0 o s with ⟨hdoes, -⟩ | ⟨i, hfind, -, hdoes⟩
      · rw [run, hdoes.val_eq] at hok
        cases hok
      · rw [run, hdoes.val_eq] at hok
        have hcur := hR.unused i fun hlive => hlive (Tables.uniqueId_of_find hfind)
        rw [readResult, length_contentOf, hcur] at hok
        split at hok
        · rename_i h0
          have hs0 : s.toNat = 0 := by omega
          rw [hs0, List.take_zero, Except.ok.injEq] at hok
          exact ⟨by omega, hok.symm⟩
        · cases hok

/-- An id that no entry has does not exist. -/
theorem exist_of_find_none {v : UInt32} (h : (activeTables cfg r f).find cfg v = none) :
    (run (sstCoreObjectExist cfg v) r f).val = .error .assetNotFound := by
  rcases lookup_outcome rfl v .assetNotFound with ⟨hlook, -⟩ | ⟨i, hi, -⟩
  · rw [run, sstCoreObjectExist, (Does.bind_error hlook).val_eq]
  · rw [h] at hi
    cases hi

/-! ## What callers see of an object

The results about deletions and remounts compare what `sst_core_object_get_info` and
`sst_core_object_read` report before and after. -/

/-- Between two states nothing about object `v` has changed: it is stored with the same sizes
and the same bytes, and the core reports these as before. -/
structure SameObject (cfg : Config) (r : Ram) (f : Flash) (r' : Ram) (f' : Flash)
    (v : UInt32) : Prop where
  stored : objectMap cfg r' f' v = objectMap cfg r f v
  info : (run (sstCoreObjectGetInfo cfg v) r' f').val = (run (sstCoreObjectGetInfo cfg v) r f).val
  read : ∀ o s, (run (sstCoreObjectRead cfg v o s) r' f').val
    = (run (sstCoreObjectRead cfg v o s) r f).val

/-- Where lookups work, it is enough that the objects are the same. -/
theorem sameObject_of_objects {r' : Ram} {f' : Flash} {v : UInt32} {i i' : Nat}
    (hT : activeTables cfg r f = T) (hT' : activeTables cfg r' f' = T') (hR : T.Readable cfg)
    (hR' : T'.Readable cfg) (hv : v ≠ 0) (hfind : T.find cfg v = some i)
    (hfind' : T'.find cfg v = some i') (hreach : T.Reaches cfg i) (hreach' : T'.Reaches cfg i')
    (heq : T'.objects cfg f' v = T.objects cfg f v) : SameObject cfg r f r' f' v := by
  have hob := heq
  rw [Tables.objects_of_find hv hfind, Tables.objects_of_find hv hfind', Option.some.injEq,
    StoredObject.mk.injEq] at hob
  refine ⟨by rw [objectMap, hT', objectMap, hT, heq], ?_, fun o s => ?_⟩
  · rw [run, run, (does_getInfo hT hfind hreach).val_eq, (does_getInfo hT' hfind' hreach').val_eq,
      hob.1, hob.2]
  · -- both lookups succeed, so both results are computed from the same content
    rcases read_outcome hT hR v o s with ⟨-, hnone⟩ | ⟨j, hj, -, hdoes⟩
    · exact absurd hreach (hnone i hfind)
    rcases read_outcome hT' hR' v o s with ⟨-, hnone⟩ | ⟨j', hj', -, hdoes'⟩
    · exact absurd hreach' (hnone i' hfind')
    obtain rfl : i = j := by simpa [hfind] using hj
    obtain rfl : i' = j' := by simpa [hfind'] using hj'
    rw [run, run, hdoes.val_eq, hdoes'.val_eq, hob.2]

end Tfm.Sst
