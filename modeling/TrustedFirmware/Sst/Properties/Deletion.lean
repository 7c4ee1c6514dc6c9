import TrustedFirmware.Sst.Proofs.Objects
import TrustedFirmware.Sst.Properties.LayoutInvariant

/-!
# What a delete does to the other objects

A delete compacts the block of the deleted object and commits new tables. Two things can go wrong
for the objects that stay. Unlike create and write, a delete outside logical block 0 does not carry
the data of logical block 0 over to the new metadata block (**`delete_keeps_other_blocks`**). And a
delete in logical block 0 takes the position that a free entry still records for the begin of the
data to move, if it lies inside the deleted slot (**`delete_keeps_own_block`**). Both conditions are
exact.
-/

namespace Tfm.Sst

open Word32 BlockFlash Device

variable {cfg : Config} {r r' : Ram} {f f' : Flash} {T : Tables} {h' : MetadataBlockHeader}

/-! ## The tables after a delete

The entry of the deleted object is cleared, and the entries behind it move up. -/

section Tables

variable {s d i j : Nat} {u v : UInt32} {active scratch : Nat}

/-- A delete does not change what a lookup of another id finds. -/
theorem Tables.deleted_find_ne (hv : v ≠ 0) (hvi : v ≠ (T.obj i).uniqueId) :
    (T.deleted cfg s d i).find cfg v = T.find cfg v := by
  refine Tables.find_congr fun j _ => ?_
  by_cases hj : j = i
  · subst hj
    rw [Tables.deleted_obj_self]
    exact ⟨fun h => absurd h.symm hv, fun h => absurd h.symm hvi⟩
  · rw [Tables.uniqueId_deleted hj]

/-- The deleted object is not found, if no other entry has its id. -/
theorem Tables.deleted_find_self (hu : u ≠ 0) (hfind : T.find cfg u = some i)
    (huniq : T.UniqueIds) : (T.deleted cfg s d i).find cfg u = none := by
  have hid := Tables.uniqueId_of_find hfind
  refine Tables.find_eq_none.mpr fun j _ => ?_
  by_cases hj : j = i
  · subst hj
    rw [Tables.deleted_obj_self]
    exact hu.symm
  · rw [Tables.uniqueId_deleted hj]
    intro hju
    have hlive : T.Live j := by
      rw [Tables.Live, hju]
      exact hu
    exact hj (huniq j i hlive (Tables.live_of_find hu hfind) (hju.trans hid.symm))

/-- The build accepts the records after a delete, if it did before. -/
theorem Tables.Accepted.deleted (h : T.Accepted cfg) (hL : Layout cfg T active scratch)
    {active' scratch' : Nat} (hL' : Layout cfg (T.deleted cfg s d i) active' scratch') :
    (T.deleted cfg s d i).Accepted cfg :=
  hL'.accepted_iff.mpr fun hval => (hL.accepted_iff.mp h hval).deleted

end Tables

/-! ## Contents after a delete

Where the bytes of the other objects come from: by the block they are in, and by the side of the
deleted object they are on. -/

section Contents

variable {i j : Nat} {u v : UInt32} (hm : Mounted cfg r f) (hT : activeTables cfg r f = T)
  (hi : T.Live i)
  (hcom : Committed cfg r f (T.vacated r.ctx.metaBlockHeader.scratchIdx (T.obj i).lblock)
    (deleteCalls cfg r.ctx.activeMetablock r.ctx.scratchMetablock
      r.ctx.metaBlockHeader.scratchIdx T i) h' r' f')
include hm hT hi hcom

/-- Objects of another dedicated block keep their content. -/
theorem Committed.content_deleted_other (hj : T.Live j) (h0 : (T.obj j).lblock ≠ 0)
    (hl : (T.obj j).lblock ≠ (T.obj i).lblock) :
    contentOf f' (T.deleted cfg r.ctx.scratchMetablock r.ctx.metaBlockHeader.scratchIdx i) j
      = contentOf f T j := by
  have hL : Layout cfg T _ _ := hT ▸ hm.layout
  have hji : j ≠ i := fun he => hl (by rw [he])
  have hshift : (T.deletedSlot cfg i).shift (T.obj j) = T.obj j := if_neg fun h => hl h.1
  rw [contentOf, Tables.deleted_obj_ne hji, hshift, hcom.row_deleted_other hm hT hi (by omega)
    (hL.slots.lblock_lt j hj) hl, contentOf]

/-- Unless the deleted object is in logical block 0, the objects of that block lose their
content. -/
theorem Committed.content_deleted_zero (hj : T.Live j) (h0 : (T.obj j).lblock = 0)
    (hl : (T.obj i).lblock ≠ 0) (herased : f r.ctx.scratchMetablock = Row.erased) :
    contentOf f' (T.deleted cfg r.ctx.scratchMetablock r.ctx.metaBlockHeader.scratchIdx i) j
      = List.replicate (T.obj j).curSize erasedByte := by
  have hL : Layout cfg T _ _ := hT ▸ hm.layout
  have hb := hL.slots.slot_bounds hj
  rw [h0, hL.blocks.metaStart] at hb
  have hji : j ≠ i := fun he => hl (by rw [← he, h0])
  have hshift : (T.deletedSlot cfg i).shift (T.obj j) = T.obj j :=
    if_neg fun h => hl (h.1.symm.trans h0)
  rw [contentOf, Tables.deleted_obj_ne hji, hshift, h0]
  refine Row.get_eq_of_getD List.length_replicate fun k hk => ?_
  rw [hcom.byte_deleted_zero hm hT hi hl (by omega), herased, List.getD_eq_getElem?_getD,
    List.getElem?_replicate, if_pos hk]
  rfl

/-- Objects before the deleted one keep their content. -/
theorem Committed.content_deleted_before (hj : T.Live j) (hl : (T.obj j).lblock = (T.obj i).lblock)
    (hlt : (T.obj j).dataIndex < (T.obj i).dataIndex) :
    contentOf f' (T.deleted cfg r.ctx.scratchMetablock r.ctx.metaBlockHeader.scratchIdx i) j
      = contentOf f T j := by
  have hL : Layout cfg T _ _ := hT ▸ hm.layout
  have hb := hL.slots.slot_bounds hj
  have hcur := hL.slots.cur_le j hj
  have hslot := hL.slots.maxSize_le_slotSize hj
  have hji : j ≠ i := fun he => by rw [he] at hlt; omega
  have hshift : (T.deletedSlot cfg i).shift (T.obj j) = T.obj j :=
    if_neg fun h => Nat.lt_asymm hlt h.2
  -- slots are disjoint, so the object ends before the deleted one starts
  have hsep : (T.obj j).dataIndex + T.slotSize cfg j ≤ (T.obj i).dataIndex := by
    have hpos := hL.slots.max_pos i hi
    have hsloti := hL.slots.maxSize_le_slotSize hi
    rcases hL.slots.slot_disjoint hi hj hji.symm hl with h | h <;> omega
  rw [contentOf, Tables.deleted_obj_ne hji, hshift, contentOf, hl]
  refine Row.get_congr fun k hk => ?_
  rw [hl] at hb
  rw [hcom.byte_deleted_same hm hT hi (by omega) (by omega), if_pos (by omega)]

/-- The bytes of an object behind the deleted one come from where the move started. -/
theorem Committed.content_deleted_behind (hj : T.Live j) (hb : T.Behind i j) :
    contentOf f' (T.deleted cfg r.ctx.scratchMetablock r.ctx.metaBlockHeader.scratchIdx i) j
      = (f (T.blk (T.obj i).lblock).physId).get ((T.obj j).dataIndex
          - ((T.obj i).dataIndex + T.slotSize cfg i - (T.movedRange cfg i).1)) (T.obj j).curSize := by
  have hL : Layout cfg T _ _ := hT ▸ hm.layout
  have hbi := hL.slots.slot_bounds hi
  have hbj := hL.slots.slot_bounds hj
  have hcur := hL.slots.cur_le j hj
  have hslot := hL.slots.maxSize_le_slotSize hj
  have hpos := hL.slots.max_pos j hj
  have hji : j ≠ i := hb.ne.symm
  have hn := hL.movedRange_snd hi
  have hsep := hL.slots.end_le_of_behind hi hj hb
  rw [hb.1] at hbj
  obtain ⟨hsrc1, hsrc2⟩ := hL.movedRange_fst_le hi (by omega)
  -- the entry moves by the slot, the bytes by the distance to where the move started
  have hidx : ((T.deleted cfg r.ctx.scratchMetablock r.ctx.metaBlockHeader.scratchIdx i).obj
      j).dataIndex = (T.obj j).dataIndex - T.slotSize cfg i := by
    rw [Tables.deleted_obj_ne hji]
    exact (hL.slots.slotsApart.shift_dataIndex hi hj).trans (if_pos hb)
  obtain ⟨x, hx⟩ := (T.deletedSlot cfg i).shift_eq (T.obj j)
  rw [contentOf, hidx, Tables.deleted_obj_ne hji, hx]
  dsimp only
  rw [hb.1]
  refine Row.get_congr fun k hk => ?_
  rw [hcom.byte_deleted_same hm hT hi (by omega) (by omega), if_neg (by omega)]
  congr 1
  omega

end Contents

/-! ## The state after a delete

For its callers an object is its content, once the tables are known. -/

/-- The tables and the data after a delete of object `i`. -/
structure Deleted (cfg : Config) (r : Ram) (f : Flash) (i : Nat) (r' : Ram) (f' : Flash) : Prop where
  accepted : (activeTables cfg r f).Accepted cfg
  tables : activeTables cfg r' f' = (activeTables cfg r f).deleted cfg r.ctx.scratchMetablock
    r.ctx.metaBlockHeader.scratchIdx i
  mounted : Mounted cfg r' f'
  committed : ∃ h', Committed cfg r f ((activeTables cfg r f).vacated
      r.ctx.metaBlockHeader.scratchIdx ((activeTables cfg r f).obj i).lblock)
    (deleteCalls cfg r.ctx.activeMetablock r.ctx.scratchMetablock
      r.ctx.metaBlockHeader.scratchIdx (activeTables cfg r f) i) h' r' f'

/-- A delete that does not fail has this effect, and where all records are accepted a delete of
a stored object does not fail. -/
theorem deleted_of_find (hm : Mounted cfg r f) (hc : cfg.CryptoWorks) {u : UInt32} {i : Nat}
    (hu : u ≠ 0) (hfind : (activeTables cfg r f).find cfg u = some i)
    (h : (run (sstCoreObjectDelete cfg u) r f).val = .ok ()
      ∨ (activeTables cfg r f).Accepted cfg) :
    (run (sstCoreObjectDelete cfg u) r f).val = .ok ()
      ∧ Deleted cfg r f i (run (sstCoreObjectDelete cfg u) r f).mem
          (run (sstCoreObjectDelete cfg u) r f).dev := by
  rcases delete_outcome hm.running hc rfl u with ⟨habort, hnone⟩ | ⟨j, -, hj, hacc, hcommits⟩
  · -- a delete that aborts has not succeeded, and does not abort where all records are accepted
    rcases h with hok | hacc
    · exact absurd hok habort.run_ne_ok
    · rcases (hnone hacc).1 with h0 | hnone
      · exact absurd h0 hu
      · rw [hnone] at hfind
        cases hfind
  · obtain rfl : i = j := by simpa [hfind] using hj
    have p := deletePlan hm rfl (Tables.live_of_find hu hfind) hcommits
    obtain ⟨hok, h', hcom⟩ := p.run_committed hm
    exact ⟨hok, hacc, hcom.tables p, hcom.mounted p hm, h', hcom⟩

/-- After a delete another object is the same for its callers exactly when it has the same
content. -/
theorem Deleted.sameObject_iff {i j : Nat} {v : UInt32} (hd : Deleted cfg r f i r' f')
    (hm : Mounted cfg r f) (hv : v ≠ 0) (hvi : v ≠ ((activeTables cfg r f).obj i).uniqueId)
    (hfind : (activeTables cfg r f).find cfg v = some j) :
    SameObject cfg r f r' f' v
      ↔ contentOf f' (activeTables cfg r' f') j = contentOf f (activeTables cfg r f) j := by
  have hfind' : (activeTables cfg r' f').find cfg v = some j := by
    rw [hd.tables, Tables.deleted_find_ne hv hvi, hfind]
  have hji : j ≠ i := fun he => hvi (he ▸ (Tables.uniqueId_of_find hfind).symm)
  have hacc' : (activeTables cfg r' f').Accepted cfg := by
    have hL' := hd.mounted.layout
    rw [hd.tables] at hL' ⊢
    exact hd.accepted.deleted hm.layout hL'
  have hjA := Tables.lt_of_find hfind
  constructor
  · intro h
    have hst := h.stored
    rw [objectMap, objectMap, Tables.objects_of_find hv hfind, Tables.objects_of_find hv hfind',
      Option.some.injEq, StoredObject.mk.injEq] at hst
    exact hst.2
  · intro h
    refine sameObject_of_objects rfl rfl (hm.readable rfl) (hd.mounted.readable rfl) hv hfind
      hfind' (hd.accepted.reaches hjA) (hacc'.reaches hjA) ?_
    -- the entry changes its position only
    have hmax : ((activeTables cfg r' f').obj j).maxSize
        = ((activeTables cfg r f).obj j).maxSize := by
      obtain ⟨x, hx⟩ := ((activeTables cfg r f).deletedSlot cfg i).shift_eq
        ((activeTables cfg r f).obj j)
      rw [hd.tables, Tables.deleted_obj_ne hji, hx]
    rw [Tables.objects_of_find hv hfind, Tables.objects_of_find hv hfind', h, hmax]

/-! ## Objects of other blocks

A delete compacts the block of the deleted object into the data scratch block, and rebuilds the
metadata block in the scratch metadata block. The data of logical block 0 lies in the metadata block
too, and a delete in another block does not migrate it. -/

/-- **Deletes and the other logical blocks.** After a successful delete of a stored object `u`,
the objects of the other logical blocks are as before exactly when `u` is in logical block 0 or
the objects of logical block 0 consist of erased bytes. -/
theorem delete_keeps_other_blocks (hc : cfg.CryptoWorks) (h : Reachable cfg (Op.Pre cfg) r f)
    {u : UInt32} {i : Nat} (hu : u ≠ 0) (hfind : (activeTables cfg r f).find cfg u = some i)
    (hok : (run (sstCoreObjectDelete cfg u) r f).val = .ok ()) :
    (∀ v j, v ≠ 0 → (activeTables cfg r f).find cfg v = some j →
      ((activeTables cfg r f).obj j).lblock ≠ ((activeTables cfg r f).obj i).lblock →
      SameObject cfg r f (run (sstCoreObjectDelete cfg u) r f).mem
        (run (sstCoreObjectDelete cfg u) r f).dev v)
    ↔ (((activeTables cfg r f).obj i).lblock = 0
      ∨ ∀ v j, v ≠ 0 → (activeTables cfg r f).find cfg v = some j →
        ((activeTables cfg r f).obj j).lblock = 0 →
        ∀ b ∈ contentOf f (activeTables cfg r f) j, b = 0xFF) := by
  have hst := h.settled hc
  have hi := Tables.live_of_find hu hfind
  obtain ⟨-, hd⟩ := deleted_of_find hst.toMounted hc hu hfind (Or.inl hok)
  obtain ⟨h', hcom⟩ := hd.committed
  -- an object of another block is not the deleted one
  have hne {v : UInt32} {j : Nat} (hj : (activeTables cfg r f).find cfg v = some j)
      (hl : ((activeTables cfg r f).obj j).lblock ≠ ((activeTables cfg r f).obj i).lblock) :
      v ≠ ((activeTables cfg r f).obj i).uniqueId := by
    rintro rfl
    rw [Tables.uniqueId_of_find hfind, hfind, Option.some.injEq] at hj
    exact hl (by rw [hj])
  -- only a delete outside logical block 0 leaves the data of that block behind
  by_cases h0 : ((activeTables cfg r f).obj i).lblock = 0
  · refine ⟨fun _ => Or.inl h0, fun _ v j hv hj hl => ?_⟩
    rw [hd.sameObject_iff hst.toMounted hv (hne hj hl) hj, hd.tables]
    exact hcom.content_deleted_other hst.toMounted rfl hi (Tables.live_of_find hv hj)
      (fun hz => hl (hz.trans h0.symm)) hl
  · constructor
    · refine fun hsame => Or.inr fun v j hv hj hj0 b hb => ?_
      have hl : ((activeTables cfg r f).obj j).lblock ≠ ((activeTables cfg r f).obj i).lblock :=
        fun he => h0 (he.symm.trans hj0)
      -- the content read afterwards is that of the erased scratch block
      have hcontent := (hd.sameObject_iff hst.toMounted hv (hne hj hl) hj).mp (hsame v j hv hj hl)
      rw [hd.tables, hcom.content_deleted_zero hst.toMounted rfl hi (Tables.live_of_find hv hj)
        hj0 h0 hst.metaScratch] at hcontent
      rw [← hcontent] at hb
      exact List.eq_of_mem_replicate hb
    · -- erased bytes are what the erased scratch block gives back
      rintro (hz | herased) v j hv hj hl
      · exact absurd hz h0
      rw [hd.sameObject_iff hst.toMounted hv (hne hj hl) hj, hd.tables]
      have hlive := Tables.live_of_find hv hj
      by_cases hj0 : ((activeTables cfg r f).obj j).lblock = 0
      · rw [hcom.content_deleted_zero hst.toMounted rfl hi hlive hj0 h0 hst.metaScratch]
        exact (List.eq_replicate_iff.mpr ⟨length_contentOf .., herased v j hv hj hj0⟩).symm
      · exact hcom.content_deleted_other hst.toMounted rfl hi hlive hj0 hl

/-- A store with object 1 in logical block 0 and object 2 in logical block 1. -/
def twoBlockStore : Result Call SstErr Ram Flash Unit :=
  [Op.create 1 1, .write 1 [7] 0 1, .create 2 2].foldl (thenRun smallConfig)
    (emptyStore smallConfig)

set_option maxRecDepth 100000 in
/-- The two creates and the write succeed, within the callers' obligations. -/
theorem twoBlockStore_reachable :
    Reachable smallConfig (Op.Pre smallConfig) twoBlockStore.mem twoBlockStore.dev := by
  refine Reachable.run_all (s := emptyStore smallConfig) ?_ (by decide +kernel)
  exact .empty _ _ _ (by decide +kernel) (by decide +kernel)

set_option maxRecDepth 100000 in
/-- Deleting object 1 of logical block 0 leaves object 2 alone. -/
theorem delete_keeps_other_blocks_small :
    SameObject smallConfig twoBlockStore.mem twoBlockStore.dev
      (thenRun smallConfig twoBlockStore (.delete 1)).mem
      (thenRun smallConfig twoBlockStore (.delete 1)).dev 2 :=
  (delete_keeps_other_blocks (u := 1) (i := 0) (fun h => by cases h) twoBlockStore_reachable
    (by decide) (by decide +kernel) (by decide +kernel)).mpr (Or.inl (by decide +kernel)) 2 1
    (by decide) (by decide +kernel) (by decide +kernel)

set_option maxRecDepth 100000 in
/-- Deleting object 2 of logical block 1 erases the byte of object 1, in logical block 0. -/
theorem delete_loses_block_zero :
    Reachable smallConfig (Op.Pre smallConfig) twoBlockStore.mem twoBlockStore.dev
    ∧ (activeTables smallConfig twoBlockStore.mem twoBlockStore.dev).find smallConfig 1 = some 0
    ∧ (activeTables smallConfig twoBlockStore.mem twoBlockStore.dev).find smallConfig 2 = some 1
    ∧ ((activeTables smallConfig twoBlockStore.mem twoBlockStore.dev).obj 0).lblock
      ≠ ((activeTables smallConfig twoBlockStore.mem twoBlockStore.dev).obj 1).lblock
    ∧ (thenRun smallConfig twoBlockStore (.delete 2)).val = .ok ()
    ∧ (run (sstCoreObjectRead smallConfig 1 0 1) twoBlockStore.mem twoBlockStore.dev).val = .ok [7]
    ∧ (run (sstCoreObjectRead smallConfig 1 0 1)
        (thenRun smallConfig twoBlockStore (.delete 2)).mem
        (thenRun smallConfig twoBlockStore (.delete 2)).dev).val = .ok [255] :=
  ⟨twoBlockStore_reachable, by decide +kernel⟩

/-! ## Objects of the same block

The bytes behind the deleted object move up by the size of its slot. Where they start is looked up
in the object table, in which free entries keep the position of the object they were used for: such
a position inside the slot makes the move start too early. -/

/-- A free entry still records the position `x`, strictly inside the slot of object `i` of
logical block 0. -/
def Tables.Stale (cfg : Config) (T : Tables) (i x : Nat) : Prop :=
  (T.obj i).lblock = 0 ∧ (T.obj i).dataIndex < x ∧ x < (T.obj i).dataIndex + T.slotSize cfg i
    ∧ ∃ j < cfg.numAssets, ¬ T.Live j ∧ (T.obj j).dataIndex = x

/-- If anything is moved, it is moved from the end of the slot or from the smallest stale
position inside the slot. -/
theorem Layout.movedRange_fst_cases {active scratch i : Nat} (hL : Layout cfg T active scratch)
    (hi : T.Live i) (hn : 0 < (T.movedRange cfg i).2) :
    ((T.movedRange cfg i).1 = (T.obj i).dataIndex + T.slotSize cfg i ∧ ∀ x, ¬ T.Stale cfg i x)
      ∨ (T.Stale cfg i (T.movedRange cfg i).1
        ∧ ∀ x, T.Stale cfg i x → (T.movedRange cfg i).1 ≤ x) := by
  obtain ⟨hle, hmin, hex⟩ := T.movedRange_fst cfg i
  obtain ⟨hlt, hle'⟩ := hL.movedRange_fst_le hi hn
  have hb := hL.slots.slot_bounds hi
  have hstale {x : Nat} (hx : T.Stale cfg i x) : (T.movedRange cfg i).1 ≤ x := by
    obtain ⟨hl, hx, -, j, hj, hfree, rfl⟩ := hx
    exact hmin j hj ⟨(hL.slots.unused j hfree).1.trans hl.symm, hx⟩
  -- a start before the end of the slot is the position of an entry of the same block
  rcases Nat.lt_or_ge (T.movedRange cfg i).1 ((T.obj i).dataIndex + T.slotSize cfg i) with hin | hout
  · refine Or.inr ⟨?_, fun x hx => hstale hx⟩
    rcases hex with he | ⟨j, hj, hbj, he⟩
    · omega
    · -- a live object behind the slot starts at its end at the earliest
      have hfree : ¬ T.Live j := fun hlive => by
        have := hL.slots.end_le_of_behind hi hlive hbj
        omega
      exact ⟨hbj.1.symm.trans (hL.slots.unused j hfree).1, hlt, hin, j, hj, hfree, he.symm⟩
  · refine Or.inl ⟨by omega, fun x hx => ?_⟩
    have h1 := hstale hx
    have h2 := hx.2.2.1
    omega

/-- With unique ids a lookup finds every stored object. -/
theorem Tables.UniqueIds.find_live {j : Nat} (h : T.UniqueIds) (hj : T.Live j)
    (hlt : ∀ k, T.Live k → k < cfg.numAssets) : T.find cfg (T.obj j).uniqueId = some j := by
  refine Tables.find_eq_some_of_unique (hlt j hj) fun k _ => ⟨fun hk => ?_, fun hk => by rw [hk]⟩
  have hk' : T.Live k := by
    rw [Tables.Live, hk]
    exact hj
  exact h k j hk' hj hk

/-- The content of an object behind the deleted one survives exactly when the bytes are the
same as those before it, by as much as the move starts too early. -/
theorem Deleted.content_eq_iff {i j : Nat} (hd : Deleted cfg r f i r' f') (hm : Mounted cfg r f)
    (hT : activeTables cfg r f = T) (hi : T.Live i) (hj : T.Live j) (hb : T.Behind i j) :
    contentOf f' (activeTables cfg r' f') j = contentOf f T j
      ↔ ∀ k < (T.obj j).curSize, f (T.blk (T.obj i).lblock).physId
          ((T.obj j).dataIndex + k - ((T.obj i).dataIndex + T.slotSize cfg i
            - (T.movedRange cfg i).1))
        = f (T.blk (T.obj i).lblock).physId ((T.obj j).dataIndex + k) := by
  have hL : Layout cfg T _ _ := hT ▸ hm.layout
  obtain ⟨h', hcom⟩ := hd.committed
  have htab := hd.tables
  rw [hT] at hcom htab
  have hsep := hL.slots.end_le_of_behind hi hj hb
  rw [htab, hcom.content_deleted_behind hm hT hi hj hb, contentOf, hb.1, Row.get_eq_get]
  refine forall_congr' fun k => imp_congr_right fun _ => ?_
  -- the new entry points the slot size further up, the bytes have moved from the start of the range
  rw [show (T.obj j).dataIndex - ((T.obj i).dataIndex + T.slotSize cfg i - (T.movedRange cfg i).1)
      + k = (T.obj j).dataIndex + k
        - ((T.obj i).dataIndex + T.slotSize cfg i - (T.movedRange cfg i).1) by omega]

/-- Something lies behind the slot of `i`, if an object does. -/
theorem Layout.movedRange_snd_pos {active scratch i j : Nat} (hL : Layout cfg T active scratch)
    (hi : T.Live i) (hj : T.Live j) (hb : T.Behind i j) : 0 < (T.movedRange cfg i).2 := by
  have hpos := hL.slots.max_pos j hj
  have hslot := hL.slots.maxSize_le_slotSize hj
  have hbj := hL.slots.slot_bounds hj
  have hsep := hL.slots.end_le_of_behind hi hj hb
  rw [hb.1] at hbj
  rw [hL.movedRange_snd hi]
  omega

/-- **Deletes and the own logical block.** A delete of a stored object `u` succeeds, `u` is not
found any more, and the other objects of its block are as before, exactly when no free entry
records a position strictly inside the slot of `u`, or the bytes that are moved instead are the
same: with `x` the smallest such position, each object behind `u` holds the bytes found as far
before it as `x` lies before the end of the slot. -/
theorem delete_keeps_own_block (hc : cfg.CryptoWorks)
    (h : Reachable cfg (Op.Admissible cfg) r f) {u : UInt32} {i : Nat} (hu : u ≠ 0)
    (hfind : (activeTables cfg r f).find cfg u = some i) :
    ((run (sstCoreObjectDelete cfg u) r f).val = .ok ()
      ∧ (run (sstCoreObjectExist cfg u) (run (sstCoreObjectDelete cfg u) r f).mem
          (run (sstCoreObjectDelete cfg u) r f).dev).val = .error .assetNotFound
      ∧ ∀ v j, v ≠ 0 → v ≠ u → (activeTables cfg r f).find cfg v = some j →
        ((activeTables cfg r f).obj j).lblock = ((activeTables cfg r f).obj i).lblock →
        SameObject cfg r f (run (sstCoreObjectDelete cfg u) r f).mem
          (run (sstCoreObjectDelete cfg u) r f).dev v)
    ↔ ∀ x, (activeTables cfg r f).Stale cfg i x →
        (∀ y, (activeTables cfg r f).Stale cfg i y → x ≤ y) →
        ∀ j, (activeTables cfg r f).Live j → (activeTables cfg r f).Behind i j →
        ∀ k < ((activeTables cfg r f).obj j).curSize,
          f ((activeTables cfg r f).blk ((activeTables cfg r f).obj i).lblock).physId
            (((activeTables cfg r f).obj j).dataIndex + k
              - (((activeTables cfg r f).obj i).dataIndex
                + (activeTables cfg r f).slotSize cfg i - x))
          = f ((activeTables cfg r f).blk ((activeTables cfg r f).obj i).lblock).physId
            (((activeTables cfg r f).obj j).dataIndex + k) := by
  obtain ⟨hst, huniq, hsized⟩ := h.consistent hc
  have hm := hst.toMounted
  have hL := hst.layout
  have hi := Tables.live_of_find hu hfind
  have hid := Tables.uniqueId_of_find hfind
  obtain ⟨hok, hd⟩ := deleted_of_find hm hc hu hfind (Or.inr (hL.valid hsized).accepted)
  constructor
  · rintro ⟨-, -, hsame⟩ x hx hmin j hj hb
    have hvu : ((activeTables cfg r f).obj j).uniqueId ≠ u :=
      fun he => hb.ne (huniq i j hi hj (hid.trans he.symm))
    have hfj := huniq.find_live hj hL.slots.live_lt
    have hcontent := (hd.sameObject_iff hm hj (hid.symm ▸ hvu) hfj).mp
      (hsame _ j hj hvu hfj hb.1)
    rw [hd.content_eq_iff hm rfl hi hj hb] at hcontent
    -- the move starts at the smallest stale position
    rcases hL.movedRange_fst_cases hi (hL.movedRange_snd_pos hi hj hb) with
      ⟨-, hnone⟩ | ⟨hst', hmin'⟩
    · exact absurd hx (hnone x)
    · rwa [Nat.le_antisymm (hmin' x hx) (hmin _ hst')] at hcontent
  · -- conversely, what lies before the object stays in place, and what lies behind is moved
    intro hcond
    refine ⟨hok, ?_, fun v j hv hvu hfj hl => ?_⟩
    · refine exist_of_find_none ?_
      rw [hd.tables]
      exact Tables.deleted_find_self hu hfind huniq
    · have hj := Tables.live_of_find hv hfj
      have hji : i ≠ j := by
        rintro rfl
        exact hvu ((Tables.uniqueId_of_find hfj).symm.trans hid)
      rw [hd.sameObject_iff hm hv (hid.symm ▸ hvu) hfj]
      rcases Nat.lt_or_ge ((activeTables cfg r f).obj j).dataIndex
        ((activeTables cfg r f).obj i).dataIndex with hlt | hge
      · obtain ⟨h', hcom⟩ := hd.committed
        rw [hd.tables]
        exact hcom.content_deleted_before hm rfl hi hj hl hlt
      · have hb : (activeTables cfg r f).Behind i j := by
          refine ⟨hl, ?_⟩
          have hpos := hL.slots.max_pos i hi
          have hslot := hL.slots.maxSize_le_slotSize hi
          have hposj := hL.slots.max_pos j hj
          have hslotj := hL.slots.maxSize_le_slotSize hj
          rcases hL.slots.slot_disjoint hi hj hji hl with hsep | hsep <;> omega
        rw [hd.content_eq_iff hm rfl hi hj hb]
        rcases hL.movedRange_fst_cases hi (hL.movedRange_snd_pos hi hj hb) with
          ⟨he, -⟩ | ⟨hst', hmin'⟩
        · intro k _
          rw [he, Nat.sub_self, Nat.sub_zero]
        · exact hcond _ hst' hmin' j hj hb

/-- A store with two objects in logical block 1. -/
def oneBlockStore : Result Call SstErr Ram Flash Unit :=
  [Op.create 1 2, .create 2 2, .write 2 [8, 9] 0 2].foldl (thenRun smallConfig)
    (emptyStore smallConfig)

set_option maxRecDepth 100000 in
/-- After the first object is deleted the second is as before. -/
theorem delete_keeps_own_block_small :
    (run (sstCoreObjectRead smallConfig 2 0 2) oneBlockStore.mem oneBlockStore.dev).val
        = .ok [8, 9]
      ∧ (thenRun smallConfig oneBlockStore (.delete 1)).val = .ok ()
      ∧ SameObject smallConfig oneBlockStore.mem oneBlockStore.dev
          (thenRun smallConfig oneBlockStore (.delete 1)).mem
          (thenRun smallConfig oneBlockStore (.delete 1)).dev 2 := by
  have h0 : Reachable smallConfig (Op.Admissible smallConfig) (emptyStore smallConfig).mem
      (emptyStore smallConfig).dev := .empty _ _ _ (by decide +kernel) (by decide +kernel)
  have h : Reachable smallConfig (Op.Admissible smallConfig) oneBlockStore.mem
      oneBlockStore.dev := h0.run_all (by decide +kernel)
  have hfacts : (activeTables smallConfig oneBlockStore.mem oneBlockStore.dev).find smallConfig 1
        = some 0
      ∧ (activeTables smallConfig oneBlockStore.mem oneBlockStore.dev).find smallConfig 2 = some 1
      ∧ ((activeTables smallConfig oneBlockStore.mem oneBlockStore.dev).obj 0).lblock = 1
      ∧ ((activeTables smallConfig oneBlockStore.mem oneBlockStore.dev).obj 1).lblock = 1
      ∧ (run (sstCoreObjectRead smallConfig 2 0 2) oneBlockStore.mem oneBlockStore.dev).val
        = .ok [8, 9] := by decide +kernel
  obtain ⟨h1, h2, hl1, hl2, hread⟩ := hfacts
  -- object 1 is not in logical block 0
  have hkeep := (delete_keeps_own_block (fun h => by cases h) h (by decide) h1).mpr
    fun x hx => absurd (hl1.symm.trans hx.1) (by decide)
  exact ⟨hread, hkeep.1, hkeep.2.2 2 1 (by decide) (by decide) h2 (hl2.trans hl1.symm)⟩

/-- A plain build with four blocks and four objects, so that logical block 0 has ten bytes for
data. -/
def fourObjectConfig : Config where
  totalNumOfBlocks := 4
  blockSize := 150
  numAssets := 4
  maxAssetSize := 95
  flashProgramUnit := 1
  encryption := false
  validateMetadataFromFlash := true
  enablePartialAssetRw := true
  crypto := smallConfig.crypto
  blocks_ok := smallConfig.blocks_ok
  unit_ok := smallConfig.unit_ok
  largest_asset_fits := by decide
  asset_fits_in_data_area := by decide
  metadata_fits := by decide
  area_addressable := by decide

/-- Objects 1 and 2 in logical block 0, at 140 and 148, and a free entry that records the
position 142, where object 4 was in logical block 1. -/
def staleEntryStore : Result Call SstErr Ram Flash Unit :=
  [Op.create 1 8, .create 2 2, .create 3 142, .create 4 1, .delete 4, .write 2 [7, 8] 0 2].foldl
    (thenRun fourObjectConfig) (emptyStore fourObjectConfig)

set_option maxRecDepth 100000 in
/-- All operations of the run are admissible and succeed. -/
theorem staleEntryStore_reachable :
    Reachable fourObjectConfig (Op.Admissible fourObjectConfig) staleEntryStore.mem
      staleEntryStore.dev := by
  refine Reachable.run_all (s := emptyStore fourObjectConfig) ?_ (by decide +kernel)
  exact .empty _ _ _ (by decide +kernel) (by decide +kernel)

set_option maxRecDepth 100000 in
/-- Deleting object 1 destroys object 2, which lies behind it in the same block. -/
theorem delete_loses_own_block :
    Reachable fourObjectConfig (Op.Admissible fourObjectConfig) staleEntryStore.mem
      staleEntryStore.dev
    ∧ (activeTables fourObjectConfig staleEntryStore.mem staleEntryStore.dev).find
        fourObjectConfig 1 = some 0
    ∧ (activeTables fourObjectConfig staleEntryStore.mem staleEntryStore.dev).find
        fourObjectConfig 2 = some 1
    ∧ ((activeTables fourObjectConfig staleEntryStore.mem staleEntryStore.dev).obj 1).lblock
      = ((activeTables fourObjectConfig staleEntryStore.mem staleEntryStore.dev).obj 0).lblock
    ∧ (thenRun fourObjectConfig staleEntryStore (.delete 1)).val = .ok ()
    ∧ (run (sstCoreObjectRead fourObjectConfig 2 0 2) staleEntryStore.mem
        staleEntryStore.dev).val = .ok [7, 8]
    ∧ (run (sstCoreObjectRead fourObjectConfig 2 0 2)
        (thenRun fourObjectConfig staleEntryStore (.delete 1)).mem
        (thenRun fourObjectConfig staleEntryStore (.delete 1)).dev).val = .ok [255, 255] :=
  ⟨staleEntryStore_reachable, by decide +kernel⟩

end Tfm.Sst
