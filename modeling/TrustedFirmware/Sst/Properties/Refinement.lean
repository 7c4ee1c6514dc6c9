import TrustedFirmware.Sst.Proofs.Objects
import TrustedFirmware.Sst.Properties.LayoutInvariant

/-!
# Create and write refine updates of a map

On every store that satisfies the layout invariant, a successful create adds an empty object to the
map of objects and a successful write overlays the content of one object; no other object changes
(**`create_write_refine`**). Whether the new map can be read back is another matter: a build that
validates its records rejects an object larger than `SST_MAX_OBJECT_SIZE`, and
`sst_core_object_create` does not check the size it is given.

For each of the two operations: what a lookup finds in the new tables, which records the build
accepts there, and the bytes behind them.
-/

namespace Tfm.Sst

open Word32 BlockFlash Device

variable {cfg : Config} {r r' : Ram} {f f' : Flash} {T : Tables} {h' : MetadataBlockHeader}

/-! ## Create

The new entry is the only one that changes, and the block it is placed in loses free space. -/

section Create

variable {s i l size : Nat} {u v : UInt32}

/-- A create does not change what a lookup of another id finds. -/
theorem Tables.created_find_ne (hfree : ¬ T.Live i) (hv : v ≠ 0) (huv : v ≠ u) :
    (T.created cfg s i l size u).find cfg v = T.find cfg v := by
  refine Tables.find_congr fun j _ => ?_
  by_cases hj : j = i
  · subst hj
    rw [Tables.created_obj_self, not_not.mp hfree]
    exact ⟨fun h => absurd h.symm huv, fun h => absurd h.symm hv⟩
  · rw [Tables.created_obj_ne hj]

/-- The new id is found at the new entry. -/
theorem Tables.created_find_self (hi : i < cfg.numAssets) (hnone : T.find cfg u = none) :
    (T.created cfg s i l size u).find cfg u = some i := by
  refine Tables.find_eq_some_of_unique hi fun j hj => ?_
  by_cases hji : j = i
  · subst hji
    rw [Tables.created_obj_self]
    exact ⟨fun _ => rfl, fun _ => rfl⟩
  · rw [Tables.created_obj_ne hji]
    exact ⟨fun h => absurd h (Tables.find_eq_none.mp hnone j hj), fun h => absurd h hji⟩

variable {active scratch : Nat}

/-- The build accepts the new entry exactly when it does not validate or the object is not too
large. -/
theorem Tables.created_passes_self (hL : Layout cfg T active scratch) (hu : u ≠ 0)
    (hcan : T.CanCreate cfg i l size) :
    (T.created cfg s i l size u).Passes cfg i
      ↔ (cfg.validateMetadataFromFlash = true → size ≤ cfg.maxObjectSize) := by
  have hoff : sstMetaObjectMetaOffset cfg cfg.numAssets = cfg.allMetadataSize := by
    rw [sstMetaObjectMetaOffset_eq cfg le_rfl, objOff_numAssets]
  have hfree := hL.slots.free_le l hcan.block_lt
  have hl := hcan.block_lt
  have hu' : ¬ u = sstInvalidUuid := hu
  rw [Tables.Passes, Tables.created_obj_self]
  refine imp_congr_right fun _ => ?_
  simp only [sstMetaValidateObjectMeta, sstUtilsCheckContainedIn, sstUtilsValidateUuid, hoff,
    sstLogicalDblock0, if_neg hu', if_neg (Nat.not_le.mpr hl), ge_iff_le, gt_iff_lt,
    if_neg (Nat.not_lt_zero size)]
  -- of the validator's checks only the one of the size can fail
  by_cases hmax : cfg.maxObjectSize < size
  · rw [if_pos hmax]
    exact ⟨fun h => (by cases h), fun h => absurd h (by omega)⟩
  · have hle := le_aligned cfg (cfg.rounds_of_le_maxObjectSize (Nat.not_lt.mp hmax))
    have hfits := hcan.fits
    have hin : ¬ (l = 0 ∧ cfg.blockSize - (T.blk l).freeSize < cfg.allMetadataSize) := by
      rintro ⟨rfl, hlt⟩
      rw [hL.blocks.metaStart] at hfree
      omega
    have hout : ¬ (cfg.blockSize - (T.blk l).freeSize < 0
        ∨ 0 + cfg.blockSize < cfg.blockSize - (T.blk l).freeSize + size) := by omega
    rw [if_neg hmax, if_neg hin, if_neg hout]
    exact ⟨fun _ => Nat.not_lt.mp hmax, fun _ => rfl⟩

/-- What can be found after a create: what could be found before, and the new object if it is
accepted. -/
theorem Tables.created_searchable (hL : Layout cfg T active scratch) (hu : u ≠ 0)
    (hnone : T.find cfg u = none) (hcan : T.CanCreate cfg i l size) :
    (T.created cfg s i l size u).Searchable cfg ↔ T.Searchable cfg
      ∧ (cfg.validateMetadataFromFlash = true → size ≤ cfg.maxObjectSize) := by
  rw [← Tables.created_passes_self (s := s) hL hu hcan]
  have hold {j : Nat} (hj : j ≠ i) :
      (T.created cfg s i l size u).Passes cfg j ↔ T.Passes cfg j := by
    rw [Tables.Passes, Tables.created_obj_ne hj, Tables.Passes]
  have hself : (T.created cfg s i l size u).find cfg u = some i :=
    Tables.created_find_self hcan.entry_lt hnone
  constructor
  · refine fun hs => ⟨fun v k hv hfind j hj => ?_, hs u i hu hself i le_rfl⟩
    have hvu : v ≠ u := fun he => by rw [he, hnone] at hfind; cases hfind
    by_cases hji : j = i
    · exact hji ▸ hcan.reaches i le_rfl
    · rw [← hold hji]
      exact hs v k hv ((Tables.created_find_ne hcan.entry_free hv hvu).trans hfind) j hj
  · rintro ⟨hs, hnew⟩ v k hv hfind j hj
    -- the new entry may stand before that of an older object, and hide it
    by_cases hji : j = i
    · exact hji ▸ hnew
    rw [hold hji]
    by_cases hvu : v = u
    · -- the new object: the scan for its entry has passed the ones before
      subst hvu
      obtain rfl : i = k := by simpa [hself] using hfind
      exact hcan.reaches j hj
    · rw [Tables.created_find_ne hcan.entry_free hv hvu] at hfind
      exact hs v k hv hfind j hj

/-- The tables after a create can be followed, whatever the size of the new object. -/
theorem Tables.Readable.created (hR : T.Readable cfg) (hL : Layout cfg T active scratch)
    (hs : s = 0 ∨ s = 1) (hcan : T.CanCreate cfg i l size) :
    (T.created cfg s i l size u).Readable cfg := by
  have hB := cfg.blockSize_le
  have hobj (j : Nat) (P : Assetmeta → Prop)
      (hself : P ((T.created cfg s i l size u).obj i)) (hne : P (T.obj j)) :
      P ((T.created cfg s i l size u).obj j) := by
    by_cases hj : j = i
    · exact hj ▸ hself
    · rw [Tables.created_obj_ne hj]
      exact hne
  refine
    { blkValid := (hL.blocks.created hs).homes.blkValid fun k hk => ?_
      lblock_lt := fun j hj => hobj j (fun e => e.lblock < _) ?_ (hR.lblock_lt j hj)
      index_add_lt := fun j hj => hobj j (fun e => e.dataIndex + e.curSize < _) ?_
        (hR.index_add_lt j hj)
      unused := fun j hj => ?_ }
  · have hfree := hL.slots.free_le k hk
    simp only [Tables.created, Tables.relocated]
    split
    · subst k; omega
    · exact hfree
  · rw [Tables.created_obj_self]
    exact hcan.block_lt
  · rw [Tables.created_obj_self]
    show cfg.blockSize - _ + 0 < _
    omega
  · by_cases hji : j = i
    · subst hji
      rw [Tables.created_obj_self]
    · rw [Tables.Live, Tables.created_obj_ne hji] at hj
      rw [Tables.created_obj_ne hji]
      exact hR.unused j hj

/-! ### The map after a create

The new tables fit into the records of the flash, so the tables that are read back are the new ones. -/

/-- The record of the new object fits its fields. -/
theorem created_obj_fits (hcan : T.CanCreate cfg i l size)
    (hsize : size < 2 ^ 32) : ((T.created cfg s i l size u).obj i).Fits := by
  have hB := cfg.blockSize_le
  have hmeta := allMetadataSize_lt cfg
  rw [cfg.allMetadataSize_eq] at hmeta
  have hl := hcan.block_lt
  rw [Tables.created_obj_self]
  refine ⟨?_, ?_, ?_, hsize⟩
  all_goals
    dsimp only
    omega

/-- The record of its block fits its fields. -/
theorem created_blk_fits (hL : Layout cfg T active scratch) (hs : s = 0 ∨ s = 1)
    (hl : l < cfg.numActiveDblocks) : ((T.created cfg s i l size u).blk l).Fits := by
  obtain ⟨h1, h2, h3⟩ := hL.blk_fits hl
  refine ⟨?_, h2, ?_⟩
  · simp only [Tables.created, Tables.relocated]
    split <;> [omega; split <;> [exact h1; exact h1]]
  · simp only [Tables.created, Tables.relocated]
    rw [if_pos trivial]
    omega

/-- A create adds an empty object. -/
theorem Committed.objects_created (hm : Mounted cfg r f) (hT : activeTables cfg r f = T)
    (hu : u ≠ 0) (hnone : T.find cfg u = none) (hcan : T.CanCreate cfg i l size)
    (hcom : Committed cfg r f r.ctx.metaBlockHeader.scratchIdx (createCalls cfg
      r.ctx.activeMetablock r.ctx.scratchMetablock T i l size u) h' r' f') :
    (T.created cfg r.ctx.scratchMetablock i l size u).objects cfg f'
      = (T.objects cfg f).create u size := by
  have hL : Layout cfg T _ _ := hT ▸ hm.layout
  funext v
  -- the id 0 marks free entries and is no object
  by_cases hv : v = 0
  · subst hv
    rw [ObjectMap.create_of_ne hu.symm]
    rfl
  by_cases hvu : v = u
  · subst hvu
    rw [ObjectMap.create_self,
      Tables.objects_of_find hv (Tables.created_find_self hcan.entry_lt hnone), contentOf,
      Tables.created_obj_self, Row.get_zero]
  rw [ObjectMap.create_of_ne hvu]
  cases hfind : T.find cfg v with
  | none =>
    rw [Tables.objects_of_find_none hfind, Tables.objects_of_find_none
      ((Tables.created_find_ne hcan.entry_free hv hvu).trans hfind)]
  | some j =>
    have hj := Tables.live_of_find hv hfind
    -- another object keeps its entry, and its bytes
    have hji : j ≠ i := fun he => hcan.entry_free (he ▸ hj)
    have hb := hL.slots.slot_bounds hj
    have hslot := hL.slots.maxSize_le_slotSize hj
    have hcur := hL.slots.cur_le j hj
    rw [Tables.objects_of_find hv hfind, Tables.objects_of_find hv
      ((Tables.created_find_ne hcan.entry_free hv hvu).trans hfind), contentOf, contentOf,
      Tables.created_obj_ne hji]
    congr 2
    refine Row.get_congr fun k hk => ?_
    exact hcom.byte_created hm hT hj (by omega) (by omega)

end Create

/-! ## Write

The entry of the object gets a new size, and its block another physical block. -/

section Write

variable {s d i curSize : Nat} {u : UInt32} {active scratch : Nat}

/-- A write does not change what a lookup finds. -/
theorem Tables.written_find (v : UInt32) :
    (T.written s d i curSize).find cfg v = T.find cfg v := by
  refine Tables.find_congr fun j _ => ?_
  obtain ⟨c, hc, -⟩ := T.written_obj s d i curSize j
  rw [hc]

/-- A write does not change which records are accepted. -/
theorem Tables.written_searchable (hL : Layout cfg T active scratch)
    {scratch' : Nat} (hL' : Layout cfg (T.written s d i curSize) s scratch') :
    (T.written s d i curSize).Searchable cfg ↔ T.Searchable cfg := by
  have hpass (j : Nat) : (T.written s d i curSize).Passes cfg j ↔ T.Passes cfg j := by
    obtain ⟨c, hc, -⟩ := T.written_obj s d i curSize j
    rw [hL.passes_iff, hL'.passes_iff, Tables.written_live, hc]
  simp only [Tables.Searchable, Tables.Reaches, Tables.written_find, hpass]

/-! ### The content after a write

The buffer of the plain build holds the old content with the new bytes over it; its size is that of
the old content unless the new bytes reach further. -/

/-- Copying into a buffer overlays its bytes. -/
theorem sstUtilsMemcpy_eq_overlay : sstUtilsMemcpy = ObjectMap.overlay := rfl

/-- The content of an object after a write: the plain build overlays the old content, from the
beginning on if the build has no partial writes; the encrypted build replaces it. -/
def writtenContent (cfg : Config) (content data : List UInt8) (offset size : Nat) : List UInt8 :=
  if cfg.encryption then bufBytes data size
  else ObjectMap.overlay content (writeOffset cfg offset) (bufBytes data size)

/-- The buffer of the plain build holds the overlaid content. -/
theorem getD_writeBuffer {content data : List UInt8} {offset size k : Nat}
    (hp : cfg.encryption = false) (hoff : writeOffset cfg offset ≤ content.length)
    (hfits : WriteFits cfg content.length offset size)
    (hk : k < max content.length (writeOffset cfg offset + size)) :
    (writeBuffer cfg content data offset size).1.getD k 0
      = (ObjectMap.overlay content (writeOffset cfg offset) (bufBytes data size)).getD k 0 := by
  obtain ⟨hc1, hc2⟩ := hfits hp
  have hlen : (List.replicate cfg.alignedMaxObjectSize (0 : UInt8)).length
      = cfg.alignedMaxObjectSize := List.length_replicate
  have hinner : (sstUtilsMemcpy (List.replicate cfg.alignedMaxObjectSize 0) 0 content).length
      = cfg.alignedMaxObjectSize := by
    rw [length_sstUtilsMemcpy (by omega), hlen]
  rw [writeBuffer, if_neg (by simp [hp])]
  rw [sstUtilsMemcpy_eq_overlay] at hinner ⊢
  rw [ObjectMap.getD_overlay hoff, ObjectMap.getD_overlay (hoff.trans (hc1.trans hinner.ge)),
    length_bufBytes]
  -- inside the new bytes, or in the old content around them
  by_cases hin : writeOffset cfg offset ≤ k ∧ k < writeOffset cfg offset + size
  · rw [if_pos hin, if_pos hin]
  · rw [if_neg hin, if_neg hin, ObjectMap.getD_overlay (Nat.zero_le _), if_pos (by omega)]
    rfl

/-- The size that is recorded is the length of the new content. -/
theorem writeBuffer_size {content data : List UInt8} {offset size : Nat}
    (hoff : writeOffset cfg offset ≤ content.length) :
    (writeBuffer cfg content data offset size).2
      = (writtenContent cfg content data offset size).length := by
  rw [writeBuffer, writtenContent]
  split
  · rw [length_bufBytes]
  · rw [ObjectMap.length_overlay hoff, length_bufBytes]
    dsimp only
    split <;> omega

/-- The bytes of the buffer are the new content. -/
theorem bufBytes_writeBuffer {content data : List UInt8} {offset size k : Nat}
    (hoff : writeOffset cfg offset ≤ content.length)
    (hfits : WriteFits cfg content.length offset size)
    (hk : k < (writtenContent cfg content data offset size).length) :
    (writeBuffer cfg content data offset size).1.getD k 0
      = (writtenContent cfg content data offset size).getD k 0 := by
  cases hp : cfg.encryption with
  | true =>
    rw [writtenContent, if_pos hp, length_bufBytes] at hk
    rw [writeBuffer, writtenContent, if_pos hp, if_pos hp, getD_bufBytes _ hk]
  | false =>
    have henc : ¬ cfg.encryption = true := by simp [hp]
    rw [writtenContent, if_neg henc, ObjectMap.length_overlay hoff, length_bufBytes] at hk
    rw [writtenContent, if_neg henc]
    exact getD_writeBuffer hp hoff hfits hk

/-! ### The map after a write -/

/-- A write gives its object the new content. -/
theorem Committed.content_written {data : List UInt8} {offset size : Nat}
    (hm : Mounted cfg r f) (hT : activeTables cfg r f = T) (hi : T.Live i)
    (hoff : writeOffset cfg offset ≤ (T.obj i).curSize)
    (hsize : offset + size ≤ (T.obj i).maxSize)
    (hfits : WriteFits cfg (T.obj i).curSize offset size)
    (hcom : Committed cfg r f (T.vacated r.ctx.metaBlockHeader.scratchIdx (T.obj i).lblock)
      (writeCalls cfg r.ctx.activeMetablock r.ctx.scratchMetablock
        r.ctx.metaBlockHeader.scratchIdx T i
        (writeBuffer cfg (contentOf f T i) data offset size).2
        (writtenBytes cfg f T i data offset size)) h' r' f') :
    contentOf f' (T.written r.ctx.scratchMetablock r.ctx.metaBlockHeader.scratchIdx i
        (writeBuffer cfg (contentOf f T i) data offset size).2) i
      = writtenContent cfg (contentOf f T i) data offset size := by
  have hL : Layout cfg T _ _ := hT ▸ hm.layout
  have hb := hL.slots.slot_bounds hi
  have hround := hL.slots.rounds i hi
  have hslot := hL.slots.maxSize_le_slotSize hi
  rw [← length_contentOf f T i] at hoff hfits
  have hlen : (writeBuffer cfg (contentOf f T i) data offset size).2 = _ := writeBuffer_size hoff
  have hcur := writeBuffer_size_le hL hi f data hsize
  -- as many bytes are programmed as the content has, and a few more
  have hbuf : (writtenBytes cfg f T i data offset size).length
      = sstGetAlignedFlashBytes cfg (writeBuffer cfg (contentOf f T i) data offset size).2 := by
    rw [writtenBytes, length_bufBytes]
  have hbuf_ge := le_aligned cfg (n := (writeBuffer cfg (contentOf f T i) data offset size).2)
    (by omega)
  show Row.get _ _ _ = _
  rw [Tables.written_obj_self]
  dsimp only
  refine Row.get_eq_of_getD hlen.symm fun k hk => ?_
  rw [hcom.byte_written hm hT hi hi (by omega) (by omega), if_pos ⟨rfl, by omega, by omega⟩,
    Nat.add_sub_cancel_left, writtenBytes, getD_bufBytes _ (by omega)]
  exact bufBytes_writeBuffer hoff hfits (by omega)

/-- A write overlays the content of its object. -/
theorem Committed.objects_written {data : List UInt8} {offset size : Nat}
    (hp : cfg.encryption = false) (hpart : cfg.enablePartialAssetRw = true)
    (hm : Mounted cfg r f) (hT : activeTables cfg r f = T) (hu : u ≠ 0)
    (hfind : T.find cfg u = some i) (hoff : offset ≤ (T.obj i).curSize)
    (hsize : offset + size ≤ (T.obj i).maxSize)
    (hfits : WriteFits cfg (T.obj i).curSize offset size)
    (hcom : Committed cfg r f (T.vacated r.ctx.metaBlockHeader.scratchIdx (T.obj i).lblock)
      (writeCalls cfg r.ctx.activeMetablock r.ctx.scratchMetablock
        r.ctx.metaBlockHeader.scratchIdx T i
        (writeBuffer cfg (contentOf f T i) data offset size).2
        (writtenBytes cfg f T i data offset size)) h' r' f') :
    (T.written r.ctx.scratchMetablock r.ctx.metaBlockHeader.scratchIdx i
        (writeBuffer cfg (contentOf f T i) data offset size).2).objects cfg f'
      = (T.objects cfg f).write u offset (bufBytes data size) := by
  have hL : Layout cfg T _ _ := hT ▸ hm.layout
  have hi := Tables.live_of_find hu hfind
  have hbi := hL.slots.slot_bounds hi
  have hcuri := hL.slots.cur_le i hi
  have hround := hL.slots.rounds i hi
  have hsloti := hL.slots.maxSize_le_slotSize hi
  have hwo : writeOffset cfg offset = offset := if_pos hpart
  have hcontent := hcom.content_written hm hT hi (hwo.trans_le hoff) hsize hfits
  have hcur := writeBuffer_size_le hL hi f data hsize
  generalize (writeBuffer cfg (contentOf f T i) data offset size).2 = n at hcom hcontent hcur ⊢
  -- the programmed bytes stay within the slot
  have hbuf_le : (writtenBytes cfg f T i data offset size).length ≤ T.slotSize cfg i := by
    rw [writtenBytes, length_bufBytes]
    exact aligned_mono cfg (writeBuffer_size_le hL hi f data hsize) hround
  funext v
  by_cases hv : v = 0
  · subst hv
    rw [ObjectMap.write_of_ne hu.symm]
    rfl
  by_cases hvu : v = u
  · subst hvu
    rw [writtenContent, if_neg (by simp [hp]), hwo] at hcontent
    rw [ObjectMap.write_self, Tables.objects_of_find hv hfind,
      Tables.objects_of_find hv ((Tables.written_find v).trans hfind), hcontent,
      Tables.written_obj_self]
    rfl
  rw [ObjectMap.write_of_ne hvu]
  cases hfv : T.find cfg v with
  | none =>
    rw [Tables.objects_of_find_none hfv,
      Tables.objects_of_find_none ((Tables.written_find v).trans hfv)]
  | some j =>
    have hj := Tables.live_of_find hv hfv
    have hji : j ≠ i := by
      rintro rfl
      rw [← Tables.uniqueId_of_find hfv, Tables.uniqueId_of_find hfind] at hvu
      exact hvu rfl
    have hbj := hL.slots.slot_bounds hj
    have hslotj := hL.slots.maxSize_le_slotSize hj
    have hcurj := hL.slots.cur_le j hj
    rw [Tables.objects_of_find hv hfv,
      Tables.objects_of_find hv ((Tables.written_find v).trans hfv), contentOf, contentOf,
      Tables.written_obj_ne hji]
    congr 2
    refine Row.get_congr fun k hk => ?_
    rw [hcom.byte_written hm hT hi hj (by omega) (by omega), if_neg]
    -- the slots of the two objects are disjoint
    rintro ⟨hl, h1, h2⟩
    rcases hL.slots.slot_disjoint hi hj (Ne.symm hji) hl with hd | hd <;> omega

end Write

/-! ## The refinement

Both halves compare the abstract map before and after, and then ask what a caller can read of it. -/

/-- The function returns no error code: it succeeds, or it has run past the end of a buffer, where the
model stops. -/
def NoErrorCode {α : Type} (v : Except SstErr α) : Prop := ∀ e, v = .error e → e = .bufferOverrun

theorem NoErrorCode.of_ok {α : Type} {v : Except SstErr α} {a : α} (h : v = .ok a) :
    NoErrorCode v := by
  rintro e rfl
  cases h

/-- **Create and write refine map updates.** In the plain build with partial writes, on every
store that satisfies the layout invariant: a successful create of an id that is not in the
table adds the id with empty content and changes no other object, and a write within the object
that returns no error overlays its content and changes no other object. All objects can be read
back afterwards exactly when no stored object was hidden behind a rejected entry before and, in
a build that validates its records, the size of a new object is at most
`SST_MAX_OBJECT_SIZE`; for a write, exactly when moreover the old content and the new bytes fit in
the buffer `sst_data_buf`. -/
theorem create_write_refine (hp : cfg.encryption = false)
    (hpart : cfg.enablePartialAssetRw = true) (hm : Mounted cfg r f) :
    (∀ u n : UInt32, (activeTables cfg r f).find cfg u = none →
      (run (sstCoreObjectCreate cfg u n) r f).val = .ok () →
      ((objectMap cfg (run (sstCoreObjectCreate cfg u n) r f).mem
              (run (sstCoreObjectCreate cfg u n) r f).dev
            = (objectMap cfg r f).create u n.toNat
          ∧ ReadsBack cfg (run (sstCoreObjectCreate cfg u n) r f).mem
              (run (sstCoreObjectCreate cfg u n) r f).dev)
        ↔ (activeTables cfg r f).Searchable cfg
          ∧ (cfg.validateMetadataFromFlash = true → n.toNat ≤ cfg.maxObjectSize)))
    ∧ ∀ (u : UInt32) (data : List UInt8) (off len : UInt32) (ob : StoredObject),
      objectMap cfg r f u = some ob → off.toNat ≤ ob.content.length →
      off.toNat + len.toNat ≤ ob.maxSize →
      NoErrorCode (run (sstCoreObjectWrite cfg u data off len) r f).val →
      (((run (sstCoreObjectWrite cfg u data off len) r f).val = .ok ()
          ∧ objectMap cfg (run (sstCoreObjectWrite cfg u data off len) r f).mem
              (run (sstCoreObjectWrite cfg u data off len) r f).dev
            = (objectMap cfg r f).write u off.toNat (bufBytes data len.toNat)
          ∧ ReadsBack cfg (run (sstCoreObjectWrite cfg u data off len) r f).mem
              (run (sstCoreObjectWrite cfg u data off len) r f).dev)
        ↔ (activeTables cfg r f).Searchable cfg
          ∧ WriteFits cfg ob.content.length off.toNat len.toNat) := by
  have hc : cfg.CryptoWorks := fun h => by rw [hp] at h; cases h
  have hL := hm.layout
  have hscr := hm.scratch_cases
  refine ⟨fun u n hnone hok => ?_, fun u data off len ob hob hoff hlen hcode => ?_⟩
  · have hu := create_ne_zero hm hc hnone hok
    rcases create_outcome hm.running hc rfl u n with ⟨h, -⟩ | ⟨i, l, hcan, -, hcommits⟩
    · have habort : Aborts cfg (sstCoreObjectCreate cfg u n) r f := h.aborts
      exact absurd hok habort.run_ne_ok
    -- the create commits, so map and tables are known
    obtain ⟨-, h', hcom⟩ := hcommits.run_committed (assembles_create hm.source_ok) hm
      hL.blocks.scratch_ge
    have hR := (hm.readable rfl).created (u := u) hL hscr hcan
    have htab := hcom.activeTables_eq.trans (tablesOf_rowAfter_create _ rfl (by omega)
      hcan.entry_lt hcan.block_lt (created_obj_fits hcan n.toNat_lt)
      (created_blk_fits hL hscr hcan.block_lt))
    rw [readsBack_iff htab hR, Tables.created_searchable hL hu hnone hcan, objectMap, htab,
      hcom.objects_created hm rfl hu hnone hcan]
    exact ⟨fun h => h.2, fun h => ⟨rfl, h⟩⟩
  · obtain ⟨hu, i, hfind, rfl⟩ := Tables.find_of_objects hob
    dsimp only at hoff hlen ⊢
    rw [length_contentOf] at hoff ⊢
    have hi := Tables.live_of_find hu hfind
    have hsize (j : Nat) (hj : (activeTables cfg r f).find cfg u = some j) :
        off.toNat + len.toNat ≤ ((activeTables cfg r f).obj j).maxSize := by
      rw [hfind, Option.some.injEq] at hj
      exact hj ▸ hlen
    rcases write_cases hm hc rfl data hu hsize with ⟨e, hdoes, hover⟩ | ⟨j, hj, -, hfits, hcommits⟩
    · -- the only error that is no error code is the overrun
      have hval : (run (sstCoreObjectWrite cfg u data off len) r f).val = .error e := hdoes.val_eq 0
      obtain ⟨j, hj, hnot⟩ := hover (hcode e hval)
      obtain rfl : i = j := by simpa [hfind] using hj
      refine iff_of_false (fun h => ?_) fun h => hnot h.2
      rw [hval] at h
      cases h.1
    obtain rfl : i = j := by simpa [hfind] using hj
    have hcur := writeBuffer_size_le hL hi f data hlen
    -- the write commits
    have p := writePlan hm rfl hi hcur hcommits
    obtain ⟨hok, h', hcom⟩ := p.run_committed hm
    have htab := hcom.tables p
    rw [readsBack_iff htab ((hcom.mounted p hm).readable htab),
      Tables.written_searchable hL p.layout, objectMap, htab,
      hcom.objects_written hp hpart hm rfl hu hfind hoff hlen hfits]
    exact ⟨fun h => ⟨h.2.2, hfits⟩, fun h => ⟨hok, rfl, h.1⟩⟩

set_option maxRecDepth 100000 in
/-- A create and a write within the limits, on a small store. -/
theorem create_write_refine_small :
    (let s0 := emptyStore smallConfig
     let s1 := thenRun smallConfig s0 (.create 1 56)
     s1.val = .ok ()
       ∧ objectMap smallConfig s1.mem s1.dev = (objectMap smallConfig s0.mem s0.dev).create 1 56
       ∧ ReadsBack smallConfig s1.mem s1.dev)
    ∧ (let s1 := thenRun smallConfig (emptyStore smallConfig) (.create 1 56)
       let s2 := thenRun smallConfig s1 (.write 1 [7, 8, 9] 0 3)
       s2.val = .ok ()
         ∧ objectMap smallConfig s2.mem s2.dev
           = (objectMap smallConfig s1.mem s1.dev).write 1 0 [7, 8, 9]
         ∧ ReadsBack smallConfig s2.mem s2.dev) := by
  have hst1 : Settled smallConfig (thenRun smallConfig (emptyStore smallConfig) (.create 1 56)).mem
      (thenRun smallConfig (emptyStore smallConfig) (.create 1 56)).dev :=
    Op.settled_of_ok emptyStore_settled (fun h => by cases h) _
      ⟨by decide, by decide, by decide⟩ (by decide +kernel)
  have hacc {r : Ram} {f : Flash} (h : (activeTables smallConfig r f).Accepted smallConfig) :
      (activeTables smallConfig r f).Searchable smallConfig :=
    fun v i _ hfind => h.reaches (Tables.lt_of_find hfind)
  have hacc0 : (activeTables smallConfig (emptyStore smallConfig).mem
      (emptyStore smallConfig).dev).Accepted smallConfig := by
    unfold Tables.Accepted Tables.Passes
    decide +kernel
  have hacc1 : (activeTables smallConfig
      (thenRun smallConfig (emptyStore smallConfig) (.create 1 56)).mem
      (thenRun smallConfig (emptyStore smallConfig) (.create 1 56)).dev).Accepted smallConfig := by
    unfold Tables.Accepted Tables.Passes
    decide +kernel
  have hcreate := (create_write_refine rfl rfl emptyStore_settled.toMounted).1 1 56
    (by decide +kernel) (by decide +kernel)
  have hwrite := (create_write_refine rfl rfl hst1.toMounted).2 1 [7, 8, 9] 0 3 ⟨56, []⟩
    (by decide +kernel) (by decide) (by decide)
    (.of_ok (show (run _ _ _).val = .ok () by decide +kernel))
  exact ⟨⟨by decide +kernel, hcreate.mpr ⟨hacc hacc0, by decide⟩⟩,
    hwrite.mpr ⟨hacc hacc1, by decide⟩⟩

/-- `smallConfig` without validation of the records: objects may be larger than the buffer. -/
def unvalidatedConfig : Config := { smallConfig with validateMetadataFromFlash := false }

set_option maxRecDepth 100000 in
-- the buffer of the build has 57 bytes, and the object 58
example : (thenRun unvalidatedConfig (thenRun unvalidatedConfig (emptyStore unvalidatedConfig)
    (.create 1 58)) (.write 1 (List.replicate 58 7) 0 58)).val = .error .bufferOverrun := by
  decide +kernel

set_option maxRecDepth 100000 in
/-- One byte more than `SST_MAX_OBJECT_SIZE`: the create succeeds, and the new object cannot be
read any more, not even for zero bytes. -/
theorem create_oversized_not_read_back :
    smallConfig.encryption = false ∧ smallConfig.enablePartialAssetRw = true
    ∧ Mounted smallConfig (emptyStore smallConfig).mem (emptyStore smallConfig).dev
    ∧ (activeTables smallConfig (emptyStore smallConfig).mem (emptyStore smallConfig).dev).find
        smallConfig 1 = none
    ∧ (let s1 := thenRun smallConfig (emptyStore smallConfig) (.create 1 57)
       s1.val = .ok () ∧ objectMap smallConfig s1.mem s1.dev 1 = some ⟨57, []⟩
         ∧ (run (sstCoreObjectRead smallConfig 1 0 0) s1.mem s1.dev).val = .error .assetNotFound
         ∧ ¬ ReadsBack smallConfig s1.mem s1.dev) := by
  refine ⟨rfl, rfl, emptyStore_settled.toMounted, by decide +kernel, by decide +kernel,
    by decide +kernel, by decide +kernel, fun h => ?_⟩
  have hread := h.1 1 0 0 (by decide)
  exact absurd hread (by decide +kernel)

end Tfm.Sst
