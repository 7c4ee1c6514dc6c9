import TrustedFirmware.Sst.Proofs.ReadFaults

/-!
# The core runs on under failing reads

Create, write and delete are atomic when flash reads fail, so a running core goes on running with
the tables it had, or with the tables that the operation commits without faults (`Advances`).
Nothing is asked of ids, sizes and offsets, and the store may have been left behind by operations
that failed.

* `Advances.of_atomic` — an atomic operation is settled by its fault-free run;
* `create_advances`, `write_advances`, `delete_advances` — the three operations.
-/

namespace Tfm.Sst

open Word32 BlockFlash Device

variable {cfg : Config} {r r' : Ram} {f f' : Flash} {T T' : Tables}

/-! ## Keeping and committing

Whatever is read, an operation ends in one of two ways: the active metadata block is as it was, or
the scratch block has become the active one. -/

/-- The invariant of an operation that has not committed. -/
theorem Running.undisturbed (hm : Running cfg r f) :
    Undisturbed (DataBlock cfg) r.ctx.activeMetablock r.ctx.scratchMetablock (f r.ctx.activeMetablock) r f :=
  ⟨rfl, rfl, rfl, hm.dataScratch⟩

/-- An operation that has not committed keeps the tables. -/
theorem Undisturbed.running (hm : Running cfg r f)
    (hU : Undisturbed (DataBlock cfg) r.ctx.activeMetablock r.ctx.scratchMetablock
      (f r.ctx.activeMetablock) r' f') : Running cfg r' f' ∧ activeTables cfg r' f' = activeTables cfg r f := by
  have htab : activeTables cfg r' f' = activeTables cfg r f := by
    rw [activeTables, hU.active, hU.row, activeTables]
  refine ⟨⟨?_, ?_, hU.dataScratch⟩, htab⟩
  · rw [hU.active, hU.scratch]
    exact hm.metablocks
  · rw [htab, hU.active]
    exact hm.placed

/-- After a commit the scratch metadata block is the active one. -/
theorem Commits.running {m : SstM Unit} {d' : Nat} {cs : List Call} (hcom : Commits cfg m r f d' cs)
    (hm : Running cfg r f)
    (hd' : 2 < cfg.totalNumOfBlocks → 2 ≤ d' ∧ d' < cfg.totalNumOfBlocks)
    (htab : tablesOf cfg (device.replay cs f r.ctx.scratchMetablock) = T')
    (hP : Placed cfg T' r.ctx.scratchMetablock) :
    Running cfg (run m r f).mem (run m r f).dev
      ∧ activeTables cfg (run m r f).mem (run m r f).dev = T' := by
  obtain ⟨h', iv, hnext, -, hdoes⟩ := hcom
  -- the new metadata block is not one of those that are erased in the end
  have hnew : ¬ (r.ctx.scratchMetablock = r.ctx.activeMetablock
      ∨ r.ctx.scratchMetablock = d' ∧ 2 < cfg.totalNumOfBlocks) := by
    rintro (h | ⟨h, hN⟩)
    · exact hm.source_ok.1 h.symm
    · exact (hm.ne_of_two_le (hd' hN).1).2 h.symm
  have hrow : activeTables cfg (r.committed h' iv) (device.replay
      (commitCalls cfg r.ctx.activeMetablock r.ctx.scratchMetablock d' h' cs) f) = T' := by
    show tablesOf cfg (device.replay _ f r.ctx.scratchMetablock) = T'
    rw [commitCalls, Model.replay_append, Model.replay_append, replay_eraseCalls, if_neg hnew,
      replay_eq_rowAfter sourcesIn_headerCalls, rowAfter_headerCalls, tablesOf_headerRow, htab]
  rw [run, hdoes.mem_eq, hdoes.dev_eq]
  refine ⟨⟨hm.metablocks.symm.imp And.symm And.symm, ?_, ?_⟩, hrow⟩
  · rw [hrow]
    exact hP
  · show 2 < cfg.totalNumOfBlocks → 2 ≤ h'.scratchIdx ∧ h'.scratchIdx < cfg.totalNumOfBlocks
    rw [hnext.scratchIdx]
    exact hd'

/-- The data block that is vacated is a data block. -/
theorem Placed.vacated_range {active d l : Nat} (hP : Placed cfg T active)
    (hl : l < cfg.numActiveDblocks)
    (hd : 2 < cfg.totalNumOfBlocks → 2 ≤ d ∧ d < cfg.totalNumOfBlocks)
    (hN : 2 < cfg.totalNumOfBlocks) : 2 ≤ T.vacated d l ∧ T.vacated d l < cfg.totalNumOfBlocks := by
  unfold Tables.vacated
  split
  · exact hd hN
  · exact hP.homes.dataHome l (Nat.pos_of_ne_zero ‹_›) hl

/-! ## Operations whose reads may fail -/

/-- What the three operations have in common: they keep the tables, or change them in the way
`Δ` describes. -/
def Advances (cfg : Config) (m : SstM Unit) (r : Ram) (f : Flash) (Δ : Tables → Prop) : Prop :=
  ∀ fails n, OnlyFails (fun c => c.readsFlash = true) (exec device fails n m r f).log →
    Running cfg (exec device fails n m r f).mem (exec device fails n m r f).dev
      ∧ (activeTables cfg (exec device fails n m r f).mem (exec device fails n m r f).dev
            = activeTables cfg r f
          ∨ Δ (activeTables cfg (exec device fails n m r f).mem (exec device fails n m r f).dev))

/-- An atomic operation is settled by its fault-free run. -/
theorem Advances.of_atomic {m : SstM Unit} {Δ : Tables → Prop} (hm : Running cfg r f)
    (hat : AtomicReads cfg r.ctx.activeMetablock r.ctx.scratchMetablock (f r.ctx.activeMetablock) m)
    (hrun : Running cfg (run m r f).mem (run m r f).dev
      ∧ (activeTables cfg (run m r f).mem (run m r f).dev = activeTables cfg r f
        ∨ Δ (activeTables cfg (run m r f).mem (run m r f).dev))) : Advances cfg m r f Δ := by
  intro fails n hF
  rcases hat.cases hm.undisturbed hF with hU | heq
  · exact (hU.running hm).imp_right Or.inl
  · rw [heq 0]
    exact hrun

/-- An operation that is refused keeps the tables. -/
theorem Refuses.running {m : SstM Unit} (h : Refuses m r f) (hm : Running cfg r f) :
    Running cfg (run m r f).mem (run m r f).dev
      ∧ activeTables cfg (run m r f).mem (run m r f).dev = activeTables cfg r f := by
  obtain ⟨-, hmem, hdev⟩ := h.run_eq
  rw [hmem, hdev]
  exact ⟨hm, rfl⟩

/-- So does one that gives up in the middle. -/
theorem Aborts.running {m : SstM Unit} (h : Aborts cfg m r f) (hm : Running cfg r f) :
    Running cfg (run m r f).mem (run m r f).dev
      ∧ activeTables cfg (run m r f).mem (run m r f).dev = activeTables cfg r f := by
  obtain ⟨e, w, hdoes, hasm⟩ := h
  have htab := hasm.activeTables_eq hm.source_ok (rfl : activeTables cfg r f = _)
  rw [run, hdoes.mem_eq, hdoes.dev_eq]
  exact ⟨⟨hm.metablocks, htab ▸ hm.placed, hm.dataScratch⟩, htab⟩

variable (hm : Running cfg r f) (hc : cfg.CryptoWorks)
include hm hc

omit hc in
/-- Without faults, what a create that is not refused commits. -/
theorem create_running {u size : UInt32} {i l : Nat}
    (hcan : (activeTables cfg r f).CanCreate cfg i l size.toNat)
    (hcom : Commits cfg (sstCoreObjectCreate cfg u size) r f r.ctx.metaBlockHeader.scratchIdx
      (createCalls cfg r.ctx.activeMetablock r.ctx.scratchMetablock (activeTables cfg r f) i l
        size.toNat u)) :
    Running cfg (run (sstCoreObjectCreate cfg u size) r f).mem
        (run (sstCoreObjectCreate cfg u size) r f).dev
      ∧ activeTables cfg (run (sstCoreObjectCreate cfg u size) r f).mem
          (run (sstCoreObjectCreate cfg u size) r f).dev
        = (activeTables cfg r f).created cfg r.ctx.scratchMetablock i l size.toNat u := by
  have hs := hm.scratch_cases
  have hB := cfg.blockSize_le
  have hP' := hm.placed.created hs (u := u) hcan.entry_lt hcan.block_lt hcan.fits
  have hmeta := allMetadataSize_lt cfg
  rw [cfg.allMetadataSize_eq] at hmeta
  have hl := hcan.block_lt
  -- the tables in the assembled block are those that the definition of `created` has
  refine hcom.running hm hm.dataScratch ?_ hP'
  rw [(assembles_create hm.source_ok).rowAfter_eq]
  refine tablesOf_rowAfter_create _ rfl (by omega) hcan.entry_lt hl ?_ (hP'.blk_fits hl)
  rw [Tables.created_obj_self]
  exact ⟨by dsimp only; omega, by dsimp only; omega, Nat.two_pow_pos 32, size.toNat_lt⟩

/-- **Create.** A success adds an object to the first block with room for it. -/
theorem create_advances (u size : UInt32) :
    Advances cfg (sstCoreObjectCreate cfg u size) r f fun T' =>
      (activeTables cfg r f).HasRoom cfg size.toNat ∧ ∃ i l,
        (activeTables cfg r f).CanCreate cfg i l size.toNat
          ∧ T' = (activeTables cfg r f).created cfg r.ctx.scratchMetablock i l size.toNat u := by
  refine .of_atomic hm (atomicReads_create hm.source_ok.1.symm u size) ?_
  rcases create_outcome hm hc rfl u size with ⟨h, -⟩ | ⟨i, l, hcan, hroom, hcom⟩
  · exact (h.running hm).imp_right Or.inl
  · exact (create_running hm hcan hcom).imp_right fun h => Or.inr ⟨hroom, i, l, hcan, h⟩

/-- **Write.** A success changes a size and moves blocks. -/
theorem write_advances (u : UInt32) (data : List UInt8) (offset size : UInt32) :
    Advances cfg (sstCoreObjectWrite cfg u data offset size) r f fun T' => ∃ i curSize,
      T' = (activeTables cfg r f).written r.ctx.scratchMetablock r.ctx.metaBlockHeader.scratchIdx i
        curSize := by
  have hs := hm.scratch_cases
  have ha : r.ctx.activeMetablock = 0 ∨ r.ctx.activeMetablock = 1 :=
    hm.metablocks.imp And.left And.left
  refine .of_atomic hm (atomicReads_write hm.source_ok.1.symm ha hm.placed u data offset size) ?_
  rcases write_outcome_any hm hc rfl u data offset size with h | ⟨i, cur, ds, hi, hcur, hds, hcom⟩
  · exact (h.running hm).imp_right Or.inl
  · refine (hcom.running hm (hm.placed.vacated_range (hm.placed.slots.lblock_lt i) hm.dataScratch)
      ?_ (hm.placed.written hs hm.dataScratch)).imp_right fun h => Or.inr ⟨i, cur, h⟩
    rw [Model.replay_append, (assembles_writeTables hm.source_ok).rowAfter_eq]
    exact tablesOf_rowAfter_writeTables hm.placed (hds.activeTables_eq hm.source_ok rfl) hi hs
      hm.dataScratch hcur _

/-- **Delete.** A success removes one object. -/
theorem delete_advances (u : UInt32) :
    Advances cfg (sstCoreObjectDelete cfg u) r f fun T' => ∃ i, (activeTables cfg r f).Live i ∧
      T' = (activeTables cfg r f).deleted cfg r.ctx.scratchMetablock
        r.ctx.metaBlockHeader.scratchIdx i := by
  have hs := hm.scratch_cases
  have ha : r.ctx.activeMetablock = 0 ∨ r.ctx.activeMetablock = 1 :=
    hm.metablocks.imp And.left And.left
  have hsd (hN : 2 < cfg.totalNumOfBlocks) :
      r.ctx.metaBlockHeader.scratchIdx ≠ r.ctx.scratchMetablock :=
    (hm.ne_of_two_le (hm.dataScratch hN).1).2
  refine .of_atomic hm (atomicReads_delete hm.source_ok.1.symm ha hm.placed u) ?_
  rcases delete_outcome hm hc rfl u with ⟨h, -⟩ | ⟨i, hu, hfind, -, hcom⟩
  · exact (h.running hm).imp_right Or.inl
  · have hi := Tables.live_of_find hu hfind
    refine (hcom.running hm (hm.placed.vacated_range (hm.placed.slots.lblock_lt i) hm.dataScratch)
      ?_ (hm.placed.deleted hs hm.dataScratch hi)).imp_right fun h => Or.inr ⟨i, hi, h⟩
    rw [(fillsScratch_deleteCalls hm.placed hi hm.source_ok hsd).rowAfter_eq]
    exact tablesOf_rowAfter_delete hm.placed rfl hi hs hm.dataScratch _

end Tfm.Sst
