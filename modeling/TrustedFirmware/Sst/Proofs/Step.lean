import TrustedFirmware.Sst.Proofs.Delete

/-!
# Operations as steps of the store

Create, write and delete as one type of operations with their callers' obligations (`Op`, `Op.Pre`),
and the one statement about them that the run-level results need (`Op.outcome`): on a mounted store
an operation fails, or it commits along a `Plan`.

A plan names the calls that fill the scratch blocks, the tables they leave and the layout of these
tables. What holds after a commit follows from the plan alone (`Committed`), so that a change to one
operation is a change to its plan.
-/

namespace Tfm.Sst

open Word32 BlockFlash Device

variable {cfg : Config} {r : Ram} {f : Flash} {T : Tables}

/-! ## Operations

The read-only functions of the core do not appear here: they leave memory and flash alone under
every fault schedule. -/

/-- The operations that change the store. -/
inductive Op where
  | create (objectUuid size : UInt32)
  | write (objectUuid : UInt32) (data : List UInt8) (offset size : UInt32)
  | delete (objectUuid : UInt32)

/-- The function of the core that carries out an operation. -/
def Op.prog (cfg : Config) : Op → SstM Unit
  | .create u size => sstCoreObjectCreate cfg u size
  | .write u data offset size => sstCoreObjectWrite cfg u data offset size
  | .delete u => sstCoreObjectDelete cfg u

/-- What the callers of the core guarantee: ids are not 0, objects are not empty and their
size can be rounded up to the program unit (they have a header, and the policy bounds their
size by 16 bits), and a write stays within the maximum size of the object. -/
def Op.Pre (cfg : Config) (T : Tables) : Op → Prop
  | .create u size => u ≠ 0 ∧ 0 < size.toNat ∧ size.toNat + cfg.flashProgramUnit ≤ 2 ^ 32
  | .write u _ offset size =>
    u ≠ 0 ∧ ∀ i, T.find cfg u = some i → offset.toNat + size.toNat ≤ (T.obj i).maxSize
  | .delete _ => True

/-- What a committed operation does to the tables `T`, when the scratch blocks are `s` and
`d`. -/
inductive Op.Effect (cfg : Config) (T : Tables) (s d : Nat) : Op → Tables → Prop where
  | create {u size : UInt32} {i l : Nat} (hcan : T.CanCreate cfg i l size.toNat) :
      Op.Effect cfg T s d (.create u size) (T.created cfg s i l size.toNat u)
  | write {u : UInt32} {data : List UInt8} {offset size : UInt32} {i curSize : Nat}
      (hfind : T.find cfg u = some i) (hcur : curSize ≤ (T.obj i).maxSize) :
      Op.Effect cfg T s d (.write u data offset size) (T.written s d i curSize)
  | delete {u : UInt32} {i : Nat} (hfind : T.find cfg u = some i) (hlive : T.Live i)
      (hacc : T.Accepted cfg) : Op.Effect cfg T s d (.delete u) (T.deleted cfg s d i)

/-- Run a function of the core without faults. -/
def run {α : Type} (m : SstM α) (r : Ram) (f : Flash) : Result Call SstErr Ram Flash α :=
  exec device noFaults 0 m r f

/-! ## Plans

Each operation has its plan, assembled from its list of calls: what they do to the scratch row, and
why the tables they leave are laid out well. -/

/-- `m` commits the tables `T'` by the calls `cs`, and the data scratch block is `d'`
afterwards. -/
structure Plan (cfg : Config) (m : SstM Unit) (r : Ram) (f : Flash) (T' : Tables) (d' : Nat)
    (cs : List Call) : Prop where
  commits : Commits cfg m r f d' cs
  assembles : Assembles cfg r.ctx.scratchMetablock r.ctx.metaBlockHeader.scratchIdx cs
  tables : tablesOf cfg (rowAfter r.ctx.scratchMetablock f cs (f r.ctx.scratchMetablock)) = T'
  layout : Layout cfg T' r.ctx.scratchMetablock d'

theorem createPlan (hm : Mounted cfg r f) (hT : activeTables cfg r f = T) {u size : UInt32}
    (hu : u ≠ 0) (hpos : 0 < size.toNat) (hmax : size.toNat + cfg.flashProgramUnit ≤ 2 ^ 32)
    {i l : Nat}
    (hcan : T.CanCreate cfg i l size.toNat)
    (hcom : Commits cfg (sstCoreObjectCreate cfg u size) r f r.ctx.metaBlockHeader.scratchIdx
      (createCalls cfg r.ctx.activeMetablock r.ctx.scratchMetablock T i l size.toNat u)) :
    Plan cfg (sstCoreObjectCreate cfg u size) r f
      (T.created cfg r.ctx.scratchMetablock i l size.toNat u) r.ctx.metaBlockHeader.scratchIdx
      (createCalls cfg r.ctx.activeMetablock r.ctx.scratchMetablock T i l size.toNat u) := by
  have hL : Layout cfg T _ _ := hT ▸ hm.layout
  have hs := hm.scratch_cases
  have hL' := hL.created hs hu hcan.entry_lt hcan.entry_free hcan.block_lt hpos hmax hcan.fits
  exact ⟨hcom, assembles_create hm.source_ok,
    tablesOf_rowAfter_create _ hT (by omega) hcan.entry_lt hcan.block_lt
      (hL'.obj_fits ((Tables.created_live hu).mpr (Or.inl rfl))) (hL'.blk_fits hcan.block_lt),
    hL'⟩

theorem writePlan (hm : Mounted cfg r f) (hT : activeTables cfg r f = T) {u : UInt32}
    {data : List UInt8} {offset size : UInt32} {i curSize : Nat} {buf : List UInt8}
    (hi : T.Live i) (hcur : curSize ≤ (T.obj i).maxSize)
    (hcom : Commits cfg (sstCoreObjectWrite cfg u data offset size) r f
      (T.vacated r.ctx.metaBlockHeader.scratchIdx (T.obj i).lblock)
      (writeCalls cfg r.ctx.activeMetablock r.ctx.scratchMetablock
        r.ctx.metaBlockHeader.scratchIdx T i curSize buf)) :
    Plan cfg (sstCoreObjectWrite cfg u data offset size) r f
      (T.written r.ctx.scratchMetablock r.ctx.metaBlockHeader.scratchIdx i curSize)
      (T.vacated r.ctx.metaBlockHeader.scratchIdx (T.obj i).lblock)
      (writeCalls cfg r.ctx.activeMetablock r.ctx.scratchMetablock
        r.ctx.metaBlockHeader.scratchIdx T i curSize buf) := by
  have hL : Layout cfg T _ _ := hT ▸ hm.layout
  have hs := hm.scratch_cases
  exact ⟨hcom, assembles_writeCalls hL hi hs hm.source_ok buf,
    tablesOf_rowAfter_writeCalls hL hT hi hs hcur buf _,
    hL.written hs hi hcur⟩

theorem deletePlan (hm : Mounted cfg r f) (hT : activeTables cfg r f = T) {u : UInt32} {i : Nat}
    (hi : T.Live i)
    (hcom : Commits cfg (sstCoreObjectDelete cfg u) r f
      (T.vacated r.ctx.metaBlockHeader.scratchIdx (T.obj i).lblock)
      (deleteCalls cfg r.ctx.activeMetablock r.ctx.scratchMetablock
        r.ctx.metaBlockHeader.scratchIdx T i)) :
    Plan cfg (sstCoreObjectDelete cfg u) r f
      (T.deleted cfg r.ctx.scratchMetablock r.ctx.metaBlockHeader.scratchIdx i)
      (T.vacated r.ctx.metaBlockHeader.scratchIdx (T.obj i).lblock)
      (deleteCalls cfg r.ctx.activeMetablock r.ctx.scratchMetablock
        r.ctx.metaBlockHeader.scratchIdx T i) := by
  have hL : Layout cfg T _ _ := hT ▸ hm.layout
  have hs := hm.scratch_cases
  exact ⟨hcom, assembles_deleteCalls hL hi hs hm.source_ok,
    tablesOf_rowAfter_delete hL.placed hT hi hs hm.running.dataScratch _,
    hL.deleted hs hi⟩

/-- On a mounted store an operation fails, or it commits. It fails without effect where the
build accepts the tables. -/
theorem Op.outcome (hm : Mounted cfg r f) (hc : cfg.CryptoWorks) (op : Op)
    (hpre : op.Pre cfg (activeTables cfg r f)) :
    (Aborts cfg (op.prog cfg) r f
        ∧ ((activeTables cfg r f).Accepted cfg → Refuses (op.prog cfg) r f))
      ∨ ∃ T' d' cs, op.Effect cfg (activeTables cfg r f) r.ctx.scratchMetablock
          r.ctx.metaBlockHeader.scratchIdx T' ∧ Plan cfg (op.prog cfg) r f T' d' cs := by
  cases op with
  | create u size =>
    rcases create_outcome hm.running hc rfl u size with ⟨h, -⟩ | ⟨i, l, hcan, -, hcom⟩
    · exact Or.inl ⟨h.aborts, fun _ => h⟩
    · exact Or.inr ⟨_, _, _, .create hcan, createPlan hm rfl hpre.1 hpre.2.1 hpre.2.2 hcan hcom⟩
  | write u data offset size =>
    rcases write_outcome hm hc rfl data hpre.1 hpre.2 with h | ⟨i, hfind, -, -, hcom⟩
    · exact Or.inl ⟨h.aborts, fun _ => h⟩
    · have hi := Tables.live_of_find hpre.1 hfind
      have hcur := writeBuffer_size_le hm.layout hi f data (hpre.2 i hfind)
      exact Or.inr ⟨_, _, _, .write hfind hcur, writePlan hm rfl hi hcur hcom⟩
  -- a delete of a build that validates records can fail with blocks already programmed
  | delete u =>
    rcases delete_outcome hm.running hc rfl u with h | ⟨i, hu, hfind, hacc, hcom⟩
    · exact Or.inl ⟨h.1, fun hacc => (h.2 hacc).2⟩
    · have hi := Tables.live_of_find hu hfind
      exact Or.inr ⟨_, _, _, .delete hfind hi hacc, deletePlan hm rfl hi hcom⟩

/-! ## After a commit

The roles of the two metadata blocks are swapped, the new metadata block holds the assembled tables
under a header with the next counter, and the old blocks are erased. -/

/-- The memory `r'` and the flash `f'` after the calls `cs` were committed with header `h'`. -/
structure Committed (cfg : Config) (r : Ram) (f : Flash) (d' : Nat) (cs : List Call)
    (h' : MetadataBlockHeader) (r' : Ram) (f' : Flash) : Prop where
  header : r'.ctx.metaBlockHeader = h'
  active : r'.ctx.activeMetablock = r.ctx.scratchMetablock
  scratch : r'.ctx.scratchMetablock = r.ctx.activeMetablock
  next : HeaderNext cfg { r.ctx.metaBlockHeader with scratchIdx := d' } h'
  authentic : Authentic cfg h' (f' r.ctx.scratchMetablock)
  newRow : f' r.ctx.scratchMetablock = headerRow cfg h'
    (rowAfter r.ctx.scratchMetablock f cs (f r.ctx.scratchMetablock))
  oldErased : f' r.ctx.activeMetablock = Row.erased
  dataErased : 2 < cfg.totalNumOfBlocks → f' d' = Row.erased
  dataRow : ∀ b, b ≠ r.ctx.scratchMetablock → b ≠ r.ctx.activeMetablock →
    (2 < cfg.totalNumOfBlocks → b ≠ d') → f' b = rowAfter b f cs (f b)

variable {m : SstM Unit} {T' : Tables} {d' : Nat} {cs : List Call}

/-- What commits has the effect of its calls. -/
theorem Commits.run_committed (hcom : Commits cfg m r f d' cs)
    (hasm : Assembles cfg r.ctx.scratchMetablock r.ctx.metaBlockHeader.scratchIdx cs)
    (hm : Mounted cfg r f) (hge : 2 < cfg.totalNumOfBlocks → 2 ≤ d') :
    (run m r f).val = .ok ()
      ∧ ∃ h', Committed cfg r f d' cs h' (run m r f).mem (run m r f).dev := by
  obtain ⟨h', iv, hnext, hauth, hdoes⟩ := hcom
  have hd' (hN : 2 < cfg.totalNumOfBlocks) : d' ≠ r.ctx.scratchMetablock :=
    (hm.ne_of_two_le (hge hN)).2
  have hrow := replay_commitCalls hasm r.ctx.activeMetablock d' h' f
  have hnew : ¬ (r.ctx.scratchMetablock = r.ctx.activeMetablock
      ∨ r.ctx.scratchMetablock = d' ∧ 2 < cfg.totalNumOfBlocks) := by
    rintro (h | ⟨h, hN⟩)
    · exact hm.active_ne_scratch h.symm
    · exact hd' hN h.symm
  rw [run, hdoes.val_eq, hdoes.mem_eq, hdoes.dev_eq]
  refine ⟨rfl, h', rfl, rfl, rfl, hnext, ?_, ?_, ?_, ?_, ?_⟩
  · -- the erasures that follow the header leave the new metadata block alone
    rw [commitCalls, ← List.append_assoc, Model.replay_append, replay_eraseCalls, if_neg hnew]
    exact hauth
  · rw [hrow, if_neg hnew, if_pos rfl]
  · rw [hrow, if_pos (Or.inl rfl)]
  · intro hN
    rw [hrow, if_pos (Or.inr ⟨rfl, hN⟩)]
  · intro b hbs hba hbd
    rw [hrow, if_neg, if_neg hbs]
    rintro (h | ⟨h, hN⟩)
    · exact hba h
    · exact hbd hN h

/-- A plan is carried out. -/
theorem Plan.run_committed (p : Plan cfg m r f T' d' cs) (hm : Mounted cfg r f) :
    (run m r f).val = .ok ()
      ∧ ∃ h', Committed cfg r f d' cs h' (run m r f).mem (run m r f).dev :=
  p.commits.run_committed p.assembles hm p.layout.blocks.scratch_ge

section AfterCommit

variable {h' : MetadataBlockHeader} {r' : Ram} {f' : Flash}

/-- The new tables are the assembled ones. -/
theorem Committed.activeTables_eq (hcom : Committed cfg r f d' cs h' r' f') :
    activeTables cfg r' f' = tablesOf cfg
      (rowAfter r.ctx.scratchMetablock f cs (f r.ctx.scratchMetablock)) := by
  rw [activeTables, hcom.active, hcom.newRow, tablesOf_headerRow]

/-- The tables after a plan was carried out. -/
theorem Committed.tables (hcom : Committed cfg r f d' cs h' r' f')
    (p : Plan cfg m r f T' d' cs) : activeTables cfg r' f' = T' := by
  rw [hcom.activeTables_eq, p.tables]

theorem Committed.mounted (hcom : Committed cfg r f d' cs h' r' f')
    (p : Plan cfg m r f T' d' cs) (hm : Mounted cfg r f) : Mounted cfg r' f' where
  metablocks := by
    rw [hcom.active, hcom.scratch]
    exact hm.metablocks.symm.imp And.symm And.symm
  layout := by
    rw [hcom.tables p, hcom.active, hcom.header, hcom.next.scratchIdx]
    exact p.layout

end AfterCommit

/-- The scratch blocks are erased, ready for the next operation. -/
structure ScratchErased (cfg : Config) (r : Ram) (f : Flash) : Prop where
  metaScratch : f r.ctx.scratchMetablock = Row.erased
  dataScratch : 2 < cfg.totalNumOfBlocks → f r.ctx.metaBlockHeader.scratchIdx = Row.erased

/-- A commit erases the blocks that are scratch after it. -/
theorem Committed.scratchErased {h' : MetadataBlockHeader} {r' : Ram} {f' : Flash}
    (hcom : Committed cfg r f d' cs h' r' f') : ScratchErased cfg r' f' where
  metaScratch := by
    rw [hcom.scratch]
    exact hcom.oldErased
  dataScratch hN := by
    rw [hcom.header, hcom.next.scratchIdx]
    exact hcom.dataErased hN

/-- An operation without effect. -/
theorem Refuses.run_eq {m : SstM Unit} (h : Refuses m r f) :
    (∃ e, (run m r f).val = .error e) ∧ (run m r f).mem = r ∧ (run m r f).dev = f := by
  obtain ⟨e, hdoes⟩ := h
  rw [run, hdoes.val_eq, hdoes.mem_eq, hdoes.dev_eq]
  exact ⟨⟨e, rfl⟩, rfl, rfl⟩

theorem Aborts.run_ne_ok {m : SstM Unit} (h : Aborts cfg m r f) : (run m r f).val ≠ .ok () := by
  obtain ⟨e, w, hdoes, -⟩ := h
  rw [run, hdoes.val_eq]
  exact fun h => by cases h

/-- An operation that succeeds has committed. -/
theorem Op.plan_of_ok (hm : Mounted cfg r f) (hc : cfg.CryptoWorks) (op : Op)
    (hpre : op.Pre cfg (activeTables cfg r f)) (hok : (run (op.prog cfg) r f).val = .ok ()) :
    ∃ T' d' cs, op.Effect cfg (activeTables cfg r f) r.ctx.scratchMetablock
      r.ctx.metaBlockHeader.scratchIdx T' ∧ Plan cfg (op.prog cfg) r f T' d' cs :=
  (op.outcome hm hc hpre).resolve_left fun h => h.1.run_ne_ok hok

end Tfm.Sst
