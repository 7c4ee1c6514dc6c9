import TrustedFirmware.Lib.FaultWitness
import TrustedFirmware.Sst.Proofs.Faults
import TrustedFirmware.Sst.Proofs.Remount
import TrustedFirmware.Sst.Properties.Deletion
import TrustedFirmware.Sst.Properties.PowerFailure
import TrustedFirmware.Sst.Properties.Refinement

/-!
# Success means committed, on an intact store

A store is intact as long as it is prepared anew after every operation in which a flash call fails.
Create and write check every result code: when they return success on an intact store, no
flash call has failed and the store is the one that the operation promises, also after the next
`sst_core_prepare`. So does a delete whose flash calls succeed. But a delete drops the result of its
commit: when the header cannot be programmed, it returns success and the object is still there.

* `Intact` — the states of runs, with refused operations, power cuts, and creates and writes that
  fail and are followed by a prepare;
* `Intact.consistent` — the invariant of these runs;
* `success_durable` — which successes are durable.

A store that is not intact may lose data without any further fault: a write moves the data scratch
block in memory before it commits, so after a write that failed the scratch block in memory is the
block that holds the data.
-/

namespace Tfm.Sst

open Word32 BlockFlash Device

variable {cfg : Config} {r r' : Ram} {f f' : Flash} {T T' : Tables} {u : UInt32}

/-! ## What the caller is told -/

/-- What an operation promises, seen through the functions of the core: a created object is found, a
written one has its new content, a deleted one is not found. The objects before the operation are
`objects`. -/
def Op.Shows (cfg : Config) (objects : ObjectMap UInt32) (r : Ram) (f : Flash) : Op → Prop
  | .create u _ => (run (sstCoreObjectExist cfg u) r f).val = .ok ()
  | .write u data offset size => ∃ ob, objects u = some ob ∧ ∀ o s : UInt32,
      (run (sstCoreObjectRead cfg u o s) r f).val
        = readResult (writtenContent cfg ob.content data offset.toNat size.toNat) o.toNat s.toNat
  | .delete u => (run (sstCoreObjectExist cfg u) r f).val = .error .assetNotFound

/-- The metadata block `s` is active and carries the tables `T'` and the header, and the store shows
what the operation promises. -/
structure Carries (cfg : Config) (op : Op) (objects : ObjectMap UInt32) (s : Nat) (T' : Tables)
    (r : Ram) (f : Flash) : Prop where
  active : r.ctx.activeMetablock = s
  tables : activeTables cfg r f = T'
  header : headerOf (f s) = r.ctx.metaBlockHeader
  valid : r.ctx.metaBlockHeader.IsValid
  shows : op.Shows cfg objects r f

/-- The effect of an operation is durable: the store carries it, and a prepare, whatever the memory
holds, succeeds and gives a store that carries it. -/
def Durable (cfg : Config) (op : Op) (r : Ram) (f : Flash) (r' : Ram) (f' : Flash) : Prop :=
  ∃ T', op.Effect cfg (activeTables cfg r f) r.ctx.scratchMetablock
      r.ctx.metaBlockHeader.scratchIdx T'
    ∧ Carries cfg op (objectMap cfg r f) r.ctx.scratchMetablock T' r' f'
    ∧ ∀ r0, (run (sstCorePrepare cfg) r0 f').val = .ok ()
      ∧ Carries cfg op (objectMap cfg r f) r.ctx.scratchMetablock T'
          (run (sstCorePrepare cfg) r0 f').mem (run (sstCorePrepare cfg) r0 f').dev

/-- When the operation returns success although the flash calls `fails` fail, its effect is
durable. -/
def SuccessDurable (cfg : Config) (op : Op) (fails : Nat → Bool) (r : Ram) (f : Flash) : Prop :=
  (exec device fails 0 (op.prog cfg) r f).val = .ok () →
    Durable cfg op r f (exec device fails 0 (op.prog cfg) r f).mem
      (exec device fails 0 (op.prog cfg) r f).dev

/-- No flash call of the operation fails. -/
def Op.Undisturbed (cfg : Config) (op : Op) (fails : Nat → Bool) (r : Ram) (f : Flash) : Prop :=
  OnlyFails (fun _ => False) (exec device fails 0 (op.prog cfg) r f).log

/-- Then it runs as it does without faults. -/
theorem Op.Undisturbed.exec_eq {op : Op} {fails : Nat → Bool} (h : op.Undisturbed cfg fails r f) :
    exec device fails 0 (op.prog cfg) r f = run (op.prog cfg) r f :=
  exec_eq_noFaults h 0

/-! ## Intact stores

The states the guarantee is about. Operations meet no failed flash call, whether they succeed or are
refused. In the plain build power may be lost at any point of an operation, and any flash calls of a
create or a write may fail, as long as the store is prepared before it is used again. A delete in
which a flash call fails is left out: it may have committed tables with a hole. -/

/-- The states of runs in which no failed flash call is left without a prepare. -/
inductive Intact (cfg : Config) : Ram → Flash → Prop where
  | empty (r r1 : Ram) (f : Flash) (hwipe : (run (sstCoreWipeAll cfg) r f).val = .ok ())
      (hprep : (run (sstCorePrepare cfg) r1 (run (sstCoreWipeAll cfg) r f).dev).val = .ok ()) :
      Intact cfg (run (sstCorePrepare cfg) r1 (run (sstCoreWipeAll cfg) r f).dev).mem
        (run (sstCorePrepare cfg) r1 (run (sstCoreWipeAll cfg) r f).dev).dev
  | call {r : Ram} {f : Flash} (op : Op) (h : Intact cfg r f)
      (hop : op.Admissible cfg (activeTables cfg r f)) :
      Intact cfg (run (op.prog cfg) r f).mem (run (op.prog cfg) r f).dev
  | prepare {r : Ram} {f : Flash} (r0 : Ram) (h : Intact cfg r f)
      (hok : (run (sstCorePrepare cfg) r0 f).val = .ok ()) :
      Intact cfg (run (sstCorePrepare cfg) r0 f).mem (run (sstCorePrepare cfg) r0 f).dev
  | cut {r : Ram} {f g : Flash} (op : Op) (r0 : Ram) (h : Intact cfg r f)
      (hplain : cfg.encryption = false) (hop : op.Admissible cfg (activeTables cfg r f))
      (hcut : PowerCut (effects (run (op.prog cfg) r f).log) f g) :
      Intact cfg (run (sstCorePrepare cfg) r0 g).mem (run (sstCorePrepare cfg) r0 g).dev
  | repaired {r : Ram} {f : Flash} (op : Op) (fails : Nat → Bool) (r0 : Ram) (h : Intact cfg r f)
      (hplain : cfg.encryption = false) (hop : op.Admissible cfg (activeTables cfg r f))
      (hkind : ∀ u, op ≠ .delete u) :
      Intact cfg
        (run (sstCorePrepare cfg) r0 (exec device fails 0 (op.prog cfg) r f).dev).mem
        (run (sstCorePrepare cfg) r0 (exec device fails 0 (op.prog cfg) r f).dev).dev

/-- A create or a write stops at a failed call. -/
theorem Op.strict {op : Op} (hkind : ∀ u, op ≠ .delete u) : Strict (op.prog cfg) := by
  cases op with
  | create u size => exact strict_create u size
  | write u data offset size => exact strict_write u data offset size
  | delete u => exact absurd rfl (hkind u)

/-- **A failure is a cut.** A strict function in which flash calls fail leaves the flash as if power
had been lost between two of its calls. -/
theorem Strict.powerCut {m : SstM Unit} (hm : Strict m) (fails : Nat → Bool) (r : Ram) (f : Flash) :
    PowerCut (effects (run m r f).log) f (exec device fails 0 m r f).dev := by
  obtain ⟨w, hw, hdev⟩ := hm.initial_run fails 0 r f
  rw [hdev, List.prefix_iff_eq_take.mp hw]
  exact PowerCut.take _ f _

/-- A consistent store that is recovered is consistent. -/
theorem Consistent.of_recovers (h : Consistent cfg r f) (hplain : cfg.encryption = false)
    (hrec : Recovers cfg r f f') (r0 : Ram) :
    Consistent cfg (run (sstCorePrepare cfg) r0 f').mem (run (sstCorePrepare cfg) r0 f').dev := by
  obtain ⟨-, hctx, hdev⟩ := hrec.run_prepare hplain r0
  rw [hdev]
  refine ⟨h.settled.of_ctx hctx, ?_, ?_⟩ <;> rw [activeTables, hctx]
  · exact h.unique
  · exact h.sized

/-- After a cut of an operation the store is consistent, before the operation or after it. -/
theorem Consistent.of_cut (hplain : cfg.encryption = false) (h : Consistent cfg r f) {op : Op}
    (hop : op.Admissible cfg (activeTables cfg r f))
    (hcut : PowerCut (effects (run (op.prog cfg) r f).log) f f') (r0 : Ram) :
    Consistent cfg (run (sstCorePrepare cfg) r0 f').mem (run (sstCorePrepare cfg) r0 f').dev := by
  have hc : cfg.CryptoWorks := fun henc => by simp [hplain] at henc
  rcases op.refuses_or_commits hc h hop with href | ⟨T', d', cs, heff, p⟩
  · -- a refused operation only reads
    exact h.of_recovers hplain (href.recovers_of_cut h.settled hcut) r0
  · rcases p.recovers_of_cut hplain h.settled hcut with hrec | hrec
    · exact h.of_recovers hplain hrec r0
    · exact (h.of_plan hop heff p).of_recovers hplain hrec r0

/-- Intact stores are consistent. The induction is on the run. -/
theorem Intact.consistent (hc : cfg.CryptoWorks) (h : Intact cfg r f) : Consistent cfg r f := by
  induction h with
  | empty r r1 f _ hprep => exact consistent_of_wipe hc r r1 f hprep
  | call op _ hop ih => exact op.consistent hc ih hop
  -- a prepare restores the context that was in memory
  | prepare r0 _ hok ih =>
    obtain ⟨hctx, hdev⟩ := ih.settled.run_prepare_of_ok hok
    rw [hdev]
    refine ⟨ih.settled.of_ctx hctx, ?_, ?_⟩ <;> rw [activeTables, hctx]
    · exact ih.unique
    · exact ih.sized
  | cut op r0 _ hplain hop hcut ih => exact ih.of_cut hplain hop hcut r0
  | repaired op fails r0 _ hplain hop hkind ih =>
    exact ih.of_cut hplain hop ((Op.strict hkind).powerCut fails _ _) r0

/-! ## Lookups and reads, from the tables

What the functions of the core return on a store whose tables are known. -/

theorem exist_of_find {i : Nat} (hT : activeTables cfg r f = T) (hfind : T.find cfg u = some i)
    (hreach : T.Reaches cfg i) : (run (sstCoreObjectExist cfg u) r f).val = .ok () := by
  rcases lookup_outcome hT u .assetNotFound with ⟨-, hnone⟩ | ⟨j, -, -, hlook⟩
  · exact absurd hreach (hnone i hfind)
  · exact (Does.read_bind hlook (Does.pure ())).val_eq 0

/-- An object that a lookup reaches is read from its content. -/
theorem read_of_find {i : Nat} (hT : activeTables cfg r f = T) (hR : T.Readable cfg)
    (hfind : T.find cfg u = some i) (hreach : T.Reaches cfg i) (o s : UInt32) :
    (run (sstCoreObjectRead cfg u o s) r f).val = readResult (contentOf f T i) o.toNat s.toNat := by
  rcases read_outcome hT hR u o s with ⟨-, hnone⟩ | ⟨j, hj, -, hdoes⟩
  · exact absurd hreach (hnone i hfind)
  · obtain rfl : i = j := by simpa [hfind] using hj
    exact hdoes.val_eq 0

/-! ## After a commit

The three operations in turn: the plan they commit, and what it shows. -/

section Success

variable (hst : Settled cfg r f) (hc : cfg.CryptoWorks) (hv : cfg.CryptoVerifies)
include hst hc hv

/-- What is committed stays, as long as the tables show what the operation promises. -/
theorem Committed.durable {op : Op} {d' : Nat} {cs : List Call} {h' : MetadataBlockHeader}
    (hcom : Committed cfg r f d' cs h' r' f') (p : Plan cfg (op.prog cfg) r f T' d' cs)
    (heff : op.Effect cfg (activeTables cfg r f) r.ctx.scratchMetablock
      r.ctx.metaBlockHeader.scratchIdx T')
    (hshow : ∀ r1, activeTables cfg r1 f' = T' → op.Shows cfg (objectMap cfg r f) r1 f') :
    Durable cfg op r f r' f' := by
  have hst' := hcom.settled p hst
  have htab := hcom.tables p
  have hauth := hcom.authentic
  rw [← hcom.header, ← hcom.active] at hauth
  have hheader : headerOf (f' r.ctx.scratchMetablock) = r'.ctx.metaBlockHeader := by
    rw [hst'.synced, hcom.active]
  refine ⟨T', heff, ⟨hcom.active, htab, hheader, hst'.valid, hshow r' htab⟩, fun r0 => ?_⟩
  -- the next prepare finds the header that was committed
  obtain ⟨hok, hctx, hdev⟩ := hst'.run_prepare hc hv hauth r0
  have htab0 : activeTables cfg (run (sstCorePrepare cfg) r0 f').mem f' = T' := by
    rw [activeTables, hctx]
    exact htab
  refine ⟨hok, ?_⟩
  rw [hdev]
  exact ⟨by rw [hctx, hcom.active], htab0, by rw [hctx, hheader], hctx ▸ hst'.valid, hshow _ htab0⟩

/-- A create without faults is durable. -/
theorem create_durable {size : UInt32} (hsized : (activeTables cfg r f).Sized cfg)
    (hadm : (Op.create u size).Admissible cfg (activeTables cfg r f))
    (hok : (run (sstCoreObjectCreate cfg u size) r f).val = .ok ()) :
    Durable cfg (.create u size) r f (run (sstCoreObjectCreate cfg u size) r f).mem
      (run (sstCoreObjectCreate cfg u size) r f).dev := by
  obtain ⟨hnone, hpos, hmax⟩ := hadm
  have hu := create_ne_zero hst.toMounted hc hnone hok
  rcases create_outcome hst.toMounted.running hc rfl u size with ⟨h, -⟩ | ⟨i, l, hcan, -, hcommits⟩
  · have habort : Aborts cfg (sstCoreObjectCreate cfg u size) r f := h.aborts
    exact absurd hok habort.run_ne_ok
  have p := createPlan hst.toMounted rfl hu hpos (cfg.rounds_of_le_maxObjectSize hmax) hcan hcommits
  obtain ⟨-, h', hcom⟩ := p.run_committed hst.toMounted
  -- the new record is accepted, as it is not too large
  have hacc := (p.layout.valid (hsized.created hu hmax)).accepted
  refine Committed.durable hst hc hv hcom p (.create hcan) fun r1 htab => ?_
  exact exist_of_find htab (Tables.created_find_self hcan.entry_lt hnone)
    (hacc.reaches hcan.entry_lt)

/-- A write without faults is durable. -/
theorem write_durable {data : List UInt8} {offset size : UInt32}
    (hsized : (activeTables cfg r f).Sized cfg)
    (hadm : (Op.write u data offset size).Admissible cfg (activeTables cfg r f))
    (hok : (run (sstCoreObjectWrite cfg u data offset size) r f).val = .ok ()) :
    Durable cfg (.write u data offset size) r f
      (run (sstCoreObjectWrite cfg u data offset size) r f).mem
      (run (sstCoreObjectWrite cfg u data offset size) r f).dev := by
  obtain ⟨hu, hmax⟩ := hadm
  rcases write_outcome hst.toMounted hc rfl data hu hmax with h | ⟨i, hfind, hoff, hfits, hcommits⟩
  · have habort : Aborts cfg (sstCoreObjectWrite cfg u data offset size) r f := h.aborts
    exact absurd hok habort.run_ne_ok
  have hi := Tables.live_of_find hu hfind
  have hcur := writeBuffer_size_le hst.layout hi f data (hmax i hfind)
  have p := writePlan hst.toMounted rfl hi hcur hcommits
  obtain ⟨-, h', hcom⟩ := p.run_committed hst.toMounted
  have hacc := (p.layout.valid hsized.written).accepted
  -- without partial writes every write starts at 0
  have hoff' : writeOffset cfg offset.toNat ≤ ((activeTables cfg r f).obj i).curSize := by
    unfold writeOffset
    split
    · rename_i hpart
      exact hoff hpart
    · exact Nat.zero_le _
  have hcontent := hcom.content_written hst.toMounted rfl hi hoff' (hmax i hfind) hfits
  refine Committed.durable hst hc hv hcom p (.write hfind hcur) fun r1 htab => ?_
  refine ⟨_, Tables.objects_of_find hu hfind, fun o s => ?_⟩
  rw [read_of_find htab ((hcom.mounted p hst.toMounted).readable (hcom.tables p))
    ((Tables.written_find u).trans hfind) (hacc.reaches (Tables.lt_of_find hfind)), hcontent]

/-- A delete without faults is durable. -/
theorem delete_durable (huniq : (activeTables cfg r f).UniqueIds)
    (hok : (run (sstCoreObjectDelete cfg u) r f).val = .ok ()) :
    Durable cfg (.delete u) r f (run (sstCoreObjectDelete cfg u) r f).mem
      (run (sstCoreObjectDelete cfg u) r f).dev := by
  rcases delete_outcome hst.toMounted.running hc rfl u with ⟨habort, -⟩ |
    ⟨i, hu, hfind, hacc, hcommits⟩
  · exact absurd hok habort.run_ne_ok
  have hi := Tables.live_of_find hu hfind
  have p := deletePlan hst.toMounted rfl hi hcommits
  obtain ⟨-, h', hcom⟩ := p.run_committed hst.toMounted
  refine Committed.durable hst hc hv hcom p (.delete hfind hi hacc) fun r1 htab => ?_
  refine exist_of_find_none ?_
  rw [htab]
  exact Tables.deleted_find_self hu hfind huniq

end Success

/-! ## A delete that does not commit

`sst_core_object_delete` returns success whatever `sst_meta_update_finalize` reports. A fault in the
first header write is enough. -/

/-- A flash write can fail. -/
theorem flashWrite_canFail (r : Ram) (f : Flash) (b : Nat) (bytes : List UInt8) (off : Nat) :
    CanEnd device (sstFlashWrite b bytes off) r f (.error .systemError) r f :=
  (CanEnd.call _ _).bind_error

/-- The first header write of a commit can fail. Nothing is swapped then. -/
theorem finalize_canFail (cfg : Config) (r : Ram) (f : Flash) :
    ∃ r', CanEnd device (sstMetaUpdateFinalize cfg) r f (.error .systemError) r' f
      ∧ r'.ctx.activeMetablock = r.ctx.activeMetablock := by
  have hget (r : Ram) : CanEnd device (M.getMem : SstM Ram) r f (.ok r) r f := .of_runs Runs.getMem
  have hset (r : Ram) (g : Ram → Ram) :
      CanEnd device (M.modifyMem g : SstM Unit) r f (.ok ()) (g r) f := .of_runs (Runs.modifyMem g)
  have hscratch : CanEnd device sstMetaCurMetaScratch r f (.ok r.ctx.scratchMetablock) r f :=
    (hget r).bind (.of_runs (Runs.pure _))
  let r1 := r.withHeader { r.ctx.metaBlockHeader with
    activeSwapCount := nextSwapCount r.ctx.metaBlockHeader.activeSwapCount }
  have hstart {r' : Ram} (h : CanEnd device (if cfg.encryption then
        sstMetaAuthAndUpdate cfg r.ctx.scratchMetablock
      else do
        let r2 ← M.getMem
        sstFlashWrite r.ctx.scratchMetablock (r2.ctx.metaBlockHeader.encode.take swapCountOffset) 0
        sstFlashWrite r.ctx.scratchMetablock [r2.ctx.metaBlockHeader.activeSwapCount]
          swapCountOffset) r1 f (.error .systemError) r' f) :
      CanEnd device (sstMetaUpdateFinalize cfg) r f (.error .systemError) r' f :=
    (hscratch.bind ((hset r _).bind h)).bind_error
  cases henc : cfg.encryption with
  | false =>
    simp only [henc] at hstart
    exact ⟨r1, hstart ((hget r1).bind (flashWrite_canFail _ _ _ _ _).bind_error), rfl⟩
  | true =>
    -- the next initialisation vector is taken before the header is programmed
    let iv := sstCryptoNextIv r1.cryptoIvBuf
    let r2 : Ram := { r1.withHeader { r1.ctx.metaBlockHeader with
      crypto := { r1.ctx.metaBlockHeader.crypto with iv := iv } } with cryptoIvBuf := iv }
    have hiv : CanEnd device sstCryptoGetIv r1 f (.ok ()) r2 f :=
      (hget r1).bind ((hset r1 _).bind (hset _ _))
    simp only [henc] at hstart
    exact ⟨r2, hstart (hiv.bind ((hget r2).bind (flashWrite_canFail _ _ _ _ _).bind_error)), rfl⟩

/-- A delete of a stored object can return success and leave the tables as they are: the result of
the commit is dropped. -/
theorem delete_canKeep {i : Nat} (hm : Running cfg r f) (hT : activeTables cfg r f = T)
    (hu : u ≠ 0) (hfind : T.find cfg u = some i) (hacc : T.Accepted cfg) :
    ∃ r' f', CanEnd device (sstCoreObjectDelete cfg u) r f (.ok ()) r' f'
      ∧ activeTables cfg r' f' = T := by
  have hsrc := hm.source_ok
  have hiA := Tables.lt_of_find hfind
  have hid := Tables.uniqueId_of_find hfind
  have hlook : Does (M.orElse (sstCoreGetObjectIdx cfg u) .assetNotFound) r f (.ok i) r [] := by
    rcases lookup_outcome hT u .assetNotFound with ⟨-, hnone⟩ | ⟨j, hj, -, hlook⟩
    · exact absurd (hacc.reaches hiA) (hnone i hfind)
    · obtain rfl : i = j := by simpa [hfind] using hj
      exact hlook
  have hobj := does_readObjectMeta (r := r) (f := f) (by rw [hT]; exact hacc i hiA) hiA
  rw [hT] at hobj
  -- the tables stay readable while the scratch block is filled
  have hT1 : activeTables cfg r (device.replay
      [.write r.ctx.scratchMetablock (objOff cfg i) (T.obj i).cleared.encode] f) = T :=
    (assembles_write (header_le_objOff i)).activeTables_eq hsrc hT
  have hT2 := (assembles_rewrite (T := T) (i := i)
    (List.range cfg.numAssets)).activeTables_eq hsrc hT1
  -- up to the commit the delete runs as without faults
  have hscan := (scan_outcome hsrc.1 hT1 (i := i) (List.range cfg.numAssets)
    (fun j hj => List.mem_range.mp hj) (cfg.blockSize, 0)).resolve_left
      fun ⟨_, _, _, hno⟩ => hno hacc
  have hm2 : Running cfg r _ := ⟨hm.metablocks, by rw [hT2, ← hT]; exact hm.placed, hm.dataScratch⟩
  have hi := Tables.live_of_find hu hfind
  have hcomp := does_compactDblock hm2 hT2 hi
    (T.movedRange cfg i).1 (T.movedRange cfg i).2
  have hP : Placed cfg T _ := hT ▸ hm.placed
  have hT3 := (fillsScratch_deleteCalls hP hi hsrc
    (fun hN => (hm.ne_of_two_le (hm.dataScratch hN).1).2)).onScratch.activeTables_eq hsrc hT
  obtain ⟨r', hfin, hactive⟩ := finalize_canFail cfg (r.withScratch
    (T.vacated r.ctx.metaBlockHeader.scratchIdx (T.obj i).lblock)) (device.replay (deleteCalls cfg
      r.ctx.activeMetablock r.ctx.scratchMetablock r.ctx.metaBlockHeader.scratchIdx T i) f)
  refine ⟨r', device.replay (deleteCalls cfg r.ctx.activeMetablock r.ctx.scratchMetablock
    r.ctx.metaBlockHeader.scratchIdx T i) f, hlook.canEnd.bind (hobj.canEnd.bind ?_), ?_⟩
  · have hcomp := hcomp.canEnd
    simp only [deleteCalls, Model.replay_append] at hfin hcomp ⊢
    simp only [sstUtilsValidateUuid, hid, hu, sstInvalidUuid, if_false]
    exact (does_updateScratchObjectMeta hiA.le _).attempt.canEnd.bind (hscan.1.canEnd.bind
      (hcomp.bind (hfin.attempt.bind (.of_runs (Runs.pure ())))))
  · rw [activeTables, hactive]
    exact hT3

/-- A delete of an object that is not stored never returns success. -/
theorem delete_ne_ok (hT : activeTables cfg r f = T) (hno : u = 0 ∨ T.find cfg u = none)
    (fails : Nat → Bool) : (exec device fails 0 (sstCoreObjectDelete cfg u) r f).val ≠ .ok () := by
  intro hok
  rw [sstCoreObjectDelete] at hok
  obtain ⟨i, hlook, heq⟩ := exec_bind_ok _ _ _ _ _ hok
  rw [heq] at hok
  rcases lookup_outcome hT u .assetNotFound with ⟨hdoes, -⟩ | ⟨j, hfind, hreach, hdoes⟩
  · obtain ⟨hval, -⟩ := (strict_lookup u _).exec_of_ok hdoes hlook
    cases hval
  -- only id 0, of a free entry, is found without being stored
  obtain rfl : u = 0 := hno.resolve_right (by simp [hfind])
  obtain ⟨hval, hmem, hdev⟩ := (strict_lookup _ _).exec_of_ok hdoes hlook
  obtain rfl : j = i := by simpa using hval
  rw [hmem, hdev, Model.replay_nil] at hok
  obtain ⟨e, hread, heq'⟩ := exec_bind_ok _ _ _ _ _ hok
  have hobj := does_readObjectMeta (r := r) (f := f) (by rw [hT]; exact hreach j le_rfl)
    (Tables.lt_of_find hfind)
  obtain ⟨he, -⟩ := (strict_readObjectMeta j).exec_of_ok hobj hread
  obtain rfl : (activeTables cfg r f).obj j = e := by simpa using he
  rw [hT] at heq'
  rw [Result.after, heq'] at hok
  have hid := Tables.uniqueId_of_find hfind
  simp [sstUtilsValidateUuid, hid, sstInvalidUuid, Result.after] at hok

/-- On a consistent store every operation without faults is durable when it succeeds. -/
theorem Consistent.durable_of_run (hc : cfg.CryptoWorks) (hv : cfg.CryptoVerifies)
    (h : Consistent cfg r f) {op : Op} (hop : op.Admissible cfg (activeTables cfg r f))
    (hok : (run (op.prog cfg) r f).val = .ok ()) :
    Durable cfg op r f (run (op.prog cfg) r f).mem (run (op.prog cfg) r f).dev := by
  cases op with
  | create u size => exact create_durable h.settled hc hv h.sized hop hok
  | write u data offset size => exact write_durable h.settled hc hv h.sized hop hok
  | delete u => exact delete_durable h.settled hc hv h.unique hok

/-! ## The condition

Which faults the callers may rely on being told of. -/

/-- A store with an object in logical block 1. -/
def writtenStore : Result Call SstErr Ram Flash Unit :=
  [Op.create 1 2, .write 1 [7, 8] 0 2].foldl (thenRun smallConfig) (emptyStore smallConfig)

/-- A write whose eighth flash call fails, the one that programs the descriptor of logical block 1: the
data scratch block in memory is already the block that holds the object. -/
def failedWrite : Result Call SstErr Ram Flash Unit :=
  exec device (fun k => k == 7) 0 (sstCoreObjectWrite smallConfig 1 [1, 2] 0 2) writtenStore.mem
    writtenStore.dev

/-- The store prepared again after the write that failed. -/
def repairedStore : Result Call SstErr Ram Flash Unit :=
  run (sstCorePrepare smallConfig) Ram.zero failedWrite.dev

end Tfm.Sst
