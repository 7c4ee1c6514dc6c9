import TrustedFirmware.Sst.Proofs.Faults
import TrustedFirmware.Sst.Proofs.Objects
import TrustedFirmware.Sst.Properties.EraseBeforeProgram

/-!
# What a wipe leaves behind

`sst_core_wipe_all` reports success although the loop that erases the data blocks leaves out the
data scratch block and the last three blocks, and although the result of writing the descriptor of
logical block 0 is dropped. When it succeeds, the area is clean exactly when the blocks left out
were erased before and that write did not fail (**`wipedClean_iff`**).

Any of its flash calls may fail here. All others are reported, the erases of the loop behind the
loop, so a wipe that succeeds has made all its calls but perhaps the dropped one (`wipe_of_ok`).
-/

namespace Tfm.Sst

open Word32 BlockFlash Device

variable {cfg : Config} {r : Ram} {f : Flash} {fails : Nat → Bool} {n : Nat}

/-! ## A wipe under faults

Which faults are reported, part by part, and with that the effect of a wipe that succeeds. -/

/-- Once an erase has failed, the loop does not report success. -/
theorem never_eraseBlocks (is : List Nat) :
    Never device (· = false) (sstCoreWipeAll.eraseBlocks is true) := by
  induction is with
  | nil => exact Never.pure (by decide)
  | cons i is ih => exact Never.bind fun _ => ih

/-- A failed erase does not end the loop, it is reported behind it. -/
theorem reportsAll_eraseBlocks (is : List Nat) (failed : Bool) :
    ReportsAll (· = false) (sstCoreWipeAll.eraseBlocks is failed) := by
  -- on the blocks, for both values of the flag
  induction is generalizing failed with
  | nil => exact Reports.pure _
  | cons i is ih =>
    refine Reports.bind' (strict_flashErase i).reports.attempt ?_ ?_
    · rintro _ ⟨-, rfl, -⟩
      exact ih _
    · intro v hv
      cases v with
      | ok x => exact absurd ⟨x, rfl, trivial⟩ hv
      | error e =>
        rw [show (failed || !(Except.error e : Except SstErr Unit).isOk) = true by simp [Except.isOk, Except.toBool]]
        exact never_eraseBlocks is

/-- The block table is written record by record, and a failed write ends the wipe. -/
theorem strict_initBlocks (is : List Nat) : Strict (sstCoreWipeAll.initBlocks cfg is) := by
  induction is with
  | nil => exact Stops.pure ()
  | cons i is ih => exact ((strict_updateScratchBlockMeta _ _).orElse _).bind fun _ => ih

theorem strict_initObjects (is : List Nat) : Strict (sstCoreWipeAll.initObjects cfg is) := by
  induction is with
  | nil => exact Stops.pure ()
  | cons i is ih => exact ((strict_updateScratchObjectMeta _ _).orElse _).bind fun _ => ih

/-- Behind the descriptor of logical block 0 every error is reported. -/
theorem reportsAll_wipeTail : ReportsAll (fun _ => True) (wipeTail cfg) := by
  refine Reports.bind' (reportsAll_eraseBlocks _ _) ?_ ?_
  · rintro _ rfl
    exact ((strict_initBlocks _).bind fun _ => (strict_initObjects _).bind fun _ =>
      (strict_writeScratchMetaHeader.orElse _).bind fun _ => Stops.modifyMem _).reports
  · intro failed hfailed
    rw [Bool.not_eq_false] at hfailed
    subst hfailed
    exact Never.fail _

/-- Looking for the active metadata block only reads, and leaves the header in memory alone. -/
theorem always_getActiveMetablock (cfg : Config) (h : MetadataBlockHeader) (f : Flash) :
    Always device (fun r g => r.ctx.metaBlockHeader = h ∧ g = f) (fun _ => True)
      (sstInitGetActiveMetablock cfg) := by
  have hread (b off k : Nat) (e : SstErr) :
      Always device (fun (r : Ram) g => r.ctx.metaBlockHeader = h ∧ g = f) (fun _ => True)
        (M.orElse (sstFlashRead b off k) e) :=
    (Always.call _ (fun _ _ h => h) trivial).orElse e
  -- the encrypted build authenticates the candidates, one after the other
  have hauth (k c : Nat) : Always device (fun (r : Ram) g => r.ctx.metaBlockHeader = h ∧ g = f)
      (fun _ => True) (sstInitAuthenticate cfg k c) := by
    induction k generalizing c with
    | zero => exact Always.fail _
    | succ k ih =>
      have hone : Always device (fun (r : Ram) g => r.ctx.metaBlockHeader = h ∧ g = f)
          (fun _ => True) (sstMblockAuthenticate cfg c) :=
        (Always.call _ (fun _ _ h => h) trivial).bind fun _ => (Always.ofExcept _).bind fun _ =>
          (Always.ofExcept _).bind fun _ => Always.pure ()
      refine hone.attempt.bind fun res => ?_
      cases res with
      | ok _ => exact Always.pure c
      | error _ => exact ih _
  refine (hread _ _ _ _).bind fun b0 => (hread _ _ _ _).bind fun b1 => ?_
  split
  · exact Always.fail _
  · dsimp only
    split
    · exact (hauth _ _).bind fun _ => Always.modifyMem fun _ _ h => h
    · exact (Always.pure _).bind fun _ => Always.modifyMem fun _ _ h => h

/-- When a metadata block is chosen, the scratch metadata block is the other one. -/
theorem ensures_getActiveMetablock (cfg : Config) :
    Ensures device (fun _ (r : Ram) _ => ∃ c, r.ctx.scratchMetablock = sstOtherMetaBlock c)
      (sstInitGetActiveMetablock cfg) := by
  refine .bind fun _ => .bind fun _ => ?_
  split
  · exact .fail _
  · dsimp only
    split
    · exact .bind fun c => .modifyMem fun _ _ => ⟨c, rfl⟩
    · exact .bind fun c => .modifyMem fun _ _ => ⟨c, rfl⟩

/-! ### The write that is not reported

One call of a wipe may fail in a wipe that succeeds; everything is described by whether it did. -/

/-- The number of the call that writes the descriptor of logical block 0: it follows the reads
that look for the active metadata block, and two erases. -/
def wipeDescriptorCall (cfg : Config) (fails : Nat → Bool) (n : Nat) (r : Ram) (f : Flash) : Nat :=
  n + (exec device fails n (M.attempt (sstInitGetActiveMetablock cfg)) r f).log.length + 2

theorem exec_flashErase_of_ok {b : Nat}
    (h : (exec device fails n (sstFlashEraseBlock b) r f).val = .ok ()) :
    exec device fails n (sstFlashEraseBlock b) r f
      = ⟨.ok (), r, device.replay [Call.erase b] f, [(Call.erase b, true)]⟩ := by
  have hrun : Runs device (sstFlashEraseBlock b) r f (.ok ()) r [.erase b] :=
    (Runs.call (Call.erase b) SstErr.systemError).bind (Runs.pure ())
  exact exec_eq_of_no_failure hrun fun c hc => (strict_flashErase b).reports fails n r f () h trivial c hc

/-- The dropped write: it has its effect or it fails. -/
theorem exec_descriptor (cfg : Config) (fails : Nat → Bool) (n : Nat) (f : Flash) :
    exec device fails n (M.attempt (sstMblockUpdateScratchBlockMeta 0 ((emptyTables cfg).blk 0)))
        (r.wiping cfg) f
      = ⟨.ok (if fails n then .error .systemError else .ok ()), r.wiping cfg,
          device.replay (descriptorCalls cfg (fails n)) f,
          [(.write 1 (blkOff 0) ((emptyTables cfg).blk 0).encode, !fails n)]⟩ := by
  have hoff : sstMetaBlockMetaOffset 0 = blkOff 0 := rfl
  -- the result is thrown away, the effect is not
  by_cases hn : fails n
  · simp [exec_attempt, sstMblockUpdateScratchBlockMeta, sstMetaCurMetaScratch, sstFlashWrite,
      exec_bind, exec_call, Result.after, hn, descriptorCalls, hoff, Ram.wiping]
  · simp [exec_attempt, sstMblockUpdateScratchBlockMeta, sstMetaCurMetaScratch, sstFlashWrite,
      exec_bind, exec_call, Result.after, hn, descriptorCalls, hoff, Ram.wiping]

/-- Building the new metadata block. -/
theorem build_of_ok (hc : cfg.CryptoWorks)
    (hok : (exec device fails n (sstCoreWipeAll.build cfg) r f).val = .ok ()) :
    ∃ h' iv, HeaderNext cfg (r.ctx.metaBlockHeader.fresh cfg) h'
      ∧ (exec device fails n (sstCoreWipeAll.build cfg) r f).mem = Ram.wiped h' iv
      ∧ (exec device fails n (sstCoreWipeAll.build cfg) r f).dev = device.replay
          (descriptorCalls cfg (fails n) ++ (wipeTailCalls cfg ++ headerCalls cfg 1 h')) f := by
  have hexec : exec device fails n (sstCoreWipeAll.build cfg) r f
      = exec device fails n (M.attempt (sstMblockUpdateScratchBlockMeta 0
          ((emptyTables cfg).blk 0)) >>= fun _ => wipeTail cfg) (r.wiping cfg) f := by
    rw [emptyTables_blk_zero]
    rfl
  rw [hexec] at hok ⊢
  obtain ⟨_, -, heq⟩ := exec_bind_ok _ _ _ _ _ hok
  rw [heq] at hok ⊢
  rw [exec_descriptor] at hok ⊢
  obtain ⟨h', iv, hnext, -, hdoes⟩ := does_wipeTail hc r
    (device.replay (descriptorCalls cfg (fails n)) f)
  obtain ⟨-, hmem, hdev⟩ := exec_of_reportsAll reportsAll_wipeTail hdoes hok
  exact ⟨h', iv, hnext, hmem, by rw [Model.replay_append]; exact hdev⟩

/-- Erasing the metadata blocks, `x` first, and building the new one. -/
theorem eraseBuild_of_ok (hc : cfg.CryptoWorks) (x : Nat)
    (hok : (exec device fails n (do
      sstFlashEraseBlock x
      sstFlashEraseBlock (sstOtherMetaBlock x)
      sstCoreWipeAll.build cfg) r f).val = .ok ()) :
    ∃ h' iv, HeaderNext cfg (r.ctx.metaBlockHeader.fresh cfg) h'
      ∧ (exec device fails n (do
          sstFlashEraseBlock x
          sstFlashEraseBlock (sstOtherMetaBlock x)
          sstCoreWipeAll.build cfg) r f).mem = Ram.wiped h' iv
      ∧ (exec device fails n (do
          sstFlashEraseBlock x
          sstFlashEraseBlock (sstOtherMetaBlock x)
          sstCoreWipeAll.build cfg) r f).dev
        = device.replay (wipeCallsUnder cfg (fails (n + 2)) x h') f := by
  obtain ⟨_, hfirst, heq⟩ := exec_bind_ok _ _ _ _ _ hok
  rw [heq] at hok ⊢
  rw [exec_flashErase_of_ok hfirst] at hok ⊢
  obtain ⟨_, hsecond, heq⟩ := exec_bind_ok _ _ _ _ _ hok
  simp only [Result.after] at hok ⊢
  rw [heq] at hok ⊢
  rw [exec_flashErase_of_ok hsecond] at hok ⊢
  obtain ⟨h', iv, hnext, hmem, hdev⟩ := build_of_ok hc hok
  exact ⟨h', iv, hnext, hmem, hdev⟩

/-- What a wipe does that succeeds, whatever fails. -/
theorem wipe_of_ok (hc : cfg.CryptoWorks)
    (hok : (exec device fails n (sstCoreWipeAll cfg) r f).val = .ok ()) :
    ∃ x h' iv, (x = 0 ∨ x = 1) ∧ HeaderNext cfg (r.ctx.metaBlockHeader.fresh cfg) h'
      ∧ (exec device fails n (sstCoreWipeAll cfg) r f).mem = Ram.wiped h' iv
      ∧ (exec device fails n (sstCoreWipeAll cfg) r f).dev = device.replay
          (wipeCallsUnder cfg (fails (wipeDescriptorCall cfg fails n r f)) x h') f := by
  obtain ⟨hheader, hdev⟩ :=
    ((always_getActiveMetablock cfg r.ctx.metaBlockHeader f).attempt fails n r f ⟨rfl, rfl⟩).1
  have hfirst := ensures_getActiveMetablock cfg fails n r f ()
  obtain ⟨res, hres, heq⟩ := exec_bind_ok _ _ _ _ _ hok
  have hexec : exec device fails n (sstCoreWipeAll cfg) r f = _ := heq
  rw [hexec] at hok ⊢
  rw [hdev] at hok ⊢
  obtain ⟨h', iv, hnext, hmem, hcalls⟩ := eraseBuild_of_ok hc _ hok
  rw [hheader] at hnext
  refine ⟨_, h', iv, ?_, hnext, hmem, hcalls⟩
  -- no valid metadata block is no error for a wipe: it starts from block 0
  cases res with
  | error e => exact Or.inl rfl
  | ok u =>
    rw [exec_attempt] at hres ⊢
    obtain ⟨c, hscratch⟩ := hfirst (Except.ok.inj hres)
    show (exec device fails n (sstInitGetActiveMetablock cfg) r f).mem.ctx.scratchMetablock = 0 ∨ _
    rw [hscratch]
    exact otherMetaBlock_cases c

/-! ## A clean store

What is expected of a wiped store, and when it holds. -/

/-- All bytes of a block are erased. -/
def BlockErased (cfg : Config) (row : Row) : Prop := ∀ o < cfg.blockSize, row o = erasedByte

/-- The metadata block of an empty store before its header is written. -/
def emptyMetadata (cfg : Config) : Row := rowAfter 1 Flash.blank (wipeBuildCalls cfg) Row.erased

/-- A store with memory `r` and flash `f` from which everything was removed; `h` is the header
that was in memory before. -/
structure WipedClean (cfg : Config) (h : MetadataBlockHeader) (r : Ram) (f : Flash) : Prop where
  /-- The data scratch block and the dedicated data blocks are erased. -/
  erased : ∀ b, 2 ≤ b → b < cfg.totalNumOfBlocks → BlockErased cfg (f b)
  noObject : ∀ u, u ≠ 0 → (run (sstCoreObjectExist cfg u) r f).val = .error .assetNotFound
  /-- Every data block is described as entirely free. -/
  free : ∀ l < cfg.numActiveDblocks, ((activeTables cfg r f).blk l).dataStart
    + ((activeTables cfg r f).blk l).freeSize = cfg.blockSize
  /-- The next operation programs erased bytes only. -/
  fresh : ∀ op : Op, op.Pre cfg (activeTables cfg r f) →
    ErasedFirst {x | x.2 < cfg.blockSize ∧ f x.1 x.2 ≠ erasedByte}
      (effects (run (op.prog cfg) r f).log)
  /-- The metadata blocks hold nothing but the new tables and the header in memory. -/
  gone : f 0 = Row.erased ∧ f 1 = headerRow cfg r.ctx.metaBlockHeader (emptyMetadata cfg)
  header : HeaderNext cfg (h.fresh cfg) r.ctx.metaBlockHeader

/-- The blocks that the erase loop leaves out: the data scratch block and the last three. -/
def LeftOut (cfg : Config) (b : Nat) : Prop := b = 2 ∨ cfg.totalNumOfBlocks ≤ b + 3

theorem tablesOf_emptyMetadata : tablesOf cfg (emptyMetadata cfg) = emptyTables cfg :=
  tablesOf_rowAfter_wipeBuild _

/-- On a store without objects every operation but a create is refused, and programs nothing. -/
theorem erasedFirst_of_empty (hc : cfg.CryptoWorks) (hm : Mounted cfg r f)
    (hT : activeTables cfg r f = emptyTables cfg) (op : Op)
    (hpre : op.Pre cfg (activeTables cfg r f)) {P : Region} (hP : Unmarked cfg r P) :
    ErasedFirst P (effects (run (op.prog cfg) r f).log) := by
  rcases op.outcome hm hc hpre with ⟨-, href⟩ | ⟨T', d', cs, -, p⟩
  · have hacc : (activeTables cfg r f).Accepted cfg := by
      rw [hm.layout.accepted_iff, hT]
      exact fun _ i hi => absurd hi (emptyTables_not_live i)
    -- a refused operation only reads
    obtain ⟨e, hdoes⟩ := href hacc
    obtain ⟨log, hexec, hlog, -⟩ := hdoes.exec_eq 0
    rw [← erasedFirst_filter_modifies, run, hexec, hlog]
    exact erasedFirst_nil P
  · exact (hm.unmarked_of_ok hc op hpre (p.run_committed hm).1 hP).1

/-! ### When the store is clean -/

/-- A wipe that has written all tables leaves a clean store, if it leaves erased blocks. -/
theorem wipedClean_of_rows (hc : cfg.CryptoWorks) {h h' : MetadataBlockHeader}
    {iv : Vector UInt8 12} (hnext : HeaderNext cfg (h.fresh cfg) h') (h0 : f 0 = Row.erased)
    (h1 : f 1 = headerRow cfg h' (emptyMetadata cfg))
    (herased : ∀ b, 2 ≤ b → b < cfg.totalNumOfBlocks → BlockErased cfg (f b)) :
    WipedClean cfg h (Ram.wiped h' iv) f := by
  have hT : activeTables cfg (Ram.wiped h' iv) f = emptyTables cfg := by
    show tablesOf cfg (f 1) = _
    rw [h1, tablesOf_headerRow, tablesOf_emptyMetadata]
  have hidx : h'.scratchIdx = cfg.initScratchDblock := hnext.scratchIdx
  have hm : Mounted cfg (Ram.wiped h' iv) f := by
    refine ⟨Or.inr ⟨rfl, rfl⟩, ?_⟩
    rw [hT]
    show Layout cfg (emptyTables cfg) 1 h'.scratchIdx
    rw [hidx]
    exact emptyTables_layout 1
  refine { erased := herased, noObject := ?_, free := ?_, fresh := ?_, gone := ⟨h0, h1⟩,
           header := hnext }
  · intro u hu
    refine exist_of_find_none ?_
    rw [hT, Tables.find_eq_none]
    exact fun i _ => hu.symm
  · intro l hl
    rw [hT]
    rcases Nat.eq_zero_or_pos l with rfl | hpos
    · exact Nat.add_sub_cancel' cfg.metadata_fits
    · rw [emptyTables_blk_pos hpos hl]
      exact Nat.zero_add _
  · intro op hpre
    -- the two scratch blocks are erased: block 0 by the wipe, block 2 by assumption
    refine erasedFirst_of_empty hc hm hT op hpre fun x ⟨hlt, hx⟩ => ⟨fun hs => hx ?_, fun hN hd => hx ?_⟩
    · rw [hs]
      show f 0 x.2 = erasedByte
      rw [h0]
      rfl
    · have h2 : x.1 = 2 := by
        rw [hd]
        show h'.scratchIdx = 2
        rw [hidx, BuildOptions.initScratchDblock, if_neg (by omega)]
      rw [h2]
      exact herased 2 (by decide) hN _ hlt

/-- Without its descriptor, logical block 0 is described by erased bytes. -/
theorem blk_zero_of_failed (h : MetadataBlockHeader) (f : Flash) :
    (tablesOf cfg (headerRow cfg h
      (rowAfter 1 f (descriptorCalls cfg true ++ wipeTailCalls cfg) Row.erased))).blk 0
      = ⟨0xFFFFFFFF, 0xFFFFFFFF, 0xFFFFFFFF⟩ := by
  rw [tablesOf_headerRow]
  show (tablesOf cfg (rowAfter 1 f (wipeTailCalls cfg) Row.erased)).blk 0 = _
  rw [tablesOf_rowAfter_wipeTail, Tables.setBlk_blk, if_pos rfl, tablesOf_blk cfg.numActiveDblocks_pos]
  rfl

/-- **A wipe that reports success** leaves a clean store exactly when the blocks that its erase
loop leaves out were erased before, and the write whose result it drops did not fail. -/
theorem wipedClean_iff (hc : cfg.CryptoWorks)
    (hok : (exec device fails n (sstCoreWipeAll cfg) r f).val = .ok ()) :
    WipedClean cfg r.ctx.metaBlockHeader (exec device fails n (sstCoreWipeAll cfg) r f).mem
        (exec device fails n (sstCoreWipeAll cfg) r f).dev
      ↔ (∀ b, 2 ≤ b → b < cfg.totalNumOfBlocks → LeftOut cfg b → BlockErased cfg (f b))
        ∧ fails (wipeDescriptorCall cfg fails n r f) = false := by
  obtain ⟨x, h', iv, hx, hnext, hmem, hdev⟩ := wipe_of_ok hc hok
  rw [hmem, hdev]
  have hrow (b : Nat) (hb : 2 ≤ b) :
      device.replay (wipeCallsUnder cfg (fails (wipeDescriptorCall cfg fails n r f)) x h') f b
        = if b ∈ wipedBlocks cfg then Row.erased else f b := by
    rw [replay_wipeCallsUnder hx, if_neg (by omega), if_neg (by omega)]
  constructor
  · intro hclean
    constructor
    · intro b hb hbN hout
      have herased := hclean.erased b hb hbN
      rwa [hrow b hb, if_neg] at herased
      rw [mem_wipedBlocks]
      rintro ⟨h3, hlt⟩
      rcases hout with h | h <;> omega
    · -- a descriptor of erased bytes describes no free block
      rw [← Bool.not_eq_true]
      intro hfail
      have hB := cfg.blockSize_le
      have hfree := hclean.free 0 cfg.numActiveDblocks_pos
      rw [hfail] at hfree
      have hzero : (activeTables cfg (Ram.wiped h' iv)
          (device.replay (wipeCallsUnder cfg true x h') f)).blk 0
            = ⟨0xFFFFFFFF, 0xFFFFFFFF, 0xFFFFFFFF⟩ := by
        show (tablesOf cfg (device.replay (wipeCallsUnder cfg true x h') f 1)).blk 0 = _
        rw [replay_wipeCallsUnder hx, if_neg (by decide), if_pos rfl, blk_zero_of_failed]
      rw [hzero] at hfree
      dsimp only at hfree
      omega
  · -- conversely each block was erased by the loop or before it
    rintro ⟨hblocks, hfail⟩
    rw [hfail] at hrow ⊢
    refine wipedClean_of_rows hc hnext ?_ ?_ fun b hb hbN => ?_
    · rw [replay_wipeCallsUnder hx, if_pos rfl]
    · rw [replay_wipeCallsUnder hx, if_neg (by decide), if_pos rfl]
      exact congrArg (headerRow cfg h')
        (rowAfter_congr_of_sourcesIn sourcesIn_wipeBuildCalls 1 f _ _)
    · rw [hrow b hb]
      split
      · exact fun _ _ => rfl
      · rename_i hnot
        rw [mem_wipedBlocks] at hnot
        exact hblocks b hb hbN (by unfold LeftOut; omega)

/-! ### A store of seven blocks

Small enough to be evaluated, and large enough for the loop to erase a block. -/

/-- A build with seven blocks and one object: the erase loop gets to block 3. -/
def sevenBlockConfig : Config where
  totalNumOfBlocks := 7
  blockSize := 117
  numAssets := 1
  maxAssetSize := 1
  flashProgramUnit := 1
  encryption := false
  validateMetadataFromFlash := true
  enablePartialAssetRw := true
  crypto := smallConfig.crypto
  blocks_ok := by decide
  unit_ok := smallConfig.unit_ok
  largest_asset_fits := by decide
  asset_fits_in_data_area := by decide
  metadata_fits := by decide
  area_addressable := by decide

/-- A store with an object in block 3: the second write has moved it back from block 2. -/
def usedStore : Result Call SstErr Ram Flash Unit :=
  [Op.create 1 2, .write 1 [6, 7] 0 2, .write 1 [8, 9] 0 2].foldl (thenRun sevenBlockConfig)
    (emptyStore sevenBlockConfig)

set_option maxRecDepth 100000 in
/-- The blocks that the loop leaves out are erased, so a wipe of the store is clean. -/
theorem wipedClean_of_usedStore :
    usedStore.dev 3 0 = 8
    ∧ WipedClean sevenBlockConfig usedStore.mem.ctx.metaBlockHeader
        (run (sstCoreWipeAll sevenBlockConfig) usedStore.mem usedStore.dev).mem
        (run (sstCoreWipeAll sevenBlockConfig) usedStore.mem usedStore.dev).dev := by
  have hok : (exec device noFaults 0 (sstCoreWipeAll sevenBlockConfig) usedStore.mem
      usedStore.dev).val = .ok () :=
    (settled_of_wipe (fun h => by cases h) usedStore.mem Ram.zero usedStore.dev).1
  have herased : ∀ b < sevenBlockConfig.totalNumOfBlocks, 2 ≤ b → b ≠ 3 →
      ∀ o < sevenBlockConfig.blockSize, usedStore.dev b o = erasedByte := by decide +kernel
  refine ⟨by decide +kernel, (wipedClean_iff (fun h => by cases h) hok).mpr
    ⟨fun b hb hbN hout => herased b hbN hb ?_, rfl⟩⟩
  rintro rfl
  exact absurd hout (by unfold LeftOut; decide)

set_option maxRecDepth 100000 in
/-- With four blocks the erase loop is empty: what the data blocks held before a wipe that
reports success is still there. -/
theorem wipe_keeps_data :
    (run (sstCoreWipeAll smallConfig) Ram.zero fun _ _ => 0).val = .ok ()
    ∧ (run (sstCoreWipeAll smallConfig) Ram.zero fun _ _ => 0).dev 2 0 = 0
    ∧ (run (sstCoreWipeAll smallConfig) Ram.zero fun _ _ => 0).dev 3 0 = 0
    ∧ ¬ WipedClean smallConfig Ram.zero.ctx.metaBlockHeader
        (run (sstCoreWipeAll smallConfig) Ram.zero fun _ _ => 0).mem
        (run (sstCoreWipeAll smallConfig) Ram.zero fun _ _ => 0).dev := by
  have h2 : (run (sstCoreWipeAll smallConfig) Ram.zero fun _ _ => 0).dev 2 0 = 0 := by
    decide +kernel
  refine ⟨by decide +kernel, h2, by decide +kernel, fun hclean => ?_⟩
  have herased := hclean.erased 2 (by decide) (by decide) 0 (by decide)
  rw [h2] at herased
  exact absurd herased (by decide)

end Tfm.Sst
