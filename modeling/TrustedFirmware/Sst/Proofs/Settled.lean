import TrustedFirmware.Sst.Proofs.Wipe

/-!
# Settled stores

Between two operations the store is settled: mounted, with erased scratch blocks, and with the
header in memory the one in flash. A wipe followed by a prepare settles the store
(`settled_of_wipe`), every operation that succeeds leaves it settled (`Op.settled_of_ok`), and so
does loading a consistent metadata block (`settled_of_loaded`).

That the header in memory is the one in flash is what makes a restart harmless: the store that is
loaded is the one that was running.
-/

namespace Tfm.Sst

open Word32 BlockFlash Device

variable {cfg : Config} {r : Ram} {f : Flash}

/-- The state of the store between two operations. -/
structure Settled (cfg : Config) (r : Ram) (f : Flash) : Prop extends
    Mounted cfg r f, ScratchErased cfg r f where
  synced : r.ctx.metaBlockHeader = headerOf (f r.ctx.activeMetablock)
  valid : r.ctx.metaBlockHeader.IsValid
  /-- The plain build never programs the padding of the header. -/
  padding : cfg.encryption = false →
    r.ctx.metaBlockHeader.padding = Vector.ofFn fun _ => erasedByte

/-! ## Operations

The header is decoded from what the operation has programmed. In the plain build its padding is
never programmed, so it must have been erased before. -/

/-- The counter skips the value of erased flash. -/
theorem nextSwapCount_ne (c : UInt8) : nextSwapCount c ≠ sstFlashDefaultVal := by
  unfold nextSwapCount sstMetaValidateSwapCount
  by_cases h : c + 1 = sstFlashDefaultVal
  · rw [if_pos h]
    show (0 : UInt8) ≠ sstFlashDefaultVal
    decide
  · rw [if_neg h]
    exact h

/-- The assembly leaves the header of the scratch metadata block alone. -/
theorem Assembles.untouched {s d o : Nat} {cs : List Call} (h : Assembles cfg s d cs)
    (hsd : 2 < cfg.totalNumOfBlocks → d ≠ s) (ho : o < sizeofMetadataBlockHeader) :
    Untouched s o cs := by
  intro c hc
  obtain ⟨⟨b, off, n, hp, hb⟩, -⟩ := h c hc
  constructor
  · rintro rfl
    cases hp
  intro off' n' hp'
  rw [hp, Option.some.injEq, Prod.mk.injEq, Prod.mk.injEq] at hp'
  obtain ⟨rfl, rfl, rfl⟩ := hp'
  rcases hb with ⟨-, hoff⟩ | ⟨rfl, hN⟩
  · exact Or.inl (by omega)
  · exact absurd rfl (hsd hN)

/-- A commit settles the store. -/
theorem Committed.settled {m : SstM Unit} {T' : Tables} {d' : Nat} {cs : List Call}
    {h' : MetadataBlockHeader} {r' : Ram} {f' : Flash}
    (hcom : Committed cfg r f d' cs h' r' f') (p : Plan cfg m r f T' d' cs)
    (hst : Settled cfg r f) : Settled cfg r' f' := by
  have hN32 := cfg.totalNumOfBlocks_lt
  have hidx : h'.scratchIdx < 2 ^ 32 := by
    rw [hcom.next.scratchIdx]
    have := p.layout.blocks.scratch_lt
    show d' < 2 ^ 32
    omega
  -- the scratch metadata block was erased, and the assembly stays behind the header
  have hpad (o : Nat) (ho : o < sizeofMetadataBlockHeader) :
      rowAfter r.ctx.scratchMetablock f cs (f r.ctx.scratchMetablock) o = erasedByte := by
    rw [rowAfter_untouched (p.assembles.untouched
      (fun hN => (hst.scratchIdx_ne hN).2) ho), hst.metaScratch]
    rfl
  have hpadding (hp : cfg.encryption = false) :
      h'.padding = Vector.ofFn fun _ => erasedByte := by
    rw [hcom.next.plain hp]
    exact hst.padding hp
  refine
    { toMounted := hcom.mounted p hst.toMounted
      toScratchErased := hcom.scratchErased
      synced := ?_, valid := ?_
      padding := fun hp => hcom.header ▸ hpadding hp }
  · rw [hcom.header, hcom.active, hcom.newRow]
    cases hc : cfg.encryption with
    | true => rw [headerOf_headerRow_encrypted _ hc hidx]
    | false =>
      rw [headerOf_headerRow_plain _ hc hidx]
      -- both the flash and the memory have erased padding
      have hflash : (Vector.ofFn fun i : Fin 2 =>
          rowAfter r.ctx.scratchMetablock f cs (f r.ctx.scratchMetablock) (34 + i))
            = h'.padding := by
        rw [hpadding hc]
        congr 1
        funext i
        exact hpad _ (by rw [sizeofMetadataBlockHeader]; omega)
      rw [hflash]
  · rw [hcom.header]
    refine ⟨hcom.next.fsVersion.trans hst.valid.1, ?_⟩
    rw [hcom.next.count]
    exact nextSwapCount_ne _

/-- An operation that succeeds leaves a settled store settled. -/
theorem Op.settled_of_ok (hst : Settled cfg r f) (hc : cfg.CryptoWorks) (op : Op)
    (hpre : op.Pre cfg (activeTables cfg r f)) (hok : (run (op.prog cfg) r f).val = .ok ()) :
    Settled cfg (run (op.prog cfg) r f).mem (run (op.prog cfg) r f).dev := by
  obtain ⟨T', d', cs, -, p⟩ := op.plan_of_ok hst.toMounted hc hpre hok
  obtain ⟨-, h', hcom⟩ := p.run_committed hst.toMounted
  exact hcom.settled p hst

/-! ## Prepare

A prepare erases the blocks that its header calls scratch; the block it has loaded is none of them. -/

theorem replay_prepareCalls (f : Flash) (b c : Nat) :
    device.replay (prepareCalls cfg f b) f c
      = if c = sstOtherMetaBlock b
          ∨ c = (headerOf (f b)).scratchIdx ∧ 2 < cfg.totalNumOfBlocks then Row.erased
        else f c := replay_eraseCalls f c

theorem otherMetaBlock_ne {b : Nat} (hb : b = 0 ∨ b = 1) : b ≠ sstOtherMetaBlock b := by
  rcases hb with rfl | rfl <;> decide

/-- A prepare leaves the block it loads alone. -/
theorem replay_prepareCalls_self {b : Nat} (hb : b = 0 ∨ b = 1)
    (hL : Layout cfg (tablesOf cfg (f b)) b (headerOf (f b)).scratchIdx) :
    device.replay (prepareCalls cfg f b) f b = f b := by
  rw [replay_prepareCalls, if_neg]
  rintro (h | ⟨h, hN⟩)
  · exact otherMetaBlock_ne hb h
  · have := hL.blocks.scratch_ge hN
    omega

/-- Loading a consistent metadata block mounts the store, with erased scratch blocks. -/
theorem mounted_of_loaded {b : Nat} {iv : Vector UInt8 12} (hb : b = 0 ∨ b = 1)
    (hL : Layout cfg (tablesOf cfg (f b)) b (headerOf (f b)).scratchIdx) :
    Mounted cfg (Ram.loaded f b iv) (device.replay (prepareCalls cfg f b) f)
      ∧ ScratchErased cfg (Ram.loaded f b iv) (device.replay (prepareCalls cfg f b) f) := by
  refine ⟨⟨?_, ?_⟩, ⟨?_, fun hN => ?_⟩⟩
  · rcases hb with rfl | rfl
    · exact Or.inl ⟨rfl, rfl⟩
    · exact Or.inr ⟨rfl, rfl⟩
  · show Layout cfg (tablesOf cfg (device.replay (prepareCalls cfg f b) f b)) b _
    rw [replay_prepareCalls_self hb hL]
    exact hL
  · exact (replay_prepareCalls f b _).trans (if_pos (Or.inl rfl))
  · exact (replay_prepareCalls f b _).trans (if_pos (Or.inr ⟨rfl, hN⟩))

/-- Loading a consistent metadata block settles the store. -/
theorem settled_of_loaded {b : Nat} {iv : Vector UInt8 12} (hb : b = 0 ∨ b = 1)
    (hv : (headerOf (f b)).IsValid)
    (hL : Layout cfg (tablesOf cfg (f b)) b (headerOf (f b)).scratchIdx)
    (hp : cfg.encryption = false →
      (headerOf (f b)).padding = Vector.ofFn fun _ => erasedByte) :
    Settled cfg (Ram.loaded f b iv) (device.replay (prepareCalls cfg f b) f) := by
  obtain ⟨hm, he⟩ : Mounted cfg (Ram.loaded f b iv) _ ∧ ScratchErased cfg (Ram.loaded f b iv) _ :=
    mounted_of_loaded hb hL
  refine { toMounted := hm, toScratchErased := he, synced := ?_, valid := hv, padding := hp }
  show headerOf (f b) = headerOf (device.replay (prepareCalls cfg f b) f b)
  rw [replay_prepareCalls_self hb hL]

/-- The table calls of a wipe lie behind the header. -/
theorem untouched_wipeBuildCalls {o : Nat} (ho : o < sizeofMetadataBlockHeader) :
    Untouched 1 o (wipeBuildCalls cfg) := by
  rw [sizeofMetadataBlockHeader] at ho
  intro c hc'
  simp only [wipeBuildCalls, List.mem_append, List.mem_singleton, List.mem_map, blockWrites,
    objectWrites] at hc'
  -- the descriptor of block 0, the erasures, the other descriptors, the entries
  rcases hc' with rfl | ⟨b, hb, rfl⟩ | ⟨l, -, rfl⟩ | ⟨i, -, rfl⟩
  · refine ⟨by simp, fun off n hp => Or.inl ?_⟩
    simp only [Call.programs, Option.some.injEq, Prod.mk.injEq, blkOff] at hp
    omega
  · refine ⟨fun he => ?_, fun off n hp => by cases hp⟩
    rw [mem_wipedBlocks] at hb
    cases he
    omega
  · refine ⟨by simp, fun off n hp => Or.inl ?_⟩
    simp only [Call.programs, Option.some.injEq, Prod.mk.injEq, blkOff] at hp
    omega
  · refine ⟨by simp, fun off n hp => Or.inl ?_⟩
    simp only [Call.programs, Option.some.injEq, Prod.mk.injEq, objOff] at hp
    omega

/-- The flash after a wipe is one that only block 1 can be loaded from, as an empty store. -/
theorem wipe_loads {x : Nat} {h0 h' : MetadataBlockHeader} (hx : x = 0 ∨ x = 1)
    (hnext : HeaderNext cfg (MetadataBlockHeader.fresh cfg h0) h') (f : Flash) :
    ¬ (headerOf (device.replay (wipeCalls cfg x h') f 0)).IsValid
      ∧ (headerOf (device.replay (wipeCalls cfg x h') f 1)).IsValid
      ∧ (headerOf (device.replay (wipeCalls cfg x h') f 1)).scratchIdx = cfg.initScratchDblock
      ∧ tablesOf cfg (device.replay (wipeCalls cfg x h') f 1) = emptyTables cfg
      ∧ (cfg.encryption = false → (headerOf (device.replay (wipeCalls cfg x h') f 1)).padding
          = Vector.ofFn fun _ => erasedByte) := by
  have hidx : h'.scratchIdx = cfg.initScratchDblock := hnext.scratchIdx
  have hlt : h'.scratchIdx < 2 ^ 32 := by
    rw [hidx]
    unfold BuildOptions.initScratchDblock
    split <;> omega
  have hval : h'.IsValid := by
    refine ⟨hnext.fsVersion, ?_⟩
    rw [hnext.count]
    exact nextSwapCount_ne _
  have h0 : device.replay (wipeCalls cfg x h') f 0 = Row.erased := by
    rw [replay_wipeCalls hx, if_pos rfl]
  have h1 : device.replay (wipeCalls cfg x h') f 1
      = headerRow cfg h' (rowAfter 1 f (wipeBuildCalls cfg) Row.erased) := by
    rw [replay_wipeCalls hx, if_neg (by decide), if_pos rfl]
  rw [h0, h1]
  -- the header of an erased block has the erased version number
  refine ⟨by decide, ?_⟩
  rw [tablesOf_headerRow, tablesOf_rowAfter_wipeBuild]
  cases hc : cfg.encryption with
  | true =>
    rw [headerOf_headerRow_encrypted _ hc hlt]
    exact ⟨hval, hidx, rfl, fun h => by cases h⟩
  | false =>
    rw [headerOf_headerRow_plain _ hc hlt]
    refine ⟨hval, hidx, rfl, fun _ => ?_⟩
    show Vector.ofFn _ = _
    congr 1
    funext i
    rw [rowAfter_untouched (untouched_wipeBuildCalls (by rw [sizeofMetadataBlockHeader]; omega))]
    rfl

/-- A wipe succeeds, and the prepare that follows, if it succeeds, mounts an empty store. -/
theorem settled_of_wipe (hc : cfg.CryptoWorks) (r r1 : Ram) (f : Flash) :
    (run (sstCoreWipeAll cfg) r f).val = .ok () ∧
    ((run (sstCorePrepare cfg) r1 (run (sstCoreWipeAll cfg) r f).dev).val = .ok () →
      Settled cfg (run (sstCorePrepare cfg) r1 (run (sstCoreWipeAll cfg) r f).dev).mem
          (run (sstCorePrepare cfg) r1 (run (sstCoreWipeAll cfg) r f).dev).dev
        ∧ activeTables cfg (run (sstCorePrepare cfg) r1 (run (sstCoreWipeAll cfg) r f).dev).mem
            (run (sstCorePrepare cfg) r1 (run (sstCoreWipeAll cfg) r f).dev).dev
          = emptyTables cfg) := by
  obtain ⟨x, h0, h', iv, hx, hnext, -, hwipe⟩ := does_wipe hc r f
  obtain ⟨hv0, hv1, hidx, htab, hpad⟩ := wipe_loads hx hnext f
  simp only [run, hwipe.val_eq, hwipe.dev_eq, true_and]
  generalize device.replay (wipeCalls cfg x h') f = g at hv0 hv1 hidx htab hpad ⊢
  -- in the encrypted build authentication may fail; otherwise only block 1 can be loaded
  rcases prepare_outcome cfg r1 g with ⟨e, hprep⟩ | ⟨b, iv, hb, hval, hprep⟩
  · rw [hprep.val_eq]
    exact fun h => by cases h
  · have hb1 : b = 1 := hb.resolve_left fun h => hv0 (h ▸ hval)
    subst hb1
    intro _
    rw [hprep.mem_eq, hprep.dev_eq]
    have hL : Layout cfg (tablesOf cfg (g 1)) 1 (headerOf (g 1)).scratchIdx := by
      rw [htab, hidx]
      exact emptyTables_layout 1
    have hst : Settled cfg (Ram.loaded g 1 iv) _ := settled_of_loaded hb hval hL hpad
    refine ⟨hst, ?_⟩
    show tablesOf cfg (device.replay (prepareCalls cfg g 1) g 1) = _
    rw [replay_prepareCalls_self hb hL, htab]

end Tfm.Sst
