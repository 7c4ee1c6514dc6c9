import TrustedFirmware.Sst.Properties.LayoutInvariant

/-!
# Power failure

In the plain build every operation is atomic: power may be lost at any byte of any of its flash
calls, and again during the prepares that follow, and the prepare that completes ends up in the
state before the operation or in the state after it (**`atomic_of_powerCut`**).

Until the swap count, the last byte of the header, is programmed, the new metadata block is not
valid and a prepare erases it. From then on both blocks are valid and the new one is the latest,
also when the count rolls over from 254 to 0, until the old one is erased.

`Recovers` is what links a cut to a state: the flash differs from that of the state in the scratch
blocks only, and the scratch metadata block does not pass for the active one. A prepare turns such
flash into the state (`Recovers.run_prepare`), and a prepare that is cut itself keeps the link.
-/

namespace Tfm.Sst

open Word32 BlockFlash Device

variable {cfg : Config} {r r' : Ram} {f f' g g' : Flash}

/-! ## The choice of the metadata block

Two valid headers differ by one swap. `sst_meta_latest_meta_block` picks the later one, by the rules
for a count that skips 255, the erased byte. -/

/-- The swap count goes up by one, and from 254 to 0. -/
theorem nextSwapCount_cases {c : UInt8} (hc : c ≠ sstFlashDefaultVal) :
    c = 254 ∧ nextSwapCount c = 0 ∨ (nextSwapCount c).toNat = c.toNat + 1 := by
  have h1 : (1 : UInt8).toNat = 1 := rfl
  have hlt := c.toNat_lt
  have h255 : c.toNat ≠ 255 := fun h => hc (UInt8.toNat.inj h)
  unfold nextSwapCount sstMetaValidateSwapCount
  -- the next count would be the erased byte, and is set to 0
  by_cases h : c + 1 = sstFlashDefaultVal
  · rw [if_pos h]
    have hsum : (c + 1).toNat = 255 := congrArg UInt8.toNat h
    rw [UInt8.toNat_add] at hsum
    have h254 : c.toNat = 254 := by omega
    exact Or.inl ⟨UInt8.toNat.inj h254, rfl⟩
  · rw [if_neg h]
    right
    show (c + 1).toNat = c.toNat + 1
    rw [UInt8.toNat_add]
    omega

/-- Block 1 is the latest when it follows block 0. -/
theorem latest_one {h0 h1 : MetadataBlockHeader} (hv : h0.activeSwapCount ≠ sstFlashDefaultVal)
    (hn : h1.activeSwapCount = nextSwapCount h0.activeSwapCount) :
    sstMetaLatestMetaBlock h0 h1 = 1 := by
  unfold sstMetaLatestMetaBlock
  -- the roll-over is the first test of the source, the comparison the last
  rcases nextSwapCount_cases hv with ⟨h254, hz⟩ | hnext
  · rw [hn, hz, h254]
    rfl
  · rw [← hn] at hnext
    have hpos : h1.activeSwapCount ≠ 0 := fun h => by
      rw [h] at hnext
      cases hnext
    rw [if_neg fun h => hpos h.1, if_neg, if_pos]
    · rfl
    · exact UInt8.lt_iff_toNat_lt.mpr (by omega)
    · rintro ⟨h, h'⟩
      rw [h] at hnext
      exact h' (UInt8.toNat.inj hnext)

/-- Block 0 is the latest when it follows block 1. -/
theorem latest_zero {h0 h1 : MetadataBlockHeader} (hv : h1.activeSwapCount ≠ sstFlashDefaultVal)
    (hn : h0.activeSwapCount = nextSwapCount h1.activeSwapCount) :
    sstMetaLatestMetaBlock h0 h1 = 0 := by
  unfold sstMetaLatestMetaBlock
  rcases nextSwapCount_cases hv with ⟨h254, hz⟩ | hnext
  · rw [hn, hz, h254]
    rfl
  · rw [← hn] at hnext
    have hpos : h0.activeSwapCount ≠ 0 := fun h => by
      rw [h] at hnext
      cases hnext
    rw [if_neg, if_neg fun h => hpos h.1, if_neg]
    · rfl
    · intro h
      have := UInt8.lt_iff_toNat_lt.mp h
      omega
    · rintro ⟨h, h'⟩
      rw [h] at hnext
      exact h' (UInt8.toNat.inj hnext)

/-- The valid block `a` is chosen, if the other one is not valid or precedes it. -/
theorem candidate_of_precedes {a s : Nat} (hm : (a = 0 ∧ s = 1) ∨ (a = 1 ∧ s = 0))
    (ha : (headerOf (g a)).IsValid)
    (hs : (headerOf (g s)).IsValid →
      (headerOf (g a)).activeSwapCount = nextSwapCount (headerOf (g s)).activeSwapCount) :
    ∃ n, sstMetaCandidate (headerOf (g 0)) (headerOf (g 1)) = some (a, n) := by
  by_cases hv : (headerOf (g s)).IsValid
  · rcases hm with ⟨rfl, rfl⟩ | ⟨rfl, rfl⟩
    · exact ⟨2, by rw [candidate_both ha hv, latest_zero hv.2 (hs hv)]⟩
    · exact ⟨2, by rw [candidate_both hv ha, latest_one hv.2 (hs hv)]⟩
  · rcases hm with ⟨rfl, rfl⟩ | ⟨rfl, rfl⟩
    · exact ⟨1, candidate_zero ha hv⟩
    · exact ⟨1, candidate_one hv ha⟩

/-- The swap count is the byte at its offset. -/
theorem headerOf_activeSwapCount (row : Row) :
    (headerOf row).activeSwapCount = row swapCountOffset :=
  (Row.getD_get row 0 sizeofMetadataBlockHeader (by decide) 0).trans
    (congrArg row (Nat.zero_add 33))

/-- A header without swap count is not valid. -/
theorem not_isValid_of_erased {row : Row} (h : row swapCountOffset = erasedByte) :
    ¬ (headerOf row).IsValid := fun hv => hv.2 ((headerOf_activeSwapCount row).trans h)

/-! ## Recovery

What a prepare restores, and that it may be interrupted any number of times. -/

/-- The flash `g` differs from the flash `f` of a settled store in the scratch blocks only,
and the scratch metadata block does not pass for the active one. -/
structure Recovers (cfg : Config) (r : Ram) (f g : Flash) : Prop where
  settled : Settled cfg r f
  rest : ∀ b, b ≠ r.ctx.scratchMetablock →
    (2 < cfg.totalNumOfBlocks → b ≠ r.ctx.metaBlockHeader.scratchIdx) → g b = f b
  precedes : (headerOf (g r.ctx.scratchMetablock)).IsValid →
    r.ctx.metaBlockHeader.activeSwapCount
      = nextSwapCount (headerOf (g r.ctx.scratchMetablock)).activeSwapCount

/-- The calls of a prepare that recovers the store. -/
def recoveryCalls (cfg : Config) (r : Ram) : List Call :=
  eraseCalls cfg r.ctx.scratchMetablock r.ctx.metaBlockHeader.scratchIdx

theorem Settled.recovers (h : Settled cfg r f) : Recovers cfg r f f where
  settled := h
  rest _ _ _ := rfl
  precedes hv := by
    rw [h.metaScratch] at hv
    exact absurd hv (by decide)

/-- Being settled depends on the context, not on the initialisation vector. -/
theorem Settled.of_ctx (h : Settled cfg r f) (hctx : r'.ctx = r.ctx) : Settled cfg r' f := by
  obtain ⟨ctx, iv⟩ := r
  obtain ⟨ctx', iv'⟩ := r'
  cases hctx
  exact { metablocks := h.metablocks, layout := h.layout, metaScratch := h.metaScratch,
          dataScratch := h.dataScratch, synced := h.synced, valid := h.valid,
          padding := h.padding }

namespace Recovers

/-- The active metadata block is no scratch block. -/
theorem active_eq (h : Recovers cfg r f g) : g r.ctx.activeMetablock = f r.ctx.activeMetablock :=
  h.rest _ h.settled.active_ne_scratch fun hN => (h.settled.scratchIdx_ne hN).1.symm

/-- A prepare recovers the context, whatever the memory holds. -/
theorem does_prepare (hp : cfg.encryption = false) (h : Recovers cfg r f g) (r0 : Ram) :
    Does (sstCorePrepare cfg) r0 g (.ok ()) { r with cryptoIvBuf := r0.cryptoIvBuf }
      (recoveryCalls cfg r) := by
  have hsync : headerOf (g r.ctx.activeMetablock) = r.ctx.metaBlockHeader := by
    rw [h.active_eq, ← h.settled.synced]
  have hvalid := h.settled.valid
  have hprec := h.precedes
  rw [← hsync] at hvalid hprec
  -- the header in flash is the one in memory, and it wins
  obtain ⟨n, hcand⟩ := candidate_of_precedes h.settled.metablocks hvalid hprec
  have hother : sstOtherMetaBlock r.ctx.activeMetablock = r.ctx.scratchMetablock := by
    rcases h.settled.metablocks with ⟨ha, hs⟩ | ⟨ha, hs⟩ <;> rw [ha, hs] <;> rfl
  have hload := does_prepare_plain (r := r0) hp hcand
  rw [prepareCalls, Ram.loaded, hsync, hother] at hload
  exact hload

/-- A prepare recovers the flash. -/
theorem replay_eq (h : Recovers cfg r f g) : device.replay (recoveryCalls cfg r) g = f := by
  funext b
  rw [recoveryCalls, replay_eraseCalls]
  -- the scratch blocks are erased in the settled store, and the rest is equal
  split
  · rename_i hb
    rcases hb with rfl | ⟨rfl, hN⟩
    · exact h.settled.metaScratch.symm
    · exact (h.settled.dataScratch hN).symm
  · rename_i hb
    exact h.rest b (fun he => hb (Or.inl he)) fun hN he => hb (Or.inr ⟨he, hN⟩)

/-- The prepare itself may be cut. -/
theorem of_cut (h : Recovers cfg r f g) (hcut : PowerCut (recoveryCalls cfg r) g g') :
    Recovers cfg r f g' where
  settled := h.settled
  rest b hs hd := by
    rw [hcut.of_target_ne fun c hc ht => ?_]
    · exact h.rest b hs hd
    · rcases mem_eraseCalls.mp hc with rfl | ⟨rfl, hN⟩
      · exact hs (Option.some.inj ht).symm
      · exact hd hN (Option.some.inj ht).symm
  precedes hv := by
    have herase : ∀ c ∈ recoveryCalls cfg r, c.programs = none := by
      intro c hc
      rcases mem_eraseCalls.mp hc with rfl | ⟨rfl, -⟩ <;> rfl
    -- an erase is atomic: the scratch metadata block is as before, or erased
    rcases hcut.of_erases herase r.ctx.scratchMetablock with hg | hg
    · rw [hg] at hv ⊢
      exact h.precedes hv
    · rw [hg] at hv
      exact absurd hv (by decide)

end Recovers

/-! ## Cuts of an operation

The commit point is the write of the swap count, of a single byte. -/

/-- A cut of the header calls leaves the swap count unprogrammed, or comes too late. -/
theorem cut_headerCalls (hp : cfg.encryption = false) {s : Nat} {h : MetadataBlockHeader}
    (hcut : PowerCut (headerCalls cfg s h) f g) :
    g s swapCountOffset = f s swapCountOffset ∨ g = device.replay (headerCalls cfg s h) f := by
  have hcalls : headerCalls cfg s h = [.write s 0 (h.encode.take swapCountOffset)]
      ++ [.write s swapCountOffset [h.activeSwapCount]] := by
    rw [headerCalls, hp]
    rfl
  rw [hcalls] at hcut ⊢
  rcases hcut.append with hcut | hcut
  · exact Or.inl (hcut.of_untouched (.write fun _ => Or.inr (by simp [swapCountOffset])))
  · -- a write of one byte happens or does not
    rcases hcut.of_byte with rfl | rfl
    · left
      show Function.update f s _ s swapCountOffset = _
      rw [Function.update_self]
      exact Row.put_of_ge (by simp [swapCountOffset])
    · exact Or.inr rfl

section Cut

variable {d' : Nat} {cs : List Call} {h' : MetadataBlockHeader}

/-- Until the swap count is programmed the state before the operation recovers. -/
theorem Settled.recovers_of_cut (hp : cfg.encryption = false) (hst : Settled cfg r f)
    (hasm : Assembles cfg r.ctx.scratchMetablock r.ctx.metaBlockHeader.scratchIdx cs)
    (hcut : PowerCut (cs ++ headerCalls cfg r.ctx.scratchMetablock h') f g) :
    Recovers cfg r f g
      ∨ g = device.replay (cs ++ headerCalls cfg r.ctx.scratchMetablock h') f := by
  have hrest (b : Nat) (hs : b ≠ r.ctx.scratchMetablock)
      (hd : 2 < cfg.totalNumOfBlocks → b ≠ r.ctx.metaBlockHeader.scratchIdx) : g b = f b := by
    refine hcut.of_target_ne fun c hc ht => ?_
    rcases List.mem_append.mp hc with hc | hc
    · rcases hasm.target hc ht with h | ⟨h, hN⟩
      · exact hs h
      · exact hd hN h
    · rw [target_headerCalls hc] at ht
      exact hs (Option.some.inj ht).symm
  have hbefore (hcount : g r.ctx.scratchMetablock swapCountOffset = erasedByte) :
      Recovers cfg r f g :=
    ⟨hst, hrest, fun hv => absurd hv (not_isValid_of_erased hcount)⟩
  -- the assembly stays behind the header
  have hun : Untouched r.ctx.scratchMetablock swapCountOffset cs :=
    hasm.untouched (fun hN => (hst.scratchIdx_ne hN).2) (by decide)
  rcases hcut.append with hcut | hcut
  · left
    apply hbefore
    rw [hcut.of_untouched hun, hst.metaScratch]
    rfl
  · rcases cut_headerCalls hp hcut with hcount | hdone
    · left
      apply hbefore
      rw [hcount, hasm.rowAfter_eq, rowAfter_untouched hun, hst.metaScratch]
      rfl
    · right
      rw [hdone, Model.replay_append]

/-- Once it is programmed the state after the operation recovers. -/
theorem Committed.recovers (hcom : Committed cfg r f d' cs h' r' f') (hst : Settled cfg r f)
    (hst' : Settled cfg r' f')
    (hasm : Assembles cfg r.ctx.scratchMetablock r.ctx.metaBlockHeader.scratchIdx cs)
    (hf' : f' = device.replay (commitCalls cfg r.ctx.activeMetablock r.ctx.scratchMetablock d' h'
      cs) f) :
    Recovers cfg r' f' (device.replay (cs ++ headerCalls cfg r.ctx.scratchMetablock h') f) where
  settled := hst'
  rest b hs hd := by
    rw [hcom.scratch] at hs
    rw [hcom.header, hcom.next.scratchIdx] at hd
    rw [hf', commitCalls, ← List.append_assoc, Model.replay_append _ (cs ++ _), replay_eraseCalls,
      if_neg]
    rintro (h | ⟨h, hN⟩)
    · exact hs h
    · exact hd hN h
  precedes _ := by
    -- the old metadata block is still there, one swap behind
    have hold : device.replay (cs ++ headerCalls cfg r.ctx.scratchMetablock h') f
        r.ctx.activeMetablock = f r.ctx.activeMetablock := by
      rw [Model.replay_append, replay_of_target_ne fun c hc ht => ?_, hasm.row_eq f
        hst.active_ne_scratch fun hN => (hst.scratchIdx_ne hN).1.symm]
      rw [target_headerCalls hc] at ht
      exact hst.active_ne_scratch (Option.some.inj ht).symm
    rw [hcom.scratch, hold, ← hst.synced, hcom.header, hcom.next.count]

end Cut

/-- A cut of an operation recovers the state before it or the state after it. -/
theorem Plan.recovers_of_cut {m : SstM Unit} {T' : Tables} {d' : Nat} {cs : List Call}
    (hp : cfg.encryption = false) (hst : Settled cfg r f) (p : Plan cfg m r f T' d' cs)
    (hcut : PowerCut (effects (run m r f).log) f g) :
    Recovers cfg r f g ∨ Recovers cfg (run m r f).mem (run m r f).dev g := by
  obtain ⟨-, h', hcom⟩ := p.run_committed hst.toMounted
  obtain ⟨h1, iv, -, -, hdoes⟩ := p.commits
  obtain ⟨log, hexec, hlog, -⟩ := hdoes.exec_eq 0
  have hcut := hcut.filter_modifies
  have hafter := hcom.settled p hst
  rw [run, hexec] at hcut hcom hafter ⊢
  obtain rfl : h1 = h' := hcom.header
  rw [hlog, commitCalls, ← List.append_assoc] at hcut
  have hrec := hcom.recovers hst hafter p.assembles rfl
  rcases hcut.append with hcut | hcut
  · -- cut before the erases: the state before, unless the swap count is there
    rcases hst.recovers_of_cut hp p.assembles hcut with h | rfl
    · exact Or.inl h
    · exact Or.inr hrec
  · right
    -- cut in the erases: they are those of a prepare after the operation
    refine hrec.of_cut ?_
    rw [recoveryCalls, hcom.scratch, hcom.header, hcom.next.scratchIdx]
    exact hcut

/-- An operation that is refused only reads, so a cut of it changes nothing. -/
theorem Refuses.recovers_of_cut {m : SstM Unit} (href : Refuses m r f) (hst : Settled cfg r f)
    (hcut : PowerCut (effects (run m r f).log) f g) : Recovers cfg r f g := by
  obtain ⟨e, hdoes⟩ := href
  obtain ⟨log, hexec, hlog, -⟩ := hdoes.exec_eq 0
  have hcut := hcut.filter_modifies
  rw [run, hexec, hlog] at hcut
  cases hcut
  exact hst.recovers

/-! ## Runs with power cuts

The states of a device whose power comes and goes, the invariant over them, and the result. -/

/-- The operations of a run: the callers' obligations, and no object is created larger than
`SST_MAX_OBJECT_SIZE`. -/
def Op.Bounded (cfg : Config) (T : Tables) (op : Op) : Prop :=
  op.Pre cfg T ∧ ∀ u size, op = .create u size → size.toNat ≤ cfg.maxObjectSize

/-- The store while the device is powered, and while it is not. -/
inductive Power where
  | on (r : Ram) (f : Flash)
  | off (f : Flash)

/-- The states reached from an empty store by completed operations, power cuts and prepares.
A prepare that is called on a running store is a boot that finds the old memory. -/
inductive Powered (cfg : Config) : Power → Prop where
  | empty (r r1 : Ram) (f : Flash) (hwipe : (run (sstCoreWipeAll cfg) r f).val = .ok ())
      (hprep : (run (sstCorePrepare cfg) r1 (run (sstCoreWipeAll cfg) r f).dev).val = .ok ()) :
      Powered cfg (.on (run (sstCorePrepare cfg) r1 (run (sstCoreWipeAll cfg) r f).dev).mem
        (run (sstCorePrepare cfg) r1 (run (sstCoreWipeAll cfg) r f).dev).dev)
  | call {r : Ram} {f : Flash} (op : Op) (h : Powered cfg (.on r f))
      (hop : op.Bounded cfg (activeTables cfg r f)) :
      Powered cfg (.on (run (op.prog cfg) r f).mem (run (op.prog cfg) r f).dev)
  | idle {r : Ram} {f : Flash} (h : Powered cfg (.on r f)) : Powered cfg (.off f)
  | cut {r : Ram} {f g : Flash} (op : Op) (h : Powered cfg (.on r f))
      (hop : op.Bounded cfg (activeTables cfg r f))
      (hcut : PowerCut (effects (run (op.prog cfg) r f).log) f g) : Powered cfg (.off g)
  | cutPrepare {g g' : Flash} (r0 : Ram) (h : Powered cfg (.off g))
      (hcut : PowerCut (effects (run (sstCorePrepare cfg) r0 g).log) g g') :
      Powered cfg (.off g')
  | boot {g : Flash} (r0 : Ram) (h : Powered cfg (.off g)) :
      Powered cfg (.on (run (sstCorePrepare cfg) r0 g).mem (run (sstCorePrepare cfg) r0 g).dev)

/-- Power is lost during any number of prepares, one after the other. -/
inductive CutPrepares (cfg : Config) : Flash → Flash → Prop where
  | refl (g : Flash) : CutPrepares cfg g g
  | step {g g1 g2 : Flash} (r0 : Ram) (h : CutPrepares cfg g g1)
      (hcut : PowerCut (effects (run (sstCorePrepare cfg) r0 g1).log) g1 g2) :
      CutPrepares cfg g g2

/-- A settled store without objects that are too large. -/
def SettledSized (cfg : Config) (r : Ram) (f : Flash) : Prop :=
  Settled cfg r f ∧ (activeTables cfg r f).Sized cfg

/-- A prepare restores the flash and the context. -/
theorem Recovers.run_prepare (hp : cfg.encryption = false) (h : Recovers cfg r f g) (r0 : Ram) :
    (run (sstCorePrepare cfg) r0 g).val = .ok ()
      ∧ (run (sstCorePrepare cfg) r0 g).mem.ctx = r.ctx
      ∧ (run (sstCorePrepare cfg) r0 g).dev = f := by
  have hdoes := h.does_prepare hp r0
  rw [run, hdoes.val_eq, hdoes.mem_eq, hdoes.dev_eq]
  exact ⟨rfl, rfl, h.replay_eq⟩

/-- A prepare that is cut can be repeated. -/
theorem Recovers.of_cut_prepare (hp : cfg.encryption = false) (h : Recovers cfg r f g) {r0 : Ram}
    (hcut : PowerCut (effects (run (sstCorePrepare cfg) r0 g).log) g g') :
    Recovers cfg r f g' := by
  obtain ⟨log, hexec, hlog, -⟩ := (h.does_prepare hp r0).exec_eq 0
  have hcut := hcut.filter_modifies
  rw [run, hexec, hlog] at hcut
  exact h.of_cut hcut

theorem CutPrepares.recovers (hp : cfg.encryption = false) (hcut : CutPrepares cfg g g')
    (h : Recovers cfg r f g) : Recovers cfg r f g' := by
  induction hcut with
  | refl => exact h
  | step r0 _ hcut ih => exact ih.of_cut_prepare hp hcut

/-- What an operation can do to a settled store: nothing, or commit a plan. -/
theorem Op.refuses_or_plan (hp : cfg.encryption = false) (h : SettledSized cfg r f) (op : Op)
    (hop : op.Bounded cfg (activeTables cfg r f)) :
    Refuses (op.prog cfg) r f
      ∨ ∃ T' d' cs, T'.Sized cfg ∧ Plan cfg (op.prog cfg) r f T' d' cs := by
  have hc : cfg.CryptoWorks := fun henc => by simp [hp] at henc
  rcases op.outcome h.1.toMounted hc hop.1 with ⟨-, href⟩ | ⟨T', d', cs, heff, p⟩
  · exact Or.inl (href (h.1.layout.valid h.2).accepted)
  · refine Or.inr ⟨T', d', cs, ?_, p⟩
    cases heff with
    | create hcan => exact h.2.created hop.1.1 (hop.2 _ _ rfl)
    | write => exact h.2.written
    | delete => exact h.2.deleted

/-- A cut of any operation on a settled store. -/
theorem Op.recovers_of_cut (hp : cfg.encryption = false) (h : SettledSized cfg r f) (op : Op)
    (hop : op.Bounded cfg (activeTables cfg r f))
    (hcut : PowerCut (effects (run (op.prog cfg) r f).log) f g) :
    Recovers cfg r f g
      ∨ Recovers cfg (run (op.prog cfg) r f).mem (run (op.prog cfg) r f).dev g := by
  rcases op.refuses_or_plan hp h hop with href | ⟨T', d', cs, -, p⟩
  · exact Or.inl (href.recovers_of_cut h.1 hcut)
  · exact p.recovers_of_cut hp h.1 hcut

/-- A completed operation leaves a settled store. -/
theorem Op.settledSized (hp : cfg.encryption = false) (h : SettledSized cfg r f) (op : Op)
    (hop : op.Bounded cfg (activeTables cfg r f)) :
    SettledSized cfg (run (op.prog cfg) r f).mem (run (op.prog cfg) r f).dev := by
  rcases op.refuses_or_plan hp h hop with href | ⟨T', d', cs, hsized, p⟩
  · obtain ⟨-, hmem, hdev⟩ := href.run_eq
    rw [hmem, hdev]
    exact h
  · obtain ⟨-, h', hcom⟩ := p.run_committed h.1.toMounted
    refine ⟨hcom.settled p h.1, ?_⟩
    rw [hcom.tables p]
    exact hsized

/-- What holds of the store in every state of a run. -/
def Power.Sound (cfg : Config) : Power → Prop
  | .on r f => SettledSized cfg r f
  | .off g => ∃ r f, SettledSized cfg r f ∧ Recovers cfg r f g

/-- In every state of a run the store is settled, or recovers a settled one. -/
theorem Powered.sound (hp : cfg.encryption = false) {s : Power} (h : Powered cfg s) :
    s.Sound cfg := by
  have hc : cfg.CryptoWorks := fun henc => by simp [hp] at henc
  -- on the run: a cut chooses which of two settled stores will be recovered
  induction h with
  | empty r r1 f _ hprep =>
    obtain ⟨hst, htab⟩ := (settled_of_wipe hc r r1 f).2 hprep
    refine ⟨hst, ?_⟩
    rw [htab]
    exact fun i hi => absurd hi (emptyTables_not_live i)
  | call op _ hop ih => exact op.settledSized hp ih hop
  | idle _ ih => exact ⟨_, _, ih, ih.1.recovers⟩
  | cut op _ hop hcut ih =>
    rcases op.recovers_of_cut hp ih hop hcut with hrec | hrec
    · exact ⟨_, _, ih, hrec⟩
    · exact ⟨_, _, op.settledSized hp ih hop, hrec⟩
  | cutPrepare r0 _ hcut ih =>
    obtain ⟨r, f, hs, hrec⟩ := ih
    exact ⟨r, f, hs, hrec.of_cut_prepare hp hcut⟩
  | boot r0 _ ih =>
    obtain ⟨r, f, hs, hrec⟩ := ih
    obtain ⟨-, hctx, hdev⟩ := hrec.run_prepare hp r0
    refine ⟨?_, ?_⟩
    · rw [hdev]
      exact hs.1.of_ctx hctx
    · rw [activeTables, hctx, hdev]
      exact hs.2

/-- **Power-failure atomicity.** From every state of a run with power cuts, and for every
further operation: when power is lost at any point of its flash calls, and again during any
number of prepares, the prepare that completes succeeds, with the flash and the context of
the state before the operation, or with those of its completion. -/
theorem atomic_of_powerCut (hp : cfg.encryption = false) (h : Powered cfg (.on r f)) (op : Op)
    (hop : op.Bounded cfg (activeTables cfg r f))
    (hcut : PowerCut (effects (run (op.prog cfg) r f).log) f g) (hagain : CutPrepares cfg g g')
    (r0 : Ram) :
    (run (sstCorePrepare cfg) r0 g').val = .ok ()
    ∧ ((run (sstCorePrepare cfg) r0 g').dev = f
        ∧ (run (sstCorePrepare cfg) r0 g').mem.ctx = r.ctx
      ∨ (run (sstCorePrepare cfg) r0 g').dev = (run (op.prog cfg) r f).dev
        ∧ (run (sstCorePrepare cfg) r0 g').mem.ctx = (run (op.prog cfg) r f).mem.ctx) := by
  rcases op.recovers_of_cut hp (h.sound hp) hop hcut with hrec | hrec
  · obtain ⟨hok, hctx, hdev⟩ := (hagain.recovers hp hrec).run_prepare hp r0
    exact ⟨hok, Or.inl ⟨hdev, hctx⟩⟩
  · obtain ⟨hok, hctx, hdev⟩ := (hagain.recovers hp hrec).run_prepare hp r0
    exact ⟨hok, Or.inr ⟨hdev, hctx⟩⟩

/-- The flash of a small store when power is lost after `k` calls of a first create. -/
def tornCreate (k : Nat) : Flash :=
  device.replay ((effects (thenRun smallConfig (emptyStore smallConfig) (.create 1 1)).log).take k)
    (emptyStore smallConfig).dev

set_option maxRecDepth 100000 in
/-- A create that is cut after nine calls. -/
theorem atomic_of_powerCut_small :
    (run (sstCorePrepare smallConfig) Ram.zero (tornCreate 9)).val = .ok ()
    ∧ ((run (sstCorePrepare smallConfig) Ram.zero (tornCreate 9)).dev
          = (emptyStore smallConfig).dev
        ∧ (run (sstCorePrepare smallConfig) Ram.zero (tornCreate 9)).mem.ctx
          = (emptyStore smallConfig).mem.ctx
      ∨ (run (sstCorePrepare smallConfig) Ram.zero (tornCreate 9)).dev
          = (thenRun smallConfig (emptyStore smallConfig) (.create 1 1)).dev
        ∧ (run (sstCorePrepare smallConfig) Ram.zero (tornCreate 9)).mem.ctx
          = (thenRun smallConfig (emptyStore smallConfig) (.create 1 1)).mem.ctx) := by
  have hempty : Powered smallConfig (.on (emptyStore smallConfig).mem (emptyStore smallConfig).dev) :=
    .empty _ _ _ (by decide +kernel) (by decide +kernel)
  have hop : (Op.create 1 1).Bounded smallConfig (activeTables smallConfig
      (emptyStore smallConfig).mem (emptyStore smallConfig).dev) := by
    refine ⟨by decide +kernel, fun u size h => ?_⟩
    cases h
    decide
  exact atomic_of_powerCut rfl hempty (.create 1 1) hop (PowerCut.take _ _ 9) (.refl _) Ram.zero

end Tfm.Sst
