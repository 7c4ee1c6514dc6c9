import TrustedFirmware.Sst.Proofs.Programs
import TrustedFirmware.Sst.Properties.PowerFailure

/-!
# Erase before program

No byte is programmed twice without an erase of its block in between, in any session that starts
with a successful `sst_core_prepare` (**`erasedFirst_of_session`**). The flash may come out of any
history of this code, power cuts included: all that the session needs of it is that a metadata block
whose header is valid has consistent tables (`Loadable`).

The argument has two halves.

* Histories (`Left`): a running store is `Kept`, a store without power is `Loadable`. A cut leaves
  the metadata block under construction without a valid header, or complete
  (`layout_of_cut_header`).
* Sessions: after a prepare the scratch blocks count as erased (`Unmarked`). An operation programs
  each byte of them at most once and ends by erasing the next scratch blocks.
-/

namespace Tfm.Sst

open Word32 BlockFlash Device

variable {cfg : Config} {r r' : Ram} {f f' g g' : Flash}

/-! ## Flash that can be loaded

The two levels of the invariant: of the flash alone, and of a mounted store. -/

/-- A metadata block with a valid header has consistent tables. -/
def Loadable (cfg : Config) (g : Flash) : Prop :=
  ∀ b, b = 0 ∨ b = 1 → (headerOf (g b)).IsValid →
    Layout cfg (tablesOf cfg (g b)) b (headerOf (g b)).scratchIdx

/-- The store of a running system: mounted, the data scratch block in memory the one in flash,
and no header in the scratch metadata block. -/
structure Kept (cfg : Config) (r : Ram) (f : Flash) : Prop extends Mounted cfg r f where
  scratch_eq : (headerOf (f r.ctx.activeMetablock)).scratchIdx = r.ctx.metaBlockHeader.scratchIdx
  blank : ∀ o < sizeofMetadataBlockHeader, f r.ctx.scratchMetablock o = erasedByte

/-- A header that was never programmed is not valid. -/
theorem not_isValid_of_blank {row : Row} (h : ∀ o < sizeofMetadataBlockHeader, row o = erasedByte) :
    ¬ (headerOf row).IsValid := not_isValid_of_erased (h _ (by decide))

theorem not_isValid_erased : ¬ (headerOf Row.erased).IsValid := not_isValid_of_erased rfl

/-- Only the two metadata blocks matter. -/
theorem Mounted.loadable (hm : Mounted cfg r f)
    (ha : (headerOf (g r.ctx.activeMetablock)).IsValid →
      Layout cfg (tablesOf cfg (g r.ctx.activeMetablock)) r.ctx.activeMetablock
        (headerOf (g r.ctx.activeMetablock)).scratchIdx)
    (hs : (headerOf (g r.ctx.scratchMetablock)).IsValid →
      Layout cfg (tablesOf cfg (g r.ctx.scratchMetablock)) r.ctx.scratchMetablock
        (headerOf (g r.ctx.scratchMetablock)).scratchIdx) : Loadable cfg g := by
  intro b hb hv
  have hcases : b = r.ctx.activeMetablock ∨ b = r.ctx.scratchMetablock := by
    rcases hm.metablocks with ⟨h1, h2⟩ | ⟨h1, h2⟩ <;> omega
  rcases hcases with rfl | rfl
  · exact ha hv
  · exact hs hv

/-- The tables in flash agree with the scratch block that the header in flash names. -/
theorem Kept.active_layout (h : Kept cfg r f) :
    Layout cfg (tablesOf cfg (f r.ctx.activeMetablock)) r.ctx.activeMetablock
      (headerOf (f r.ctx.activeMetablock)).scratchIdx := by
  rw [h.scratch_eq]
  exact h.layout

/-- A running store that loses its power can be loaded. -/
theorem Kept.loadable (h : Kept cfg r f) : Loadable cfg f :=
  h.toMounted.loadable (fun _ => h.active_layout) fun hv =>
    absurd hv (not_isValid_of_blank h.blank)

/-- Erasing blocks leaves the flash loadable. -/
theorem Loadable.of_erases (h : Loadable cfg g) (he : ∀ b, g' b = g b ∨ g' b = Row.erased) :
    Loadable cfg g' := by
  intro b hb hv
  rcases he b with hg | hg <;> rw [hg] at hv ⊢
  · exact h b hb hv
  · exact absurd hv not_isValid_erased

/-! ## Cuts of the header

The header is programmed last, by two writes whose order differs between the builds. In both the
scratch index lies before the version in one write, so a header that passes for valid has its
scratch index. -/

/-- The version is byte 32 of the block. -/
theorem headerOf_fsVersion (row : Row) : (headerOf row).fsVersion = row 32 :=
  (Row.getD_get row 0 sizeofMetadataBlockHeader (by decide) 0).trans
    (congrArg row (Nat.zero_add 32))

/-- The scratch index is read from bytes 28 to 31. -/
theorem headerOf_scratchIdx_congr {row row' : Row}
    (h : ∀ o, 28 ≤ o → o < 32 → row o = row' o) :
    (headerOf row).scratchIdx = (headerOf row').scratchIdx := by
  have hget (k : Nat) (hk : k < 4) : (row.get 0 sizeofMetadataBlockHeader).getD (28 + k) 0
      = (row'.get 0 sizeofMetadataBlockHeader).getD (28 + k) 0 := by
    have hlt : 28 + k < sizeofMetadataBlockHeader := by
      rw [sizeofMetadataBlockHeader]
      omega
    rw [Row.getD_get _ _ _ hlt, Row.getD_get _ _ _ hlt, h _ (by omega) (by omega)]
  show ofLe32 _ 28 = ofLe32 _ 28
  unfold ofLe32
  rw [show (28 : Nat) = 28 + 0 from rfl, hget 0 (by decide), hget 1 (by decide),
    hget 2 (by decide), hget 3 (by decide)]

/-- When the version of a torn header is in flash, so is what lies before it. -/
theorem cut_headerCalls_scratchIdx {s : Nat} {h : MetadataBlockHeader}
    (hblank : f s 32 = erasedByte) (hcut : PowerCut (headerCalls cfg s h) f g)
    (hv : (headerOf (g s)).IsValid) :
    (headerOf (g s)).scratchIdx
      = (headerOf (device.replay (headerCalls cfg s h) f s)).scratchIdx := by
  -- both builds: a write over the scratch index and the version, then one elsewhere
  obtain ⟨off, bytes, off', bytes', hcalls, hle, hge, hother⟩ : ∃ off bytes off' bytes',
      headerCalls cfg s h = [.write s off bytes] ++ [.write s off' bytes'] ∧ off ≤ 28
        ∧ 32 < off + bytes.length ∧ (32 < off' ∨ off' + bytes'.length ≤ 28) := by
    cases hc : cfg.encryption with
    | true => exact ⟨16, h.encode.drop 16, 0, h.crypto.tag.toList, by simp [headerCalls, hc, sstTagLenBytes],
        by decide, by simp [sizeofMetadataBlockHeader], by simp⟩
    | false => exact ⟨0, h.encode.take 33, 33, [h.activeSwapCount],
        by simp [headerCalls, hc, swapCountOffset], by decide,
        by simp [sizeofMetadataBlockHeader], Or.inl (by decide)⟩
  rw [hcalls] at hcut ⊢
  refine headerOf_scratchIdx_congr fun o h28 h32 => ?_
  have hlast (f1 : Flash) : (Call.write s off' bytes').apply f1 s o = f1 s o :=
    apply_of_untouched (by simp) fun off1 n1 hp => by
      simp only [Call.programs, Option.some.injEq, Prod.mk.injEq, true_and] at hp
      omega
  rw [Model.replay_append]
  show g s o = (Call.write s off' bytes').apply ((Call.write s off bytes).apply f) s o
  rw [hlast]
  -- the version was not there before, so the write over it had got so far
  have hver : g s 32 ≠ f s 32 := by
    rw [← headerOf_fsVersion (g s), hv.1, hblank]
    decide
  rcases hcut.append with hcut | hcut
  · cases hcut with
    | during _ _ _ k => exact torn_write_of_ne (by omega) h32.le hge hver
    | later hcut =>
      cases hcut
      rfl
  · rw [hcut.of_untouched (.write fun _ => by omega)]
    rfl

theorem headerOf_headerRow_scratchIdx {h : MetadataBlockHeader} (row : Row)
    (hs : h.scratchIdx < 2 ^ 32) : (headerOf (headerRow cfg h row)).scratchIdx = h.scratchIdx := by
  cases hc : cfg.encryption with
  | true => rw [headerOf_headerRow_encrypted row hc hs]
  | false => rw [headerOf_headerRow_plain row hc hs]

/-- The calls for the header, as an update of one row. -/
theorem replay_headerCalls_self (s : Nat) (h : MetadataBlockHeader) (f : Flash) :
    device.replay (headerCalls cfg s h) f s = headerRow cfg h (f s) := by
  rw [replay_eq_rowAfter sourcesIn_headerCalls, rowAfter_headerCalls]

/-- The header is the last part of a metadata block, so a block whose header is valid is
complete. -/
theorem layout_of_cut_header {s : Nat} {h : MetadataBlockHeader}
    (hblank : ∀ o < sizeofMetadataBlockHeader, f s o = erasedByte)
    (hL : Layout cfg (tablesOf cfg (f s)) s h.scratchIdx)
    (hcut : PowerCut (headerCalls cfg s h) f g) (hv : (headerOf (g s)).IsValid) :
    Layout cfg (tablesOf cfg (g s)) s (headerOf (g s)).scratchIdx := by
  have hlt : h.scratchIdx < 2 ^ 32 := by
    have h1 := hL.blocks.scratch_lt
    have h2 := cfg.totalNumOfBlocks_lt
    omega
  -- the tables lie behind the header
  have htab : tablesOf cfg (g s) = tablesOf cfg (f s) := by
    refine tablesOf_congr fun o ho _ => hcut.of_untouched ?_
    rw [sizeofMetadataBlockHeader] at ho
    simp only [headerCalls]
    split
    · exact (Untouched.write fun _ => Or.inr (by simp [sstTagLenBytes, sizeofMetadataBlockHeader]; omega)).append
        (.write fun _ => Or.inr (by simp; omega))
    · exact (Untouched.write fun _ => Or.inr (by simp [swapCountOffset]; omega)).append
        (.write fun _ => Or.inr (by simp [swapCountOffset]; omega))
  rw [htab, cut_headerCalls_scratchIdx (hblank _ (by decide)) hcut hv, replay_headerCalls_self,
    headerOf_headerRow_scratchIdx _ hlt]
  exact hL

/-! ## Operations

An operation assembles the scratch blocks, programs the header, and erases the old blocks. A cut in
each of the three parts leaves loadable flash. -/

section Operations

variable {m : SstM Unit} {T' : Tables} {d' : Nat} {cs : List Call} {h' : MetadataBlockHeader}

/-- The assembly of the scratch blocks may be cut. -/
theorem Kept.of_cut_assembly (h : Kept cfg r f)
    (hasm : Assembles cfg r.ctx.scratchMetablock r.ctx.metaBlockHeader.scratchIdx cs)
    (hcut : PowerCut cs f g) : Kept cfg r g := by
  -- only the scratch blocks are written
  have ha : g r.ctx.activeMetablock = f r.ctx.activeMetablock := by
    refine hcut.of_target_ne fun c hc ht => ?_
    rcases hasm.target hc ht with he | ⟨he, hN⟩
    · exact h.active_ne_scratch he
    · exact (h.scratchIdx_ne hN).1 he.symm
  refine ⟨⟨h.metablocks, ?_⟩, ?_, fun o ho => ?_⟩
  · rw [activeTables, ha]
    exact h.layout
  · rw [ha]
    exact h.scratch_eq
  · rw [hcut.of_untouched (hasm.untouched (fun hN => (h.scratchIdx_ne hN).2) ho)]
    exact h.blank o ho

/-- An operation may be cut before it erases the old metadata. -/
theorem Kept.loadable_of_cut_commit (h : Kept cfg r f) (p : Plan cfg m r f T' d' cs)
    (hidx : h'.scratchIdx = d')
    (hcut : PowerCut (cs ++ headerCalls cfg r.ctx.scratchMetablock h') f g) : Loadable cfg g := by
  rcases hcut.append with hcut | hcut
  · -- cut in the assembly: the scratch metadata block has no header yet
    exact (h.of_cut_assembly p.assembles hcut).loadable
  · -- cut in the header: the assembly is complete
    have hk := h.of_cut_assembly p.assembles (PowerCut.all cs f)
    have ha : g r.ctx.activeMetablock = device.replay cs f r.ctx.activeMetablock := by
      refine hcut.of_target_ne fun c hc ht => ?_
      rw [target_headerCalls hc] at ht
      exact h.active_ne_scratch (Option.some.inj ht).symm
    refine h.toMounted.loadable (fun _ => ?_) (layout_of_cut_header hk.blank ?_ hcut)
    · rw [ha]
      exact hk.active_layout
    · rw [p.assembles.rowAfter_eq, p.tables, hidx]
      exact p.layout

theorem Kept.loadable_of_cut (h : Kept cfg r f) (p : Plan cfg m r f T' d' cs)
    (hcut : PowerCut (effects (run m r f).log) f g) : Loadable cfg g := by
  obtain ⟨h1, iv, hnext, -, hdoes⟩ := p.commits
  obtain ⟨log, hexec, hlog, -⟩ := hdoes.exec_eq 0
  have hcut := hcut.filter_modifies
  rw [run, hexec, hlog, commitCalls, ← List.append_assoc] at hcut
  rcases hcut.append with hcut | hcut
  · exact h.loadable_of_cut_commit p hnext.scratchIdx hcut
  · refine (h.loadable_of_cut_commit p hnext.scratchIdx (PowerCut.all _ f)).of_erases
      (hcut.of_erases fun c hc => ?_)
    rcases mem_eraseCalls.mp hc with rfl | ⟨rfl, -⟩ <;> rfl

/-- A committed operation leaves a running store with an erased scratch metadata block. -/
theorem Kept.of_committed (h : Kept cfg r f) (p : Plan cfg m r f T' d' cs)
    (hcom : Committed cfg r f d' cs h' r' f') : Kept cfg r' f' where
  toMounted := hcom.mounted p h.toMounted
  scratch_eq := by
    have h1 := p.layout.blocks.scratch_lt
    have h2 := cfg.totalNumOfBlocks_lt
    have hidx : h'.scratchIdx = d' := hcom.next.scratchIdx
    rw [hcom.active, hcom.newRow, headerOf_headerRow_scratchIdx _ (by omega), hcom.header]
  blank o _ := by
    rw [hcom.scratch, hcom.oldErased]
    rfl

end Operations

/-! ## Wipes

A wipe starts from any flash. It erases both metadata blocks before it builds anything, so a cut
finds no valid header, or the complete one of the empty store. -/

/-- A wipe leaves a running store, whatever was in flash. -/
theorem kept_of_wipe (hc : cfg.CryptoWorks) (r : Ram) (f : Flash) :
    Kept cfg (run (sstCoreWipeAll cfg) r f).mem (run (sstCoreWipeAll cfg) r f).dev := by
  obtain ⟨x, h0, h', iv, hx, hnext, -, hwipe⟩ := does_wipe hc r f
  obtain ⟨-, -, hidx, htab, -⟩ := wipe_loads hx hnext f
  have hidx' : h'.scratchIdx = cfg.initScratchDblock := hnext.scratchIdx
  rw [run, hwipe.mem_eq, hwipe.dev_eq]
  refine ⟨⟨Or.inr ⟨rfl, rfl⟩, ?_⟩, hidx.trans hidx'.symm, fun o _ => ?_⟩
  · show Layout cfg (tablesOf cfg (device.replay (wipeCalls cfg x h') f 1)) 1 h'.scratchIdx
    rw [htab, hidx']
    exact emptyTables_layout 1
  · show device.replay (wipeCalls cfg x h') f 0 o = erasedByte
    rw [replay_wipeCalls hx, if_pos rfl]
    rfl

/-- The empty store is built in block 1 and nothing is written to block 0. -/
theorem target_wipeBuildCalls {c : Call} (hc : c ∈ wipeBuildCalls cfg) : c.target ≠ some 0 := by
  simp only [wipeBuildCalls, List.mem_append, List.mem_singleton, List.mem_map, blockWrites,
    objectWrites] at hc
  rcases hc with rfl | ⟨b, hb, rfl⟩ | ⟨l, -, rfl⟩ | ⟨i, -, rfl⟩
  · simp [Call.target]
  · rw [mem_wipedBlocks] at hb
    simp only [Call.target, ne_eq, Option.some.injEq]
    omega
  · simp [Call.target]
  · simp [Call.target]

/-- A wipe may be cut: what it has erased is not valid, what it has built is complete. -/
theorem Loadable.of_cut_wipe (hc : cfg.CryptoWorks) (h : Loadable cfg g) {r : Ram}
    (hcut : PowerCut (effects (run (sstCoreWipeAll cfg) r g).log) g g') : Loadable cfg g' := by
  obtain ⟨x, h0, h', iv, hx, hnext, -, hwipe⟩ := does_wipe hc r g
  obtain ⟨log, hexec, hlog, -⟩ := hwipe.exec_eq 0
  have hcut := hcut.filter_modifies
  rw [run, hexec, hlog, wipeCalls, ← List.append_assoc] at hcut
  rcases hcut.append with hcut | hcut
  · -- cut in the two erases
    refine h.of_erases (hcut.of_erases fun c hc => ?_)
    rcases List.mem_append.mp hc with hc | hc <;> rw [List.mem_singleton.mp hc] <;> rfl
  -- both metadata blocks are erased, and block 1 is built
  generalize hf1 : device.replay ([.erase x] ++ [.erase (sstOtherMetaBlock x)]) g = f1 at hcut
  have herased (b : Nat) (hb : b = 0 ∨ b = 1) : f1 b = Row.erased := by
    rw [← hf1]
    show Function.update (Function.update g x Row.erased) (sstOtherMetaBlock x) Row.erased b = _
    have hcases : b = x ∨ b = sstOtherMetaBlock x := by
      rcases hx with rfl | rfl <;> rcases hb with rfl | rfl <;> decide
    by_cases ho : b = sstOtherMetaBlock x
    · rw [ho, Function.update_self]
    · rw [Function.update_of_ne ho, hcases.resolve_right ho, Function.update_self]
  have h0 : g' 0 = Row.erased := by
    refine (hcut.of_target_ne fun c hc => ?_).trans (herased 0 (Or.inl rfl))
    rcases List.mem_append.mp hc with hc | hc
    · exact target_wipeBuildCalls hc
    · rw [target_headerCalls hc]
      decide
  have hblank {g1 : Flash} (hcut : PowerCut (wipeBuildCalls cfg) f1 g1) (o : Nat)
      (ho : o < sizeofMetadataBlockHeader) : g1 1 o = erasedByte := by
    rw [hcut.of_untouched (untouched_wipeBuildCalls ho), herased 1 (Or.inr rfl)]
    rfl
  -- block 0 stays erased, so only block 1 can have a valid header
  rintro b (rfl | rfl) hv
  · rw [h0] at hv
    exact absurd hv not_isValid_erased
  rcases hcut.append with hcut | hcut
  · exact absurd hv (not_isValid_of_blank (hblank hcut))
  · refine layout_of_cut_header (hblank (PowerCut.all _ f1)) ?_ hcut hv
    rw [replay_eq_rowAfter sourcesIn_wipeBuildCalls, tablesOf_rowAfter_wipeBuild, hnext.scratchIdx]
    exact emptyTables_layout 1

/-! ## Histories

The states that this code leaves behind, with and without power, and the invariant over all of them. -/

/-- What this code leaves behind, in memory and flash or in flash alone: after a wipe of any
flash, operations that complete or are cut, prepares that complete, fail or are cut, and
further wipes. -/
inductive Left (cfg : Config) : Power → Prop where
  | wipe (r : Ram) (f : Flash) :
      Left cfg (.on (run (sstCoreWipeAll cfg) r f).mem (run (sstCoreWipeAll cfg) r f).dev)
  | call {r : Ram} {f : Flash} (op : Op) (h : Left cfg (.on r f))
      (hpre : op.Pre cfg (activeTables cfg r f)) :
      Left cfg (.on (run (op.prog cfg) r f).mem (run (op.prog cfg) r f).dev)
  | prepare {r : Ram} {f : Flash} (h : Left cfg (.on r f)) :
      Left cfg (.on (run (sstCorePrepare cfg) r f).mem (run (sstCorePrepare cfg) r f).dev)
  | idle {r : Ram} {f : Flash} (h : Left cfg (.on r f)) : Left cfg (.off f)
  | cut {r : Ram} {f g : Flash} (op : Op) (h : Left cfg (.on r f))
      (hpre : op.Pre cfg (activeTables cfg r f))
      (hcut : PowerCut (effects (run (op.prog cfg) r f).log) f g) : Left cfg (.off g)
  | cutPrepare {g g' : Flash} (r0 : Ram) (h : Left cfg (.off g))
      (hcut : PowerCut (effects (run (sstCorePrepare cfg) r0 g).log) g g') : Left cfg (.off g')
  | cutWipe {g g' : Flash} (r0 : Ram) (h : Left cfg (.off g))
      (hcut : PowerCut (effects (run (sstCoreWipeAll cfg) r0 g).log) g g') : Left cfg (.off g')
  | boot {g : Flash} (r0 : Ram) (h : Left cfg (.off g))
      (hok : (run (sstCorePrepare cfg) r0 g).val = .ok ()) :
      Left cfg (.on (run (sstCorePrepare cfg) r0 g).mem (run (sstCorePrepare cfg) r0 g).dev)

/-- What holds of the store in every state of a history. -/
def Power.Consistent (cfg : Config) : Power → Prop
  | .on r f => Kept cfg r f
  | .off g => Loadable cfg g

/-- A store that was loaded from consistent tables is running, with erased scratch blocks. -/
theorem kept_of_loaded {b : Nat} {iv : Vector UInt8 12} (hb : b = 0 ∨ b = 1)
    (hL : Layout cfg (tablesOf cfg (g b)) b (headerOf (g b)).scratchIdx) :
    Kept cfg (Ram.loaded g b iv) (device.replay (prepareCalls cfg g b) g) := by
  obtain ⟨hm, he⟩ : Mounted cfg (Ram.loaded g b iv) _ ∧ ScratchErased cfg (Ram.loaded g b iv) _ :=
    mounted_of_loaded hb hL
  refine ⟨hm, ?_, fun o _ => ?_⟩
  · show (headerOf (device.replay (prepareCalls cfg g b) g b)).scratchIdx = _
    rw [replay_prepareCalls_self hb hL]
    rfl
  · rw [he.metaScratch]
    rfl

/-- A prepare that succeeds on loadable flash mounts the store. -/
theorem Loadable.kept_of_prepare (h : Loadable cfg g) {r0 : Ram}
    (hok : (run (sstCorePrepare cfg) r0 g).val = .ok ()) :
    Kept cfg (run (sstCorePrepare cfg) r0 g).mem (run (sstCorePrepare cfg) r0 g).dev := by
  rcases prepare_outcome cfg r0 g with ⟨e, hdoes⟩ | ⟨b, iv, hb, hv, hdoes⟩
  · rw [run, hdoes.val_eq] at hok
    cases hok
  · rw [run, hdoes.mem_eq, hdoes.dev_eq]
    exact kept_of_loaded hb (h b hb hv)

/-- A prepare in place keeps a running store, also when it fails. -/
theorem Kept.prepare (h : Kept cfg r f) :
    Kept cfg (run (sstCorePrepare cfg) r f).mem (run (sstCorePrepare cfg) r f).dev := by
  rcases prepare_outcome cfg r f with ⟨e, hdoes⟩ | ⟨b, iv, hb, hv, hdoes⟩
  · rw [run, hdoes.mem_eq, hdoes.dev_eq]
    exact h
  · rw [run, hdoes.mem_eq, hdoes.dev_eq]
    exact kept_of_loaded hb (h.loadable b hb hv)

/-- A prepare only erases, so it may be cut. -/
theorem Loadable.of_cut_prepare (h : Loadable cfg g) {r0 : Ram}
    (hcut : PowerCut (effects (run (sstCorePrepare cfg) r0 g).log) g g') : Loadable cfg g' := by
  have hcut := hcut.filter_modifies
  rcases prepare_outcome cfg r0 g with ⟨e, hdoes⟩ | ⟨b, iv, -, -, hdoes⟩ <;>
    obtain ⟨log, hexec, hlog, -⟩ := hdoes.exec_eq 0 <;> rw [run, hexec, hlog] at hcut
  · cases hcut
    exact h
  · refine h.of_erases (hcut.of_erases fun c hc => ?_)
    rcases mem_eraseCalls.mp hc with rfl | ⟨rfl, -⟩ <;> rfl

/-- Every operation keeps the store, whether it succeeds or fails. -/
theorem Kept.call (hc : cfg.CryptoWorks) (h : Kept cfg r f) (op : Op)
    (hpre : op.Pre cfg (activeTables cfg r f)) :
    Kept cfg (run (op.prog cfg) r f).mem (run (op.prog cfg) r f).dev := by
  rcases op.outcome h.toMounted hc hpre with ⟨⟨e, w, hdoes, hasm⟩, -⟩ | ⟨T', d', cs, -, p⟩
  · rw [run, hdoes.mem_eq, hdoes.dev_eq]
    exact h.of_cut_assembly hasm (PowerCut.all w f)
  · obtain ⟨-, h', hcom⟩ := p.run_committed h.toMounted
    exact h.of_committed p hcom

/-- An operation may be cut whether it would have succeeded or not. -/
theorem Kept.loadable_of_cut_call (hc : cfg.CryptoWorks) (h : Kept cfg r f) (op : Op)
    (hpre : op.Pre cfg (activeTables cfg r f))
    (hcut : PowerCut (effects (run (op.prog cfg) r f).log) f g) : Loadable cfg g := by
  rcases op.outcome h.toMounted hc hpre with ⟨⟨e, w, hdoes, hasm⟩, -⟩ | ⟨T', d', cs, -, p⟩
  · obtain ⟨log, hexec, hlog, -⟩ := hdoes.exec_eq 0
    have hcut := hcut.filter_modifies
    rw [run, hexec, hlog] at hcut
    exact (h.of_cut_assembly hasm hcut).loadable
  · exact h.loadable_of_cut p hcut

/-- The invariant holds in every state of a history. -/
theorem Left.consistent (hc : cfg.CryptoWorks) {s : Power} (h : Left cfg s) : s.Consistent cfg := by
  -- on the history: a step with power keeps `Kept`, a cut leads from it to `Loadable`, a boot back
  induction h with
  | wipe r f => exact kept_of_wipe hc r f
  | call op _ hpre ih => exact ih.call hc op hpre
  | prepare _ ih => exact ih.prepare
  | idle _ ih => exact ih.loadable
  | cut op _ hpre hcut ih => exact ih.loadable_of_cut_call hc op hpre hcut
  | cutPrepare r0 _ hcut ih => exact ih.of_cut_prepare hcut
  | cutWipe r0 _ hcut ih => exact ih.of_cut_wipe hc hcut
  | boot r0 _ hok ih => exact ih.kept_of_prepare hok

/-! ## Sessions

The programmed bytes are followed from call to call by the region of marked bytes: a program marks
its range, an erase unmarks its block. -/

/-- The sessions on what this code has left behind, with the calls issued: a successful
prepare, then successful operations and further prepares. -/
inductive Session (cfg : Config) : Ram → Flash → List Call → Prop where
  | start {g : Flash} (r0 : Ram) (h : Left cfg (.off g))
      (hok : (run (sstCorePrepare cfg) r0 g).val = .ok ()) :
      Session cfg (run (sstCorePrepare cfg) r0 g).mem (run (sstCorePrepare cfg) r0 g).dev
        (effects (run (sstCorePrepare cfg) r0 g).log)
  | step {r : Ram} {f : Flash} {cs : List Call} (op : Op) (h : Session cfg r f cs)
      (hpre : op.Pre cfg (activeTables cfg r f)) (hok : (run (op.prog cfg) r f).val = .ok ()) :
      Session cfg (run (op.prog cfg) r f).mem (run (op.prog cfg) r f).dev
        (cs ++ effects (run (op.prog cfg) r f).log)
  | prepare {r : Ram} {f : Flash} {cs : List Call} (h : Session cfg r f cs) :
      Session cfg (run (sstCorePrepare cfg) r f).mem (run (sstCorePrepare cfg) r f).dev
        (cs ++ effects (run (sstCorePrepare cfg) r f).log)

/-- The scratch blocks are not marked as programmed. -/
def Unmarked (cfg : Config) (r : Ram) (P : Region) : Prop :=
  ∀ x ∈ P, x.1 ≠ r.ctx.scratchMetablock
    ∧ (2 < cfg.totalNumOfBlocks → x.1 ≠ r.ctx.metaBlockHeader.scratchIdx)

theorem markAll_eraseCalls {a d : Nat} {P : Region} {x : Nat × Nat}
    (hx : x ∈ markAll (eraseCalls cfg a d) P) :
    x.1 ≠ a ∧ (2 < cfg.totalNumOfBlocks → x.1 ≠ d) := by
  simp only [eraseCalls] at hx
  split at hx
  · obtain ⟨hd, ⟨ha, -⟩ | hx⟩ := hx
    · exact ⟨fun h => ha (by rw [h]), fun _ h => hd (by rw [h])⟩
    · simp at hx
  · rename_i hN
    obtain ⟨ha, -⟩ := hx
    exact ⟨fun h => ha (by rw [h]), fun h => absurd h hN⟩

/-- The header is programmed byte by byte once, by two disjoint writes. -/
theorem fills_headerCalls (s : Nat) (h : MetadataBlockHeader) :
    Fills {x | x.1 = s ∧ x.2 < sizeofMetadataBlockHeader} (headerCalls cfg s h) := by
  simp only [headerCalls]
  split
  · refine ((Fills.single subset_rfl).append (.single subset_rfl)
      (Set.disjoint_left.mpr fun x hx hx' => ?_)).mono fun x hx => ?_
    · rw [mem_range_write] at hx hx'
      simp [sstTagLenBytes] at hx hx'
      omega
    · show x.1 = s ∧ x.2 < 36
      rcases hx with hx | hx <;> rw [mem_range_write] at hx <;>
        simp [sstTagLenBytes, sizeofMetadataBlockHeader] at hx <;> omega
  · refine ((Fills.single subset_rfl).append (.single subset_rfl)
      (Set.disjoint_left.mpr fun x hx hx' => ?_)).mono fun x hx => ?_
    · rw [mem_range_write] at hx hx'
      simp [swapCountOffset] at hx hx'
      omega
    · show x.1 = s ∧ x.2 < 36
      rcases hx with hx | hx <;> rw [mem_range_write] at hx <;>
        simp [swapCountOffset] at hx <;> omega

/-- A prepare only erases, and unmarks the scratch blocks when it succeeds. -/
theorem unmarked_of_prepare {P : Region}
    (hP : Unmarked cfg r P ∨ (run (sstCorePrepare cfg) r f).val = .ok ()) :
    ErasedFirst P (effects (run (sstCorePrepare cfg) r f).log)
      ∧ Unmarked cfg (run (sstCorePrepare cfg) r f).mem
          (markAll (effects (run (sstCorePrepare cfg) r f).log) P) := by
  rw [← erasedFirst_filter_modifies, ← markAll_filter_modifies]
  rcases prepare_outcome cfg r f with ⟨e, hdoes⟩ | ⟨b, iv, -, -, hdoes⟩ <;>
    obtain ⟨log, hexec, hlog, -⟩ := hdoes.exec_eq 0 <;> rw [run, hexec] at hP ⊢ <;> rw [hlog]
  · -- a prepare that fails has only read
    exact ⟨trivial, hP.resolve_right fun h => by cases h⟩
  · refine ⟨erasedFirst_of_erases fun c hc => ?_, fun x hx => markAll_eraseCalls hx⟩
    rcases mem_eraseCalls.mp hc with rfl | ⟨rfl, -⟩ <;> rfl

/-- An operation that succeeds programs unmarked bytes only, and leaves unmarked scratch
blocks. -/
theorem Mounted.unmarked_of_ok (hm : Mounted cfg r f) (hc : cfg.CryptoWorks) (op : Op)
    (hpre : op.Pre cfg (activeTables cfg r f)) (hok : (run (op.prog cfg) r f).val = .ok ())
    {P : Region} (hP : Unmarked cfg r P) :
    ErasedFirst P (effects (run (op.prog cfg) r f).log)
      ∧ Unmarked cfg (run (op.prog cfg) r f).mem
          (markAll (effects (run (op.prog cfg) r f).log) P) := by
  obtain ⟨T', d', cs, hasm, p⟩ := op.assembly_of_ok hm hc hpre hok
  have hsd (hN : 2 < cfg.totalNumOfBlocks) := (hm.scratchIdx_ne hN).2
  obtain ⟨h', iv, hnext, -, hdoes⟩ := p.commits
  obtain ⟨log, hexec, hlog, -⟩ := hdoes.exec_eq 0
  rw [← erasedFirst_filter_modifies, ← markAll_filter_modifies, run, hexec, hlog, commitCalls,
    ← List.append_assoc, erasedFirst_append]
  -- the assembly and the header program each byte of the scratch blocks at most once
  have hfill : Fills _ (cs ++ headerCalls cfg r.ctx.scratchMetablock h') :=
    (hasm.fills hm.layout hsd).append (fills_headerCalls _ _) (Set.disjoint_left.mpr fun x hx hx' => by
      rcases hx with ⟨-, hx⟩ | ⟨hx, hN⟩
      · exact Nat.not_le.mpr hx'.2 hx
      · exact hsd hN (hx.symm.trans hx'.1))
  refine ⟨⟨hfill.erasedFirst (Set.disjoint_left.mpr fun x hx hxP => ?_),
    erasedFirst_of_erases fun c hc => ?_⟩, fun x hx => ?_⟩
  · -- what is filled lies in the scratch blocks, which are not marked
    obtain ⟨hs, hd⟩ := hP x hxP
    rcases hx with (⟨hx, -⟩ | ⟨hx, hN⟩) | ⟨hx, -⟩
    · exact hs hx
    · exact hd hN hx
    · exact hs hx
  · rcases mem_eraseCalls.mp hc with rfl | ⟨rfl, -⟩ <;> rfl
  · show x.1 ≠ r.ctx.activeMetablock ∧ (_ → x.1 ≠ h'.scratchIdx)
    rw [hnext.scratchIdx]
    rw [markAll_append] at hx
    exact markAll_eraseCalls hx

/-- The invariant of a session: running, erased before programmed, and ready for the next operation.
-/
theorem Session.unmarked (hc : cfg.CryptoWorks) {cs : List Call} (h : Session cfg r f cs)
    (P : Region) : Kept cfg r f ∧ ErasedFirst P cs ∧ Unmarked cfg r (markAll cs P) := by
  -- on the session, with the calls so far in front
  induction h with
  | start r0 h hok => exact ⟨(h.consistent hc).kept_of_prepare hok, unmarked_of_prepare (Or.inr hok)⟩
  | step op _ hpre hok ih =>
    obtain ⟨hk, hcs, hP⟩ := ih
    obtain ⟨hop, hP'⟩ := hk.unmarked_of_ok hc op hpre hok hP
    rw [erasedFirst_append, markAll_append]
    exact ⟨hk.call hc op hpre, ⟨hcs, hop⟩, hP'⟩
  | prepare _ ih =>
    obtain ⟨hk, hcs, hP⟩ := ih
    obtain ⟨hop, hP'⟩ := unmarked_of_prepare (Or.inl hP)
    rw [erasedFirst_append, markAll_append]
    exact ⟨hk.prepare, ⟨hcs, hop⟩, hP'⟩

/-- **Erase before program.** In every session on flash that this code has left behind,
whatever was programmed in it before, no call programs a byte that has been programmed since
its block was last erased. -/
theorem erasedFirst_of_session (hc : cfg.CryptoWorks) {cs : List Call} (h : Session cfg r f cs)
    (P : Region) : ErasedFirst P cs := (h.unmarked hc P).2.1

set_option maxRecDepth 100000 in
/-- A prepare after power was lost in the middle of a create, and that create again, on flash
of which every byte counts as programmed. -/
theorem erasedFirst_of_session_small :
    ErasedFirst Set.univ
      (effects (run (sstCorePrepare smallConfig) Ram.zero (tornCreate 9)).log
        ++ effects (run (sstCoreObjectCreate smallConfig 1 1)
          (run (sstCorePrepare smallConfig) Ram.zero (tornCreate 9)).mem
          (run (sstCorePrepare smallConfig) Ram.zero (tornCreate 9)).dev).log) := by
  have hleft : Left smallConfig (.off (tornCreate 9)) :=
    .cut (.create 1 1) (.boot Ram.zero (.idle (.wipe Ram.zero Flash.blank)) (by decide +kernel))
      (by decide +kernel) (PowerCut.take _ _ 9)
  have hstart := Session.start Ram.zero hleft (by decide +kernel)
  exact erasedFirst_of_session (fun h => by cases h)
    (hstart.step (.create 1 1) (by decide +kernel) (by decide +kernel)) Set.univ

end Tfm.Sst
