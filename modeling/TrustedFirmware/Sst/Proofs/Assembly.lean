import TrustedFirmware.Sst.Proofs.Layout

/-!
# Assembling the scratch blocks

What the helper functions of the core program, as lists of flash calls: the copies of the tables,
the migration of the data of logical block 0, the header that commits, and the erasure of the blocks
that are scratch afterwards.

For each function there is a definition of its calls (`copyObjectsCalls`, `migrateCalls`, …) in the
order in which the source issues them, and a `does_*` lemma that it makes exactly these and
succeeds. Offsets and lengths in the lists are natural numbers; the lemmas discharge the 32-bit
arithmetic of the source.
-/

namespace Tfm.Sst

open Word32 BlockFlash Device

variable {cfg : Config} {r : Ram} {f : Flash} {T : Tables}

/-! ## One call

A wrapper of the driver makes one call. -/

theorem does_flashWrite (b : Nat) (d : List UInt8) (off : Nat) :
    Does (sstFlashWrite b d off) r f (.ok ()) r [.write b off d] :=
  (Does.call rfl _).bind (Does.pure ())

theorem does_flashMove (dst dstOff src srcOff n : Nat) :
    Does (sstFlashBlockToBlockMove dst dstOff src srcOff n) r f (.ok ()) r
      [.move dst dstOff src srcOff n] :=
  (Does.call rfl _).bind (Does.pure ())

theorem does_flashErase (b : Nat) :
    Does (sstFlashEraseBlock b) r f (.ok ()) r [.erase b] :=
  (Does.call rfl _).bind (Does.pure ())

/-- One entry of the object table is programmed. -/
theorem does_updateScratchObjectMeta {i : Nat} (hi : i ≤ cfg.numAssets) (e : Assetmeta) :
    Does (sstMblockUpdateScratchObjectMeta cfg i e) r f (.ok ()) r
      [.write r.ctx.scratchMetablock (objOff cfg i) e.encode] := by
  rw [← sstMetaObjectMetaOffset_eq cfg hi]
  exact Does.read_bind does_curMetaScratch (does_flashWrite _ _ _)

/-- One descriptor of the block table is programmed. -/
theorem does_updateScratchBlockMeta {l : Nat} (hl : l ≤ cfg.numActiveDblocks)
    (b : BlockMetadata) :
    Does (sstMblockUpdateScratchBlockMeta l b) r f (.ok ()) r
      [.write r.ctx.scratchMetablock (blkOff l) b.encode] := by
  rw [← sstMetaBlockMetaOffset_eq cfg hl]
  exact Does.read_bind does_curMetaScratch (does_flashWrite _ _ _)

/-! ## Copies of the tables

The entry or descriptor that an operation changes is programmed on its own; the records before and
behind it are copied from the active metadata block. -/

/-- The calls that copy every entry but `i`. -/
def copyObjectsCalls (cfg : Config) (a s i : Nat) : List Call :=
  [.move s (objOff cfg 0) a (objOff cfg 0) (20 * i)] ++
  (if i + 1 < cfg.numAssets then
    [.move s (objOff cfg (i + 1)) a (objOff cfg (i + 1)) (20 * (cfg.numAssets - (i + 1)))]
  else [])

theorem does_copyRemainingObjectMeta {i : Nat} (hi : i < cfg.numAssets) :
    Does (sstMblockCopyRemainingObjectMeta cfg i) r f (.ok ()) r
      (copyObjectsCalls cfg r.ctx.activeMetablock r.ctx.scratchMetablock i) := by
  have hlt := allMetadataSize_lt cfg
  rw [cfg.allMetadataSize_eq] at hlt
  have hadd : add32 i 1 = i + 1 := add32_eq (by omega)
  have hsize : u32 (i * sizeofAssetmeta) = 20 * i := by
    rw [sizeofAssetmeta, u32_eq (by omega)]
    omega
  have hrest : sub32 (objOff cfg cfg.numAssets) (objOff cfg (i + 1))
      = 20 * (cfg.numAssets - (i + 1)) := by
    rw [sub32_eq (by simp only [objOff]; omega) (by simp only [objOff]; omega)]
    simp only [objOff]
    omega
  -- the source copies behind the entry only if something is there
  have hcond : objOff cfg cfg.numAssets > objOff cfg (i + 1) ↔ i + 1 < cfg.numAssets := by
    simp only [objOff]
    omega
  refine Does.read_bind does_curMetaScratch (Does.read_bind does_curMetaActive ?_)
  simp only [hadd, hsize, sstMetaObjectMetaOffset_eq cfg (Nat.zero_le _),
    sstMetaObjectMetaOffset_eq cfg (show i + 1 ≤ cfg.numAssets from hi),
    sstMetaObjectMetaOffset_eq cfg (le_refl cfg.numAssets), hrest, hcond]
  exact Does.bind (does_flashMove _ _ _ _ _) (Does.when fun _ => does_flashMove _ _ _ _ _)

/-- The calls that copy every descriptor but that of `l`. The descriptor of logical block 0
is rewritten for its new home. -/
def copyBlocksCalls (cfg : Config) (a s l : Nat) (b0 : BlockMetadata) : List Call :=
  (if l ≠ 0 then
    [.write s (blkOff 0) { b0 with physId := s }.encode] ++
    (if 1 < l then [.move s (blkOff 1) a (blkOff 1) (12 * (l - 1))] else [])
  else []) ++
  [.move s (blkOff (l + 1)) a (blkOff (l + 1)) (12 * (cfg.numActiveDblocks - (l + 1)))]

/-- The descriptors around that of logical block `l` are copied. -/
theorem does_copyRemainingBlockMeta (hT : activeTables cfg r f = T) (hv : T.BlkValid cfg) {l : Nat}
    (hl : l < cfg.numActiveDblocks) :
    Does (sstMblockCopyRemainingBlockMeta cfg l) r f (.ok ()) r
      (copyBlocksCalls cfg r.ctx.activeMetablock r.ctx.scratchMetablock l (T.blk 0)) := by
  have hlt := allMetadataSize_lt cfg
  rw [cfg.allMetadataSize_eq] at hlt
  have hadd : add32 l 1 = l + 1 := add32_eq (by omega)
  have hrest : sub32 (objOff cfg 0) (blkOff (l + 1)) = 12 * (cfg.numActiveDblocks - (l + 1)) := by
    rw [sub32_eq (by simp only [objOff, blkOff]; omega) (by simp only [objOff]; omega)]
    simp only [objOff, blkOff]
    omega
  refine Does.read_bind does_curMetaScratch (Does.read_bind does_curMetaActive ?_)
  simp only [hadd, sstMetaBlockMetaOffset_eq cfg (show l + 1 ≤ cfg.numActiveDblocks from hl),
    sstMetaObjectMetaOffset_eq cfg (Nat.zero_le _), hrest, sstLogicalDblock0]
  -- the descriptor of block 0 has just been programmed, or is rewritten for its new home here
  by_cases hl0 : l = 0
  · subst hl0
    exact does_flashMove _ _ _ _ _
  · have hsub : sub32 l 1 = l - 1 := sub32_eq (by omega) (by omega)
    have hsize : u32 (sub32 l 1 * sizeofBlockMetadata) = 12 * (l - 1) := by
      rw [hsub, sizeofBlockMetadata, u32_eq (by omega)]
      omega
    have hcond : 12 * (l - 1) > 0 ↔ 1 < l := by omega
    have hpos : sizeofMetadataBlockHeader + sizeofBlockMetadata = blkOff 1 := rfl
    simp only [hsize, hcond, hpos, copyBlocksCalls]
    rw [if_pos hl0, if_pos hl0, List.append_assoc]
    refine Does.read_bind ((does_readBlockMetadata (hT ▸ hv) cfg.numActiveDblocks_pos).orElse _) ?_
    rw [hT]
    refine Does.bind ((does_updateScratchBlockMeta cfg.numActiveDblocks_pos.le _).orElse _) ?_
    exact Does.when_bind (fun _ => does_flashMove _ _ _ _ _) (does_flashMove _ _ _ _ _)

/-! ## Data of logical block 0

Logical block 0 shares its physical block with the tables, so its data moves whenever the tables do. -/

/-- The calls that copy the data of logical block 0. -/
def migrateCalls (cfg : Config) (a s : Nat) (b0 : BlockMetadata) : List Call :=
  [.move s cfg.allMetadataSize a cfg.allMetadataSize
    (cfg.blockSize - cfg.allMetadataSize - b0.freeSize)]

/-- The used part of logical block 0 is copied. -/
theorem does_migrateDataToScratch {active : Nat} (hT : activeTables cfg r f = T)
    (hP : Placed cfg T active) :
    Does (sstMblockMigrateDataToScratch cfg) r f (.ok ()) r
      (migrateCalls cfg r.ctx.activeMetablock r.ctx.scratchMetablock (T.blk 0)) := by
  have hB := cfg.blockSize_le
  have hfree := hP.slots.free_le 0 cfg.numActiveDblocks_pos
  refine Does.read_bind does_curMetaScratch (Does.read_bind does_curMetaActive
    (Does.read_bind (does_readBlockMetadata (hT ▸ hP.blkValid) cfg.numActiveDblocks_pos) ?_))
  rw [hP.homes.metaStart] at hfree
  rw [hT, sstLogicalDblock0, hP.homes.metaStart, sub32_eq (b := cfg.allMetadataSize) (by omega) (by omega),
    sub32_eq (by omega) (by omega)]
  exact does_flashMove _ _ _ _ _

/-! ## Data of the object that is written

The new bytes go to the scratch block first, then what lies before them and what lies behind. -/

/-- The calls that assemble the data of a block around the bytes `buf` at `off`. -/
def updateDataCalls (cfg : Config) (dst : Nat) (b : BlockMetadata) (buf : List UInt8)
    (off : Nat) : List Call :=
  [.write dst off buf] ++
  (if b.dataStart < off then
    [.move dst b.dataStart b.physId b.dataStart (off - b.dataStart)] else []) ++
  [.move dst (off + buf.length) b.physId (off + buf.length)
    (cfg.blockSize - b.freeSize - (off + buf.length))]

/-- The data block is assembled around the new bytes. -/
theorem does_dblockUpdateScratch {l off size : Nat} {b : BlockMetadata} (data : List UInt8)
    (hend : off + size ≤ cfg.blockSize - b.freeSize) (hfree : b.freeSize ≤ cfg.blockSize) :
    Does (sstDblockUpdateScratch cfg l b data off size) r f (.ok ()) r
      (updateDataCalls cfg (r.ctx.dataScratch l) b (bufBytes data size) off) := by
  have hB := cfg.blockSize_le
  have hadd : add32 off size = off + size := add32_eq (by omega)
  have hrest : sub32 (sub32 cfg.blockSize (off + size)) b.freeSize
      = cfg.blockSize - b.freeSize - (off + size) := by
    rw [sub32_eq (b := off + size) (by omega) (by omega), sub32_eq (by omega) (by omega)]
    omega
  have hbefore (h : b.dataStart < off) : sub32 off b.dataStart = off - b.dataStart :=
    sub32_eq h.le (by omega)
  refine Does.read_bind (does_curDataScratch l) ?_
  simp only [hadd, hrest, updateDataCalls, length_bufBytes, List.append_assoc]
  refine Does.bind (does_flashWrite _ _ _) (Does.when_bind (fun h => ?_) (does_flashMove _ _ _ _ _))
  rw [hbefore h]
  exact does_flashMove _ _ _ _ _

/-! ## Commit

The header makes the scratch metadata block valid. Without encryption it is programmed with the swap
count last; with encryption the tag comes last, computed over the metadata as it reads back from
flash. -/

/-- The AES-GCM functions never refuse to produce a tag (encrypted build). -/
def Config.CryptoWorks (cfg : Config) : Prop :=
  cfg.encryption = true → cfg.crypto.gcmSetkey = .ok () ∧
    ∀ iv add, ∃ tag out, cfg.crypto.gcmCryptAndTag iv add [] = .ok (tag, out)

/-- The calls that program the header. -/
def headerCalls (cfg : Config) (s : Nat) (h : MetadataBlockHeader) : List Call :=
  if cfg.encryption then
    [.write s sstTagLenBytes (h.encode.drop sstTagLenBytes), .write s 0 h.crypto.tag.toList]
  else
    [.write s 0 (h.encode.take swapCountOffset), .write s swapCountOffset [h.activeSwapCount]]

/-- The header that follows `h`. -/
structure HeaderNext (cfg : Config) (h h' : MetadataBlockHeader) : Prop where
  scratchIdx : h'.scratchIdx = h.scratchIdx
  fsVersion : h'.fsVersion = h.fsVersion
  count : h'.activeSwapCount = nextSwapCount h.activeSwapCount
  plain : cfg.encryption = false →
    h' = { h with activeSwapCount := nextSwapCount h.activeSwapCount }

/-- The tag of `h` authenticates the metadata block `row` (encrypted build). -/
def Authentic (cfg : Config) (h : MetadataBlockHeader) (row : Row) : Prop :=
  cfg.encryption = true → ∃ out, cfg.crypto.gcmCryptAndTag h.crypto.iv.toList
    (row.get sstTagLenBytes (authenticatedMetaDataSize cfg)) [] = .ok (h.crypto.tag, out)

/-- The memory with another header. -/
def Ram.withHeader (r : Ram) (h : MetadataBlockHeader) : Ram :=
  { r with ctx := { r.ctx with metaBlockHeader := h } }

/-- The tag does not show in the rest of the header. -/
theorem encode_drop_tag (h : MetadataBlockHeader) (tag : Vector UInt8 16) :
    ({ h with crypto := { h.crypto with tag := tag } }.encode.drop sstTagLenBytes)
      = h.encode.drop sstTagLenBytes := by
  simp [MetadataBlockHeader.encode, sstTagLenBytes]

/-- The encrypted build programs a header whose tag authenticates the block. -/
theorem does_authAndUpdate (hc : cfg.CryptoWorks) (henc : cfg.encryption = true) (s : Nat) :
    ∃ h' iv, h'.scratchIdx = r.ctx.metaBlockHeader.scratchIdx
      ∧ h'.fsVersion = r.ctx.metaBlockHeader.fsVersion
      ∧ h'.activeSwapCount = r.ctx.metaBlockHeader.activeSwapCount
      ∧ Authentic cfg h' (device.replay (headerCalls cfg s h') f s)
      ∧ Does (sstMetaAuthAndUpdate cfg s) r f (.ok ())
          { r.withHeader h' with cryptoIvBuf := iv } (headerCalls cfg s h') := by
  obtain ⟨hkey, htag⟩ := hc henc
  -- the header with the new initialisation vector, and the flash that is authenticated
  let iv := sstCryptoNextIv r.cryptoIvBuf
  let h1 : MetadataBlockHeader := { r.ctx.metaBlockHeader with
    crypto := { r.ctx.metaBlockHeader.crypto with iv := iv } }
  let f1 := (Call.write s sstTagLenBytes (h1.encode.drop sstTagLenBytes)).apply f
  obtain ⟨tag, out, htag⟩ := htag iv.toList
    ((f1 s).get sstTagLenBytes (authenticatedMetaDataSize cfg))
  let h' : MetadataBlockHeader := { h1 with crypto := { h1.crypto with tag := tag } }
  have hdrop : h'.encode.drop sstTagLenBytes = h1.encode.drop sstTagLenBytes :=
    encode_drop_tag h1 tag
  have hcalls : headerCalls cfg s h' = [.write s sstTagLenBytes (h1.encode.drop sstTagLenBytes)]
      ++ [.write s 0 tag.toList] := by
    simp only [headerCalls, henc, if_true, hdrop]
    rfl
  refine ⟨h', iv, rfl, rfl, rfl, fun _ => ⟨out, ?_⟩, ?_⟩
  · -- programming the tag does not change the bytes it was computed from
    rw [hcalls, ← htag]
    simp only [Model.replay_append, Model.replay_cons, Model.replay_nil, device_next]
    show cfg.crypto.gcmCryptAndTag iv.toList
      (((Call.write s 0 tag.toList).apply f1 s).get _ _) [] = _
    rw [Call.apply, Function.update_self,
      Row.get_put_disjoint (by simp [sstTagLenBytes])]
  · rw [hcalls]
    let r1 : Ram := { r.withHeader h1 with cryptoIvBuf := iv }
    have hiv : Does sstCryptoGetIv r f (.ok ()) r1 [] :=
      Does.read_bind Does.getMem (Does.read_bind (Does.modifyMem _) (Does.modifyMem _))
    refine Does.read_bind hiv (Does.read_bind Does.getMem
      (Does.bind (does_flashWrite _ _ _) (Does.read_bind (Does.read _ _ _ _) ?_)))
    have hset : Does (M.ofExcept cfg.crypto.gcmSetkey : SstM Unit) r1 f1 (.ok ()) r1 [] := by
      rw [hkey]
      exact Does.pure ()
    have hgcm : Does (M.ofExcept (cfg.crypto.gcmCryptAndTag iv.toList
        ((f1 s).get sstTagLenBytes (authenticatedMetaDataSize cfg)) []) : SstM _)
        r1 f1 (.ok (tag, out)) r1 [] := by
      rw [htag]
      exact Does.pure _
    exact Does.read_bind hset (Does.read_bind hgcm
      (Does.read_bind (Does.modifyMem _) (does_flashWrite _ _ _)))

/-- The header with the next swap count is programmed. -/
theorem does_writeScratchMetaHeader (hc : cfg.CryptoWorks) :
    ∃ h' iv, HeaderNext cfg r.ctx.metaBlockHeader h'
      ∧ Authentic cfg h' (device.replay (headerCalls cfg r.ctx.scratchMetablock h') f
          r.ctx.scratchMetablock)
      ∧ Does (sstMetaWriteScratchMetaHeader cfg) r f (.ok ())
          { r.withHeader h' with cryptoIvBuf := iv }
          (headerCalls cfg r.ctx.scratchMetablock h') := by
  let h1 : MetadataBlockHeader := { r.ctx.metaBlockHeader with
    activeSwapCount := nextSwapCount r.ctx.metaBlockHeader.activeSwapCount }
  have hcount : Does (modifyHeader fun h =>
      { h with activeSwapCount := nextSwapCount h.activeSwapCount }) r f (.ok ())
      (r.withHeader h1) [] := Does.modifyMem _
  -- the two builds program different parts of the header in different order
  by_cases henc : cfg.encryption
  · obtain ⟨h', iv, hs, hv, hn, hauth, hdoes⟩ := does_authAndUpdate (r := r.withHeader h1) (f := f)
      hc henc r.ctx.scratchMetablock
    refine ⟨h', iv, ⟨hs, hv, hn, fun hp => by simp [henc] at hp⟩, hauth, ?_⟩
    refine Does.read_bind does_curMetaScratch (Does.read_bind hcount ?_)
    rw [if_pos henc]
    exact hdoes
  · refine ⟨h1, r.cryptoIvBuf, ⟨rfl, rfl, rfl, fun _ => rfl⟩, fun he => absurd he henc, ?_⟩
    refine Does.read_bind does_curMetaScratch (Does.read_bind hcount ?_)
    rw [if_neg henc, headerCalls, if_neg henc]
    exact Does.read_bind Does.getMem (Does.bind (does_flashWrite _ _ _) (does_flashWrite _ _ _))

/-- The calls that erase the scratch blocks `s` and `d`. -/
def eraseCalls (cfg : Config) (s d : Nat) : List Call :=
  [.erase s] ++ (if 2 < cfg.totalNumOfBlocks then [.erase d] else [])

/-- The blocks that are scratch now are erased. -/
theorem does_eraseScratchBlocks (cfg : Config) :
    Does (sstMetaEraseScratchBlocks cfg) r f (.ok ()) r
      (eraseCalls cfg r.ctx.scratchMetablock r.ctx.metaBlockHeader.scratchIdx) :=
  Does.read_bind does_curMetaScratch (Does.bind (does_flashErase _)
    (Does.when fun _ => Does.read_bind (does_curDataScratch 1) (does_flashErase _)))

/-- The memory after a commit: the new header, the metadata blocks swapped. -/
def Ram.committed (r : Ram) (h : MetadataBlockHeader) (iv : Vector UInt8 12) : Ram where
  ctx := { metaBlockHeader := h, activeMetablock := r.ctx.scratchMetablock,
           scratchMetablock := r.ctx.activeMetablock }
  cryptoIvBuf := iv

/-- The commit programs the header, swaps the metadata blocks and erases what is scratch now. -/
theorem does_updateFinalize (hc : cfg.CryptoWorks) :
    ∃ h' iv, HeaderNext cfg r.ctx.metaBlockHeader h'
      ∧ Authentic cfg h' (device.replay (headerCalls cfg r.ctx.scratchMetablock h') f
          r.ctx.scratchMetablock)
      ∧ Does (sstMetaUpdateFinalize cfg) r f (.ok ()) (r.committed h' iv)
          (headerCalls cfg r.ctx.scratchMetablock h'
            ++ eraseCalls cfg r.ctx.activeMetablock r.ctx.metaBlockHeader.scratchIdx) := by
  obtain ⟨h', iv, hnext, hauth, hdoes⟩ := does_writeScratchMetaHeader (r := r) (f := f) hc
  refine ⟨h', iv, hnext, hauth, hdoes.bind (Does.read_bind (Does.modifyMem _) ?_)⟩
  -- the erasure runs in the memory after the swap, so it meets the old active block
  have herase := does_eraseScratchBlocks (r := r.committed h' iv)
    (f := device.replay (headerCalls cfg r.ctx.scratchMetablock h') f) cfg
  rw [show (r.committed h' iv).ctx.metaBlockHeader.scratchIdx
    = r.ctx.metaBlockHeader.scratchIdx from hnext.scratchIdx] at herase
  exact herase

end Tfm.Sst
