import TrustedFirmware.Sst.Proofs.Settled

/-!
# Preparing a settled store

`sst_core_prepare` on a settled store finds the store as it is, whatever the memory holds. In the
encrypted build this needs a crypto library that accepts the tags it has computed.

* `Settled.candidate` — only one header is valid, since the scratch block is erased;
* `Settled.run_prepare` — so it is chosen, and nothing changes;
* `Settled.run_prepare_of_ok` — a prepare that succeeds needs no assumption on the library.
-/

namespace Tfm.Sst

open Word32 BlockFlash Device

variable {cfg : Config} {r : Ram} {f : Flash}

/-- The AES-GCM functions accept the tags they have computed (encrypted build). -/
def Config.CryptoVerifies (cfg : Config) : Prop :=
  cfg.encryption = true → ∀ iv add tag out, cfg.crypto.gcmCryptAndTag iv add [] = .ok (tag, out) →
    ∃ plain, cfg.crypto.gcmAuthDecrypt iv add [] tag.toList = .ok plain

/-! ## Authentication -/

/-- The cryptographic data in front of a longer image. -/
theorem crypto_decode_get (row : Row) {n : Nat} (hn : sizeofMetadataBlockHeader ≤ n) :
    (MetadataBlockHeader.decode (row.get 0 n)).crypto = (headerOf row).crypto := by
  rw [sizeofMetadataBlockHeader] at hn
  -- tag and IV lie in the first 36 bytes, of whatever length the image is
  have hbyte (i : Nat) (hi : i < 36) :
      (row.get 0 n).getD i 0 = (row.get 0 sizeofMetadataBlockHeader).getD i 0 := by
    rw [Row.getD_get _ _ _ (by omega), Row.getD_get _ _ _ (by rw [sizeofMetadataBlockHeader]; omega)]
  have htag : (Vector.ofFn fun i : Fin 16 => (row.get 0 n).getD i 0)
      = Vector.ofFn fun i : Fin 16 => (row.get 0 sizeofMetadataBlockHeader).getD i 0 :=
    congrArg Vector.ofFn (funext fun i => hbyte i (by omega))
  have hiv : (Vector.ofFn fun i : Fin 12 => (row.get 0 n).getD (16 + i) 0)
      = Vector.ofFn fun i : Fin 12 => (row.get 0 sizeofMetadataBlockHeader).getD (16 + i) 0 :=
    congrArg Vector.ofFn (funext fun i => hbyte (16 + i) (by omega))
  exact congrArg₂ SstCrypto.mk htag hiv

/-- A block with a tag of its own passes the authentication. -/
theorem does_mblockAuthenticate_of_authentic (hc : cfg.CryptoWorks) (hv : cfg.CryptoVerifies)
    (henc : cfg.encryption = true) {b : Nat} (h : Authentic cfg (headerOf (f b)) (f b)) :
    Does (sstMblockAuthenticate cfg b) r f (.ok ()) r [] := by
  obtain ⟨out, htag⟩ := h henc
  obtain ⟨plain, hplain⟩ := hv henc _ _ _ _ htag
  have hsize : sstTagLenBytes + authenticatedMetaDataSize cfg = cfg.allMetadataSize := by
    have := cfg.allMetadataSize_eq
    rw [authenticatedMetaDataSize, sstTagLenBytes]
    omega
  have hdrop : ((f b).get 0 cfg.allMetadataSize).drop sstTagLenBytes
      = (f b).get sstTagLenBytes (authenticatedMetaDataSize cfg) := by
    rw [← hsize, Row.get_add, List.drop_left' (Row.length_get ..), Nat.zero_add]
  have hcrypto := crypto_decode_get (f b) (n := cfg.allMetadataSize) (by
    rw [cfg.allMetadataSize_eq, sizeofMetadataBlockHeader]
    omega)
  refine Does.read_bind (Does.read _ _ _ _) ?_
  simp only [(hc henc).1, hcrypto, hdrop, hplain]
  exact Does.read_bind (Does.ofExcept _) (Does.read_bind (Does.ofExcept _) (Does.pure ()))

/-- The only block with a valid header is chosen, in the encrypted build if it is authentic. -/
theorem does_getActiveMetablock_single (hc : cfg.CryptoWorks) (hv : cfg.CryptoVerifies) {b : Nat}
    (hcand : sstMetaCandidate (headerOf (f 0)) (headerOf (f 1)) = some (b, 1))
    (h : Authentic cfg (headerOf (f b)) (f b)) :
    Does (sstInitGetActiveMetablock cfg) r f (.ok ()) (r.withMetablock b) [] := by
  cases henc : cfg.encryption with
  | false => exact does_getActiveMetablock_plain henc hcand
  | true =>
    have hauth : Does (sstInitAuthenticate cfg 1 b) r f (.ok b) r [] :=
      Does.read_bind (does_mblockAuthenticate_of_authentic hc hv henc h).attempt (Does.pure b)
    refine Does.read_bind ((Does.read _ _ _ _).orElse _)
      (Does.read_bind ((Does.read _ _ _ _).orElse _) ?_)
    simp only [headerOf, sizeofMetadataBlockHeader, sstMetadataBlock0, sstMetadataBlock1] at hcand ⊢
    rw [hcand]
    simp only [henc]
    exact Does.read_bind hauth (Does.modifyMem _)

/-! ## Settled stores -/

/-- The header that is in force is the only valid one. -/
theorem Settled.candidate (hst : Settled cfg r f) :
    sstMetaCandidate (headerOf (f 0)) (headerOf (f 1)) = some (r.ctx.activeMetablock, 1) := by
  have hactive := hst.valid
  rw [hst.synced] at hactive
  have hscratch : ¬ (headerOf (f r.ctx.scratchMetablock)).IsValid := by
    rw [hst.metaScratch]
    decide
  rcases hst.metablocks with ⟨ha, hs⟩ | ⟨ha, hs⟩ <;> rw [ha] at hactive ⊢ <;> rw [hs] at hscratch
  · exact candidate_zero hactive hscratch
  · exact candidate_one hscratch hactive

/-- Loading the active metadata block of a settled store changes nothing: what a prepare erases is
erased already. -/
theorem Settled.loaded_eq (hst : Settled cfg r f) (iv : Vector UInt8 12) :
    (Ram.loaded f r.ctx.activeMetablock iv).ctx = r.ctx
      ∧ device.replay (prepareCalls cfg f r.ctx.activeMetablock) f = f := by
  have hother : sstOtherMetaBlock r.ctx.activeMetablock = r.ctx.scratchMetablock := by
    rcases hst.metablocks with ⟨ha, hs⟩ | ⟨ha, hs⟩ <;> rw [ha, hs] <;> rfl
  refine ⟨?_, ?_⟩
  · rw [Ram.loaded, ← hst.synced, hother]
  · -- the blocks that a prepare erases are erased already
    funext b
    rw [replay_prepareCalls, hother, ← hst.synced]
    split
    · rename_i hb
      rcases hb with rfl | ⟨rfl, hN⟩
      · exact hst.metaScratch.symm
      · exact (hst.toScratchErased.dataScratch hN).symm
    · rfl

/-- A prepare finds a settled store as it is. -/
theorem Settled.run_prepare (hst : Settled cfg r f) (hc : cfg.CryptoWorks) (hv : cfg.CryptoVerifies)
    (hauth : Authentic cfg r.ctx.metaBlockHeader (f r.ctx.activeMetablock)) (r0 : Ram) :
    (run (sstCorePrepare cfg) r0 f).val = .ok () ∧ (run (sstCorePrepare cfg) r0 f).mem.ctx = r.ctx
      ∧ (run (sstCorePrepare cfg) r0 f).dev = f := by
  have hvalid := hst.valid
  rw [hst.synced] at hauth hvalid
  have hdoes := does_prepare_of_choice hvalid
    (does_getActiveMetablock_single (r := r0) hc hv hst.candidate hauth)
  rw [run, hdoes.val_eq, hdoes.mem_eq, hdoes.dev_eq]
  exact ⟨rfl, hst.loaded_eq _⟩

/-- A prepare that succeeds finds a settled store as it is, in either build. -/
theorem Settled.run_prepare_of_ok (hst : Settled cfg r f) {r0 : Ram}
    (hok : (run (sstCorePrepare cfg) r0 f).val = .ok ()) :
    (run (sstCorePrepare cfg) r0 f).mem.ctx = r.ctx ∧ (run (sstCorePrepare cfg) r0 f).dev = f := by
  rcases prepare_outcome cfg r0 f with ⟨e, hdoes⟩ | ⟨b, iv, hb, hval, hdoes⟩
  · rw [run, hdoes.val_eq] at hok
    cases hok
  · -- the scratch block is erased and has no valid header
    have hactive : b = r.ctx.activeMetablock := by
      have hne : b ≠ r.ctx.scratchMetablock := by
        rintro rfl
        rw [hst.metaScratch] at hval
        exact absurd hval (by decide)
      rcases hst.metablocks with ⟨ha, hs⟩ | ⟨ha, hs⟩ <;> omega
    subst hactive
    rw [run, hdoes.mem_eq, hdoes.dev_eq]
    exact hst.loaded_eq iv

end Tfm.Sst
