import TrustedFirmware.Sst.Proofs.Step

/-!
# Preparing the store

`sst_core_prepare` picks a metadata block by the two headers, loads its header and erases the
scratch blocks. Everything here holds for any contents of the flash: a prepare fails without effect,
or loads a metadata block whose header is valid (`prepare_outcome`).

Of two valid headers the swap counts decide. The encrypted build then tries to authenticate the
candidate, and the other block if that fails.
-/

namespace Tfm.Sst

open Word32 BlockFlash Device

variable {cfg : Config} {r : Ram} {f : Flash}

/-! ## Prepare

A header is valid when the file system version is the supported one and the swap count is not that
of erased flash. -/

/-- The header passes the validation of the core. -/
def MetadataBlockHeader.IsValid (h : MetadataBlockHeader) : Prop :=
  h.fsVersion = sstSupportedVersion ∧ h.activeSwapCount ≠ sstFlashDefaultVal

instance (h : MetadataBlockHeader) : Decidable h.IsValid := inferInstanceAs (Decidable (_ ∧ _))

theorem validateHeaderMeta_ok {h : MetadataBlockHeader} (hv : h.IsValid) :
    sstMetaValidateHeaderMeta h = .ok () := by
  simp [sstMetaValidateHeaderMeta, sstMetaValidateFsVersion, sstMetaValidateSwapCount, hv.1, hv.2]

theorem validateHeaderMeta_error {h : MetadataBlockHeader} (hv : ¬ h.IsValid) :
    ∃ e, sstMetaValidateHeaderMeta h = .error e := by
  by_cases h1 : h.fsVersion = sstSupportedVersion
  · have h2 : h.activeSwapCount = sstFlashDefaultVal := not_not.mp fun h2 => hv ⟨h1, h2⟩
    exact ⟨.systemError, by
      simp [sstMetaValidateHeaderMeta, sstMetaValidateFsVersion, sstMetaValidateSwapCount, h1, h2]⟩
  · exact ⟨.systemError, by simp [sstMetaValidateHeaderMeta, sstMetaValidateFsVersion, h1]⟩

/-! ### The choice of the metadata block

By the headers alone: the block with the valid header, and of two valid ones that with the later
swap count. -/

/-- Of two valid headers the latest is the candidate. -/
theorem candidate_both {h0 h1 : MetadataBlockHeader} (v0 : h0.IsValid) (v1 : h1.IsValid) :
    sstMetaCandidate h0 h1 = some (sstMetaLatestMetaBlock h0 h1, 2) := by
  rw [sstMetaCandidate, validateHeaderMeta_ok v0, validateHeaderMeta_ok v1]

theorem candidate_zero {h0 h1 : MetadataBlockHeader} (v0 : h0.IsValid) (v1 : ¬ h1.IsValid) :
    sstMetaCandidate h0 h1 = some (0, 1) := by
  obtain ⟨e, he⟩ := validateHeaderMeta_error v1
  rw [sstMetaCandidate, validateHeaderMeta_ok v0, he]
  rfl

theorem candidate_one {h0 h1 : MetadataBlockHeader} (v0 : ¬ h0.IsValid) (v1 : h1.IsValid) :
    sstMetaCandidate h0 h1 = some (1, 1) := by
  obtain ⟨e, he⟩ := validateHeaderMeta_error v0
  rw [sstMetaCandidate, validateHeaderMeta_ok v1, he]
  rfl

/-- Without a valid header there is no candidate. -/
theorem candidate_none {h0 h1 : MetadataBlockHeader} (v0 : ¬ h0.IsValid) (v1 : ¬ h1.IsValid) :
    sstMetaCandidate h0 h1 = none := by
  obtain ⟨e0, he0⟩ := validateHeaderMeta_error v0
  obtain ⟨e1, he1⟩ := validateHeaderMeta_error v1
  rw [sstMetaCandidate, he0, he1]

/-- The candidate is a metadata block with a valid header; two valid blocks are counted as
such. -/
theorem candidate_valid {b n : Nat}
    (h : sstMetaCandidate (headerOf (f 0)) (headerOf (f 1)) = some (b, n)) :
    (b = 0 ∨ b = 1) ∧ (headerOf (f b)).IsValid
      ∧ (n = 1 ∨ n = 2 ∧ (headerOf (f 0)).IsValid ∧ (headerOf (f 1)).IsValid) := by
  -- which of the two headers are valid decides how many blocks may be tried
  by_cases v0 : (headerOf (f 0)).IsValid <;> by_cases v1 : (headerOf (f 1)).IsValid
  · rw [candidate_both v0 v1, Option.some.injEq, Prod.mk.injEq] at h
    obtain ⟨rfl, rfl⟩ := h
    have hcases : sstMetaLatestMetaBlock (headerOf (f 0)) (headerOf (f 1)) = 0
        ∨ sstMetaLatestMetaBlock (headerOf (f 0)) (headerOf (f 1)) = 1 := by
      unfold sstMetaLatestMetaBlock sstMetadataBlock0 sstMetadataBlock1
      split
      · exact Or.inr rfl
      · split
        · exact Or.inl rfl
        · split
          · exact Or.inr rfl
          · exact Or.inl rfl
    refine ⟨hcases, ?_, Or.inr ⟨rfl, v0, v1⟩⟩
    rcases hcases with hc | hc <;> rw [hc]
    · exact v0
    · exact v1
  · rw [candidate_zero v0 v1, Option.some.injEq, Prod.mk.injEq] at h
    obtain ⟨rfl, rfl⟩ := h
    exact ⟨Or.inl rfl, v0, Or.inl rfl⟩
  · rw [candidate_one v0 v1, Option.some.injEq, Prod.mk.injEq] at h
    obtain ⟨rfl, rfl⟩ := h
    exact ⟨Or.inr rfl, v1, Or.inl rfl⟩
  · rw [candidate_none v0 v1] at h
    cases h

/-! ### Loading the header -/

/-- The memory after the metadata block `b` was loaded. -/
def Ram.loaded (f : Flash) (b : Nat) (iv : Vector UInt8 12) : Ram where
  ctx := { metaBlockHeader := headerOf (f b), activeMetablock := b,
           scratchMetablock := sstOtherMetaBlock b }
  cryptoIvBuf := iv

/-- The calls of a prepare that loads block `b`. -/
def prepareCalls (cfg : Config) (f : Flash) (b : Nat) : List Call :=
  eraseCalls cfg (sstOtherMetaBlock b) (headerOf (f b)).scratchIdx

/-- The tail of a prepare, once block `b` was chosen. -/
theorem does_load (cfg : Config) {b : Nat} (hb : r.ctx.activeMetablock = b)
    (hs : r.ctx.scratchMetablock = sstOtherMetaBlock b) (hv : (headerOf (f b)).IsValid) :
    Does (do
        M.orElse sstMetaReadMetaHeader .systemError
        if cfg.encryption then
          let r ← M.getMem
          sstCryptoSetIv r.ctx.metaBlockHeader.crypto
        sstMetaEraseScratchBlocks cfg) r f (.ok ())
      (Ram.loaded f b (if cfg.encryption then (headerOf (f b)).crypto.iv else r.cryptoIvBuf))
      (prepareCalls cfg f b) := by
  have hmem : r.withHeader (headerOf (f b)) = Ram.loaded f b r.cryptoIvBuf := by
    unfold Ram.loaded
    rw [← hs, ← hb]
    rfl
  have hread : Does sstMetaReadMetaHeader r f (.ok ()) (r.withHeader (headerOf (f b))) [] := by
    have hok : Does (M.ofExcept (sstMetaValidateHeaderMeta (headerOf (f b))) : SstM Unit)
        (r.withHeader (headerOf (f b))) f (.ok ()) (r.withHeader (headerOf (f b))) [] := by
      rw [validateHeaderMeta_ok hv]
      exact Does.ofExcept _
    rw [← hb] at hok ⊢
    exact Does.read_bind Does.getMem (Does.read_bind (Does.read _ _ _ _)
      (Does.read_bind (Does.modifyMem _) hok))
  rw [hmem] at hread
  refine Does.read_bind (hread.orElse _) ?_
  -- the encrypted build goes on with the initialisation vector that it finds
  cases hc : cfg.encryption with
  | true => exact Does.read_bind Does.getMem (Does.read_bind (Does.modifyMem _)
      (does_eraseScratchBlocks cfg))
  | false => exact does_eraseScratchBlocks cfg

/-- The choice of the active metadata block reads both headers. -/
theorem does_getActiveMetablock_none
    (h : sstMetaCandidate (headerOf (f 0)) (headerOf (f 1)) = none) :
    Does (sstInitGetActiveMetablock cfg) r f (.error .systemError) r [] := by
  refine Does.read_bind ((Does.read _ _ _ _).orElse _) (Does.read_bind ((Does.read _ _ _ _).orElse _) ?_)
  simp only [headerOf, sizeofMetadataBlockHeader, sstMetadataBlock0, sstMetadataBlock1] at h ⊢
  rw [h]
  exact Does.fail _

/-! ### The active metadata block

In the encrypted build the tables are authenticated before the block is taken. -/

/-- The memory with other metadata blocks. -/
def Ram.withMetablock (r : Ram) (b : Nat) : Ram :=
  { r with ctx := { r.ctx with activeMetablock := b, scratchMetablock := sstOtherMetaBlock b } }

theorem does_getActiveMetablock_plain {b n : Nat} (hp : cfg.encryption = false)
    (h : sstMetaCandidate (headerOf (f 0)) (headerOf (f 1)) = some (b, n)) :
    Does (sstInitGetActiveMetablock cfg) r f (.ok ()) (r.withMetablock b) [] := by
  refine Does.read_bind ((Does.read _ _ _ _).orElse _) (Does.read_bind ((Does.read _ _ _ _).orElse _) ?_)
  simp only [headerOf, sizeofMetadataBlockHeader, sstMetadataBlock0, sstMetadataBlock1] at h ⊢
  rw [h]
  simp only [hp]
  exact Does.modifyMem _

/-- Authentication has no effect, whatever the cipher answers. -/
theorem does_mblockAuthenticate (cfg : Config) (r : Ram) (f : Flash) (b : Nat) :
    ∃ v, Does (sstMblockAuthenticate cfg b) r f v r [] := by
  cases hkey : cfg.crypto.gcmSetkey with
  | error e =>
    refine ⟨.error e, Does.read_bind (Does.read _ _ _ _) (Does.bind_error ?_)⟩
    rw [hkey]
    exact Does.ofExcept _
  | ok _ =>
    cases hdec : cfg.crypto.gcmAuthDecrypt
        (MetadataBlockHeader.decode ((f b).get 0 cfg.allMetadataSize)).crypto.iv.toList
        (((f b).get 0 cfg.allMetadataSize).drop sstTagLenBytes) []
        (MetadataBlockHeader.decode ((f b).get 0 cfg.allMetadataSize)).crypto.tag.toList with
    | error e =>
      refine ⟨.error e, Does.read_bind (Does.read _ _ _ _) ?_⟩
      simp only [hkey, hdec]
      exact Does.read_bind (Does.ofExcept _) (Does.bind_error (Does.ofExcept _))
    | ok out =>
      refine ⟨.ok (), Does.read_bind (Does.read _ _ _ _) ?_⟩
      simp only [hkey, hdec]
      exact Does.read_bind (Does.ofExcept _) (Does.read_bind (Does.ofExcept _) (Does.pure ()))

/-- The authentication loop returns a block it has tried. -/
theorem does_initAuthenticate (cfg : Config) (r : Ram) (f : Flash) (n b : Nat) :
    ∃ v, Does (sstInitAuthenticate cfg n b) r f v r []
      ∧ ∀ c, v = .ok c → c = b ∨ 2 ≤ n ∧ c = sstOtherMetaBlock b ∨ 3 ≤ n := by
  -- the bound on `n` is needed to go through the loop, not afterwards
  suffices h : ∀ n b, ∃ v, Does (sstInitAuthenticate cfg n b) r f v r []
      ∧ ∀ c, v = .ok c → 1 ≤ n ∧ c = b ∨ 2 ≤ n ∧ c = sstOtherMetaBlock b ∨ 3 ≤ n by
    obtain ⟨v, hdoes, hc⟩ := h n b
    exact ⟨v, hdoes, fun c hv => (hc c hv).imp And.right id⟩
  intro n
  -- over the number of blocks that may still be tried
  induction n with
  | zero => exact fun b => ⟨_, Does.fail _, fun c hc => by cases hc⟩
  | succ n ih =>
    intro b
    obtain ⟨v, hauth⟩ := does_mblockAuthenticate cfg r f b
    cases v with
    | ok _ => exact ⟨_, Does.read_bind hauth.attempt (Does.pure b), fun c hc => by
        cases hc
        exact Or.inl ⟨by omega, rfl⟩⟩
    | error e =>
      obtain ⟨v, hrest, hc⟩ := ih (sstOtherMetaBlock b)
      refine ⟨v, Does.read_bind hauth.attempt hrest, fun c hv => Or.inr ?_⟩
      rcases hc c hv with h | h | h
      · exact Or.inl ⟨by omega, h.2⟩
      · exact Or.inr (by omega)
      · exact Or.inr (by omega)

/-- The other metadata block is block 0 or block 1. -/
theorem otherMetaBlock_cases (b : Nat) : sstOtherMetaBlock b = 0 ∨ sstOtherMetaBlock b = 1 := by
  unfold sstOtherMetaBlock
  split
  · exact Or.inr rfl
  · exact Or.inl rfl

/-- The choice of the active metadata block: an error without effect, or a block with a valid
header, in the plain build the candidate. -/
theorem getActiveMetablock_outcome (cfg : Config) (r : Ram) (f : Flash) :
    (∃ e, Does (sstInitGetActiveMetablock cfg) r f (.error e) r [])
      ∨ ∃ b, (b = 0 ∨ b = 1) ∧ (headerOf (f b)).IsValid
        ∧ Does (sstInitGetActiveMetablock cfg) r f (.ok ()) (r.withMetablock b) [] := by
  cases hcand : sstMetaCandidate (headerOf (f 0)) (headerOf (f 1)) with
  | none => exact Or.inl ⟨_, does_getActiveMetablock_none hcand⟩
  | some x =>
    obtain ⟨b, n⟩ := x
    obtain ⟨hb, hval, hn⟩ := candidate_valid hcand
    cases hc : cfg.encryption with
    | false => exact Or.inr ⟨b, hb, hval, does_getActiveMetablock_plain hc hcand⟩
    | true =>
      -- the block that authenticates is the candidate or the other one
      obtain ⟨v, hauth, hres⟩ := does_initAuthenticate cfg r f n b
      have hstart {v' : Except SstErr Unit} {r' : Ram} (h : Does (do
          let curMetaBlock ← sstInitAuthenticate cfg n b
          M.modifyMem fun r => { r with ctx := { r.ctx with
            activeMetablock := curMetaBlock
            scratchMetablock := sstOtherMetaBlock curMetaBlock } }) r f v' r' []) :
          Does (sstInitGetActiveMetablock cfg) r f v' r' [] := by
        refine Does.read_bind ((Does.read _ _ _ _).orElse _)
          (Does.read_bind ((Does.read _ _ _ _).orElse _) ?_)
        simp only [headerOf, sizeofMetadataBlockHeader, sstMetadataBlock0,
          sstMetadataBlock1] at hcand ⊢
        rw [hcand]
        simp only [hc]
        exact h
      cases v with
      | error e => exact Or.inl ⟨e, hstart (Does.bind_error hauth)⟩
      | ok c =>
        refine Or.inr ⟨c, ?_, ?_, hstart (Does.read_bind hauth (Does.modifyMem _))⟩
        · rcases hres c rfl with rfl | ⟨-, rfl⟩ | h
          · exact hb
          · exact otherMetaBlock_cases _
          · omega
        · rcases hres c rfl with rfl | ⟨h2, rfl⟩ | h
          · exact hval
          · -- a second block is tried only when both headers are valid
            obtain ⟨-, v0, v1⟩ := hn.resolve_left (by omega)
            rcases otherMetaBlock_cases _ with ho | ho <;> rw [ho]
            · exact v0
            · exact v1
          · omega

/-! ### The outcome -/

/-- A prepare loads the block that was chosen. -/
theorem does_prepare_of_choice {b : Nat} (hval : (headerOf (f b)).IsValid)
    (h : Does (sstInitGetActiveMetablock cfg) r f (.ok ()) (r.withMetablock b) []) :
    Does (sstCorePrepare cfg) r f (.ok ())
      (Ram.loaded f b (if cfg.encryption then (headerOf (f b)).crypto.iv else r.cryptoIvBuf))
      (prepareCalls cfg f b) :=
  Does.read_bind (h.orElse _) (does_load (r := r.withMetablock b) cfg rfl rfl hval)

/-- A prepare fails without effect, or loads a metadata block with a valid header. -/
theorem prepare_outcome (cfg : Config) (r : Ram) (f : Flash) :
    (∃ e, Does (sstCorePrepare cfg) r f (.error e) r [])
      ∨ ∃ b iv, (b = 0 ∨ b = 1) ∧ (headerOf (f b)).IsValid
        ∧ Does (sstCorePrepare cfg) r f (.ok ()) (Ram.loaded f b iv) (prepareCalls cfg f b) := by
  rcases getActiveMetablock_outcome cfg r f with ⟨e, h⟩ | ⟨b, hb, hval, h⟩
  · exact Or.inl ⟨_, Does.bind_error (h.orElse_error _)⟩
  · exact Or.inr ⟨b, _, hb, hval, does_prepare_of_choice hval h⟩

/-- In the plain build a prepare loads the candidate. -/
theorem does_prepare_plain {b n : Nat} (hp : cfg.encryption = false)
    (h : sstMetaCandidate (headerOf (f 0)) (headerOf (f 1)) = some (b, n)) :
    Does (sstCorePrepare cfg) r f (.ok ()) (Ram.loaded f b r.cryptoIvBuf)
      (prepareCalls cfg f b) := by
  have hload := does_prepare_of_choice (candidate_valid h).2.1
    (does_getActiveMetablock_plain (r := r) hp h)
  rw [hp] at hload
  exact hload

end Tfm.Sst
