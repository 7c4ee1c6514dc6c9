import TrustedFirmware.Boot.Proofs.Images
import TrustedFirmware.Boot.Proofs.SwapLoop

/-!
# Finding and finishing a swap

What the bootloader makes of the trailers it finds: a swap that is pending is read as no status, one
that is under way as the step it is at.

`boot_status_source` picks the area by a table. `statusSourceOf_eq` and `swapTypeOf_eq` turn the
tables into decisions, and `sees_bootReadStatus` reads the counter of the area that was picked. For
a swap the three cases are `Pending.sees_status`, `Recorded.sees_status` and `Underway.sees_status`.
-/

namespace Tfm.Boot

open Device LinearFlash Word32
open BlockFlash (Row erasedByte)

variable {cfg : BootConfig} {r : BootLoaderState} {V W : Areas}

/-! ## Tables

The tables match the fields of the trailers, row by row; a field may match anything. -/

@[simp] theorem fieldMatches_some {α : Type} [DecidableEq α] (expected value : α) :
    fieldMatches (some expected) value = decide (value = expected) := by
  simp [fieldMatches, eq_comm]

@[simp] theorem fieldMatches_none {α : Type} [DecidableEq α] (value : α) : fieldMatches none value = true := by
  simp [fieldMatches]

/-- The table of `boot_status_source`, as a decision. -/
theorem statusSourceOf_eq (slot0 scratch : BootSwapState) :
    statusSourceOf slot0 scratch =
      if slot0.magic = .good ∧ slot0.copyDone = 0x01 then .none
      else if slot0.magic = .good ∧ slot0.copyDone = 0xff then .slot0
      else if scratch.magic = .good then .scratch
      else if slot0.magic = .unset ∧ slot0.copyDone = 0xff then .slot0
      else .none := by
  simp only [statusSourceOf, bootStatusTables, List.find?_cons, BootStatusTable.fits, fieldMatches_some,
    fieldMatches_none, Bool.true_and, Bool.and_true, ← Bool.decide_and]
  by_cases h1 : slot0.magic = .good ∧ slot0.copyDone = 0x01
  · rw [if_pos h1, decide_eq_true h1]
  rw [if_neg h1, decide_eq_false h1]
  by_cases h2 : slot0.magic = .good ∧ slot0.copyDone = 0xff
  · rw [if_pos h2, decide_eq_true h2]
  rw [if_neg h2, decide_eq_false h2]
  by_cases h3 : scratch.magic = .good
  · rw [if_pos h3, decide_eq_true h3]
  rw [if_neg h3, decide_eq_false h3]
  by_cases h4 : slot0.magic = .unset ∧ slot0.copyDone = 0xff
  · rw [if_pos h4, decide_eq_true h4]
  rw [if_neg h4, decide_eq_false h4]
  rfl

/-- Scratch is a source only with a good magic. -/
theorem magic_of_scratch {slot0 scratch : BootSwapState} (h : statusSourceOf slot0 scratch = .scratch) :
    scratch.magic = .good := by
  rw [statusSourceOf_eq] at h
  split at h
  · cases h
  · split at h
    · cases h
    · split at h
      · assumption
      · split at h <;> cases h

/-- Slot 0 is a source only while its swap is not marked. -/
theorem flags_of_slot0 {slot0 scratch : BootSwapState} (h : statusSourceOf slot0 scratch = .slot0) :
    slot0.magic ≠ .bad ∧ slot0.copyDone = 0xff := by
  rw [statusSourceOf_eq] at h
  split at h
  · cases h
  · split at h
    · rename_i hgood
      rw [hgood.1]
      exact ⟨by decide, hgood.2⟩
    · split at h
      · cases h
      · split at h
        · rename_i hunset
          rw [hunset.1]
          exact ⟨by decide, hunset.2⟩
        · cases h

/-- The table of `boot_swap_type`, as a decision. -/
theorem swapTypeOf_eq (slot0 slot1 : BootSwapState) :
    swapTypeOf slot0 slot1 =
      if slot1.magic = .good ∧ slot1.imageOk = 0xff then .test
      else if slot1.magic = .good ∧ slot1.imageOk = 0x01 then .perm
      else if ((slot0.magic = .good ∧ slot1.magic = .unset) ∧ slot0.imageOk = 0xff) ∧ slot0.copyDone = 0x01 then
        .revert
      else .none := by
  simp only [swapTypeOf, bootSwapTables, List.find?_cons, BootSwapTable.fits, fieldMatches_some,
    fieldMatches_none, Bool.true_and, Bool.and_true, ← Bool.decide_and]
  by_cases h1 : slot1.magic = .good ∧ slot1.imageOk = 0xff
  · rw [if_pos h1, decide_eq_true h1]
  rw [if_neg h1, decide_eq_false h1]
  by_cases h2 : slot1.magic = .good ∧ slot1.imageOk = 0x01
  · rw [if_pos h2, decide_eq_true h2]
  rw [if_neg h2, decide_eq_false h2]
  by_cases h3 : ((slot0.magic = .good ∧ slot1.magic = .unset) ∧ slot0.imageOk = 0xff) ∧ slot0.copyDone = 0x01
  · rw [if_pos h3, decide_eq_true h3]
  rw [if_neg h3, decide_eq_false h3]
  rfl

theorem sees_bootStatusSource :
    Sees cfg (bootStatusSource cfg.toFlashMap) r V
      (statusSourceOf (cfg.swapStateOf V .image0) (cfg.swapStateOf V .imageScratch)) :=
  sees_bootReadSwapState.assertOk.bind (sees_bootReadSwapState.assertOk.bind (Sees.pure _))

/-- The status is read from the area that the trailers name. -/
theorem sees_bootReadStatus {k : Nat}
    (hnone : statusSourceOf (cfg.swapStateOf V .image0) (cfg.swapStateOf V .imageScratch) = .none → k = 0)
    (hscratch : statusSourceOf (cfg.swapStateOf V .image0) (cfg.swapStateOf V .imageScratch) = .scratch →
      StatusAt cfg V .imageScratch k ∧ k < bootStatusEntries .imageScratch)
    (hslot : statusSourceOf (cfg.swapStateOf V .image0) (cfg.swapStateOf V .imageScratch) = .slot0 →
      StatusAt cfg V .image0 k ∧ k < bootStatusEntries .image0) :
    Sees cfg (bootReadStatus cfg.toFlashMap) r V { BootStatus.zero with idx := k / 3, state := k % 3 } := by
  unfold bootReadStatus
  refine sees_bootStatusSource.bind ?_
  cases hsource : statusSourceOf (cfg.swapStateOf V .image0) (cfg.swapStateOf V .imageScratch) with
  | none =>
    rw [hnone hsource]
    exact Sees.pure _
  | scratch => exact (hscratch hsource).1.sees (hscratch hsource).2 _ ⟨rfl, rfl⟩
  | slot0 => exact (hslot hsource).1.sees (hslot hsource).2 _ ⟨rfl, rfl⟩

namespace SwapJob

variable {job : SwapJob cfg} {i s : Nat}

/-- A swap that is pending has no status. -/
theorem Pending.sees_status (h : job.Pending V) :
    Sees cfg (bootReadStatus cfg.toFlashMap) r V BootStatus.zero := by
  refine sees_bootReadStatus (k := 0) (fun _ => rfl) (fun hsource => ⟨?_, by decide⟩)
    fun hsource => ⟨?_, by decide⟩
  · -- a good magic in scratch, with a swap that uses scratch, is the fresh trailer of this swap
    have hgood : cfg.magicOf V .imageScratch = .good := magic_of_scratch hsource
    by_cases hu : job.UsesScratch
    · exact h.idle.scratch hu hgood
    · exact absurd hgood (h.idle.plain hu)
  · obtain ⟨hmagic, hdone⟩ := flags_of_slot0 hsource
    exact h.idle.slot hmagic hdone

/-- A record in slot 0 is the source, whatever scratch holds. -/
theorem Record.source (h : job.Record .image0 i V) :
    statusSourceOf (cfg.swapStateOf V .image0) (cfg.swapStateOf V .imageScratch) = .slot0 := by
  have hmagic : (cfg.swapStateOf V .image0).magic = .good := h.fields.magic
  have hdone : (cfg.swapStateOf V .image0).copyDone = 0xff := h.fields.copyDone (by decide)
  rw [statusSourceOf_eq, hmagic, hdone]
  rfl

/-- The record of a swap that is under way is found. -/
theorem Recorded.sees_status {k : Nat} (h : job.Recorded k V) (hk : k ≤ 3 * job.ranges) :
    Sees cfg (bootReadStatus cfg.toFlashMap) r V { BootStatus.zero with idx := k / 3, state := k % 3 } := by
  have hlt := job.ranges_lt
  have hslot : job.Record .image0 k V → Sees cfg (bootReadStatus cfg.toFlashMap) r V
      { BootStatus.zero with idx := k / 3, state := k % 3 } := by
    intro hrec
    refine sees_bootReadStatus (fun hs => ?_) (fun hs => ?_) fun _ => ⟨hrec.status, by omega⟩
    · rw [hrec.source] at hs
      cases hs
    · rw [hrec.source] at hs
      cases hs
  by_cases hu : job.UsesScratch ∧ k ≤ 2
  · -- the first range of a swap that uses scratch: either slot 0 has no good magic yet, or the
    -- record was already moved there
    obtain ⟨hrec, hmagic | hrec'⟩ := (recorded_scratch hu.1 hu.2).mp h
    · have hsource : statusSourceOf (cfg.swapStateOf V .image0) (cfg.swapStateOf V .imageScratch)
          = .scratch := by
        have hne : (cfg.swapStateOf V .image0).magic ≠ .good := hmagic
        have hgood : (cfg.swapStateOf V .imageScratch).magic = .good := hrec.fields.magic
        rw [statusSourceOf_eq, if_neg fun h => hne h.1, if_neg fun h => hne h.1, if_pos hgood]
      refine sees_bootReadStatus (fun hs => ?_) (fun _ => ⟨hrec.status, ?_⟩) fun hs => ?_
      · rw [hsource] at hs
        cases hs
      · exact Nat.lt_of_le_of_lt hu.2 (by decide)
      · rw [hsource] at hs
        cases hs
    · exact hslot hrec'.2
  · exact hslot ((recorded_slot hu).mp h)

/-- **The step of a swap that is under way is read back.** -/
theorem Underway.sees_status (h : job.Underway V i s) :
    Sees cfg (bootReadStatus cfg.toFlashMap) r V { BootStatus.zero with idx := i, state := s } := by
  have h1 := h.idx_le
  have h2 := h.idx_lt
  have h3 := h.state_le
  have hsees : Sees cfg (bootReadStatus cfg.toFlashMap) r V _ := h.stage.recorded.sees_status (by omega)
  have hdiv : (3 * i + s) / 3 = i := by omega
  have hmod : (3 * i + s) % 3 = s := by omega
  rwa [hdiv, hmod] at hsees

end SwapJob

end Tfm.Boot
