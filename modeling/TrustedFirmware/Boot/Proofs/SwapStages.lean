import TrustedFirmware.Boot.Proofs.SwapJob

/-!
# Moving between stages

What may change while a swap is at a stage, how a range is replaced, and how a status byte takes the
swap to the next stage: it is one write, and there or not.

* `Stage.of_scratch`, `Stage.of_image1`, `Stage.of_image0`: the area that a step overwrites is free
  in this step.
* `wpa_advance`: the status byte. Before its first byte arrives the swap is at the old stage, after
  it at the new one.
* `wpa_replace`: erase and copy of a range, the one write that all steps make.
-/

namespace Tfm.Boot

open Device LinearFlash Word32
open BlockFlash (Row erasedByte)

namespace SwapJob

variable {cfg : BootConfig} {job : SwapJob cfg} {r : BootLoaderState} {V W : Areas} {a b : FlashArea}

/-! ## Changes that a stage allows

A stage constrains the slots outside of the range that is worked on, and the trailers. A change that
respects both leaves the stage. -/

section Split

variable {f g : Row} {lo hi lo' hi' : Nat}

theorem Split.weaken (h : job.Split a f g lo hi V) (hlo : lo' ≤ lo) (hhi : hi ≤ hi') :
    job.Split a f g lo' hi' V :=
  fun x hx => ⟨fun hlt => (h x hx).1 (by omega), fun hge => (h x hx).2 (by omega)⟩

theorem Split.changed (h : job.Split a f g lo hi V) (hc : ChangedIn b lo' hi' V W)
    (hb : a ≠ b ∨ job.extent ≤ lo' ∨ lo ≤ lo' ∧ hi' ≤ hi) : job.Split a f g lo hi W := by
  intro x hx
  refine ⟨fun hlt => ?_, fun hge => ?_⟩
  · rw [hc a x, (h x hx).1 hlt]
    rcases hb with hb | hb | hb
    · exact Or.inl hb
    · exact Or.inr (Or.inl (by omega))
    · exact Or.inr (Or.inl (by omega))
  · rw [hc a x, (h x hx).2 hge]
    rcases hb with hb | hb | hb
    · exact Or.inl hb
    · exact Or.inr (Or.inl (by omega))
    · exact Or.inr (Or.inr (by omega))

/-- The range in between is exchanged, too. -/
theorem Split.fill (h : job.Split a f g lo hi V)
    (hfill : ∀ x < job.extent, lo ≤ x → x < hi → V a x = g x) : job.Split a f g lo lo V := by
  intro x hx
  refine ⟨(h x hx).1, fun hge => ?_⟩
  rcases Nat.lt_or_ge x hi with hlt | hle
  · exact hfill x hx hge hlt
  · exact (h x hx).2 hle

end Split

variable {i k lo top : Nat}

/-- What is saved stays while scratch is not touched. -/
theorem Saved.changed (h : job.Saved i V) (hc : ChangedIn b lo top V W) (hb : b ≠ .imageScratch) :
    job.Saved i W := by
  intro x hx hx'
  rw [hc _ _ (Or.inl hb.symm)]
  exact h x hx hx'

theorem Record.changed (h : job.Record a k V) (hk : k < bootStatusEntries a) (he : TrailerEq cfg a V W) :
    job.Record a k W := ⟨he.fields.transfer h.fields, he.statusAt hk h.status⟩

/-- The record is in slot 0, but for the first range of a swap that reaches the trailer. -/
theorem recorded_slot (h : ¬ (job.UsesScratch ∧ k ≤ 2)) : job.Recorded k V ↔ job.Record .image0 k V := by
  rw [Recorded, if_neg h]

/-- Then it is in scratch, and slot 0 has no trailer or, in the end, the same record. -/
theorem recorded_scratch (h : job.UsesScratch) (hk : k ≤ 2) :
    job.Recorded k V ↔ job.Record .imageScratch k V
      ∧ (cfg.magicOf V .image0 ≠ .good ∨ k = 2 ∧ job.Record .image0 k V) := by
  rw [Recorded, if_pos ⟨h, hk⟩]

/-- What is recorded depends on the trailers of slot 0 and scratch. -/
theorem Recorded.changed (h : job.Recorded k V) (hk : k ≤ 3 * job.ranges)
    (h0 : TrailerEq cfg .image0 V W) (hs : TrailerEq cfg .imageScratch V W) : job.Recorded k W := by
  have hlt := job.ranges_lt
  by_cases hu : job.UsesScratch ∧ k ≤ 2
  · rw [recorded_scratch hu.1 hu.2] at h ⊢
    have hk2 : k < bootStatusEntries .imageScratch := Nat.lt_of_le_of_lt hu.2 (by decide)
    refine ⟨h.1.changed hk2 hs, ?_⟩
    rw [← h0.fields.magicOf]
    exact h.2.imp id fun hrec => ⟨hrec.1, hrec.2.changed (by omega) h0⟩
  · rw [recorded_slot hu] at h ⊢
    exact h.changed (by omega) h0

/-- In step 0 the scratch area is free. -/
theorem Stage.of_scratch (h : job.Stage i 0 V) (hpos : 0 < i) (hi : i ≤ job.ranges)
    (hc : ChangedIn .imageScratch lo top V W) : job.Stage i 0 W := by
  have hlt := job.ranges_lt
  have hu : ¬ (job.UsesScratch ∧ 3 * i + 0 ≤ 2) := by omega
  have h0 : TrailerEq cfg .image0 V W := hc.trailerEq (Or.inl (by decide))
  have h1 : TrailerEq cfg .image1 V W := hc.trailerEq (Or.inl (by decide))
  refine ⟨⟨h.content.1.changed hc (Or.inl (by decide)), h.content.2.changed hc (Or.inl (by decide))⟩, ?_, ?_⟩
  · have hrec := (recorded_slot hu).mp h.recorded
    exact (recorded_slot hu).mpr (hrec.changed (by omega) h0)
  · rw [← h1.fields.magicOf]
    exact h.cleared

/-- In step 1 the range of slot 1 is free, and as long as its trailer still counts, the rest behind the
extent. -/
theorem Stage.of_image1 (h : job.Stage i 1 V) (hi : i < job.ranges) (hc : ChangedIn .image1 lo top V W)
    (hrange : job.extent ≤ lo ∨ job.bound (i + 1) ≤ lo ∧ top ≤ job.bound i)
    (hclear : 0 < i → top ≤ cfg.statusOff .image1) : job.Stage i 1 W := by
  refine ⟨⟨h.content.1.changed hc (Or.inl (by decide)), h.content.2.1.changed hc (Or.inr hrange),
    h.content.2.2.changed hc (by decide)⟩, ?_, fun hk => ?_⟩
  · exact h.recorded.changed (by omega) (hc.trailerEq (Or.inl (by decide)))
      (hc.trailerEq (Or.inl (by decide)))
  · have h1 : TrailerEq cfg .image1 V W := hc.trailerEq (Or.inr (hclear (by omega)))
    rw [← h1.fields.magicOf]
    exact h.cleared hk

/-- In step 2 the range of slot 0 is free, as long as the record stays. -/
theorem Stage.of_image0 (h : job.Stage i 2 V) (hc : ChangedIn .image0 lo top V W)
    (hrange : job.extent ≤ lo ∨ job.bound (i + 1) ≤ lo ∧ top ≤ job.bound i)
    (hrec : job.Recorded (3 * i + 2) W) : job.Stage i 2 W := by
  have h1 : TrailerEq cfg .image1 V W := hc.trailerEq (Or.inl (by decide))
  refine ⟨⟨h.content.1.changed hc (Or.inr hrange), h.content.2.1.changed hc (Or.inl (by decide)),
    h.content.2.2.changed hc (by decide)⟩, hrec, ?_⟩
  rw [← h1.fields.magicOf]
  exact h.cleared

/-! ## Status bytes

An entry behind the last one is written, and the counter goes up by one. -/

/-- A status byte that is there, if only in part. -/
theorem Record.advance {state t : Nat} (h : job.Record a k V) (hk : k + 1 < bootStatusEntries a)
    (hstate : state ≤ 2) (ht : t ≠ 0) :
    job.Record a (k + 1) (V.put a (cfg.statusOff a + (k + 1) * cfg.programUnit)
      ((stateBuf cfg state).take t)) := by
  have hlen := length_stateBuf cfg state
  have hle := statusOff_add_le cfg a
  have hmul : (k + 1 + 1) * cfg.programUnit ≤ bootStatusEntries a * cfg.programUnit :=
    Nat.mul_le_mul_right _ hk
  rw [Nat.succ_mul (k + 1)] at hmul
  have hc : ChangedIn a (cfg.statusOff a) (bootSwapSizeOff cfg.toFlashMap a) V
      (V.put a (cfg.statusOff a + (k + 1) * cfg.programUnit) ((stateBuf cfg state).take t)) := by
    refine changedIn_put (Nat.le_add_right _ _) ?_
    rw [List.length_take]
    omega
  exact ⟨(hc.fieldsEq (Or.inr (Nat.le_refl _))).transfer h.fields, h.status.advance hstate ht⟩

/-- Status bytes are outside of the contents. -/
theorem Content.of_status {state : Nat} (h : job.Content i state V)
    (hc : ChangedIn b (cfg.statusOff b) top V W)
    (hb : b = .image0 ∨ b = .imageScratch ∧ (job.range i).copySz ≤ cfg.statusOff .imageScratch) :
    job.Content i state W := by
  have hext := job.extent_le
  have h0 : FlashArea.image0 ≠ b ∨ job.extent ≤ cfg.statusOff b := by
    rcases hb with rfl | ⟨rfl, _⟩
    · exact Or.inr hext
    · exact Or.inl (by decide)
  have h1 : FlashArea.image1 ≠ b := by
    rcases hb with rfl | ⟨rfl, _⟩
    · decide
    · decide
  have hslot0 : ∀ {lo hi : Nat}, job.Slot0 lo hi V → job.Slot0 lo hi W :=
    fun h => h.changed hc (h0.imp id Or.inl)
  have hslot1 : ∀ {lo hi : Nat}, job.Slot1 lo hi V → job.Slot1 lo hi W := fun h => h.changed hc (Or.inl h1)
  have hsaved : job.Saved i V → job.Saved i W := by
    intro h x hx hx'
    have hend := job.imgOff_add_copySz i
    rw [hc]
    · exact h x hx hx'
    · rcases hb with rfl | ⟨rfl, hle⟩
      · exact Or.inl (by decide)
      · exact Or.inr (Or.inl (by omega))
  -- the contents are built from the same three parts at every step
  match state with
  | 0 => exact ⟨hslot0 h.1, hslot1 h.2⟩
  | 1 => exact ⟨hslot0 h.1, hslot1 h.2.1, hsaved h.2.2⟩
  | _ + 2 => exact ⟨hslot0 h.1, hslot1 h.2.1, hsaved h.2.2⟩

/-- The status byte takes the swap to the next stage. -/
theorem wpa_advance {bs : BootStatus} (hk : 3 * bs.idx + bs.state = k + 1) (hstate : bs.state ≤ 2)
    (hidx : bs.idx ≤ job.ranges) (hidx' : 0 < bs.state → bs.idx < job.ranges)
    (hlt : k + 1 < bootStatusEntries bs.area) (hrec : job.Record bs.area k V) (hJ : job.Resumable V)
    (hcontent : job.Content bs.idx bs.state V) (hclear : 2 ≤ k + 1 → cfg.magicOf V .image1 = .unset)
    (hfits : bs.area = .image0 ∨ (job.range bs.idx).copySz ≤ cfg.statusOff .imageScratch)
    (hnext : ∀ W, FieldsEq cfg .image0 V W → job.Record bs.area (k + 1) W → job.Recorded (k + 1) W) :
    Wpa cfg job.Resumable (assertOk (bootWriteStatus cfg.toFlashMap bs) >>= fun _ => pure bs)
      (fun bs' r' W => bs' = bs ∧ r' = r ∧ job.Stage bs.idx bs.state W) r V := by
  have harea : bs.area = .image0 ∨ bs.area = .imageScratch := by
    unfold BootStatus.area
    split
    · exact Or.inr rfl
    · exact Or.inl rfl
  have hlen := length_stateBuf cfg bs.state
  have hle := statusOff_add_le cfg bs.area
  have hmul : (k + 1 + 1) * cfg.programUnit ≤ bootStatusEntries bs.area * cfg.programUnit :=
    Nat.mul_le_mul_right _ hlt
  rw [Nat.succ_mul (k + 1)] at hmul
  -- one byte is enough for the next stage: the rest of the program unit is `0xff` anyway
  have hstage : ∀ t ≠ 0, job.Stage bs.idx bs.state (V.put bs.area
      (cfg.statusOff bs.area + (k + 1) * cfg.programUnit) ((stateBuf cfg bs.state).take t)) := by
    intro t ht
    have hrec' := hrec.advance hlt hstate ht
    have hc : ChangedIn bs.area (cfg.statusOff bs.area) (bootSwapSizeOff cfg.toFlashMap bs.area) V
        (V.put bs.area (cfg.statusOff bs.area + (k + 1) * cfg.programUnit)
          ((stateBuf cfg bs.state).take t)) := by
      refine changedIn_put (Nat.le_add_right _ _) ?_
      rw [List.length_take]
      omega
    generalize V.put bs.area (cfg.statusOff bs.area + (k + 1) * cfg.programUnit)
      ((stateBuf cfg bs.state).take t) = W at hrec' hc ⊢
    have h1 : TrailerEq cfg .image1 V W := hc.trailerEq (Or.inl (by
      rcases harea with h | h
      · rw [h]
        decide
      · rw [h]
        decide))
    have h0 : FieldsEq cfg .image0 V W := hc.fieldsEq (by
      rcases harea with h | h
      · rw [h]
        exact Or.inr (Nat.le_refl _)
      · rw [h]
        exact Or.inl (by decide))
    refine ⟨hcontent.of_status hc ?_, hk ▸ hnext W h0 hrec', fun hk2 => ?_⟩
    · rcases harea with h | h
      · exact Or.inl h
      · refine Or.inr ⟨h, hfits.resolve_left ?_⟩
        rw [h]
        decide
    · rw [← h1.fields.magicOf]
      exact hclear (by omega)
  -- a cut in front of it leaves the stage before
  have hJ' : ∀ t, job.Resumable (V.put bs.area
      (cfg.statusOff bs.area + (k + 1) * cfg.programUnit) ((stateBuf cfg bs.state).take t)) := by
    intro t
    by_cases ht : t = 0
    · subst ht
      rwa [List.take_zero, Areas.put_nil]
    · exact Or.inr ⟨bs.idx, bs.state, hstage t ht, by omega, hstate, hidx, hidx'⟩
  have hdone := hstage cfg.programUnit (Nat.pos_iff_ne_zero.mp cfg.unit_pos)
  have hdone' := hJ' cfg.programUnit
  rw [List.take_of_length_le (Nat.le_of_eq hlen)] at hdone hdone'
  exact Wpa.bind (wpa_bootWriteStatus hk hlt hJ' (Wpa.pure hdone' ⟨rfl, rfl, hdone⟩)).assertOk

/-- The record is in slot 0. -/
theorem wpa_advance_slot {bs : BootStatus} (huse : bs.useScratch = false)
    (hk : 3 * bs.idx + bs.state = k + 1) (hstate : bs.state ≤ 2) (hidx : bs.idx ≤ job.ranges)
    (hidx' : 0 < bs.state → bs.idx < job.ranges) (hu : ¬ (job.UsesScratch ∧ k + 1 ≤ 2))
    (hrec : job.Record .image0 k V) (hJ : job.Resumable V) (hcontent : job.Content bs.idx bs.state V)
    (hclear : 2 ≤ k + 1 → cfg.magicOf V .image1 = .unset) :
    Wpa cfg job.Resumable (assertOk (bootWriteStatus cfg.toFlashMap bs) >>= fun _ => pure bs)
      (fun bs' r' W => bs' = bs ∧ r' = r ∧ job.Stage bs.idx bs.state W) r V := by
  have hlt := job.ranges_lt
  have harea : bs.area = .image0 := by
    unfold BootStatus.area
    rw [huse]
    rfl
  refine wpa_advance hk hstate hidx hidx' ?_ (harea ▸ hrec) hJ hcontent hclear (Or.inl harea)
    fun W _ hrec' => ?_
  · rw [harea]
    omega
  · rw [harea] at hrec'
    exact (recorded_slot hu).mpr hrec'

/-- The record is in scratch. -/
theorem wpa_advance_scratch {bs : BootStatus} (huse : bs.useScratch = true) (hidx : bs.idx = 0)
    (hk : bs.state = k + 1) (hstate : bs.state ≤ 2) (hu : job.UsesScratch)
    (hrec : job.Record .imageScratch k V) (hmagic : cfg.magicOf V .image0 ≠ .good) (hJ : job.Resumable V)
    (hcontent : job.Content 0 bs.state V) (hclear : 2 ≤ k + 1 → cfg.magicOf V .image1 = .unset)
    (hfits : (job.range 0).copySz ≤ cfg.statusOff .imageScratch) :
    Wpa cfg job.Resumable (assertOk (bootWriteStatus cfg.toFlashMap bs) >>= fun _ => pure bs)
      (fun bs' r' W => bs' = bs ∧ r' = r ∧ job.Stage 0 bs.state W) r V := by
  have hpos := job.ranges_pos
  have harea : bs.area = .imageScratch := by
    unfold BootStatus.area
    rw [huse]
    rfl
  rw [← hidx] at hcontent hfits ⊢
  refine wpa_advance (by omega) hstate (by omega) (by omega) ?_ (harea ▸ hrec) hJ hcontent hclear
    (Or.inr hfits) fun W h0 hrec' => ?_
  · rw [harea]
    exact Nat.lt_of_le_of_lt (hk ▸ hstate) (by decide)
  · rw [harea] at hrec'
    refine (recorded_scratch hu (by omega)).mpr ⟨hrec', Or.inl ?_⟩
    rwa [← h0.magicOf]

/-! ## Replacing a range

Every step erases a range and copies another one to it. -/

/-- The bytes of a copy. -/
theorem copied_apply {src dst : FlashArea} {offSrc offDst n x : Nat} (h : offDst ≤ x) (h' : x < offDst + n) :
    V.copied src dst offSrc offDst n dst x = V src (offSrc + (x - offDst)) := by
  rw [Areas.copied, Areas.put_apply_in h (by rwa [Row.length_get]), Row.getD_get _ _ _ (by omega)]

section Replace

variable {β : Type} {J : Areas → Prop} {src dst : FlashArea} {off c offSrc sz : Nat}
  {next : Unit → BootM β} {Q : β → BootLoaderState → Areas → Prop}

/-- A range of sectors gets `sz` bytes from another area; what is behind them in the range is erased. -/
structure Replaced (cfg : BootConfig) (src dst : FlashArea) (off c offSrc sz : Nat) (V W : Areas) :
    Prop where
  changed : ChangedIn dst off (off + c * cfg.sectorSize) V W
  copied : ∀ x, off ≤ x → x < off + sz → W dst x = V src (offSrc + (x - off))
  erased : ∀ x, off + sz ≤ x → x < off + c * cfg.sectorSize → W dst x = 0xff

/-- **Erase and copy.** The invariant holds after any number of erased sectors, and then after any
number of copied bytes. -/
theorem wpa_replace (hne : src ≠ dst) (hoff : off % cfg.sectorSize = 0)
    (hdst : off + c * cfg.sectorSize ≤ cfg.faSize dst) (hsrc : offSrc + sz ≤ cfg.faSize src)
    (hsz : sz ≤ c * cfg.sectorSize) (hmod : sz % cfg.programUnit = 0)
    (herase : ∀ j ≤ c, J (V.erase dst off (j * cfg.sectorSize)))
    (hcopy : ∀ k ≤ sz, J ((V.erase dst off (c * cfg.sectorSize)).copied src dst offSrc off k))
    (hnext : Replaced cfg src dst off c offSrc sz V
        ((V.erase dst off (c * cfg.sectorSize)).copied src dst offSrc off sz) →
      Wpa cfg J (next ()) Q r ((V.erase dst off (c * cfg.sectorSize)).copied src dst offSrc off sz)) :
    Wpa cfg J (assertOk (bootEraseSector cfg.toFlashMap dst off (c * cfg.sectorSize)) >>= fun _ =>
      assertOk (bootCopySector cfg.toFlashMap src dst offSrc off sz) >>= next) Q r V := by
  have hoff' : off % cfg.programUnit = 0 :=
    cfg.mod_unit (Nat.mod_eq_zero_of_dvd (Nat.dvd_trans (Nat.dvd_of_mod_eq_zero cfg.sector_aligned)
      (Nat.dvd_of_mod_eq_zero hoff)))
  refine Wpa.bind (wpa_flashAreaErase hdst hoff herase ?_).assertOk
  refine Wpa.bind (wpa_bootCopySector hne hsrc (by omega) hoff' hmod hcopy ?_).assertOk
  refine hnext ⟨?_, fun x hx hx' => ?_, fun x hx hx' => ?_⟩
  · exact (changedIn_erase (Nat.le_refl _) (Nat.le_refl _)).trans
      (changedIn_copied (Nat.le_refl _) (by omega))
  · rw [copied_apply hx hx', Areas.erase_of_ne _ hne]
  · rw [Areas.copied, Areas.put_apply_out (by rw [Row.length_get]; exact Or.inr hx),
      Areas.erase_apply_in (by omega) hx']

/-- The invariant says nothing about the range. -/
theorem wpa_replace_free (hne : src ≠ dst) (hoff : off % cfg.sectorSize = 0)
    (hdst : off + c * cfg.sectorSize ≤ cfg.faSize dst) (hsrc : offSrc + sz ≤ cfg.faSize src)
    (hsz : sz ≤ c * cfg.sectorSize) (hmod : sz % cfg.programUnit = 0)
    (hJ : ∀ W, ChangedIn dst off (off + c * cfg.sectorSize) V W → J W)
    (hnext : ∀ W, Replaced cfg src dst off c offSrc sz V W → Wpa cfg J (next ()) Q r W) :
    Wpa cfg J (assertOk (bootEraseSector cfg.toFlashMap dst off (c * cfg.sectorSize)) >>= fun _ =>
      assertOk (bootCopySector cfg.toFlashMap src dst offSrc off sz) >>= next) Q r V := by
  refine wpa_replace hne hoff hdst hsrc hsz hmod (fun j hj => ?_) (fun k hk => ?_) (hnext _)
  · exact hJ _ (changedIn_erase (Nat.le_refl _) (Nat.add_le_add_left (Nat.mul_le_mul_right _ hj) _))
  · exact hJ _ ((changedIn_erase (Nat.le_refl _) (Nat.le_refl _)).trans
      (changedIn_copied (Nat.le_refl _) (by omega)))

end Replace

end SwapJob

end Tfm.Boot
