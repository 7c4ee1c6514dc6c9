import TrustedFirmware.Lib.Device

/-!
# Drivers that undo nothing because they did nothing

Some calls of a driver may fail, others are reliable. A driver that works on a copy and switches
over at the end is atomic with respect to an invariant `I` of the original: when one of its calls
fails, `I` holds at the end, and when none fails, the run is the fault-free one (`Atomic.cases`).

* `OnlyFails` — which calls of a log may have failed;
* `Yields` — `m` keeps `I` whatever fails, and returns values in `V`;
* `Atomic` — `m` keeps `I` if one of its calls fails. The rule for sequencing (`Atomic.bind`) asks
  that the first part keeps `I` and reports what failed; the last part may break `I`, provided it
  issues reliable calls only (`Atomic.of_reliable`).
-/

namespace Device

variable {C R ε ρ σ α β : Type} {D : Model C R σ} {F : C → Prop} {I : ρ → σ → Prop}

/-! ## Runs without a failure

What a log says about the calls that failed, and runs in which none did. -/

/-- The calls of the log that failed are in `F`. -/
def OnlyFails (F : C → Prop) (log : List (C × Bool)) : Prop := ∀ c, (c, false) ∈ log → F c

instance [DecidablePred F] (log : List (C × Bool)) : Decidable (OnlyFails F log) :=
  decidable_of_iff (∀ p ∈ log, p.2 = false → F p.1)
    ⟨fun h c hc => h _ hc rfl, fun h ⟨c, b⟩ hp hb => h c (by cases hb; exact hp)⟩

theorem OnlyFails.append_iff {l l' : List (C × Bool)} :
    OnlyFails F (l ++ l') ↔ OnlyFails F l ∧ OnlyFails F l' := by
  refine ⟨fun h => ⟨fun c hc => h c (List.mem_append_left _ hc),
    fun c hc => h c (List.mem_append_right _ hc)⟩, fun h c hc => ?_⟩
  rcases List.mem_append.mp hc with hc | hc
  · exact h.1 c hc
  · exact h.2 c hc

/-- A run in which nothing failed is the fault-free run. -/
theorem exec_eq_noFaults {fails : Nat → Bool} {n : Nat} {m : M C R ε ρ α} {r : ρ} {s : σ}
    (h : ∀ c, (c, false) ∉ (exec D fails n m r s).log) (k : Nat) :
    exec D fails n m r s = exec D noFaults k m r s := by
  obtain ⟨v, r', l, hruns⟩ := exists_runs D m r s
  rw [exec_eq_of_no_failure hruns h, hruns k]

/-- Faults that come too early do not matter. -/
theorem Prog.run_of_fails_before {fails : Nat → Bool} (p : Prog C R α) {n : Nat} (s : σ)
    (h : ∀ k, n ≤ k → fails k = false) : p.run D fails n s = p.run D noFaults n s := by
  induction p generalizing n s with
  | ret a => rfl
  | call c k ih =>
    rw [Prog.run, Prog.run, h n (Nat.le_refl n)]
    simp only [noFaults, Bool.false_eq_true, if_false]
    rw [ih _ _ fun j hj => h j (Nat.le_of_succ_le hj)]

theorem exec_of_fails_before {fails : Nat → Bool} {n : Nat} (m : M C R ε ρ α) (r : ρ) (s : σ)
    (h : ∀ k, n ≤ k → fails k = false) : exec D fails n m r s = exec D noFaults n m r s := by
  rw [exec, Prog.run_of_fails_before _ _ h]
  rfl

/-! ## Invariants with values

`Always`, with the values that are returned. The rest of a program needs them: a call may keep the
invariant only for the indices that an earlier part can return. -/

/-- Whatever fails, `m` keeps `I` and returns values in `V`. -/
def Yields (D : Model C R σ) (I : ρ → σ → Prop) (V : α → Prop) (m : M C R ε ρ α) : Prop :=
  ∀ fails n r s, I r s →
    I (exec D fails n m r s).mem (exec D fails n m r s).dev
      ∧ ∀ a, (exec D fails n m r s).val = .ok a → V a

section Yields

variable {V : α → Prop} {W : β → Prop}

theorem Yields.mono {V' : α → Prop} {m : M C R ε ρ α} (hm : Yields D I V m)
    (h : ∀ a, V a → V' a) : Yields D I V' m :=
  fun fails n r s hI => (hm fails n r s hI).imp_right fun hV a ha => h a (hV a ha)

theorem Yields.pure {a : α} (ha : V a) : Yields D I V (pure a : M C R ε ρ α) := by
  intro fails n r s hI
  refine ⟨hI, fun b hb => ?_⟩
  cases hb
  exact ha

theorem Yields.fail (e : ε) : Yields D I V (M.fail e : M C R ε ρ α) :=
  fun _ _ _ _ hI => ⟨hI, fun _ hb => by cases hb⟩

theorem Yields.ofExcept {x : Except ε α} (h : ∀ a, x = .ok a → V a) :
    Yields D I V (M.ofExcept x : M C R ε ρ α) := by
  cases x with
  | ok a => exact Yields.pure (h a rfl)
  | error e => exact Yields.fail e

theorem Yields.modifyMem {f : ρ → ρ} (h : ∀ r s, I r s → I (f r) s) :
    Yields D I (fun _ => True) (M.modifyMem f : M C R ε ρ Unit) :=
  fun _ _ r s hI => ⟨h r s hI, fun _ _ => trivial⟩

/-- The invariant says what a call returns. -/
theorem Yields.call {V : R → Prop} {c : C} (e : ε) (hI : ∀ r s, I r s → I r (D.next c s))
    (hV : ∀ r s, I r s → V (D.resp c s)) : Yields D I V (M.call c e : M C R ε ρ R) := by
  intro fails n r s h
  rw [exec_call]
  split
  · exact ⟨h, fun a ha => by cases ha⟩
  · refine ⟨hI r s h, fun a ha => ?_⟩
    cases ha
    exact hV r s h

/-- The second part may use what the first one returns. -/
theorem Yields.bind {m : M C R ε ρ α} {k : α → M C R ε ρ β} (hm : Yields D I V m)
    (hk : ∀ a, V a → Yields D I W (k a)) : Yields D I W (m >>= k) := by
  intro fails n r s hI
  have h1 := hm fails n r s hI
  rw [exec_bind]
  rcases hx : exec D fails n m r s with ⟨_ | a, r', s', l⟩ <;> rw [hx] at h1
  · exact ⟨h1.1, fun b hb => by cases hb⟩
  · exact hk a (h1.2 a rfl) fails _ r' s' h1.1

/-- A part that is only run under a condition. -/
theorem Yields.when_bind {c : Prop} [Decidable c] {m : M C R ε ρ Unit} {k : Unit → M C R ε ρ β}
    (hm : c → Yields D I (fun _ => True) m) (hk : Yields D I W (k ())) :
    Yields D I W (if c then m >>= k else k ()) := by
  split
  · rename_i hc
    exact (hm hc).bind fun _ _ => hk
  · exact hk

/-- Reading the memory: the continuation may use that the invariant holds of it. -/
theorem Yields.getMem_bind {k : ρ → M C R ε ρ β}
    (hk : ∀ r, (∃ s, I r s) → Yields D I W (k r)) : Yields D I W (M.getMem >>= k) := by
  intro fails n r s hI
  rw [exec_bind]
  exact hk r ⟨s, hI⟩ fails _ r s hI

theorem Yields.attempt {m : M C R ε ρ α} (hm : Yields D I V m) :
    Yields D I (fun x => ∀ a, x = .ok a → V a) (M.attempt m) := by
  intro fails n r s hI
  have h := hm fails n r s hI
  rw [exec_attempt]
  refine ⟨h.1, fun x hx => ?_⟩
  cases hx
  exact h.2

theorem Yields.orElse {m : M C R ε ρ α} (e : ε) (hm : Yields D I V m) :
    Yields D I V (M.orElse m e) := by
  intro fails n r s hI
  have h := hm fails n r s hI
  rw [exec_orElse]
  rcases hx : exec D fails n m r s with ⟨_ | a, r', s', l⟩ <;> rw [hx] at h
  · exact ⟨h.1, fun b hb => by cases hb⟩
  · exact h

end Yields

/-! ## Atomicity

The parts of an update on a copy keep the invariant of the original. Only the switch at the end
breaks it, and by then nothing may fail any more. -/

/-- If one of its calls fails, a call in `F`, then `m` keeps `I`. -/
def Atomic (D : Model C R σ) (F : C → Prop) (I : ρ → σ → Prop) (m : M C R ε ρ α) : Prop :=
  ∀ fails n r s, I r s → OnlyFails F (exec D fails n m r s).log →
    (∃ c, (c, false) ∈ (exec D fails n m r s).log) →
      I (exec D fails n m r s).mem (exec D fails n m r s).dev

section Atomic

variable {V P : α → Prop}

theorem Yields.atomic {m : M C R ε ρ α} (hm : Yields D I V m) : Atomic D F I m :=
  fun fails n r s hI _ _ => (hm fails n r s hI).1

/-- Reliable calls cannot fail. -/
theorem Atomic.of_reliable {m : M C R ε ρ α}
    (hm : Always D (fun _ _ => True) (fun c => ¬ F c) m) : Atomic D F I m := by
  rintro fails n r s - hF ⟨c, hc⟩
  -- a failed call is in `F`, and the calls of `m` are not
  exact absurd (hF c hc) ((hm fails n r s trivial).2 _ hc)

/-- Sequencing. The first part keeps `I`; where it hands on a value in `P` nothing in it has
failed, where it hands on another value the rest keeps `I` as well. -/
theorem Atomic.bind' {m : M C R ε ρ α} {k : α → M C R ε ρ β} (hm : Yields D I V m)
    (hr : Reports D (fun c => ¬ F c) P m) (hk : ∀ a, V a → P a → Atomic D F I (k a))
    (hn : ∀ a, V a → ¬ P a → Yields D I (fun _ => True) (k a)) : Atomic D F I (m >>= k) := by
  intro fails n r s hI hF hfail
  have h1 := hm fails n r s hI
  have hr1 := hr fails n r s
  rw [exec_bind] at hF hfail ⊢
  rcases hx : exec D fails n m r s with ⟨_ | a, r', s', l⟩ <;> rw [hx] at h1 hr1 hF hfail
  · exact h1.1
  · obtain ⟨hF1, hF2⟩ := OnlyFails.append_iff.mp hF
    by_cases hP : P a
    · refine hk a (h1.2 a rfl) hP fails _ r' s' h1.1 hF2 ?_
      -- the failed call is not one of the first part, which reports its failures
      obtain ⟨c, hc⟩ := hfail
      rcases List.mem_append.mp hc with hc | hc
      · exact absurd (hF1 c hc) (hr1 a rfl hP c hc)
      · exact ⟨c, hc⟩
    · exact (hn a (h1.2 a rfl) hP fails _ r' s' h1.1).1

/-- Sequencing, where every value of the first part is good. -/
theorem Atomic.bind {m : M C R ε ρ α} {k : α → M C R ε ρ β} (hm : Yields D I V m)
    (hr : Reports D (fun c => ¬ F c) (fun _ => True) m) (hk : ∀ a, V a → Atomic D F I (k a)) :
    Atomic D F I (m >>= k) :=
  Atomic.bind' hm hr (fun a ha _ => hk a ha) fun _ _ hP => absurd trivial hP

theorem Atomic.attempt {m : M C R ε ρ α} (hm : Atomic D F I m) : Atomic D F I (M.attempt m) := by
  intro fails n r s hI
  have h := hm fails n r s hI
  rw [exec_attempt]
  exact h

theorem Atomic.orElse {m : M C R ε ρ α} (e : ε) (hm : Atomic D F I m) :
    Atomic D F I (M.orElse m e) := by
  intro fails n r s hI
  have h := hm fails n r s hI
  rw [exec_orElse]
  rcases hx : exec D fails n m r s with ⟨_ | a, r', s', l⟩ <;> rw [hx] at h <;> exact h

/-- The last step only hands on a value. -/
theorem Atomic.bind_pure {m : M C R ε ρ α} (hm : Atomic D F I m) (b : β) :
    Atomic D F I (m >>= fun _ => Pure.pure b) := by
  intro fails n r s hI hF hfail
  have h := hm fails n r s hI
  rw [exec_bind] at hF hfail ⊢
  rcases hx : exec D fails n m r s with ⟨_ | a, r', s', l⟩ <;> rw [hx] at h hF hfail
  · exact h hF hfail
  · simp only [Result.after, exec_pure, List.append_nil] at hF hfail ⊢
    exact h hF hfail

/-- All or nothing. -/
theorem Atomic.cases {m : M C R ε ρ α} (hm : Atomic D F I m) {fails : Nat → Bool} {n : Nat} {r : ρ}
    {s : σ} (hI : I r s) (hF : OnlyFails F (exec D fails n m r s).log) :
    I (exec D fails n m r s).mem (exec D fails n m r s).dev
      ∨ ∀ k, exec D fails n m r s = exec D noFaults k m r s := by
  by_cases hfail : ∃ c, (c, false) ∈ (exec D fails n m r s).log
  · exact Or.inl (hm fails n r s hI hF hfail)
  · exact Or.inr fun k => exec_eq_noFaults (fun c hc => hfail ⟨c, hc⟩) k

end Atomic

/-- A driver that reports every failure reports those of fewer calls. -/
theorem Reports.mono {X X' : C → Prop} {P : α → Prop} {m : M C R ε ρ α} (hm : Reports D X P m)
    (h : ∀ c, X c → X' c) : Reports D X' P m :=
  fun fails n r s a ha hP c hc => h c (hm fails n r s a ha hP c hc)

end Device
