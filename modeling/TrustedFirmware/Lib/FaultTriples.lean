import TrustedFirmware.Lib.Device

/-!
# Triples for drivers whose calls may fail

`Triple D P m Q`: whichever calls fail, a run of `m` that starts in `P` and succeeds ends in `Q`. A
program that only reads leaves memory and device alone even when it fails (`ReadOnly`), so that it
keeps every assertion.

Triples say nothing about a run that fails, so that `Triple.fail` asks for nothing. A failed call
inside of `M.attempt` is handed on as a value, and the caller has to deal with it.
-/

namespace Device

variable {C R ε ρ σ α β : Type} {D : Model C R σ}

/-! ## Programs that only read

One rule for each constructor but `modifyMem`. -/

/-- Whatever fails, memory and device stay as they are. -/
def ReadOnly (D : Model C R σ) (m : M C R ε ρ α) : Prop :=
  ∀ fails n r s, (exec D fails n m r s).mem = r ∧ (exec D fails n m r s).dev = s

section ReadOnly

theorem ReadOnly.pure (a : α) : ReadOnly D (pure a : M C R ε ρ α) := fun _ _ _ _ => ⟨rfl, rfl⟩

theorem ReadOnly.fail (e : ε) : ReadOnly D (M.fail e : M C R ε ρ α) := fun _ _ _ _ => ⟨rfl, rfl⟩

/-- A call that leaves the device alone. -/
theorem ReadOnly.call {c : C} (e : ε) (h : ∀ s, D.next c s = s) : ReadOnly D (M.call c e : M C R ε ρ R) := by
  intro fails n r s
  rw [exec_call]
  split
  · exact ⟨rfl, rfl⟩
  · exact ⟨rfl, h s⟩

theorem ReadOnly.bind {m : M C R ε ρ α} {k : α → M C R ε ρ β} (hm : ReadOnly D m)
    (hk : ∀ a, ReadOnly D (k a)) : ReadOnly D (m >>= k) := by
  intro fails n r s
  have h := hm fails n r s
  rw [exec_bind]
  rcases hx : exec D fails n m r s with ⟨_ | a, r', s', l⟩ <;> rw [hx] at h
  · exact h
  · -- the second part starts where the first one started
    obtain ⟨rfl, rfl⟩ := h
    exact hk a fails _ _ _

theorem ReadOnly.attempt {m : M C R ε ρ α} (hm : ReadOnly D m) : ReadOnly D (M.attempt m) := by
  intro fails n r s
  rw [exec_attempt]
  exact hm fails n r s

theorem ReadOnly.orElse {m : M C R ε ρ α} (e : ε) (hm : ReadOnly D m) : ReadOnly D (M.orElse m e) := by
  intro fails n r s
  have h := hm fails n r s
  rw [exec_orElse]
  rcases hx : exec D fails n m r s with ⟨_ | a, r', s', l⟩ <;> rw [hx] at h
  · exact h
  · exact h

end ReadOnly

/-! ## Triples

The rules of a Hoare logic for successes. -/

/-- A success of `m` takes `P` to `Q`. -/
def Triple (D : Model C R σ) (P : ρ → σ → Prop) (m : M C R ε ρ α) (Q : α → ρ → σ → Prop) : Prop :=
  ∀ fails n r s, P r s → ∀ a, (exec D fails n m r s).val = .ok a →
    Q a (exec D fails n m r s).mem (exec D fails n m r s).dev

section Triple

variable {P P' : ρ → σ → Prop} {Q Q' : α → ρ → σ → Prop} {S : β → ρ → σ → Prop}

theorem Triple.pure {a : α} (h : ∀ r s, P r s → Q a r s) : Triple D P (pure a : M C R ε ρ α) Q := by
  intro fails n r s hP b hb
  cases hb
  exact h r s hP

theorem Triple.fail (e : ε) : Triple D P (M.fail e : M C R ε ρ α) Q := by
  intro fails n r s _ a ha
  cases ha

/-- Only the effect of a call that succeeds matters. -/
theorem Triple.call {Q : R → ρ → σ → Prop} {c : C} (e : ε) (h : ∀ r s, P r s → Q (D.resp c s) r (D.next c s)) :
    Triple D P (M.call c e : M C R ε ρ R) Q := by
  intro fails n r s hP a
  rw [exec_call]
  split
  · intro ha
    cases ha
  · intro ha
    cases ha
    exact h r s hP

theorem Triple.modifyMem {f : ρ → ρ} {Q : Unit → ρ → σ → Prop} (h : ∀ r s, P r s → Q () (f r) s) :
    Triple D P (M.modifyMem f : M C R ε ρ Unit) Q := fun _ _ r s hP _ _ => h r s hP

/-- Nothing is claimed. -/
theorem Triple.top (m : M C R ε ρ α) : Triple D P m fun _ _ _ => True := fun _ _ _ _ _ _ _ => trivial

theorem Triple.conseq {m : M C R ε ρ α} (h : Triple D P m Q) (hP : ∀ r s, P' r s → P r s)
    (hQ : ∀ a r s, Q a r s → Q' a r s) : Triple D P' m Q' :=
  fun fails n r s hs a ha => hQ a _ _ (h fails n r s (hP r s hs) a ha)

theorem Triple.bind {m : M C R ε ρ α} {k : α → M C R ε ρ β} (hm : Triple D P m Q)
    (hk : ∀ a, Triple D (Q a) (k a) S) : Triple D P (m >>= k) S := by
  intro fails n r s hP b hb
  have h1 := hm fails n r s hP
  rw [exec_bind] at hb ⊢
  rcases hx : exec D fails n m r s with ⟨_ | a, r', s', l⟩ <;> rw [hx] at h1 hb
  · cases hb
  · exact hk a fails _ r' s' (h1 a rfl) b hb

theorem Triple.pure_bind {a : α} {k : α → M C R ε ρ β} (h : Triple D P (k a) S) :
    Triple D P (Pure.pure a >>= k) S := h

/-- The memory that is read is the one of the state. -/
theorem Triple.getMem_bind {k : ρ → M C R ε ρ β} (h : ∀ r₀, Triple D (fun r s => P r s ∧ r = r₀) (k r₀) S) :
    Triple D P (M.getMem >>= k) S := by
  intro fails n r s hP
  rw [exec_bind]
  exact h r fails _ r s ⟨hP, rfl⟩

theorem Triple.orElse {m : M C R ε ρ α} (e : ε) (h : Triple D P m Q) : Triple D P (M.orElse m e) Q := by
  intro fails n r s hP a ha
  have h1 := h fails n r s hP
  rw [exec_orElse] at ha ⊢
  rcases hx : exec D fails n m r s with ⟨_ | b, r', s', l⟩ <;> rw [hx] at h1 ha
  · cases ha
  · exact h1 a ha

/-- A result code: if it is a success, the postcondition holds. -/
theorem Triple.attempt {m : M C R ε ρ α} (h : Triple D P m Q) :
    Triple D P (M.attempt m) fun o r s => ∀ a, o = .ok a → Q a r s := by
  intro fails n r s hP o ho a hoa
  have h1 := h fails n r s hP
  rw [exec_attempt] at ho ⊢
  exact h1 a ((Except.ok.inj ho).trans hoa)

/-- The state of the start may be named. -/
theorem Triple.start {m : M C R ε ρ α} (h : ∀ r₀ s₀, P r₀ s₀ → Triple D (fun _ s => s = s₀) m Q) :
    Triple D P m Q := fun fails n r s hP => h r s hP fails n r s rfl

/-- A program that only reads keeps what holds. -/
theorem ReadOnly.triple {m : M C R ε ρ α} (h : ReadOnly D m) : Triple D P m fun _ r s => P r s := by
  intro fails n r s hP a _
  obtain ⟨hr, hs⟩ := h fails n r s
  rwa [hr, hs]

end Triple

end Device
