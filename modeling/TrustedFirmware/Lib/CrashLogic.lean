import TrustedFirmware.Lib.Device

/-!
# Programs that may be cut off

Power can be lost at any call of a program, and the call it hits may be torn. `Wpc D torn I m Q` is
the weakest precondition for this: without a cut `m` succeeds and `Q` holds at the end, and wherever
it is cut, the device is left in the invariant `I`. There is one rule for each constructor of the
driver monad. A program that keeps its own precondition as the invariant can be cut any number of
times and started again (`Interrupted.keeps`), so what it guarantees from there holds after all of
them.

What a torn call leaves is up to the device: `torn c s g` relates the state before the call to those
that a cut in it may leave. The invariant speaks about the device only, since memory is lost with
the power.
-/

namespace Device

variable {C R ε ρ σ α β : Type}

/-! ## Cuts

A cut and the weakest precondition on call trees. Both are defined by recursion on the tree, and
every fact about them is proved by induction on it. -/

/-- The states that a cut leaves: a call is torn, or all calls before the end are complete. -/
def Prog.Cut (D : Model C R σ) (torn : C → σ → σ → Prop) : Prog C R α → σ → σ → Prop
  | .ret _, s, g => g = s
  | .call c k, s, g => torn c s g ∨ (k (some (D.resp c s))).Cut D torn (D.next c s) g

/-- The weakest precondition of a call tree. -/
def Prog.Wpc (D : Model C R σ) (torn : C → σ → σ → Prop) (I : σ → Prop) :
    Prog C R α → (α → σ → Prop) → σ → Prop
  | .ret a, Q, s => I s ∧ Q a s
  | .call c k, Q, s =>
    (∀ g, torn c s g → I g) ∧ (k (some (D.resp c s))).Wpc D torn I Q (D.next c s)

/-- The call with a number, when nothing fails, and the state in which it is made. -/
def Prog.callAt (D : Model C R σ) : Prog C R α → Nat → σ → Option (C × σ)
  | .ret _, _, _ => none
  | .call c _, 0, s => some (c, s)
  | .call c k, n + 1, s => (k (some (D.resp c s))).callAt D n (D.next c s)

section Prog

variable {D : Model C R σ} {torn : C → σ → σ → Prop} {I J : σ → Prop}

/-- Any call may be torn. -/
theorem Prog.Cut.of_callAt {n : Nat} {p : Prog C R α} {s s' g : σ} {c : C}
    (h : p.callAt D n s = some (c, s')) (htorn : torn c s' g) : p.Cut D torn s g := by
  induction p generalizing n s with
  | ret a => cases n <;> cases h
  | call c₀ k ih =>
    cases n with
    | zero =>
      cases h
      exact Or.inl htorn
    | succ n => exact Or.inr (ih _ h)

theorem Prog.Wpc.mono {p : Prog C R α} {Q Q' : α → σ → Prop} {s : σ} (h : p.Wpc D torn I Q s)
    (hI : ∀ g, I g → J g) (hQ : ∀ a g, I g → Q a g → Q' a g) : p.Wpc D torn J Q' s := by
  induction p generalizing s with
  | ret a => exact ⟨hI s h.1, hQ a s h.1 h.2⟩
  | call c k ih => exact ⟨fun g hg => hI g (h.1 g hg), ih _ h.2⟩

theorem Prog.Wpc.bind {p : Prog C R α} {f : α → Prog C R β} {Q : β → σ → Prop} {s : σ}
    (h : p.Wpc D torn I (fun a g => (f a).Wpc D torn I Q g) s) : (p.bind f).Wpc D torn I Q s := by
  induction p generalizing s with
  | ret a => exact h.2
  | call c k ih => exact ⟨h.1, ih _ h.2⟩

/-- Wherever the tree is cut, the invariant holds. -/
theorem Prog.Wpc.cut {p : Prog C R α} {Q : α → σ → Prop} {s g : σ} (h : p.Wpc D torn I Q s)
    (hg : p.Cut D torn s g) : I g := by
  induction p generalizing s with
  | ret a =>
    rw [Prog.Cut] at hg
    exact hg ▸ h.1
  | call c k ih =>
    -- the first call is torn, or it is complete and the cut comes later
    rcases hg with hg | hg
    · exact h.1 g hg
    · exact ih _ h.2 hg

/-- Without a cut the postcondition holds. -/
theorem Prog.Wpc.run {p : Prog C R α} {Q : α → σ → Prop} {s : σ} (h : p.Wpc D torn I Q s) (n : Nat) :
    Q (p.run D noFaults n s).val (p.run D noFaults n s).dev := by
  induction p generalizing s n with
  | ret a => exact h.2
  | call c k ih => exact ih _ h.2 (n + 1)

end Prog

/-! ## Drivers

The precondition of a driver asks for a success: an error would leave the run without a result. -/

/-- Without a cut `m` succeeds and establishes `Q`, and a cut leaves `I`. -/
def Wpc (D : Model C R σ) (torn : C → σ → σ → Prop) (I : σ → Prop) (m : M C R ε ρ α)
    (Q : α → ρ → σ → Prop) (r : ρ) (s : σ) : Prop :=
  (m r).Wpc D torn I (fun x g => ∃ a, x.1 = .ok a ∧ Q a x.2 g) s

section Rules

variable {D : Model C R σ} {torn : C → σ → σ → Prop} {I : σ → Prop} {r : ρ} {s : σ}

theorem Wpc.pure {a : α} {Q : α → ρ → σ → Prop} (hI : I s) (hQ : Q a r s) :
    Wpc D torn I (pure a : M C R ε ρ α) Q r s := ⟨hI, a, rfl, hQ⟩

theorem Wpc.getMem {Q : ρ → ρ → σ → Prop} (hI : I s) (hQ : Q r r s) :
    Wpc D torn I (M.getMem : M C R ε ρ ρ) Q r s := ⟨hI, r, rfl, hQ⟩

theorem Wpc.modifyMem {f : ρ → ρ} {Q : Unit → ρ → σ → Prop} (hI : I s) (hQ : Q () (f r) s) :
    Wpc D torn I (M.modifyMem f : M C R ε ρ Unit) Q r s := ⟨hI, (), rfl, hQ⟩

/-- A call may be torn, or complete. -/
theorem Wpc.call {c : C} {e : ε} {Q : R → ρ → σ → Prop} (htorn : ∀ g, torn c s g → I g)
    (hI : I (D.next c s)) (hQ : Q (D.resp c s) r (D.next c s)) :
    Wpc D torn I (M.call c e : M C R ε ρ R) Q r s := ⟨htorn, hI, D.resp c s, rfl, hQ⟩

/-- The postcondition may be weakened, using that the invariant holds at the end. -/
theorem Wpc.mono {m : M C R ε ρ α} {Q Q' : α → ρ → σ → Prop} (h : Wpc D torn I m Q r s)
    (hQ : ∀ a r' g, I g → Q a r' g → Q' a r' g) : Wpc D torn I m Q' r s := by
  refine Prog.Wpc.mono h (fun _ hg => hg) fun x g hI hx => ?_
  obtain ⟨a, ha, hQa⟩ := hx
  exact ⟨a, ha, hQ a x.2 g hI hQa⟩

/-- The invariant may be weakened. -/
theorem Wpc.weaken {I' : σ → Prop} {m : M C R ε ρ α} {Q : α → ρ → σ → Prop} (h : Wpc D torn I m Q r s)
    (hI : ∀ g, I g → I' g) : Wpc D torn I' m Q r s := Prog.Wpc.mono h hI fun _ _ _ hQ => hQ

/-- The second part starts where the first one ends. -/
theorem Wpc.bind {m : M C R ε ρ α} {k : α → M C R ε ρ β} {Q : β → ρ → σ → Prop}
    (h : Wpc D torn I m (fun a r' g => Wpc D torn I (k a) Q r' g) r s) :
    Wpc D torn I (m >>= k) Q r s := by
  refine Prog.Wpc.bind (Prog.Wpc.mono h (fun _ hg => hg) fun x g _ hx => ?_)
  obtain ⟨a, ha, hk⟩ := hx
  rw [ha]
  exact hk

/-- A result code that is handed to the caller. -/
theorem Wpc.attempt {m : M C R ε ρ α} {Q : Except ε α → ρ → σ → Prop}
    (h : Wpc D torn I m (fun a r' g => Q (.ok a) r' g) r s) :
    Wpc D torn I (M.attempt m) Q r s := by
  refine Prog.Wpc.bind (Prog.Wpc.mono h (fun _ hg => hg) fun x g hI hx => ?_)
  obtain ⟨a, ha, hQ⟩ := hx
  refine ⟨hI, x.1, rfl, ?_⟩
  rw [ha]
  exact hQ

/-- The error code does not matter to a success. -/
theorem Wpc.orElse {m : M C R ε ρ α} {e : ε} {Q : α → ρ → σ → Prop} (h : Wpc D torn I m Q r s) :
    Wpc D torn I (M.orElse m e) Q r s := by
  refine Prog.Wpc.bind (Prog.Wpc.mono h (fun _ hg => hg) fun x g hI hx => ?_)
  obtain ⟨a, ha, hQ⟩ := hx
  rw [ha]
  exact ⟨hI, a, rfl, hQ⟩

/-- What a precondition says of a run without a cut. -/
theorem Wpc.exec {m : M C R ε ρ α} {Q : α → ρ → σ → Prop} (h : Wpc D torn I m Q r s) (n : Nat) :
    ∃ a, (exec D noFaults n m r s).val = .ok a
      ∧ Q a (exec D noFaults n m r s).mem (exec D noFaults n m r s).dev :=
  Prog.Wpc.run h n

end Rules

/-! ## Reading

What only reads leaves nothing for a cut to tear: it keeps whatever invariant holds in front of it. -/

/-- `m` only reads: it returns `a` and leaves memory and device as they are. -/
def Observes (D : Model C R σ) (torn : C → σ → σ → Prop) (m : M C R ε ρ α) (r : ρ) (s : σ) (a : α) :
    Prop :=
  ∀ I : σ → Prop, I s → Wpc D torn I m (fun b r' g => b = a ∧ r' = r ∧ g = s) r s

section Observes

variable {D : Model C R σ} {torn : C → σ → σ → Prop} {I : σ → Prop} {r : ρ} {s : σ} {a : α}

theorem Observes.pure (a : α) : Observes D torn (pure a : M C R ε ρ α) r s a :=
  fun _ hI => Wpc.pure hI ⟨rfl, rfl, rfl⟩

theorem Observes.getMem : Observes D torn (M.getMem : M C R ε ρ ρ) r s r :=
  fun _ hI => Wpc.getMem hI ⟨rfl, rfl, rfl⟩

/-- A call that returns something and changes nothing. -/
theorem Observes.call {c : C} {e : ε} (htorn : ∀ g, torn c s g → g = s) (hnext : D.next c s = s) :
    Observes D torn (M.call c e : M C R ε ρ R) r s (D.resp c s) := by
  intro I hI
  refine Wpc.call (fun g hg => (htorn g hg).symm ▸ hI) ?_ ⟨rfl, rfl, hnext⟩
  rw [hnext]
  exact hI

theorem Observes.bind {m : M C R ε ρ α} {k : α → M C R ε ρ β} {b : β} (hm : Observes D torn m r s a)
    (hk : Observes D torn (k a) r s b) : Observes D torn (m >>= k) r s b := by
  intro I hI
  refine Wpc.bind (Wpc.mono (hm I hI) fun a' r' g _ h => ?_)
  obtain ⟨rfl, rfl, rfl⟩ := h
  exact hk I hI

theorem Observes.attempt {m : M C R ε ρ α} (hm : Observes D torn m r s a) :
    Observes D torn (M.attempt m) r s (.ok a) := by
  intro I hI
  refine Wpc.attempt (Wpc.mono (hm I hI) fun a' r' g _ h => ?_)
  obtain ⟨rfl, rfl, rfl⟩ := h
  exact ⟨rfl, rfl, rfl⟩

/-- A program that first reads. -/
theorem Observes.wpc_bind {m : M C R ε ρ α} {k : α → M C R ε ρ β} {Q : β → ρ → σ → Prop}
    (hm : Observes D torn m r s a) (hI : I s) (hk : Wpc D torn I (k a) Q r s) :
    Wpc D torn I (m >>= k) Q r s := by
  refine Wpc.bind (Wpc.mono (hm I hI) fun a' r' g _ h => ?_)
  obtain ⟨rfl, rfl, rfl⟩ := h
  exact hk

end Observes

/-! ## Restarts

A boot loader is started again after every cut, with an empty memory and what is left on the device. -/

/-- `m` is started in `s` with memory `r` and cut, started again, and so on, every cut leaving a state in
`P`; `g` is what is left. -/
inductive Interrupted (D : Model C R σ) (torn : C → σ → σ → Prop) (P : σ → Prop) (m : M C R ε ρ α)
    (r : ρ) : σ → σ → Prop where
  | none (s : σ) : Interrupted D torn P m r s s
  | cut {s g h : σ} (hcut : (m r).Cut D torn s g) (hP : P g) (hrest : Interrupted D torn P m r g h) :
      Interrupted D torn P m r s h

/-- An invariant that every cut keeps. -/
theorem Interrupted.keeps {D : Model C R σ} {torn : C → σ → σ → Prop} {P : σ → Prop}
    {m : M C R ε ρ α} {r : ρ} {I : σ → Prop} {Q : α → ρ → σ → Prop}
    (hm : ∀ s, I s → Wpc D torn (fun g => P g → I g) m Q r s) {s g : σ}
    (h : Interrupted D torn P m r s g) (hs : I s) : I g := by
  -- by induction on the cuts: each of them leaves the invariant, from which the next start goes on
  induction h with
  | none s => exact hs
  | cut hcut hP _ ih => exact ih (Prog.Wpc.cut (hm _ hs) hcut hP)

end Device
