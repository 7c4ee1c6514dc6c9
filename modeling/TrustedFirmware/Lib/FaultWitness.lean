import TrustedFirmware.Lib.FaultAtomicity
import TrustedFirmware.Lib.FlashDriver

/-!
# Device programs — what can go wrong

`CanEnd D m r s v r' s'` says that some choice of failing calls makes `m` end with the result `v` in
memory `r'` and device state `s'`. A run of `m` looks at the choice for its own calls only
(`exec_congr_fails`), so the choices for the parts of a sequence can be joined (`CanEnd.bind`): it
is enough to say at which call a driver goes wrong.

A counterexample is built in this way from the parts of a driver: fault-free up to a call
(`CanEnd.of_runs`), the call that fails (`CanEnd.call`), and what the driver does with its result
code.
-/

namespace Device

variable {C R ε ρ σ α β : Type} {D : Model C R σ}

/-- Only the choice for the calls that are issued matters. -/
theorem Prog.run_congr_fails {fails fails' : Nat → Bool} (p : Prog C R α) {n : Nat} {s : σ}
    (h : ∀ k < (p.run D fails n s).log.length, fails' (n + k) = fails (n + k)) :
    p.run D fails' n s = p.run D fails n s := by
  -- by induction on the tree; a call shifts the choice by one
  induction p generalizing n s with
  | ret a => rfl
  | call c k ih =>
    rw [Prog.run] at h
    have h0 : fails' n = fails n := h 0 (by split <;> simp)
    -- the calls after the first one
    have hrest {x : Option R} {s' : σ}
        (hx : ∀ j < ((k x).run D fails (n + 1) s').log.length + 1, fails' (n + j) = fails (n + j)) :
        (k x).run D fails' (n + 1) s' = (k x).run D fails (n + 1) s' := by
      refine ih x fun j hj => ?_
      have := hx (j + 1) (by omega)
      rwa [show n + (j + 1) = n + 1 + j by omega] at this
    rw [Prog.run, Prog.run, h0]
    split
    · rename_i hf
      rw [if_pos hf] at h
      rw [hrest h]
    · rename_i hf
      rw [if_neg hf] at h
      rw [hrest h]

theorem exec_congr_fails {fails fails' : Nat → Bool} {n : Nat} {m : M C R ε ρ α} {r : ρ} {s : σ}
    (h : ∀ k < (exec D fails n m r s).log.length, fails' (n + k) = fails (n + k)) :
    exec D fails' n m r s = exec D fails n m r s := by
  have hrun : (m r).run D fails' n s = (m r).run D fails n s := Prog.run_congr_fails (m r) h
  simp only [exec, hrun]

/-- Some calls of `m` can fail so that it ends with `v`, `r'` and `s'`, wherever its calls are
counted from. -/
def CanEnd (D : Model C R σ) (m : M C R ε ρ α) (r : ρ) (s : σ) (v : Except ε α) (r' : ρ) (s' : σ) :
    Prop :=
  ∃ l, ∀ n, ∃ fails, exec D fails n m r s = ⟨v, r', s', l⟩

namespace CanEnd

variable {r r' r'' : ρ} {s s' s'' : σ} {a : α} {e : ε}

theorem of_runs {m : M C R ε ρ α} {v : Except ε α} {l : List C} (h : Runs D m r s v r' l) :
    CanEnd D m r s v r' (D.replay l s) := ⟨_, fun n => ⟨noFaults, h n⟩⟩

/-- The call fails. -/
theorem call (c : C) (e : ε) : CanEnd D (M.call c e : M C R ε ρ R) r s (.error e) r s :=
  ⟨[(c, false)], fun n => ⟨fun _ => true, by simp [exec_call]⟩⟩

/-- The first part succeeds, and the second one ends in some way. -/
theorem bind {m : M C R ε ρ α} {k : α → M C R ε ρ β} {v : Except ε β}
    (hm : CanEnd D m r s (.ok a) r' s') (hk : CanEnd D (k a) r' s' v r'' s'') :
    CanEnd D (m >>= k) r s v r'' s'' := by
  obtain ⟨l, hl⟩ := hm
  obtain ⟨l', hl'⟩ := hk
  refine ⟨l ++ l', fun n => ?_⟩
  obtain ⟨fails, h1⟩ := hl n
  obtain ⟨fails', h2⟩ := hl' (n + l.length)
  -- the first choice for the calls of `m`, the second one from there on
  refine ⟨fun i => if i < n + l.length then fails i else fails' i, ?_⟩
  have h1' : exec D (fun i => if i < n + l.length then fails i else fails' i) n m r s
      = ⟨.ok a, r', s', l⟩ := by
    rw [← h1]
    refine exec_congr_fails fun j hj => if_pos ?_
    rw [h1] at hj
    exact Nat.add_lt_add_left hj n
  have h2' : exec D (fun i => if i < n + l.length then fails i else fails' i) (n + l.length) (k a)
      r' s' = ⟨v, r'', s'', l'⟩ := by
    rw [← h2]
    exact exec_congr_fails fun j _ => if_neg (by omega)
  rw [exec_bind, h1']
  simp only [h2', Result.after]

theorem bind_error {m : M C R ε ρ α} {k : α → M C R ε ρ β} (hm : CanEnd D m r s (.error e) r' s') :
    CanEnd D (m >>= k) r s (.error e) r' s' := by
  obtain ⟨l, hl⟩ := hm
  refine ⟨l, fun n => ?_⟩
  obtain ⟨fails, h⟩ := hl n
  exact ⟨fails, by rw [exec_bind, h]⟩

theorem attempt {m : M C R ε ρ α} {v : Except ε α} (hm : CanEnd D m r s v r' s') :
    CanEnd D (M.attempt m) r s (.ok v) r' s' := by
  obtain ⟨l, hl⟩ := hm
  refine ⟨l, fun n => ?_⟩
  obtain ⟨fails, h⟩ := hl n
  exact ⟨fails, by rw [exec_attempt, h]⟩

/-- A way to end, as a run. -/
theorem exists_exec {m : M C R ε ρ α} {v : Except ε α} (h : CanEnd D m r s v r' s') :
    ∃ fails, (exec D fails 0 m r s).val = v ∧ (exec D fails 0 m r s).mem = r'
      ∧ (exec D fails 0 m r s).dev = s' := by
  obtain ⟨l, hl⟩ := h
  obtain ⟨fails, hf⟩ := hl 0
  exact ⟨fails, by rw [hf], by rw [hf], by rw [hf]⟩

end CanEnd

end Device

namespace BlockFlash

open Device

/-- A run of a flash driver in which nothing fails. -/
theorem Does.canEnd {ε ρ α : Type} {m : M Call (List UInt8) ε ρ α} {r r' : ρ} {f : Flash}
    {v : Except ε α} {w : List Call} (h : Does m r f v r' w) :
    CanEnd device m r f v r' (device.replay w f) := by
  obtain ⟨l, hruns, rfl⟩ := h
  have hend := CanEnd.of_runs hruns
  rwa [← replay_filter_modifies] at hend

end BlockFlash
