import TrustedFirmware.Lib.FaultAtomicity
import TrustedFirmware.Lib.FaultTriples

/-!
# Drivers that stop at a failed call

A driver that hands every result code to its caller stops at the first call that fails. Whatever
fails, the device then is where an initial part of the calls of the fault-free run leads, as if the
driver had been interrupted there, and a success means that nothing failed.

* `Stops` — the two facts together, for values in `P`;
* `Stops.bind'` — the rule for sequencing. A first part may turn a failure into a value outside `P`
  (an invalid index, say), if the rest refuses such values and does not touch the device any more;
* `Stops.exec_eq_of_mem`, `Stops.initial_run` — the two facts for whole runs.

With this, what holds after a power cut at any call holds after a fault at any call: the device
cannot tell a driver that gives up from one that loses power.
-/

namespace Device

variable {C R ε ρ σ α β : Type} {D : Model C R σ} {P : α → Prop} {Q : β → Prop}

/-- Whatever fails, the device ends where an initial part of the calls of the fault-free run leads.
A value in `P` means that nothing failed. -/
structure Stops (D : Model C R σ) (P : α → Prop) (m : M C R ε ρ α) : Prop where
  reports : Reports D (fun _ => False) P m
  initial : ∀ fails n r s, ∃ v r' l w, Runs D m r s v r' l ∧ w <+: l
    ∧ (exec D fails n m r s).dev = D.replay w s

namespace Stops

/-! ## Whole runs

The two facts, for a driver that is run as a whole. -/

/-- A run that returns a value in `P` is the fault-free run. -/
theorem exec_eq_of_mem {m : M C R ε ρ α} {fails : Nat → Bool} {n : Nat} {r : ρ} {s : σ} {a : α}
    (hm : Stops D P m) (ha : P a) (hok : (exec D fails n m r s).val = .ok a) (k : Nat) :
    exec D fails n m r s = exec D noFaults k m r s :=
  exec_eq_noFaults (fun c hc => hm.reports fails n r s a hok ha c hc) k

/-- The device ends where an initial part of the calls of the fault-free run leads. -/
theorem initial_run {m : M C R ε ρ α} (hm : Stops D P m) (fails : Nat → Bool) (n : Nat) (r : ρ)
    (s : σ) : ∃ w, w <+: effects (exec D noFaults 0 m r s).log
      ∧ (exec D fails n m r s).dev = D.replay w s := by
  obtain ⟨v, r', l, w, hruns, hw, hdev⟩ := hm.initial fails n r s
  refine ⟨w, ?_, hdev⟩
  rw [hruns 0, effects_map_true]
  exact hw

/-! ## Rules

One rule for each constructor. Only a call touches the device, and the sequence is where the
argument is. -/

/-- What does not touch the device has no failure to report. -/
theorem of_idle {m : M C R ε ρ α} (hr : Reports D (fun _ => False) P m)
    (h : ∀ fails n r s, (exec D fails n m r s).dev = s) : Stops D P m where
  reports := hr
  initial fails n r s := by
    obtain ⟨v, r', l, hruns⟩ := exists_runs D m r s
    exact ⟨v, r', l, [], hruns, List.nil_prefix, h fails n r s⟩

theorem pure (a : α) : Stops D P (pure a : M C R ε ρ α) :=
  of_idle (Reports.pure a) fun _ _ _ _ => rfl

theorem fail (e : ε) : Stops D P (M.fail e : M C R ε ρ α) :=
  of_idle (Reports.fail e) fun _ _ _ _ => rfl

theorem ofExcept (x : Except ε α) : Stops D P (M.ofExcept x : M C R ε ρ α) := by
  cases x with
  | ok a => exact pure a
  | error e => exact fail e

theorem getMem {P : ρ → Prop} : Stops D P (M.getMem : M C R ε ρ ρ) :=
  of_idle Reports.getMem fun _ _ _ _ => rfl

theorem modifyMem {P : Unit → Prop} (f : ρ → ρ) : Stops D P (M.modifyMem f : M C R ε ρ Unit) :=
  of_idle (Reports.modifyMem f) fun _ _ _ _ => rfl

/-- A call that fails leaves the empty part of the run, one that succeeds all of it. -/
theorem call {P : R → Prop} (c : C) (e : ε) : Stops D P (M.call c e : M C R ε ρ R) where
  reports := Reports.call c e
  initial fails n r s := by
    rw [exec_call]
    split
    · exact ⟨_, _, _, [], Runs.call c e, List.nil_prefix, rfl⟩
    · exact ⟨_, _, _, [c], Runs.call c e, List.prefix_rfl, rfl⟩

/-- Sequencing. Where the first part hands over a value outside `P` although something failed, the
rest must not succeed and must leave the device alone. -/
theorem bind' {m : M C R ε ρ α} {k : α → M C R ε ρ β} (hm : Stops D P m)
    (hk : ∀ a, P a → Stops D Q (k a)) (hn : ∀ a, ¬ P a → Never D Q (k a))
    (hidle : ∀ a, ¬ P a → ReadOnly D (k a)) : Stops D Q (m >>= k) where
  reports := hm.reports.bind' (fun a ha => (hk a ha).reports) hn
  initial fails n r s := by
    obtain ⟨v, r1, l, w, hruns, hw, hdev⟩ := hm.initial fails n r s
    -- the fault-free run of the sequence goes on where that of `m` ends
    have hlonger : ∃ v' r' l', Runs D (m >>= k) r s v' r' (l ++ l') := by
      cases v with
      | error e => exact ⟨_, _, [], by rw [List.append_nil]; exact hruns.bind_error⟩
      | ok a =>
        obtain ⟨v', r', l', hrest⟩ := exists_runs D (k a) r1 (D.replay l s)
        exact ⟨v', r', l', hruns.bind hrest⟩
    obtain ⟨v', r', l', hlong⟩ := hlonger
    have hstop : w <+: l ++ l' := hw.trans (List.prefix_append l l')
    rcases hx : exec D fails n m r s with ⟨_ | a, r2, s2, log⟩
    · -- `m` stops, and so does the sequence
      refine ⟨v', r', _, w, hlong, hstop, ?_⟩
      rw [exec_bind, hx]
      rw [hx] at hdev
      exact hdev
    by_cases ha : P a
    · -- nothing has failed in `m`
      have heq := hm.exec_eq_of_mem ha (congrArg Result.val hx) 0
      rw [hx, hruns 0, Result.mk.injEq] at heq
      obtain ⟨rfl, rfl, rfl, -⟩ := heq
      obtain ⟨v2, r3, l2, w2, hruns2, hw2, hdev2⟩ :=
        (hk a ha).initial fails (n + log.length) r2 (D.replay l s)
      refine ⟨v2, r3, l ++ l2, l ++ w2, hruns.bind hruns2, (List.prefix_append_right_inj l).mpr hw2,
        ?_⟩
      rw [exec_bind, hx, Model.replay_append]
      exact hdev2
    · -- the rest leaves the device where `m` has stopped
      refine ⟨v', r', _, w, hlong, hstop, ?_⟩
      rw [hx] at hdev
      rw [exec_bind, hx]
      exact (hidle a ha fails _ r2 s2).2.trans hdev

/-- Sequencing, where every value of the first part is good. -/
theorem bind {m : M C R ε ρ α} {k : α → M C R ε ρ β} (hm : Stops D (fun _ => True) m)
    (hk : ∀ a, Stops D Q (k a)) : Stops D Q (m >>= k) :=
  bind' hm (fun a _ => hk a) (fun _ h => (h trivial).elim) fun _ h => (h trivial).elim

theorem orElse {m : M C R ε ρ α} (e : ε) (hm : Stops D P m) : Stops D P (M.orElse m e) where
  reports := hm.reports.orElse e
  initial fails n r s := by
    obtain ⟨v, r', l, w, hruns, hw, hdev⟩ := hm.initial fails n r s
    have hdev' : (exec D fails n (M.orElse m e) r s).dev = D.replay w s := by
      rw [exec_orElse, ← hdev]
      rcases exec D fails n m r s with ⟨_ | a, r2, s2, log⟩ <;> rfl
    cases v with
    | ok a => exact ⟨_, _, _, w, hruns.orElse e, hw, hdev'⟩
    | error e' => exact ⟨_, _, _, w, hruns.orElse_error e, hw, hdev'⟩

/-- A result code handed on: a success code means that nothing failed. -/
theorem attempt {m : M C R ε ρ α} (hm : Stops D P m) :
    Stops D (fun v => ∃ a, v = .ok a ∧ P a) (M.attempt m) where
  reports := hm.reports.attempt
  initial fails n r s := by
    obtain ⟨v, r', l, w, hruns, hw, hdev⟩ := hm.initial fails n r s
    refine ⟨_, _, _, w, hruns.attempt, hw, ?_⟩
    rw [exec_attempt]
    exact hdev

/-- A result that is checked: after an error the device is left alone, and the end is no value of
`Q`. -/
theorem attempt_bind {m : M C R ε ρ α} {k : Except ε α → M C R ε ρ β}
    (hm : Stops D (fun _ => True) m) (hk : ∀ a, Stops D Q (k (.ok a)))
    (hn : ∀ e, Never D Q (k (.error e))) (hidle : ∀ e, ReadOnly D (k (.error e))) :
    Stops D Q (M.attempt m >>= k) := by
  have hok (v : Except ε α) (hv : ¬ ∃ a, v = .ok a ∧ True) : ∃ e, v = .error e := by
    cases v with
    | ok a => exact absurd ⟨a, rfl, trivial⟩ hv
    | error e => exact ⟨e, rfl⟩
  -- the good values are the success codes
  refine hm.attempt.bind' ?_ (fun v hv => ?_) fun v hv => ?_
  · rintro _ ⟨a, rfl, -⟩
    exact hk a
  · obtain ⟨e, rfl⟩ := hok v hv
    exact hn e
  · obtain ⟨e, rfl⟩ := hok v hv
    exact hidle e

end Stops

end Device
