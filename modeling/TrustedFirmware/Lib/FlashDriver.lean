import TrustedFirmware.Lib.BlockFlash

/-!
# Drivers of a block flash

What a flash driver does is the list of its programs and erases; the reads in between neither change
the flash nor matter to a power cut. `Does` is a fault-free run up to reads, with one rule for each
constructor of the driver monad, and `rowAfter` computes the new contents of a block that is
assembled from blocks left alone meanwhile.

* `Does.exec_eq` — what `Does` says of a run;
* `PowerCut.filter_modifies` — a cut of a run is a cut of its programs and erases;
* `replay_eq_rowAfter` — the contents of one block, without looking at the others.
-/

namespace BlockFlash

open Device

variable {ε ρ α β : Type}

/-! ## Programs and erases

Reads can be dropped from a list of calls. -/

/-- The call programs or erases a block. -/
def Call.modifies (c : Call) : Bool := c.target.isSome

/-- The call reads flash: a move copies through a buffer. -/
def Call.readsFlash : Call → Bool
  | .read .. | .move .. => true
  | .write .. | .erase .. => false

theorem apply_of_not_modifies {c : Call} (h : c.modifies = false) (f : Flash) :
    c.apply f = f := by
  cases c with
  | read => rfl
  | write | move | erase => cases h

/-- Reads leave no trace. -/
theorem replay_filter_modifies (cs : List Call) (f : Flash) :
    device.replay (cs.filter Call.modifies) f = device.replay cs f := by
  induction cs generalizing f with
  | nil => rfl
  | cons c cs ih =>
    by_cases h : c.modifies
    · simp [h, ih]
    · have h' : c.modifies = false := by simpa using h
      simp [h', ih, apply_of_not_modifies h']

/-- A power cut does not see the reads. -/
theorem PowerCut.filter_modifies {cs : List Call} {f g : Flash} (h : PowerCut cs f g) :
    PowerCut (cs.filter Call.modifies) f g := by
  induction h with
  | done f => exact .done f
  | during c cs f k =>
    by_cases hc : c.modifies
    · rw [List.filter_cons_of_pos hc]
      exact .during c _ f k
    · -- cut in a read: the same as a cut before the next call, or after the last one
      rw [List.filter_cons_of_neg hc]
      have ht : c.torn k f = f := by
        cases c with
        | read => rfl
        | write | move | erase => exact absurd rfl hc
      rw [ht]
      exact PowerCut.take _ f 0
  | @later c cs f g _ ih =>
    by_cases hc : c.modifies
    · rw [List.filter_cons_of_pos hc]
      exact .later ih
    · rw [List.filter_cons_of_neg hc]
      rwa [apply_of_not_modifies (by simpa using hc)] at ih

/-! ## Fault-free runs up to reads

The calls of `Does` are the programs and erases. A part that only reads has none, and disappears
from the list (`Does.read_bind`). -/

/-- Without faults `m` returns `v` with memory `r'`, and its programs and erases are `w`. -/
def Does (m : M Call (List UInt8) ε ρ α) (r : ρ) (f : Flash) (v : Except ε α) (r' : ρ)
    (w : List Call) : Prop :=
  ∃ l, Runs device m r f v r' l ∧ l.filter Call.modifies = w

namespace Does

variable {r r' r'' : ρ} {f : Flash} {w w' : List Call} {a : α} {e : ε} {v : Except ε α}

theorem exec_eq {m : M Call (List UInt8) ε ρ α} (h : Does m r f v r' w) (n : Nat) :
    ∃ log, exec device noFaults n m r f = ⟨v, r', device.replay w f, log⟩
      ∧ (effects log).filter Call.modifies = w ∧ ∀ x ∈ log, x.2 = true := by
  obtain ⟨l, hl, rfl⟩ := h
  exact ⟨_, by rw [hl n, replay_filter_modifies], by simp, by simp⟩

/-- The result of a run without faults is what `Does` says. -/
theorem val_eq {m : M Call (List UInt8) ε ρ α} (h : Does m r f v r' w) (n : Nat) :
    (exec device noFaults n m r f).val = v := by
  obtain ⟨_, he, _⟩ := h.exec_eq n
  rw [he]

theorem mem_eq {m : M Call (List UInt8) ε ρ α} (h : Does m r f v r' w) (n : Nat) :
    (exec device noFaults n m r f).mem = r' := by
  obtain ⟨_, he, _⟩ := h.exec_eq n
  rw [he]

theorem dev_eq {m : M Call (List UInt8) ε ρ α} (h : Does m r f v r' w) (n : Nat) :
    (exec device noFaults n m r f).dev = device.replay w f := by
  obtain ⟨_, he, _⟩ := h.exec_eq n
  rw [he]

protected theorem pure (a : α) : Does (pure a : M Call (List UInt8) ε ρ α) r f (.ok a) r [] :=
  ⟨[], Runs.pure a, rfl⟩

protected theorem fail (e : ε) :
    Does (M.fail e : M Call (List UInt8) ε ρ α) r f (.error e) r [] :=
  ⟨[], Runs.fail e, rfl⟩

protected theorem ofExcept (x : Except ε α) :
    Does (M.ofExcept x : M Call (List UInt8) ε ρ α) r f x r [] := by
  cases x with
  | ok a => exact Does.pure a
  | error e => exact Does.fail e

protected theorem getMem : Does (M.getMem : M Call (List UInt8) ε ρ ρ) r f (.ok r) r [] :=
  ⟨[], Runs.getMem, rfl⟩

protected theorem modifyMem (g : ρ → ρ) :
    Does (M.modifyMem g : M Call (List UInt8) ε ρ Unit) r f (.ok ()) (g r) [] :=
  ⟨[], Runs.modifyMem g, rfl⟩

/-- A read returns bytes and leaves no call. -/
theorem read (b off n : Nat) (e : ε) :
    Does (M.call (.read b off n) e : M Call (List UInt8) ε ρ _) r f
      (.ok ((f b).get off n)) r [] :=
  ⟨_, Runs.call _ e, rfl⟩

/-- Any other call is kept. -/
theorem call {c : Call} (hc : c.modifies = true) (e : ε) :
    Does (M.call c e : M Call (List UInt8) ε ρ _) r f (.ok (c.resp f)) r [c] :=
  ⟨_, Runs.call _ e, by simp [hc]⟩

protected theorem bind {m : M Call (List UInt8) ε ρ α} {k : α → M Call (List UInt8) ε ρ β}
    {v : Except ε β} (hm : Does m r f (.ok a) r' w)
    (hk : Does (k a) r' (device.replay w f) v r'' w') :
    Does (m >>= k) r f v r'' (w ++ w') := by
  obtain ⟨l, hl, rfl⟩ := hm
  rw [replay_filter_modifies] at hk
  obtain ⟨l', hl', rfl⟩ := hk
  exact ⟨l ++ l', hl.bind hl', by simp⟩

/-- Sequencing after a part that only reads. -/
theorem read_bind {m : M Call (List UInt8) ε ρ α} {k : α → M Call (List UInt8) ε ρ β}
    {v : Except ε β} (hm : Does m r f (.ok a) r' []) (hk : Does (k a) r' f v r'' w) :
    Does (m >>= k) r f v r'' w :=
  hm.bind hk

/-- The first part fails, and the second is not run. -/
theorem bind_error {m : M Call (List UInt8) ε ρ α} {k : α → M Call (List UInt8) ε ρ β}
    (hm : Does m r f (.error e) r' w) : Does (m >>= k) r f (.error e) r' w := by
  obtain ⟨l, hl, hw⟩ := hm
  exact ⟨l, hl.bind_error, hw⟩

/-- A last part that is only run under a condition. -/
theorem when {c : Prop} [Decidable c] {m : M Call (List UInt8) ε ρ Unit}
    (hm : c → Does m r f (.ok ()) r w) :
    Does (if c then m else pure ()) r f (.ok ()) r (if c then w else []) := by
  by_cases h : c
  · simp only [h, if_true]
    exact hm h
  · simp only [h, if_false]
    exact Does.pure ()

/-- A part that is only run under a condition, followed by `k`. -/
theorem when_bind {c : Prop} [Decidable c] {m : M Call (List UInt8) ε ρ Unit}
    {k : Unit → M Call (List UInt8) ε ρ β} {v : Except ε β}
    (hm : c → Does m r f (.ok ()) r w)
    (hk : Does (k ()) r (device.replay (if c then w else []) f) v r'' w') :
    Does (if c then m >>= k else k ()) r f v r'' ((if c then w else []) ++ w') := by
  by_cases h : c
  · simp only [h, if_true] at hk ⊢
    exact (hm h).bind hk
  · simpa only [h, if_false, List.nil_append, Model.replay_nil] using hk

theorem attempt {m : M Call (List UInt8) ε ρ α} (hm : Does m r f v r' w) :
    Does (M.attempt m) r f (.ok v) r' w := by
  obtain ⟨l, hl, hw⟩ := hm
  exact ⟨l, hl.attempt, hw⟩

theorem orElse {m : M Call (List UInt8) ε ρ α} (hm : Does m r f (.ok a) r' w) (e : ε) :
    Does (M.orElse m e) r f (.ok a) r' w := by
  obtain ⟨l, hl, hw⟩ := hm
  exact ⟨l, hl.orElse e, hw⟩

theorem orElse_error {m : M Call (List UInt8) ε ρ α} {e' : ε}
    (hm : Does m r f (.error e') r' w) (e : ε) : Does (M.orElse m e) r f (.error e) r' w := by
  obtain ⟨l, hl, hw⟩ := hm
  exact ⟨l, hl.orElse_error e, hw⟩

end Does

/-! ## Assembling a block

A new block is programmed piece by piece, from data and from copies of other blocks. As long as
those are not touched meanwhile, the block is a function of its old contents and of theirs. -/

/-- The block a call copies from. -/
def Call.source : Call → Option Nat
  | .move _ _ src _ _ => some src
  | _ => none

/-- The effect of a call on the contents of block `b`, copies being taken from `f`. -/
def Call.onRow (b : Nat) (f : Flash) (row : Row) : Call → Row
  | .read .. => row
  | .write b' off d => if b' = b then row.put off d else row
  | .move dst dstOff src srcOff n => if dst = b then row.put dstOff ((f src).get srcOff n) else row
  | .erase b' => if b' = b then Row.erased else row

/-- The contents of block `b` after the calls, copies being taken from `f`. -/
def rowAfter (b : Nat) (f : Flash) (cs : List Call) (row : Row) : Row :=
  cs.foldl (fun row c => c.onRow b f row) row

@[simp] theorem rowAfter_nil (b : Nat) (f : Flash) (row : Row) : rowAfter b f [] row = row := rfl

@[simp] theorem rowAfter_cons (b : Nat) (f : Flash) (c : Call) (cs : List Call) (row : Row) :
    rowAfter b f (c :: cs) row = rowAfter b f cs (c.onRow b f row) := rfl

@[simp] theorem rowAfter_append (b : Nat) (f : Flash) (cs ds : List Call) (row : Row) :
    rowAfter b f (cs ++ ds) row = rowAfter b f ds (rowAfter b f cs row) := by
  simp [rowAfter, List.foldl_append]

/-- A call on another block. -/
theorem onRow_of_target_ne {c : Call} {b : Nat} (h : c.target ≠ some b) (f : Flash) (row : Row) :
    c.onRow b f row = row := by
  cases c with
  | read => rfl
  | write | move | erase => exact if_neg fun he => h (by simp [Call.target, he])

theorem apply_eq_onRow (c : Call) (f : Flash) (b : Nat) : c.apply f b = c.onRow b f (f b) := by
  by_cases h : c.target = some b
  · cases c with
    | read => cases h
    | write b' | erase b' =>
      obtain rfl : b' = b := by simpa [Call.target] using h
      simp [Call.apply, Call.onRow]
    | move dst =>
      obtain rfl : dst = b := by simpa [Call.target] using h
      simp [apply_move, Call.onRow]
  · rw [apply_of_target_ne h, onRow_of_target_ne h]

/-- Only the block that is copied from matters. -/
theorem onRow_congr {c : Call} {f g : Flash} (h : ∀ src, c.source = some src → g src = f src)
    (b : Nat) (row : Row) : c.onRow b g row = c.onRow b f row := by
  cases c with
  | move dst dstOff src => simp [Call.onRow, h src rfl]
  | read | write | erase => rfl

/-- The calls copy from the blocks in `S` only, and leave these alone. -/
def SourcesIn (S : Nat → Prop) (cs : List Call) : Prop :=
  ∀ c ∈ cs, (∀ src, c.source = some src → S src) ∧ ∀ b, c.target = some b → ¬ S b

theorem SourcesIn.cons {S : Nat → Prop} {c : Call} {cs : List Call}
    (h : SourcesIn S (c :: cs)) : SourcesIn S cs :=
  fun c' hc' => h c' (List.mem_cons_of_mem _ hc')

/-- While the blocks that are copied from to block `b` are left alone, its contents can be computed
on their own. -/
theorem replay_eq_rowAfter_of_sources {S : Nat → Prop} {cs : List Call} {f : Flash} {b : Nat}
    (h : ∀ c ∈ cs, (c.target = some b → ∀ src, c.source = some src → S src)
      ∧ ∀ x, c.target = some x → ¬ S x) : device.replay cs f b = rowAfter b f cs (f b) := by
  -- generalised to a flash `g` that agrees with `f` on the sources
  suffices hgen : ∀ g : Flash, (∀ src, S src → g src = f src) →
      device.replay cs g b = rowAfter b f cs (g b) from hgen f fun _ _ => rfl
  induction cs with
  | nil => exact fun _ _ => rfl
  | cons c cs ih =>
    intro g hg
    obtain ⟨hsrc, htgt⟩ := h c List.mem_cons_self
    have hrow : c.onRow b g (g b) = c.onRow b f (g b) := by
      by_cases hb : c.target = some b
      · exact onRow_congr (fun src hs => hg src (hsrc hb src hs)) b _
      · rw [onRow_of_target_ne hb, onRow_of_target_ne hb]
    rw [Model.replay_cons, device_next, rowAfter_cons,
      ih fun c' hc' => h c' (List.mem_cons_of_mem _ hc'), apply_eq_onRow, hrow]
    intro src hS
    rw [apply_of_target_ne fun ht => htgt src ht hS, hg src hS]

/-- While the blocks that are copied from are left alone, each block can be computed on its
own. -/
theorem replay_eq_rowAfter {S : Nat → Prop} {cs : List Call} {f : Flash} (h : SourcesIn S cs)
    (b : Nat) : device.replay cs f b = rowAfter b f cs (f b) :=
  replay_eq_rowAfter_of_sources fun c hc => ⟨fun _ => (h c hc).1, (h c hc).2⟩

/-- Calls that copy from nowhere do the same to a row on any flash. -/
theorem rowAfter_congr_of_sourcesIn {cs : List Call} (h : SourcesIn (fun _ => False) cs)
    (b : Nat) (f g : Flash) (row : Row) : rowAfter b f cs row = rowAfter b g cs row := by
  induction cs generalizing row with
  | nil => rfl
  | cons c cs ih =>
    have hc : c.onRow b f row = c.onRow b g row := by
      cases c with
      | move dst off src off' n => exact ((h _ List.mem_cons_self).1 src rfl).elim
      | _ => rfl
    rw [rowAfter_cons, rowAfter_cons, hc, ih h.cons]

theorem rowAfter_of_target_ne {b : Nat} {f : Flash} {cs : List Call}
    (h : ∀ c ∈ cs, c.target ≠ some b) (row : Row) : rowAfter b f cs row = row := by
  induction cs generalizing row with
  | nil => rfl
  | cons c cs ih =>
    rw [rowAfter_cons, ih fun c' hc' => h c' (List.mem_cons_of_mem _ hc')]
    exact onRow_of_target_ne (h c List.mem_cons_self) f row

theorem rowAfter_untouched {b o : Nat} {f : Flash} {cs : List Call} (h : Untouched b o cs)
    (row : Row) : rowAfter b f cs row o = row o := by
  -- call by call: none of them programs the byte, or erases its block
  induction cs generalizing row with
  | nil => rfl
  | cons c cs ih =>
    rw [rowAfter_cons, ih fun c' hc' => h c' (List.mem_cons_of_mem _ hc')]
    obtain ⟨he, hp⟩ := h c List.mem_cons_self
    cases c with
    | read => rfl
    | write b' off d =>
      by_cases hb : b' = b
      · subst hb
        simp only [Call.onRow, if_true]
        rcases hp off d.length rfl with h | h
        · exact Row.put_of_lt h
        · exact Row.put_of_ge h
      · simp [Call.onRow, hb]
    | move dst dstOff src srcOff n =>
      by_cases hb : dst = b
      · subst hb
        simp only [Call.onRow, if_true]
        rcases hp dstOff n rfl with h | h
        · exact Row.put_of_lt h
        · exact Row.put_of_ge (by simpa using h)
      · simp [Call.onRow, hb]
    | erase b' =>
      have hb : b' ≠ b := fun hb => he (by rw [hb])
      simp [Call.onRow, hb]

end BlockFlash
