import Mathlib.Data.List.Basic

/-!
# Programs that drive a fallible device

A program here is a finite tree of device calls: after each call it goes on with the device's
response, or with `none` when the call reported an error. The tree says nothing about the device or
about which calls fail, so one translation of a driver can be run

* on a device that never fails (`Runs`),
* under any choice of failing calls (`exec` with a `fails` oracle, a failing call having no effect),

and the facts that relate the two runs are proved once, by induction on the tree:

* `exec_eq_of_runs` — calls that do not fail cannot tell the two runs apart;
* `Reports` — a driver that never returns success after a failed call;
* `Always` — an invariant of the driver's memory and of the device, whatever fails;
* `Ensures` — what a success establishes, whatever came before.

Each of them has one rule for every constructor of the driver monad `M`. A proof about a driver
follows its text: one rule per line.
-/

namespace Device

variable {C R ε ρ σ α β : Type}

/-! ## Call trees

A tree branches on the response of a call. `Prog.run` walks down one path, chosen by the device and
by the calls that fail, and keeps a log of it. -/

/-- A program that issues calls `C`, answered by `R`, and returns an `α`. -/
inductive Prog (C R α : Type) : Type where
  | ret (a : α)
  | call (c : C) (k : Option R → Prog C R α)

/-- Sequencing of call trees. -/
def Prog.bind : Prog C R α → (α → Prog C R β) → Prog C R β
  | .ret a, f => f a
  | .call c k, f => .call c fun r => (k r).bind f

/-- What the device does: the state after a call, and the call's response. -/
structure Model (C R σ : Type) where
  next : C → σ → σ
  resp : C → σ → R

/-- The state after a list of successful calls. -/
def Model.replay (D : Model C R σ) (cs : List C) (s : σ) : σ :=
  cs.foldl (fun s c => D.next c s) s

@[simp] theorem Model.replay_nil (D : Model C R σ) (s : σ) : D.replay [] s = s := rfl

@[simp] theorem Model.replay_cons (D : Model C R σ) (c : C) (cs : List C) (s : σ) :
    D.replay (c :: cs) s = D.replay cs (D.next c s) := rfl

@[simp] theorem Model.replay_append (D : Model C R σ) (cs ds : List C) (s : σ) :
    D.replay (cs ++ ds) s = D.replay ds (D.replay cs s) := by
  simp [replay, List.foldl_append]

/-- The outcome of running a tree: its value, the device, and every call with a flag that
says whether it succeeded. -/
structure Run (C σ α : Type) where
  val : α
  dev : σ
  log : List (C × Bool)

/-- Run a tree. `fails i` says that the `i`-th call reports an error (and does nothing);
`n` is the number of calls issued so far. -/
def Prog.run (D : Model C R σ) (fails : Nat → Bool) : Prog C R α → Nat → σ → Run C σ α
  | .ret a, _, s => ⟨a, s, []⟩
  | .call c k, n, s =>
    if fails n then
      let o := (k none).run D fails (n + 1) s
      ⟨o.val, o.dev, (c, false) :: o.log⟩
    else
      let o := (k (some (D.resp c s))).run D fails (n + 1) (D.next c s)
      ⟨o.val, o.dev, (c, true) :: o.log⟩

/-- No call fails. -/
def noFaults : Nat → Bool := fun _ => false

/-- The calls of a log that took effect. -/
def effects (log : List (C × Bool)) : List C :=
  log.filterMap fun x => if x.2 then some x.1 else none

@[simp] theorem effects_map_true (cs : List C) : effects (cs.map (·, true)) = cs := by
  induction cs with
  | nil => rfl
  | cons c cs ih => simp [effects]

/-- A sequence runs its parts one after the other; the second one counts its calls from where the
first ended. -/
theorem Prog.run_bind (D : Model C R σ) (fails : Nat → Bool) (p : Prog C R α)
    (f : α → Prog C R β) (n : Nat) (s : σ) :
    (p.bind f).run D fails n s =
      let o := p.run D fails n s
      let o' := (f o.val).run D fails (n + o.log.length) o.dev
      ⟨o'.val, o'.dev, o.log ++ o'.log⟩ := by
  -- the counter moves on with every call, so it is generalised with the device
  induction p generalizing n s with
  | ret a => simp [Prog.bind, Prog.run]
  | call c k ih =>
    by_cases h : fails n <;>
      simp [Prog.bind, Prog.run, h, ih, Nat.add_assoc, Nat.add_comm]

/-- The device ends where the successful calls of the log lead. -/
theorem Prog.run_dev (D : Model C R σ) (fails : Nat → Bool) (p : Prog C R α) (n : Nat)
    (s : σ) : (p.run D fails n s).dev = D.replay (effects (p.run D fails n s).log) s := by
  induction p generalizing n s with
  | ret a => rfl
  | call c k ih =>
    by_cases h : fails n
    · simpa [Prog.run, h, effects] using ih none (n + 1) s
    · simpa [Prog.run, h, effects] using ih (some (D.resp c s)) (n + 1) (D.next c s)

/-- Without faults every call of the log succeeds, and the call count is irrelevant. -/
theorem Prog.run_noFaults (D : Model C R σ) (p : Prog C R α) (n m : Nat) (s : σ) :
    p.run D noFaults n s = p.run D noFaults m s ∧
      (p.run D noFaults n s).log
        = (effects (p.run D noFaults n s).log).map (·, true) := by
  induction p generalizing n m s with
  | ret a => exact ⟨rfl, rfl⟩
  | call c k ih =>
    obtain ⟨hrun, hlog⟩ := ih (some (D.resp c s)) (n + 1) (m + 1) (D.next c s)
    constructor
    · -- both runs take the branch of a call that succeeds
      simp only [Prog.run, noFaults, Bool.false_eq_true, if_false] at hrun ⊢
      rw [hrun]
    · simpa [Prog.run, noFaults, effects] using hlog

/-- If every call of the fault-free run is in `K`, and no call in `K` fails, the run under
faults is the fault-free run. -/
theorem Prog.run_eq_noFaults (D : Model C R σ) (fails : Nat → Bool) (K : C → Prop)
    (p : Prog C R α) (n m : Nat) (s : σ)
    (hK : ∀ x ∈ (p.run D noFaults m s).log, K x.1)
    (hf : ∀ c, (c, false) ∈ (p.run D fails n s).log → ¬ K c) :
    p.run D fails n s = p.run D noFaults m s := by
  induction p generalizing n m s with
  | ret a => rfl
  | call c k ih =>
    simp only [Prog.run, noFaults, Bool.false_eq_true, if_false, List.mem_cons,
      forall_eq_or_imp] at hK
    by_cases h : fails n
    · -- the first call is in `K`, so it cannot be the one that fails
      simp only [Prog.run, h, if_true] at hf
      exact absurd hK.1 (hf c (by simp))
    · simp only [Prog.run, h, noFaults, Bool.false_eq_true, if_false] at hf ⊢
      rw [ih (some (D.resp c s)) (n + 1) (m + 1) (D.next c s) hK.2
        (fun c' hc' => hf c' (by simp [hc']))]

/-! ## The driver monad

Drivers keep a memory `ρ` that survives errors, as globals do in C. -/

/-- Programs with a memory `ρ` and errors `ε`. -/
def M (C R ε ρ α : Type) : Type := ρ → Prog C R (Except ε α × ρ)

namespace M

/-- Return a value. -/
protected def pure (a : α) : M C R ε ρ α := fun r => .ret (.ok a, r)

/-- Go on with a value; an error ends the program. -/
protected def bind (m : M C R ε ρ α) (k : α → M C R ε ρ β) : M C R ε ρ β := fun r =>
  (m r).bind fun x =>
    match x.1 with
    | .ok a => k a x.2
    | .error e => .ret (.error e, x.2)

instance : Monad (M C R ε ρ) where
  pure := M.pure
  bind := M.bind

/-- Return an error. -/
def fail (e : ε) : M C R ε ρ α := fun r => .ret (.error e, r)

/-- Issue a call; report `e` when it fails. -/
def call (c : C) (e : ε) : M C R ε ρ R := fun r =>
  .call c fun x =>
    match x with
    | some y => .ret (.ok y, r)
    | none => .ret (.error e, r)

/-- The driver's memory. -/
def getMem : M C R ε ρ ρ := fun r => .ret (.ok r, r)

/-- Update the driver's memory. -/
def modifyMem (f : ρ → ρ) : M C R ε ρ Unit := fun r => .ret (.ok (), f r)

/-- Run `m` and hand its result code to the caller, as `err = m();` does. -/
def attempt (m : M C R ε ρ α) : M C R ε ρ (Except ε α) := fun r =>
  (m r).bind fun x => .ret (.ok x.1, x.2)

/-- Run `m`; report `e` in place of any error of `m`. -/
def orElse (m : M C R ε ρ α) (e : ε) : M C R ε ρ α := fun r =>
  (m r).bind fun x =>
    match x.1 with
    | .ok a => .ret (.ok a, x.2)
    | .error _ => .ret (.error e, x.2)

/-- Continue with a value that is already a result code. -/
def ofExcept : Except ε α → M C R ε ρ α
  | .ok a => M.pure a
  | .error e => M.fail e

end M

/-- The outcome of a driver: result code, memory, device and log. -/
@[ext]
structure Result (C ε ρ σ α : Type) where
  val : Except ε α
  mem : ρ
  dev : σ
  log : List (C × Bool)

/-- Run a driver under a choice of failing calls. -/
def exec (D : Model C R σ) (fails : Nat → Bool) (n : Nat) (m : M C R ε ρ α) (r : ρ) (s : σ) :
    Result C ε ρ σ α :=
  let o := (m r).run D fails n s
  ⟨o.val.1, o.val.2, o.dev, o.log⟩

/-- Prepend the calls issued before. -/
def Result.after (l : List (C × Bool)) (o : Result C ε ρ σ α) : Result C ε ρ σ α :=
  { o with log := l ++ o.log }

section Exec

variable (D : Model C R σ) (fails : Nat → Bool) (n : Nat) (r : ρ) (s : σ)

@[simp] theorem exec_pure (a : α) :
    exec D fails n (pure a : M C R ε ρ α) r s = ⟨.ok a, r, s, []⟩ := rfl

@[simp] theorem exec_fail (e : ε) :
    exec D fails n (M.fail e : M C R ε ρ α) r s = ⟨.error e, r, s, []⟩ := rfl

@[simp] theorem exec_getMem :
    exec D fails n (M.getMem : M C R ε ρ ρ) r s = ⟨.ok r, r, s, []⟩ := rfl

@[simp] theorem exec_modifyMem (f : ρ → ρ) :
    exec D fails n (M.modifyMem f : M C R ε ρ Unit) r s = ⟨.ok (), f r, s, []⟩ := rfl

/-- A call fails and does nothing, or has its effect. -/
theorem exec_call (c : C) (e : ε) :
    exec D fails n (M.call c e : M C R ε ρ R) r s =
      if fails n then ⟨.error e, r, s, [(c, false)]⟩
      else ⟨.ok (D.resp c s), r, D.next c s, [(c, true)]⟩ := by
  by_cases h : fails n <;> simp [exec, M.call, Prog.run, h]

/-- A sequence stops at an error of its first part. -/
theorem exec_bind (m : M C R ε ρ α) (k : α → M C R ε ρ β) :
    exec D fails n (m >>= k) r s =
      match exec D fails n m r s with
      | ⟨.ok a, r', s', l⟩ => (exec D fails (n + l.length) (k a) r' s').after l
      | ⟨.error e, r', s', l⟩ => ⟨.error e, r', s', l⟩ := by
  show exec D fails n (M.bind m k) r s = _
  simp only [exec, M.bind, Prog.run_bind]
  rcases h : ((m r).run D fails n s).val with ⟨_ | a, r'⟩
  · simp [Prog.run]
  · rfl

/-- A result code that is handed on is no error. -/
theorem exec_attempt (m : M C R ε ρ α) :
    exec D fails n (M.attempt m) r s =
      match exec D fails n m r s with
      | ⟨v, r', s', l⟩ => ⟨.ok v, r', s', l⟩ := by
  simp [exec, M.attempt, Prog.run_bind, Prog.run]

theorem exec_orElse (m : M C R ε ρ α) (e : ε) :
    exec D fails n (M.orElse m e) r s =
      match exec D fails n m r s with
      | ⟨.ok a, r', s', l⟩ => ⟨.ok a, r', s', l⟩
      | ⟨.error _, r', s', l⟩ => ⟨.error e, r', s', l⟩ := by
  simp only [exec, M.orElse, Prog.run_bind]
  rcases h : ((m r).run D fails n s).val with ⟨_ | a, r'⟩ <;> simp [Prog.run]

/-- A sequence that succeeds has succeeded in both parts. -/
theorem exec_bind_ok {m : M C R ε ρ α} {k : α → M C R ε ρ β} {b : β}
    (h : (exec D fails n (m >>= k) r s).val = .ok b) :
    ∃ a, (exec D fails n m r s).val = .ok a ∧
      exec D fails n (m >>= k) r s
        = (exec D fails (n + (exec D fails n m r s).log.length) (k a) (exec D fails n m r s).mem
            (exec D fails n m r s).dev).after (exec D fails n m r s).log := by
  rw [exec_bind] at h ⊢
  rcases hx : exec D fails n m r s with ⟨_ | a, r', s', l⟩ <;> rw [hx] at h
  · cases h
  · exact ⟨a, rfl, rfl⟩

end Exec

/-! ## Fault-free runs

`Runs` determines value, memory and calls. It is stated for every start of the call counter, so that
the runs of the parts of a sequence fit together. -/

/-- Without faults `m` issues the calls `l`, ends with result `v` and memory `r'`. -/
def Runs (D : Model C R σ) (m : M C R ε ρ α) (r : ρ) (s : σ) (v : Except ε α) (r' : ρ)
    (l : List C) : Prop :=
  ∀ n, exec D noFaults n m r s = ⟨v, r', D.replay l s, l.map (·, true)⟩

section Runs

variable {D : Model C R σ} {r r' r'' : ρ} {s : σ} {l l' : List C} {a : α} {e : ε}

theorem Runs.pure (a : α) : Runs D (pure a : M C R ε ρ α) r s (.ok a) r [] := fun _ => rfl

theorem Runs.fail (e : ε) : Runs D (M.fail e : M C R ε ρ α) r s (.error e) r [] := fun _ => rfl

theorem Runs.getMem : Runs D (M.getMem : M C R ε ρ ρ) r s (.ok r) r [] := fun _ => rfl

theorem Runs.modifyMem (f : ρ → ρ) :
    Runs D (M.modifyMem f : M C R ε ρ Unit) r s (.ok ()) (f r) [] := fun _ => rfl

/-- A call that succeeds. -/
theorem Runs.call (c : C) (e : ε) :
    Runs D (M.call c e : M C R ε ρ R) r s (.ok (D.resp c s)) r [c] := by
  intro n
  simp [exec_call, noFaults]

/-- Both parts succeed, or the first does and the second decides. -/
theorem Runs.bind {m : M C R ε ρ α} {k : α → M C R ε ρ β} {v : Except ε β}
    (hm : Runs D m r s (.ok a) r' l) (hk : Runs D (k a) r' (D.replay l s) v r'' l') :
    Runs D (m >>= k) r s v r'' (l ++ l') := by
  intro n
  rw [exec_bind, hm n]
  simp [Result.after, hk _]

theorem Runs.bind_error {m : M C R ε ρ α} {k : α → M C R ε ρ β}
    (hm : Runs D m r s (.error e) r' l) : Runs D (m >>= k) r s (.error e) r' l := by
  intro n
  rw [exec_bind, hm n]

theorem Runs.attempt {m : M C R ε ρ α} {v : Except ε α} (hm : Runs D m r s v r' l) :
    Runs D (M.attempt m) r s (.ok v) r' l := by
  intro n
  rw [exec_attempt, hm n]

theorem Runs.orElse {m : M C R ε ρ α} (e : ε) (hm : Runs D m r s (.ok a) r' l) :
    Runs D (M.orElse m e) r s (.ok a) r' l := by
  intro n
  rw [exec_orElse, hm n]

theorem Runs.orElse_error {m : M C R ε ρ α} {e' : ε} (e : ε)
    (hm : Runs D m r s (.error e') r' l) : Runs D (M.orElse m e) r s (.error e) r' l := by
  intro n
  rw [exec_orElse, hm n]

/-- Every driver has exactly one fault-free run. -/
theorem exists_runs (D : Model C R σ) (m : M C R ε ρ α) (r : ρ) (s : σ) :
    ∃ v r' l, Runs D m r s v r' l := by
  refine ⟨(exec D noFaults 0 m r s).val, (exec D noFaults 0 m r s).mem,
    effects (exec D noFaults 0 m r s).log, fun n => ?_⟩
  have hrun := (Prog.run_noFaults D (m r) n 0 s).1
  have hlog := (Prog.run_noFaults D (m r) 0 0 s).2
  have hdev := Prog.run_dev D noFaults (m r) 0 s
  -- the four fields of a result: value and memory are read off the run, the device is a replay of
  -- its log
  ext1
  · simp [exec, hrun]
  · simp [exec, hrun]
  · simp only [exec, hrun]; exact hdev
  · simp only [exec, hrun]; exact hlog

/-- Calls that do not fail cannot tell a run under faults from the fault-free one: if every
call of the fault-free run is in `K`, and no call in `K` fails, the two runs agree. -/
theorem exec_eq_of_runs {m : M C R ε ρ α} {v : Except ε α} {fails : Nat → Bool} {n : Nat}
    (K : C → Prop) (hm : Runs D m r s v r' l) (hK : ∀ c ∈ l, K c)
    (hf : ∀ c, (c, false) ∈ (exec D fails n m r s).log → ¬ K c) :
    exec D fails n m r s = ⟨v, r', D.replay l s, l.map (·, true)⟩ := by
  rw [← hm 0]
  have hlog : (exec D noFaults 0 m r s).log = l.map (·, true) := by rw [hm 0]
  have := Prog.run_eq_noFaults D fails K (m r) n 0 s
    (fun x hx => by
      obtain ⟨c, hc, rfl⟩ := List.mem_map.mp (hlog ▸ hx : x ∈ l.map (·, true))
      exact hK c hc) hf
  simp only [exec, this]

/-- A run under faults in which nothing failed is the fault-free run. -/
theorem exec_eq_of_no_failure {m : M C R ε ρ α} {v : Except ε α} {fails : Nat → Bool} {n : Nat}
    (hm : Runs D m r s v r' l) (hf : ∀ c, (c, false) ∉ (exec D fails n m r s).log) :
    exec D fails n m r s = ⟨v, r', D.replay l s, l.map (·, true)⟩ :=
  exec_eq_of_runs (fun _ => True) hm (fun _ _ => trivial) (fun c hc => (hf c hc).elim)

end Runs

/-! ## Invariants under faults

`Always D I J m`: whatever fails, `m` keeps the invariant `I` of memory and device, and
issues only calls in `J`. The rules follow the constructors of the monad. -/

/-- `m` keeps `I` and issues only calls in `J`, whatever fails. -/
def Always (D : Model C R σ) (I : ρ → σ → Prop) (J : C → Prop) (m : M C R ε ρ α) : Prop :=
  ∀ fails n r s, I r s →
    I (exec D fails n m r s).mem (exec D fails n m r s).dev ∧
      ∀ x ∈ (exec D fails n m r s).log, J x.1

section Always

variable {D : Model C R σ} {I : ρ → σ → Prop} {J J' : C → Prop}

theorem Always.pure (a : α) : Always D I J (pure a : M C R ε ρ α) := by
  intro fails n r s hI
  simpa using hI

theorem Always.fail (e : ε) : Always D I J (M.fail e : M C R ε ρ α) := by
  intro fails n r s hI
  simpa using hI

theorem Always.ofExcept (x : Except ε α) : Always D I J (M.ofExcept x : M C R ε ρ α) := by
  cases x with
  | ok a => exact Always.pure a
  | error e => exact Always.fail e

theorem Always.modifyMem {f : ρ → ρ} (h : ∀ r s, I r s → I (f r) s) :
    Always D I J (M.modifyMem f : M C R ε ρ Unit) := by
  intro fails n r s hI
  simpa using h r s hI

/-- A call keeps the invariant, whether it fails or not. -/
theorem Always.call {c : C} (e : ε) (hI : ∀ r s, I r s → I r (D.next c s)) (hJ : J c) :
    Always D I J (M.call c e : M C R ε ρ R) := by
  intro fails n r s h
  rw [exec_call]
  split
  · simpa using ⟨h, hJ⟩
  · simpa using ⟨hI r s h, hJ⟩

theorem Always.bind {m : M C R ε ρ α} {k : α → M C R ε ρ β} (hm : Always D I J m)
    (hk : ∀ a, Always D I J (k a)) : Always D I J (m >>= k) := by
  intro fails n r s hI
  have h1 := hm fails n r s hI
  rw [exec_bind]
  rcases hx : exec D fails n m r s with ⟨_ | a, r', s', l⟩
  · simpa [hx] using h1
  · rw [hx] at h1
    have h2 := hk a fails (n + l.length) r' s' h1.1
    -- a call of the sequence is one of the first part or of the second
    refine ⟨h2.1, fun x hmem => ?_⟩
    rcases List.mem_append.mp hmem with h | h
    · exact h1.2 x h
    · exact h2.2 x h

/-- Reading the memory: the continuation may use that the invariant holds of it. -/
theorem Always.getMem_bind {k : ρ → M C R ε ρ β}
    (hk : ∀ r, (∃ s, I r s) → Always D I J (k r)) : Always D I J (M.getMem >>= k) := by
  intro fails n r s hI
  rw [exec_bind]
  simpa [Result.after] using hk r ⟨s, hI⟩ fails n r s hI

theorem Always.attempt {m : M C R ε ρ α} (hm : Always D I J m) :
    Always D I J (M.attempt m) := by
  intro fails n r s hI
  have h := hm fails n r s hI
  rw [exec_attempt]
  exact h

theorem Always.orElse {m : M C R ε ρ α} (e : ε) (hm : Always D I J m) :
    Always D I J (M.orElse m e) := by
  intro fails n r s hI
  have h := hm fails n r s hI
  rw [exec_orElse]
  rcases hx : exec D fails n m r s with ⟨_ | a, r', s', l⟩ <;> simpa [hx] using h

end Always

/-! ## Last steps

`Ensures D Q m`: whenever `m` succeeds, `Q` holds of its value, the memory and the device. The
last step of `m` decides. -/

/-- A success of `m` establishes `Q`. -/
def Ensures (D : Model C R σ) (Q : α → ρ → σ → Prop) (m : M C R ε ρ α) : Prop :=
  ∀ fails n r s a, (exec D fails n m r s).val = .ok a →
    Q a (exec D fails n m r s).mem (exec D fails n m r s).dev

section Ensures

variable {D : Model C R σ}

theorem Ensures.fail {Q : α → ρ → σ → Prop} (e : ε) : Ensures D Q (M.fail e : M C R ε ρ α) := by
  intro fails n r s a h
  cases h

theorem Ensures.modifyMem {Q : Unit → ρ → σ → Prop} {f : ρ → ρ} (h : ∀ r s, Q () (f r) s) :
    Ensures D Q (M.modifyMem f : M C R ε ρ Unit) := fun _ _ r s _ _ => h r s

theorem Ensures.bind {m : M C R ε ρ α} {k : α → M C R ε ρ β} {Q : β → ρ → σ → Prop}
    (hk : ∀ a, Ensures D Q (k a)) : Ensures D Q (m >>= k) := by
  intro fails n r s b hb
  obtain ⟨a, -, heq⟩ := exec_bind_ok _ _ _ _ _ hb
  rw [heq] at hb ⊢
  exact hk a fails _ _ _ b hb

end Ensures

/-! ## Drivers that report what failed

`Reports D X P m`: when `m` returns a value in `P`, the only calls that failed are those
in `X`, the calls whose result code `m` drops. -/

/-- A success in `P` means that only calls in `X` failed. -/
def Reports (D : Model C R σ) (X : C → Prop) (P : α → Prop) (m : M C R ε ρ α) : Prop :=
  ∀ fails n r s a, (exec D fails n m r s).val = .ok a → P a →
    ∀ c, (c, false) ∈ (exec D fails n m r s).log → X c

/-- `m` never returns a value in `P`. -/
def Never (D : Model C R σ) (P : α → Prop) (m : M C R ε ρ α) : Prop :=
  ∀ fails n r s a, (exec D fails n m r s).val = .ok a → ¬ P a

section Reports

variable {D : Model C R σ} {X : C → Prop} {P : α → Prop} {Q : β → Prop}

theorem Never.fail (e : ε) : Never D P (M.fail e : M C R ε ρ α) := by
  intro fails n r s a h
  simp at h

theorem Never.pure {a : α} (h : ¬ P a) : Never D P (pure a : M C R ε ρ α) := by
  intro fails n r s b hb
  simp only [exec_pure, Except.ok.injEq] at hb
  exact hb ▸ h

theorem Never.bind {m : M C R ε ρ α} {k : α → M C R ε ρ β} (hk : ∀ a, Never D Q (k a)) :
    Never D Q (m >>= k) := by
  intro fails n r s b hb
  rw [exec_bind] at hb
  rcases hx : exec D fails n m r s with ⟨_ | a, r', s', l⟩ <;> rw [hx] at hb
  · cases hb
  · exact hk a fails _ r' s' b hb

theorem Reports.pure (a : α) : Reports D X P (pure a : M C R ε ρ α) := by
  intro fails n r s b _ _ c hc
  simp at hc

theorem Reports.fail (e : ε) : Reports D X P (M.fail e : M C R ε ρ α) := by
  intro fails n r s b _ _ c hc
  simp at hc

theorem Reports.getMem {P : ρ → Prop} : Reports D X P (M.getMem : M C R ε ρ ρ) := by
  intro fails n r s b _ _ c hc
  simp at hc

theorem Reports.modifyMem {P : Unit → Prop} (f : ρ → ρ) :
    Reports D X P (M.modifyMem f : M C R ε ρ Unit) := by
  intro fails n r s b _ _ c hc
  simp at hc

/-- A call that failed is not a success. -/
theorem Reports.call {P : R → Prop} (c : C) (e : ε) :
    Reports D X P (M.call c e : M C R ε ρ R) := by
  intro fails n r s b hb _ c' hc
  rw [exec_call] at hb hc
  split at hb
  · simp at hb
  · rename_i hn
    simp [hn] at hc

/-- Sequencing. Where the first part hands over a value outside `P` although something
failed, the rest must not succeed. -/
theorem Reports.bind' {m : M C R ε ρ α} {k : α → M C R ε ρ β} (hm : Reports D X P m)
    (hk : ∀ a, P a → Reports D X Q (k a)) (hn : ∀ a, ¬ P a → Never D Q (k a)) :
    Reports D X Q (m >>= k) := by
  intro fails n r s b hb hQ c hc
  have h1 := hm fails n r s
  rw [exec_bind] at hb hc
  rcases hx : exec D fails n m r s with ⟨_ | a, r', s', l⟩
  · simp [hx] at hb
  · rw [hx] at hb hc h1
    -- inside of `P` nothing has failed so far; outside of it the sequence does not succeed
    by_cases hP : P a
    · rcases List.mem_append.mp hc with h | h
      · exact h1 a rfl hP c h
      · exact hk a hP fails _ r' s' b hb hQ c h
    · exact absurd hQ (hn a hP fails _ r' s' b hb)

/-- Sequencing, where every value of the first part is good. -/
theorem Reports.bind {m : M C R ε ρ α} {k : α → M C R ε ρ β}
    (hm : Reports D X (fun _ => True) m) (hk : ∀ a, Reports D X Q (k a)) :
    Reports D X Q (m >>= k) :=
  Reports.bind' hm (fun a _ => hk a) (fun _ h => (h trivial).elim)

/-- A part that is only run under a condition. -/
theorem Reports.when_bind {c : Prop} [Decidable c] {m : M C R ε ρ Unit} {k : Unit → M C R ε ρ β}
    (hm : Reports D X (fun _ => True) m) (hk : Reports D X Q (k ())) :
    Reports D X Q (if c then m >>= k else k ()) := by
  split
  · exact hm.bind fun _ => hk
  · exact hk

theorem Reports.orElse {m : M C R ε ρ α} (e : ε) (hm : Reports D X P m) :
    Reports D X P (M.orElse m e) := by
  intro fails n r s a ha hP c hc
  have h := hm fails n r s
  rw [exec_orElse] at ha hc
  rcases hx : exec D fails n m r s with ⟨_ | b, r', s', l⟩
  · simp [hx] at ha
  · rw [hx] at ha hc h
    obtain rfl : b = a := by simpa using ha
    exact h b rfl hP c hc

/-- A result code handed on: a success code means that only calls in `X` failed. -/
theorem Reports.attempt {m : M C R ε ρ α} (hm : Reports D X P m) :
    Reports D X (fun v => ∃ a, v = .ok a ∧ P a) (M.attempt m) := by
  intro fails n r s v hv hP c hc
  obtain ⟨a, rfl, ha⟩ := hP
  rw [exec_attempt] at hv hc
  exact hm fails n r s a (by simpa using hv) ha c hc

/-- A result that is checked: an error ends in no value of `Q`. -/
theorem Reports.attempt_bind {m : M C R ε ρ α} {k : Except ε α → M C R ε ρ β}
    (hm : Reports D X (fun _ => True) m) (hk : ∀ a, Reports D X Q (k (.ok a)))
    (hn : ∀ e, Never D Q (k (.error e))) : Reports D X Q (M.attempt m >>= k) := by
  refine hm.attempt.bind' ?_ fun v hv => ?_
  · rintro _ ⟨a, rfl, -⟩
    exact hk a
  · cases v with
    | ok a => exact absurd ⟨a, rfl, trivial⟩ hv
    | error e => exact hn e

/-- A dropped result code: all calls of `m` are in `X`. -/
theorem Reports.drop {I : ρ → σ → Prop} {m : M C R ε ρ α}
    {P : Except ε α → Prop} (hI : ∀ r s, I r s) (hm : Always D I X m) :
    Reports D X P (M.attempt m) := by
  intro fails n r s v _ _ c hc
  rw [exec_attempt] at hc
  exact (hm fails n r s (hI r s)).2 (c, false) hc

end Reports

end Device
