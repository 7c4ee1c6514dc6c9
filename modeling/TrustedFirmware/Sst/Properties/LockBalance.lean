import TrustedFirmware.Sst.ObjectLock
import TrustedFirmware.Sst.Proofs.ObjectLayer
import TrustedFirmware.Sst.Properties.LayoutInvariant

/-!
# Secure storage — the lock over whole runs

Each call of the object layer that returns either leaves the lock alone, or acquires it and releases
it, or acquires it and is left early with the lock held. `LeavesEarly` says for every call which
outcomes of the core lead to the early return; a run is balanced if and only if it has none of them
(**`lock_balanced_iff`**). Nothing but the lock is touched by the calls of the two lock functions
(`erases_call`).

* `fails_bind` and what follows it: when a sequence of steps reports an error, in terms of its
  steps.
* `Ends`: what one call does to the lock, for each way to end it. `ends_call` goes through the
  calls.
* `Erases`: the calls with the lock and those without it, as a simulation.
-/

namespace Tfm.Sst

open Word32

variable {S α β : Type}

/-! ## Balance

The lock as a state machine with two states, and runs as lists of what their calls did to it. -/

/-- The lock's held flag; there is no next state when the lock is acquired while it is held, or
released while it is free. -/
def lockStep : Bool → LockEvent → Option Bool
  | false, .acquire => some true
  | true, .release => some false
  | _, _ => none

/-- The run, given as what each of its calls did to the lock, is balanced: a call that acquires the
lock releases it once, and the lock is free after every call. -/
structure LockBalanced (calls : List (List LockEvent)) : Prop where
  each : ∀ events ∈ calls, events = [] ∨ events = [.acquire, .release]
  free : ∀ n, (calls.take n).flatten.foldlM lockStep false = some false

/-- That every call releases what it acquires is all there is to it. -/
theorem lockBalanced_iff_each (calls : List (List LockEvent)) :
    LockBalanced calls ↔ ∀ events ∈ calls, events = [] ∨ events = [.acquire, .release] := by
  refine ⟨LockBalanced.each, fun h => ⟨h, ?_⟩⟩
  -- on the run: the lock is free at the start of every call
  induction calls with
  | nil => simp
  | cons events calls ih =>
    have hrest := ih fun e he => h e (List.mem_cons_of_mem _ he)
    intro n
    cases n with
    | zero => rfl
    | succ n =>
      rw [List.take_succ_cons, List.flatten_cons, List.foldlM_append]
      rcases h events List.mem_cons_self with rfl | rfl
      · exact hrest n
      · exact hrest n

/-! ## The calls of a run -/

/-- The call came back with this result. -/
def returned : Except SstErr α → Bool
  | .ok _ => true
  | .error e => decide e.Returns

section Run

variable (cfg : BuildOptions) (core : CoreInterface (StateM S))
  (sstCorePrepare : StateM S (Except SstErr Unit))

/-- A call and what it did to the lock. -/
def SystemCall.exec (call : SystemCall) (st : ObjectStatics) (s : S) :
    (Except SstErr (List UInt8) × ObjectStatics) × Locked S :=
  call.prog cfg core sstCorePrepare st ⟨s, []⟩

/-- What each call of a run did to the lock. The run ends with a call that does not return. -/
def lockRun : List SystemCall → ObjectStatics → S → List (List LockEvent)
  | [], _, _ => []
  | call :: calls, st, s =>
    let o := call.exec cfg core sstCorePrepare st s
    if returned o.1.1 then o.2.events :: lockRun calls o.1.2 o.2.core else []

/-! ## Early returns

The object layer returns with `return err` on an error of the core, and in some functions this is
between the acquire and the release. For each such place: the outcomes that lead to it. -/

/-- The read of an object's header, or in the encrypted build of all of the object, reports an
error. -/
def HeaderReadFails (uuid : UInt32) (st : ObjectStatics) (s : S) : Prop :=
  ∃ e : SstErr, e.Returns ∧
    if cfg.encryption then (sstEncryptedObjectRead cfg core uuid st s).1.1 = .error e
    else (core.read uuid 0 cfg.objectHeaderSize s).1 = .error e

/-- The plain build reads the header, but its read of the data reports an error. -/
def DataReadFails (uuid : UInt32) (st : ObjectStatics) (s : S) : Prop :=
  cfg.encryption = false ∧
    ∃ header s', core.read uuid 0 cfg.objectHeaderSize s = (.ok header, s')
      ∧ header.length ≤ st.object.length
      ∧ 0 < (objectInfo cfg (sstUtilsMemcpy st.object 0 header)).sizeCurrent
      ∧ ∃ e : SstErr, e.Returns ∧
        (core.read uuid cfg.objectHeaderSize
          (objectInfo cfg (sstUtilsMemcpy st.object 0 header)).sizeCurrent s').1 = .error e

/-- The object is read, and its current size is `bad`. -/
def LoadedWith (uuid : UInt32) (st : ObjectStatics) (s : S) (bad : Nat → Prop) : Prop :=
  ∃ st' s', sstObjectLoad cfg core uuid st s = ((.ok (), st'), s')
    ∧ bad (objectInfo cfg st'.object).sizeCurrent

/-- The outcomes after which a call is left by a `return` between the two lock functions. -/
def SystemCall.LeavesEarly : SystemCall → ObjectStatics → S → Prop
  | .prepare, _, _ => False
  | .object call, st, s => st.systemReady = true ∧
    match call with
    | .create uuid _ size => cfg.encryption = false
      ∧ (core.exist uuid s).1 = .error .assetNotFound
      ∧ ∃ e : SstErr, e.Returns ∧
        (core.create uuid (sstObjectSize cfg size) (core.exist uuid s).2).1 = .error e
    | .read uuid offset size => HeaderReadFails cfg core uuid st s ∨ DataReadFails cfg core uuid st s
      ∨ LoadedWith cfg core uuid st s fun sizeCurrent => sizeCurrent < offset + size
    | .write uuid _ offset => HeaderReadFails cfg core uuid st s ∨ DataReadFails cfg core uuid st s
      ∨ LoadedWith cfg core uuid st s fun sizeCurrent => sizeCurrent < offset
    | .getInfo uuid => HeaderReadFails cfg core uuid st s
    | .getAttributes uuid => HeaderReadFails cfg core uuid st s
    | .setAttributes uuid _ => HeaderReadFails cfg core uuid st s
    | .delete _ => False

/-- No call of the run is left early. -/
def NoneLeavesEarly : List SystemCall → ObjectStatics → S → Prop
  | [], _, _ => True
  | call :: calls, st, s =>
    let o := call.exec cfg core sstCorePrepare st s
    ¬ call.LeavesEarly cfg core st s ∧ (returned o.1.1 = true → NoneLeavesEarly calls o.1.2 o.2.core)

end Run

/-! ## Steps that report an error

An error that the caller gets is told from an outcome the model stops at: `Fails` is about the first
kind only. -/

/-- The step ends with an error that a call returns with. -/
def Fails (x : ObjM (StateM S) α) (st : ObjectStatics) (s : S) : Prop :=
  ∃ e : SstErr, e.Returns ∧ (x st s).1.1 = .error e

/-- The step ends with this result and in this state. -/
def Succeeds (x : ObjM (StateM S) α) (st : ObjectStatics) (s : S) (a : α) (st' : ObjectStatics)
    (s' : S) : Prop :=
  x st s = ((.ok a, st'), s')

section Steps

variable {st st' : ObjectStatics} {s s' : S}

/-- A sequence fails in its first step, or after it. -/
theorem fails_bind {x : ObjM (StateM S) α} {k : α → ObjM (StateM S) β} :
    Fails (x >>= k) st s
      ↔ Fails x st s ∨ ∃ a st' s', Succeeds x st s a st' s' ∧ Fails (k a) st' s' := by
  unfold Fails Succeeds
  rw [ObjM.bind_apply]
  -- on the outcome of the first step
  rcases hx : x st s with ⟨⟨e | a, st'⟩, s'⟩
  · constructor
    · rintro ⟨e', he', heq⟩
      cases heq
      exact .inl ⟨e, he', rfl⟩
    · rintro (⟨e', he', heq⟩ | ⟨a, st'', s'', heq, -⟩)
      · cases heq
        exact ⟨e, he', rfl⟩
      · cases heq
  · constructor
    · intro h
      exact .inr ⟨a, st', s', rfl, h⟩
    · rintro (⟨e', he', heq⟩ | ⟨a, st'', s'', heq, h⟩)
      · cases heq
      · cases heq
        exact h

theorem not_fails_pure (a : α) : ¬ Fails (pure a : ObjM (StateM S) α) st s := by
  rintro ⟨e, -, heq⟩
  cases heq

theorem not_fails_getStatics : ¬ Fails (ObjM.getStatics : ObjM (StateM S) _) st s := by
  rintro ⟨e, -, heq⟩
  cases heq

theorem succeeds_getStatics {a : ObjectStatics} :
    Succeeds (ObjM.getStatics : ObjM (StateM S) _) st s a st' s' ↔ a = st ∧ st' = st ∧ s' = s := by
  constructor
  · intro h
    cases h
    exact ⟨rfl, rfl, rfl⟩
  · rintro ⟨rfl, rfl, rfl⟩
    rfl

/-- A call of the core fails with the core. -/
theorem fails_core {x : StateM S (Except SstErr α)} :
    Fails (ObjM.core x) st s ↔ ∃ e : SstErr, e.Returns ∧ (x s).1 = .error e := Iff.rfl

/-- A call of the core leaves the statics alone. -/
theorem succeeds_core {x : StateM S (Except SstErr α)} {a : α} :
    Succeeds (ObjM.core x) st s a st' s' ↔ x s = (.ok a, s') ∧ st' = st := by
  show (((x s).1, st), (x s).2) = ((.ok a, st'), s') ↔ _
  rcases x s with ⟨res, s1⟩
  constructor
  · intro h
    cases h
    exact ⟨rfl, rfl⟩
  · rintro ⟨h, rfl⟩
    cases h
    rfl

theorem fails_ofExcept {x : Except SstErr α} :
    Fails (ObjM.ofExcept x : ObjM (StateM S) α) st s ↔ ∃ e : SstErr, e.Returns ∧ x = .error e := by
  cases x with
  | ok a => exact ⟨fun h => absurd h (not_fails_pure a), fun ⟨_, _, heq⟩ => by cases heq⟩
  | error e => exact ⟨fun ⟨e', he', heq⟩ => ⟨e', he', by cases heq; rfl⟩,
      fun ⟨e', he', heq⟩ => ⟨e', he', by cases heq; rfl⟩⟩

/-- A copy into the object buffer, with the bounds of the buffer. -/
theorem copyToObject_apply (pos : Nat) (bytes : List UInt8) :
    (ObjM.copyToObject pos bytes : ObjM (StateM S) Unit) st s =
      if pos + bytes.length ≤ st.object.length then
        ((.ok (), { st with object := sstUtilsMemcpy st.object pos bytes }), s)
      else ((.error .bufferOverrun, st), s) := by
  show (ObjM.ofExcept (memcpyInto st.object pos bytes) >>= ObjM.setObject : ObjM (StateM S) Unit)
    st s = _
  rw [ObjM.bind_apply, memcpyInto]
  by_cases h : pos + bytes.length ≤ st.object.length
  · rw [if_pos h, if_pos h]
    rfl
  · rw [if_neg h, if_neg h]
    rfl

/-- A copy can overrun the buffer, but reports nothing. -/
theorem not_fails_copyToObject (pos : Nat) (bytes : List UInt8) :
    ¬ Fails (ObjM.copyToObject pos bytes : ObjM (StateM S) Unit) st s := by
  rintro ⟨e, he, heq⟩
  rw [copyToObject_apply] at heq
  split at heq
  · cases heq
  · cases heq
    exact he.2 rfl

/-- A copy that fits changes the object buffer only. -/
theorem succeeds_copyToObject {pos : Nat} {bytes : List UInt8} :
    Succeeds (ObjM.copyToObject pos bytes : ObjM (StateM S) Unit) st s () st' s'
      ↔ pos + bytes.length ≤ st.object.length
        ∧ st' = { st with object := sstUtilsMemcpy st.object pos bytes } ∧ s' = s := by
  unfold Succeeds
  rw [copyToObject_apply]
  split
  · rename_i hfit
    refine ⟨fun h => ?_, fun ⟨_, hst, hs⟩ => by rw [hst, hs]⟩
    cases h
    exact ⟨hfit, rfl, rfl⟩
  · rename_i hfit
    refine ⟨fun h => ?_, fun ⟨h, _⟩ => absurd h hfit⟩
    cases h

end Steps

/-! ## What the reads report

The functions that load an object, or its header, into the buffer of the layer. -/

section Reads

variable {cfg : BuildOptions} {core : CoreInterface (StateM S)} {st : ObjectStatics} {s : S}

/-- The read of a header fails with the read of the core. -/
theorem fails_loadHeader (uuid : UInt32) :
    Fails (sstObjectLoadHeader cfg core uuid) st s ↔ HeaderReadFails cfg core uuid st s := by
  unfold HeaderReadFails sstObjectLoadHeader
  -- the encrypted build reads all of the object, to authenticate it
  by_cases henc : cfg.encryption = true
  · simp only [henc, if_true]
    rfl
  · simp only [henc, Bool.false_eq_true, if_false]
    rw [fails_bind, fails_core]
    simp only [not_fails_copyToObject, and_false, exists_false, or_false]

/-- The read of an object fails with either of the two reads of the core. -/
theorem fails_load (uuid : UInt32) :
    Fails (sstObjectLoad cfg core uuid) st s
      ↔ HeaderReadFails cfg core uuid st s ∨ DataReadFails cfg core uuid st s := by
  unfold HeaderReadFails DataReadFails sstObjectLoad
  by_cases henc : cfg.encryption = true
  · simp only [henc, if_true, Bool.true_eq_false, false_and, or_false]
    rfl
  · simp only [henc, Bool.false_eq_true, if_false, true_and]
    rw [fails_bind, fails_core]
    refine or_congr_right ⟨?_, ?_⟩
    · -- through the steps of the plain build: header, copy, statics, data
      rintro ⟨header, st1, s1, hread, hrest⟩
      obtain ⟨hread', hst1⟩ := succeeds_core.mp hread
      subst hst1
      obtain h | ⟨_, st2, s2, hcopy, hrest2⟩ := fails_bind.mp hrest
      · exact absurd h (not_fails_copyToObject _ _)
      obtain ⟨hfit, hst2, hs2⟩ := succeeds_copyToObject.mp hcopy
      subst hst2 hs2
      obtain h | ⟨_, st3, s3, hget, hrest3⟩ := fails_bind.mp hrest2
      · exact absurd h not_fails_getStatics
      obtain ⟨ha, hst3, hs3⟩ := succeeds_getStatics.mp hget
      subst ha hst3 hs3
      dsimp only at hrest3
      split at hrest3
      · rename_i hsize
        obtain h | ⟨_, _, _, _, h⟩ := fails_bind.mp hrest3
        · exact ⟨header, _, hread', by omega, hsize, h⟩
        · exact absurd h (not_fails_copyToObject _ _)
      · exact absurd hrest3 (not_fails_pure ())
    · rintro ⟨header, s', hread, hfit, hsize, h⟩
      refine ⟨header, st, s', succeeds_core.mpr ⟨hread, rfl⟩, fails_bind.mpr (.inr ⟨(), _, s',
        succeeds_copyToObject.mpr ⟨by omega, rfl, rfl⟩, fails_bind.mpr (.inr ⟨_, _, s',
          succeeds_getStatics.mpr ⟨rfl, rfl, rfl⟩, ?_⟩)⟩)⟩
      simp only [gt_iff_lt, hsize, if_true]
      exact fails_bind.mpr (.inl h)

/-- A read of an object fails with one of the core's reads, or because of its bounds. -/
theorem fails_read (uuid : UInt32) (offset size : Nat) :
    Fails (sstObjectRead cfg core uuid offset size) st s
      ↔ HeaderReadFails cfg core uuid st s ∨ DataReadFails cfg core uuid st s
        ∨ LoadedWith cfg core uuid st s fun sizeCurrent => sizeCurrent < offset + size := by
  unfold sstObjectRead LoadedWith
  rw [fails_bind, fails_load, or_assoc]
  refine or_congr_right (or_congr_right ⟨?_, ?_⟩)
  · rintro ⟨_, st1, s1, hload, hrest⟩
    obtain h | ⟨_, st2, s2, hget, hrest2⟩ := fails_bind.mp hrest
    · exact absurd h not_fails_getStatics
    obtain ⟨ha, hst2, hs2⟩ := succeeds_getStatics.mp hget
    subst ha hst2 hs2
    obtain h | ⟨_, _, _, _, h⟩ := fails_bind.mp hrest2
    · -- the error of the check is returned, so the range was not contained in the object
      obtain ⟨e, -, he⟩ := fails_ofExcept.mp h
      rw [sstUtilsCheckContainedIn] at he
      split at he
      · exact ⟨_, _, hload, by omega⟩
      · cases he
    · exact absurd h (not_fails_pure _)
  · rintro ⟨st', s', hload, hbad⟩
    refine ⟨(), st', s', hload, fails_bind.mpr (.inr ⟨_, _, _,
      succeeds_getStatics.mpr ⟨rfl, rfl, rfl⟩, fails_bind.mpr (.inl (fails_ofExcept.mpr
        ⟨.paramError, by decide, ?_⟩))⟩)⟩
    exact if_pos (by omega)

/-- A function that reads the header and then only copies fails with the read. -/
theorem fails_loadHeader_bind {k : Unit → ObjM (StateM S) α} (uuid : UInt32)
    (hk : ∀ st s, ¬ Fails (k ()) st s) :
    Fails (sstObjectLoadHeader cfg core uuid >>= k) st s ↔ HeaderReadFails cfg core uuid st s := by
  rw [fails_bind, fails_loadHeader]
  exact or_iff_left fun ⟨_, st', s', _, h⟩ => hk st' s' h

/-- `sst_object_get_info` fails with the read of the header. -/
theorem fails_getInfo (uuid : UInt32) :
    Fails (sstObjectGetInfo cfg core uuid) st s ↔ HeaderReadFails cfg core uuid st s := by
  refine fails_loadHeader_bind uuid fun st s h => ?_
  obtain h | ⟨_, _, _, _, h⟩ := fails_bind.mp h
  · exact not_fails_getStatics h
  · exact not_fails_pure _ h

/-- `sst_object_get_attributes` fails with the read of the header. -/
theorem fails_getAttributes (uuid : UInt32) :
    Fails (sstObjectGetAttributes cfg core uuid) st s ↔ HeaderReadFails cfg core uuid st s := by
  refine fails_loadHeader_bind uuid fun st s h => ?_
  obtain h | ⟨_, _, _, _, h⟩ := fails_bind.mp h
  · exact not_fails_getStatics h
  · exact not_fails_pure _ h

end Reads

/-! ## Single calls

Which of the three ways a call takes, composed along the steps of its body. -/

/-- The call ends as it should: left early, it returns with the lock held; otherwise, if it returns,
the lock is as free as before. -/
structure Ends (early : Prop) (o : (Except SstErr α × ObjectStatics) × Locked S) : Prop where
  held : early → returned o.1.1 = true ∧ o.2.events = [.acquire]
  free : ¬ early → returned o.1.1 = true → o.2.events = [] ∨ o.2.events = [.acquire, .release]

section Calls

variable {cfg : BuildOptions} {core : CoreInterface (StateM S)} {st : ObjectStatics} {s : S}

/-- The condition of the early return may be rewritten. -/
theorem Ends.congr {early early' : Prop} {o : (Except SstErr α × ObjectStatics) × Locked S}
    (h : Ends early o) (heq : early ↔ early') : Ends early' o :=
  ⟨fun he => h.held (heq.mpr he), fun hn => h.free fun he => hn (heq.mp he)⟩

/-- A result that is thrown away changes nothing. -/
theorem Ends.pure_nil {early : Prop} {x : ObjM (StateM (Locked S)) Unit} {y : Locked S}
    (h : Ends early (x st y)) :
    Ends early ((x >>= fun _ => pure [] : ObjM (StateM (Locked S)) (List UInt8)) st y) := by
  rw [ObjM.bind_apply]
  rcases hx : x st y with ⟨⟨_ | a, st'⟩, y'⟩ <;> rw [hx] at h
  · exact ⟨h.held, h.free⟩
  · exact ⟨h.held, h.free⟩

/-- A call that starts by acquiring the lock. -/
theorem ends_lock_bind {early : Prop} {k : ObjM (StateM (Locked S)) β}
    (hk : Ends early (k st ⟨s, [.acquire]⟩)) :
    Ends early ((sstGlobalLock >>= fun _ => k : ObjM (StateM (Locked S)) β) st ⟨s, []⟩) := by
  rw [ObjM.bind_apply]
  exact hk

/-- With the lock held, an error of the next step is returned at once. -/
theorem ends_quietly_bind {x : ObjM (StateM S) α} {k : α → ObjM (StateM (Locked S)) β}
    {E : α → ObjectStatics → S → Prop}
    (hk : ∀ a st' s', Ends (E a st' s') (k a st' ⟨s', [.acquire]⟩)) :
    Ends (Fails x st s ∨ ∃ a st' s', Succeeds x st s a st' s' ∧ E a st' s')
      ((quietly x >>= k : ObjM (StateM (Locked S)) β) st ⟨s, [.acquire]⟩) := by
  rw [ObjM.bind_apply, quietly]
  unfold Fails Succeeds
  rcases hx : x st s with ⟨⟨e | a, st'⟩, s'⟩
  · -- an error: the call ends here, with the lock held
    refine ⟨?_, fun hn hr => absurd (.inl ⟨e, of_decide_eq_true hr, rfl⟩) hn⟩
    rintro (⟨e', he', heq⟩ | ⟨_, _, _, heq, -⟩)
    · cases heq
      exact ⟨decide_eq_true he', rfl⟩
    · cases heq
  · -- no error: the rest of the call decides
    refine (hk a st' s').congr ⟨fun h => .inr ⟨a, st', s', rfl, h⟩, ?_⟩
    rintro (⟨_, _, heq⟩ | ⟨_, _, _, heq, h⟩)
    · cases heq
    · cases heq
      exact h

/-- With the lock held, only this step is left early. -/
theorem ends_quietly_bind_of_never {x : ObjM (StateM S) α} {k : α → ObjM (StateM (Locked S)) β}
    (hk : ∀ a st' s', Ends False (k a st' ⟨s', [.acquire]⟩)) :
    Ends (Fails x st s) ((quietly x >>= k : ObjM (StateM (Locked S)) β) st ⟨s, [.acquire]⟩) := by
  refine (ends_quietly_bind (E := fun _ _ _ => False) hk).congr ?_
  exact ⟨fun h => h.resolve_right fun ⟨_, _, _, _, hf⟩ => hf, .inl⟩

/-- The lock is acquired and released around a step, and an error of the step is returned at
once. -/
theorem ends_strict (x : ObjM (StateM S) α) :
    Ends (Fails x st s)
      ((sstGlobalLock >>= fun _ => quietly x >>= fun a => sstGlobalUnlock >>= fun _ => pure a :
        ObjM (StateM (Locked S)) α) st ⟨s, []⟩) :=
  ends_lock_bind (ends_quietly_bind_of_never fun _ _ _ => ⟨False.elim, fun _ _ => .inr rfl⟩)

/-- A step whose result is returned behind the release. -/
theorem ends_releasing (x : ObjM (StateM (Locked S)) α)
    (hx : ∀ st y, (x st y).2.events = y.events) :
    Ends False (releasing x st ⟨s, [.acquire]⟩) := by
  refine ⟨False.elim, fun _ _ => .inr ?_⟩
  have hev := hx st ⟨s, [.acquire]⟩
  unfold releasing
  simp only [ObjM.bind_apply, sstGlobalUnlock]
  cases (x st ⟨s, [.acquire]⟩).1.1 with
  | ok a => exact congrArg (· ++ [LockEvent.release]) hev
  | error e => exact congrArg (· ++ [LockEvent.release]) hev

/-- A step without lock events, whose result is returned behind the release. -/
theorem ends_releasing_quietly (x : ObjM (StateM S) α) :
    Ends False (releasing (quietly x) st ⟨s, [.acquire]⟩) :=
  ends_releasing _ fun _ _ => rfl

/-- `sst_object_write` is left early when the object cannot be read or the offset is too large. -/
theorem ends_write (uuid : UInt32) (data : List UInt8) (offset : Nat) :
    Ends (HeaderReadFails cfg core uuid st s ∨ DataReadFails cfg core uuid st s
        ∨ LoadedWith cfg core uuid st s fun sizeCurrent => sizeCurrent < offset)
      (WithLock.sstObjectWrite cfg core uuid data offset st ⟨s, []⟩) := by
  have h : Ends (Fails (sstObjectLoad cfg core uuid) st s
        ∨ ∃ a st' s', Succeeds (sstObjectLoad cfg core uuid) st s a st' s'
          ∧ (objectInfo cfg st'.object).sizeCurrent < offset)
      (WithLock.sstObjectWrite cfg core uuid data offset st ⟨s, []⟩) := by
    refine ends_lock_bind (ends_quietly_bind fun _ st' s' => ?_)
    rw [ObjM.bind_apply]
    show Ends _ ((if offset > (objectInfo cfg st'.object).sizeCurrent then ObjM.fail .paramError
      else releasing (quietly (WithLock.sstObjectUpdate cfg core uuid data offset)) :
        ObjM (StateM (Locked S)) Unit) st' ⟨s', [.acquire]⟩)
    split
    · -- the offset is checked with the lock held, and the error returned at once
      rename_i hbad
      exact ⟨fun _ => ⟨rfl, rfl⟩, fun hn => absurd hbad hn⟩
    · rename_i hok
      exact (ends_releasing_quietly _).congr ⟨False.elim, hok⟩
  refine h.congr ?_
  rw [fails_load, or_assoc]
  exact or_congr_right (or_congr_right ⟨fun ⟨_, st', s', hl, hb⟩ => ⟨st', s', hl, hb⟩,
    fun ⟨st', s', hl, hb⟩ => ⟨(), st', s', hl, hb⟩⟩)

/-- `sst_object_set_attributes` is left early when the header cannot be read. -/
theorem ends_setAttributes (uuid : UInt32) (attrs : AssetAttrs) :
    Ends (HeaderReadFails cfg core uuid st s)
      (WithLock.sstObjectSetAttributes cfg core uuid attrs st ⟨s, []⟩) := by
  rw [← fails_loadHeader]
  exact ends_lock_bind (ends_quietly_bind_of_never fun _ _ _ => ends_releasing_quietly _)

/-- `sst_object_create` is left early when the plain build's create in the core fails. -/
theorem ends_create (uuid : UInt32) (type size : Nat) :
    Ends (cfg.encryption = false ∧ (core.exist uuid s).1 = .error .assetNotFound
        ∧ ∃ e : SstErr, e.Returns ∧
          (core.create uuid (sstObjectSize cfg size) (core.exist uuid s).2).1 = .error e)
      (WithLock.sstObjectCreate cfg core uuid type size st ⟨s, []⟩) := by
  refine ends_lock_bind ?_
  dsimp only
  split
  · rename_i hnew
    rw [ObjM.bind_apply]
    dsimp only [ObjM.setObject, pure, StateT.pure]
    -- the encrypted build goes to the release with the error, the plain build returns it
    by_cases henc : cfg.encryption = true
    · simp only [henc, if_true]
      exact (ends_releasing_quietly _).congr (by simp)
    · simp only [henc, Bool.false_eq_true, if_false]
      refine Ends.congr (ends_quietly_bind_of_never fun _ st' s' => ?_)
        (by simp only [fails_core, hnew, true_and])
      exact ends_releasing_quietly _
  · -- the object exists or the lookup fails: the release follows
    rename_i hex
    refine (ends_releasing _ fun st y => ?_).congr ⟨False.elim, fun h => hex h.2.1⟩
    cases (core.exist uuid s).1 <;> rfl

/-- A call that is made before the system is ready does not touch the lock. -/
theorem ends_of_ready {early : Prop} {x : ObjM (StateM (Locked S)) α}
    (hx : Ends early (x st ⟨s, []⟩)) :
    Ends (st.systemReady = true ∧ early)
      ((ObjM.getStatics >>= fun st => if !st.systemReady then ObjM.fail .systemError else x :
        ObjM (StateM (Locked S)) α) st ⟨s, []⟩) := by
  rw [ObjM.bind_apply]
  show Ends _ ((if !st.systemReady then ObjM.fail .systemError else x :
    ObjM (StateM (Locked S)) α) st ⟨s, []⟩)
  cases hready : st.systemReady with
  | false => exact ⟨fun h => absurd h.1 Bool.false_ne_true, fun _ _ => .inl rfl⟩
  | true => exact hx.congr ⟨fun h => ⟨rfl, h⟩, And.right⟩

/-- Every call of the object layer ends as it should, whatever the core does. -/
theorem ends_call (sstCorePrepare : StateM S (Except SstErr Unit)) (call : SystemCall)
    (st : ObjectStatics) (s : S) :
    Ends (call.LeavesEarly cfg core st s) (call.exec cfg core sstCorePrepare st s) := by
  cases call with
  | prepare => exact (ends_lock_bind (ends_releasing_quietly _)).pure_nil
  | object call =>
    cases call with
    | create uuid type size => exact ends_of_ready (ends_create uuid type size).pure_nil
    | read uuid offset size =>
      exact ends_of_ready ((ends_strict _).congr (fails_read uuid offset size))
    | write uuid data offset => exact ends_of_ready (ends_write uuid data offset).pure_nil
    | getInfo uuid => exact ends_of_ready ((ends_strict _).congr (fails_getInfo uuid))
    | getAttributes uuid => exact ends_of_ready ((ends_strict _).congr (fails_getAttributes uuid))
    | setAttributes uuid attrs => exact ends_of_ready (ends_setAttributes uuid attrs).pure_nil
    | delete uuid =>
      exact ends_of_ready (ends_lock_bind (ends_releasing_quietly _)).pure_nil

end Calls

/-! ## The calls without the lock

The model with the lock and the one without it agree on everything but the lock. -/

/-- Up to what it does to the lock, `x` is `x'`. -/
def Erases (x : ObjM (StateM (Locked S)) α) (x' : ObjM (StateM S) α) : Prop :=
  ∀ st y, (x st y).1 = (x' st y.core).1 ∧ (x st y).2.core = (x' st y.core).2

namespace Erases

variable {x : ObjM (StateM (Locked S)) α} {x' : ObjM (StateM S) α}

theorem quietly (x' : ObjM (StateM S) α) : Erases (quietly x') x' := fun _ _ => ⟨rfl, rfl⟩

theorem getStatics : Erases (S := S) ObjM.getStatics ObjM.getStatics := fun _ _ => ⟨rfl, rfl⟩

theorem setObject (object : List UInt8) : Erases (S := S) (ObjM.setObject object)
    (ObjM.setObject object) := fun _ _ => ⟨rfl, rfl⟩

/-- An error is the same with and without the lock. -/
theorem fail (e : SstErr) : Erases (S := S) (ObjM.fail e : ObjM _ α) (ObjM.fail e) :=
  fun _ _ => ⟨rfl, rfl⟩

theorem pure (a : α) : Erases (S := S) (pure a) (pure a) := fun _ _ => ⟨rfl, rfl⟩

theorem bind {k : α → ObjM (StateM (Locked S)) β} {k' : α → ObjM (StateM S) β} (hx : Erases x x')
    (hk : ∀ a, Erases (k a) (k' a)) : Erases (x >>= k) (x' >>= k') := by
  intro st y
  obtain ⟨h1, h2⟩ := hx st y
  rw [ObjM.bind_apply, ObjM.bind_apply]
  -- the first step ends alike in both, and so does what follows it
  rcases hxy : x st y with ⟨⟨e | a, st1⟩, y1⟩
  · rw [hxy] at h1 h2
    rcases hxy' : x' st y.core with ⟨⟨e' | a', st1'⟩, s1⟩ <;> rw [hxy'] at h1 h2 <;> cases h1
    exact ⟨rfl, h2⟩
  · rw [hxy] at h1 h2
    rcases hxy' : x' st y.core with ⟨⟨e' | a', st1'⟩, s1⟩ <;> rw [hxy'] at h1 h2 <;> cases h1
    cases h2
    exact hk a st1 y1

theorem lock_bind (hx : Erases x x') : Erases (sstGlobalLock >>= fun _ => x) x' := by
  intro st y
  rw [ObjM.bind_apply]
  exact hx st _

theorem releasing (hx : Erases x x') : Erases (releasing x) x' := by
  intro st y
  obtain ⟨h1, h2⟩ := hx st y
  unfold Sst.releasing
  simp only [ObjM.bind_apply, sstGlobalUnlock]
  rw [← h1, ← h2]
  rcases x st y with ⟨⟨e | a, st1⟩, y1⟩
  · exact ⟨rfl, rfl⟩
  · exact ⟨rfl, rfl⟩

/-- The lock is acquired and released around a step. -/
theorem strict (x' : ObjM (StateM S) α) :
    Erases (sstGlobalLock >>= fun _ => Sst.quietly x' >>= fun a => sstGlobalUnlock >>= fun _ =>
      Pure.pure a) x' := by
  refine lock_bind fun st y => ?_
  rw [ObjM.bind_apply]
  simp only [Sst.quietly]
  rcases x' st y.core with ⟨⟨e | a, st1⟩, s1⟩
  · exact ⟨rfl, rfl⟩
  · exact ⟨rfl, rfl⟩

end Erases

section Erasure

variable {cfg : BuildOptions} {core : CoreInterface (StateM S)}

/-- `sst_object_create` with the lock does what it does without it. -/
theorem erases_create (uuid : UInt32) (type size : Nat) :
    Erases (WithLock.sstObjectCreate cfg core uuid type size)
      (sstObjectCreate cfg core uuid type size) := by
  refine .lock_bind fun st y => ?_
  have happly (k : Except SstErr Unit → StateM S (Except SstErr Unit × ObjectStatics)) :
      (core.exist uuid >>= k) y.core = k (core.exist uuid y.core).1 (core.exist uuid y.core).2 := rfl
  rw [sstObjectCreate, happly]
  -- both look the object up first
  rcases core.exist uuid y.core with ⟨res, s'⟩
  dsimp only
  by_cases hnew : res = .error .assetNotFound
  · subst hnew
    rw [if_pos rfl]
    refine Erases.bind (.setObject _) (fun _ => ?_) st ⟨s', y.events⟩
    split
    · exact .releasing (.quietly _)
    · exact .bind (.quietly _) fun _ => .bind .getStatics fun _ => .releasing (.quietly _)
  · rw [if_neg hnew]
    cases res with
    | ok a => exact ⟨rfl, rfl⟩
    | error e => cases e <;> first | exact absurd rfl hnew | exact ⟨rfl, rfl⟩

/-- The calls of the lock functions change nothing that the object layer or the core keeps. -/
theorem erases_call (call : ObjectCall) :
    Erases (WithLock.sstObjectCall cfg core call) (sstObjectCall cfg core call) := by
  refine .bind .getStatics fun st => ?_
  split
  · exact .fail _
  · cases call with
    | create uuid type size => exact .bind (erases_create uuid type size) fun _ => .pure _
    | read uuid offset size => exact .strict _
    | write uuid data offset =>
      refine .bind (.lock_bind (.bind (.quietly _) fun _ => .bind .getStatics fun st => ?_))
        fun _ => .pure _
      dsimp only
      split
      · exact .fail _
      · exact .releasing (.quietly _)
    | getInfo uuid => exact .strict _
    | getAttributes uuid => exact .strict _
    | setAttributes uuid attrs =>
      exact .bind (.lock_bind (.bind (.quietly _) fun _ => .releasing (.quietly _))) fun _ => .pure _
    | delete uuid => exact .bind (.lock_bind (.releasing (.quietly _))) fun _ => .pure _

end Erasure

/-! ## Runs

By induction on the list of calls, with the statics and the core in any state. -/

/-- The lock is balanced over a run, from any state and for any behaviour of the core, if and only if
no call of the run is left early. -/
theorem lock_balanced_iff (cfg : BuildOptions) (core : CoreInterface (StateM S))
    (sstCorePrepare : StateM S (Except SstErr Unit)) (calls : List SystemCall) (st : ObjectStatics)
    (s : S) :
    LockBalanced (lockRun cfg core sstCorePrepare calls st s)
      ↔ NoneLeavesEarly cfg core sstCorePrepare calls st s := by
  rw [lockBalanced_iff_each]
  induction calls generalizing st s with
  | nil => simp [lockRun, NoneLeavesEarly]
  | cons call calls ih =>
    have hcall : Ends (call.LeavesEarly cfg core st s) (call.exec cfg core sstCorePrepare st s) :=
      ends_call sstCorePrepare call st s
    unfold lockRun NoneLeavesEarly
    dsimp only
    split
    · rename_i hret
      rw [List.forall_mem_cons, ih]
      refine and_congr ⟨fun hev hearly => ?_, fun hn => hcall.free hn hret⟩ (by simp [hret])
      -- left early, the call has acquired the lock and not released it
      rw [(hcall.held hearly).2] at hev
      simp at hev
    · rename_i hret
      refine ⟨fun _ => ⟨fun hearly => hret (hcall.held hearly).1, fun h => absurd h hret⟩, ?_⟩
      intro _
      simp

/-- A read of an id without an object is left with the lock held, and the next call acquires the lock
once more. -/
theorem lock_held_after_failed_read :
    lockRun smallConfig.toBuildOptions mapCore (pure (.ok ()))
        [.prepare, .object (.read 1 0 1), .object (.delete 1)]
        ⟨false, [], []⟩ ⟨fun _ => none, .replicate 12 0⟩
      = [[.acquire, .release], [.acquire], [.acquire, .release]]
    ∧ [LockEvent.acquire, .release, .acquire, .acquire, .release].foldlM lockStep false = none
    ∧ ¬ LockBalanced (lockRun smallConfig.toBuildOptions mapCore (pure (.ok ()))
        [.prepare, .object (.read 1 0 1), .object (.delete 1)]
        ⟨false, [], []⟩ ⟨fun _ => none, .replicate 12 0⟩) := by
  have hrun : lockRun smallConfig.toBuildOptions mapCore (pure (.ok ()))
      [.prepare, .object (.read 1 0 1), .object (.delete 1)]
      ⟨false, [], []⟩ ⟨fun _ => none, .replicate 12 0⟩
      = [[.acquire, .release], [.acquire], [.acquire, .release]] := rfl
  refine ⟨hrun, rfl, fun h => ?_⟩
  rw [hrun] at h
  have hread := h.each [.acquire] (by simp)
  simp at hread

end Tfm.Sst
