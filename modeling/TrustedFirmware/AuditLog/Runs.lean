import TrustedFirmware.AuditLog.Entries
import Mathlib.Data.List.Induction

/-!
# Runs of the audit log

What the log retains after any sequence of its public calls (**`entries_of_runLog`**), when its size
counter is exact (**`accounted_runLog_iff`**), and what an add drops
(**`addLine_keeps_longest_suffix`**). A partial delete moves the head of the log but leaves
`stored_size` alone; from then on the log holds less than the counter says. It never overestimates
the free room, so no retained entry is overwritten, but what is reported and retrieved is too much.
-/

namespace Tfm.AuditLog

open Word32 Ring

variable {st : LogState} {es : List (List UInt8)}

/-! ## Runs

A run keeps a record of its own, of the entries that were added since the last init. The log is
compared with it. -/

/-- A call of the log service. -/
inductive LogCall where
  | init
  | addLine (secureCaller : Bool) (line : TfmLogLine)
  | deleteItems (numItems : UInt32) (remItemsNull : Bool)

/-- The state after a call. -/
def LogCall.apply (st : LogState) : LogCall → LogState
  | .init => logCoreInit st
  | .addLine secureCaller line => (logCoreAddLine st secureCaller line).2
  | .deleteItems numItems remItemsNull => (logCoreDeleteItems st numItems.toNat remItemsNull).2

/-- The entries added since the last init, after a call. -/
def LogCall.record (st : LogState) (added : List (List UInt8)) : LogCall → List (List UInt8)
  | .init => []
  | .addLine secureCaller line =>
    match (logCoreAddLine st secureCaller line).1 with
    | .ok _ => added ++ [logFormatBuffer st.globalTimestamp line]
    | .error _ => added
  | .deleteItems _ _ => added

/-- The state of the log and the entries added since the last init, after calls made on the
state the statics start in, whatever the ring holds. -/
def runLog (buf : Nat → UInt8) (ts : Nat) (cs : List LogCall) : LogState × List (List UInt8) :=
  cs.foldl (fun s c => (c.apply s.1, c.record s.1 s.2)) (⟨buf, ⟨0, 0, 0, 0⟩, ts⟩, [])

theorem runLog_concat (buf : Nat → UInt8) (ts : Nat) (cs : List LogCall) (c : LogCall) :
    runLog buf ts (cs ++ [c]) = (c.apply (runLog buf ts cs).1,
      c.record (runLog buf ts cs).1 (runLog buf ts cs).2) := by
  unfold runLog
  rw [List.foldl_append]
  rfl

/-- A refused add changes nothing, an accepted one drops old entries and adds the new one. -/
theorem LogInv.addLine_cases (h : LogInv st es) (secureCaller : Bool) (line : TfmLogLine) :
    logCoreAddLine st secureCaller line = (.error .failure, st)
      ∨ ((logCoreAddLine st secureCaller line).1 = .ok ()
        ∧ ∃ k, LogInv (logCoreAddLine st secureCaller line).2
            (es.drop k ++ [logFormatBuffer st.globalTimestamp line])
          ∧ (Exact st es → Exact (logCoreAddLine st secureCaller line).2
            (es.drop k ++ [logFormatBuffer st.globalTimestamp line]))) := by
  by_cases hline : secureCaller = true ∧ line.Accepted
  · obtain ⟨rfl, hline⟩ := hline
    obtain ⟨k, -, hinv, hexact⟩ := h.addLine hline
    exact Or.inr ⟨by rw [logCoreAddLine_accepted hline], k, hinv, fun hx => (hexact hx).1⟩
  · exact Or.inl (logCoreAddLine_refused hline)

/-! ## What the log retains

A suffix of the record: entries are added at the end and dropped at the front. -/

/-- One call: the log holds a suffix of the entries added since the last init. -/
theorem LogInv.step (h : LogInv st es) {added : List (List UInt8)} (hs : es <:+ added)
    (c : LogCall) : ∃ es', LogInv (c.apply st) es' ∧ es' <:+ c.record st added := by
  cases c with
  | init => exact ⟨[], logInv_nil _ _, List.nil_suffix⟩
  | addLine secureCaller line =>
    dsimp only [LogCall.apply, LogCall.record]
    rcases h.addLine_cases secureCaller line with href | ⟨hok, k, hinv, -⟩
    · rw [href]
      exact ⟨es, h, hs⟩
    · rw [hok]
      obtain ⟨pre, rfl⟩ := hs
      -- what is left of the old entries still ends the old history
      refine ⟨_, hinv, pre ++ es.take k, ?_⟩
      rw [List.append_assoc, ← List.append_assoc (es.take k), List.take_append_drop,
        List.append_assoc]
  | deleteItems n null =>
    cases null with
    | true => exact ⟨es, h, hs⟩
    | false =>
      exact ⟨es.drop n.toNat, (h.deleteItems n.toNat).2, (List.drop_suffix _ _).trans hs⟩

/-- By induction on the run, from its end. -/
theorem logInv_runLog (buf : Nat → UInt8) (ts : Nat) (cs : List LogCall) :
    ∃ es, LogInv (runLog buf ts cs).1 es ∧ es <:+ (runLog buf ts cs).2 := by
  induction cs using List.reverseRecOn with
  | nil => exact ⟨[], logInv_nil _ _, List.nil_suffix⟩
  | append_singleton cs c ih =>
    obtain ⟨es, hinv, hs⟩ := ih
    rw [runLog_concat]
    exact hinv.step hs c

/-- What a run leaves is described by the entries that the walk finds. -/
theorem logInv_entries (buf : Nat → UInt8) (ts : Nat) (cs : List LogCall) :
    LogInv (runLog buf ts cs).1 (runLog buf ts cs).1.entries := by
  obtain ⟨es, h, -⟩ := logInv_runLog buf ts cs
  rw [h.entries_eq]
  exact h

/-- **Retained entries.** After any calls, walking `num_items` steps from `first_el_idx` finds
the last entries that were added since the last init, byte for byte, and the walk ends at
`last_el_idx`. A further add leaves the rest of the entries in place, and a further delete of
`n` items removes the `n` oldest and reports how many there were. -/
theorem entries_of_runLog (buf : Nat → UInt8) (ts : Nat) (cs : List LogCall) :
    (runLog buf ts cs).1.entries <:+ (runLog buf ts cs).2
    ∧ (0 < (runLog buf ts cs).1.logState.numItems →
        skipItems (runLog buf ts cs).1.logBuffer ((runLog buf ts cs).1.logState.numItems - 1)
          (runLog buf ts cs).1.logState.firstElIdx = (runLog buf ts cs).1.logState.lastElIdx)
    ∧ (∀ secureCaller line,
        (logCoreAddLine (runLog buf ts cs).1 secureCaller line).1 = .ok () →
        ∃ k, (logCoreAddLine (runLog buf ts cs).1 secureCaller line).2.entries
          = (runLog buf ts cs).1.entries.drop k
            ++ [logFormatBuffer (runLog buf ts cs).1.globalTimestamp line])
    ∧ (∀ n : UInt32, (logCoreDeleteItems (runLog buf ts cs).1 n.toNat false).1
          = .ok (min n.toNat (runLog buf ts cs).1.logState.numItems)
        ∧ (logCoreDeleteItems (runLog buf ts cs).1 n.toNat false).2.entries
          = (runLog buf ts cs).1.entries.drop (min n.toNat (runLog buf ts cs).1.logState.numItems)) := by
  obtain ⟨es, h, hs⟩ := logInv_runLog buf ts cs
  generalize (runLog buf ts cs).1 = st at h
  generalize (runLog buf ts cs).2 = added at hs
  rw [h.entries_eq]
  refine ⟨hs, fun hpos => ?_, fun secureCaller line hok => ?_, fun n => ?_⟩
  · rw [h.num] at hpos ⊢
    exact (h.last (List.length_pos_iff.mp hpos)).symm
  · rcases h.addLine_cases secureCaller line with href | ⟨-, k, hinv, -⟩
    · rw [href] at hok
      cases hok
    · exact ⟨k, hinv.entries_eq⟩
  · obtain ⟨hnum, hinv⟩ := h.deleteItems n.toNat
    refine ⟨by rw [hnum, h.num], ?_⟩
    rw [hinv.entries_eq, h.num, List.drop_eq_drop_min]

/-! ## The size counter

Exact counting is lost by one kind of call, and by no other. -/

/-- The counter is the size of the entries, and reading all of the log returns just them. -/
structure Accounted (st : LogState) : Prop where
  stored : st.logState.storedSize = (st.entries.map List.length).sum
  retrieved : ∀ (fuel : Nat) (size : UInt32), 0 < size.toNat → st.logState.storedSize ≤ size.toNat →
    logCoreRetrieve (fuel + 1) st size tfmLogReadRecent
      = some (.ok st.entries.flatten,
          ⟨(st.entries.map List.length).sum, st.logState.numItems⟩)

/-- With an exact counter and a buffer that is large enough all entries are retrieved. -/
theorem LogInv.retrieve_recent (h : LogInv st es) (hexact : Exact st es) (fuel : Nat)
    {size : UInt32} (hpos : 0 < size.toNat) (hsize : st.logState.storedSize ≤ size.toNat) :
    logCoreRetrieve (fuel + 1) st size tfmLogReadRecent
      = some (.ok es.flatten, ⟨st.logState.storedSize, es.length⟩) := by
  have hne : ¬ size = 0 := by
    rintro rfl
    cases hpos
  unfold logCoreRetrieve
  dsimp only [logCoreGetInfo]
  rw [if_neg hne]
  cases es with
  | nil =>
    have hvars := h.empty rfl
    have hnum : st.logState.numItems = 0 := h.num
    rw [if_pos hnum, hvars]
    rfl
  | cons e es =>
    have hstored : ¬ st.logState.storedSize = 0 := by
      have hge := h.chained.head.1.length_ge
      unfold logFixedFieldSize logMacSize at hge
      rw [hexact, List.flatten_cons, List.length_append]
      omega
    have hheld := h.chained.held
    rw [← hexact] at hheld
    rw [if_neg (by rw [h.num]; exact Nat.succ_ne_zero _), if_pos rfl, Nat.min_eq_right hsize]
    -- nothing is left out, the loop ends in its first round
    unfold logRetrieveRecent
    rw [if_neg (Nat.lt_irrefl _)]
    show (if st.logState.storedSize = 0 then _ else _) = _
    rw [if_neg hstored, hheld, h.num]

/-- The accounting is right when the counter is exact. -/
theorem LogInv.accounted_iff (h : LogInv st es) : Accounted st ↔ Exact st es := by
  have hsum : (st.entries.map List.length).sum = es.flatten.length := by
    rw [h.entries_eq, List.length_flatten]
  constructor
  · intro hacc
    exact hacc.stored.trans hsum
  · intro hexact
    refine ⟨hexact.trans hsum.symm, fun fuel size hpos hsize => ?_⟩
    rw [h.retrieve_recent hexact fuel hpos hsize, hsum, ← hexact, h.entries_eq, h.num]

/-- A delete that removes some, but not all of the entries. -/
def LogCall.Partial (st : LogState) (c : LogCall) : Prop :=
  ∃ n, c = .deleteItems n false ∧ 0 < n.toNat ∧ n.toNat < st.logState.numItems

/-- A partial delete does not touch the counter. -/
theorem storedSize_deleteItems_partially {n : Nat} (h : n < st.logState.numItems) :
    (logCoreDeleteItems st n false).2.logState.storedSize = st.logState.storedSize := by
  unfold logCoreDeleteItems
  rw [if_neg (by decide), if_neg (Nat.not_le.mpr h)]

/-- A call keeps the counter exact unless it is a partial delete. -/
theorem LogInv.exact_step (h : LogInv st es) (hexact : Exact st es) {c : LogCall}
    (hc : ¬ c.Partial st) : ∃ es', LogInv (c.apply st) es' ∧ Exact (c.apply st) es' := by
  cases c with
  | init => exact ⟨[], logInv_nil _ _, rfl⟩
  | addLine secureCaller line =>
    dsimp only [LogCall.apply]
    rcases h.addLine_cases secureCaller line with href | ⟨-, k, hinv, hexact'⟩
    · rw [href]
      exact ⟨es, h, hexact⟩
    · exact ⟨_, hinv, hexact' hexact⟩
  | deleteItems n null =>
    cases null with
    | true => exact ⟨es, h, hexact⟩
    | false =>
      refine ⟨es.drop n.toNat, (h.deleteItems n.toNat).2, ?_⟩
      show (logCoreDeleteItems st n.toNat false).2.logState.storedSize = (es.drop n.toNat).flatten.length
      rcases Nat.lt_or_ge n.toNat st.logState.numItems with hsome | hall
      · -- nothing is deleted
        have hzero : n.toNat = 0 := Nat.eq_zero_of_not_pos fun hpos => hc ⟨n, rfl, hpos, hsome⟩
        rw [storedSize_deleteItems_partially hsome, hzero, List.drop_zero, hexact]
      · rw [List.drop_eq_nil_of_le (h.num ▸ hall), logCoreDeleteItems, if_neg (by decide),
          if_pos hall]
        rfl

/-- After a partial delete the counter is too large. -/
theorem LogInv.not_exact_of_partial (h : LogInv st es) {c : LogCall} (hc : c.Partial st) :
    ¬ Accounted (c.apply st) := by
  obtain ⟨n, rfl, hpos, hlt⟩ := hc
  have hinv := (h.deleteItems n.toNat).2
  rw [LogCall.apply, hinv.accounted_iff, Exact, storedSize_deleteItems_partially hlt]
  have hcounted := h.counted
  rw [h.num] at hlt
  cases es with
  | nil => cases hlt
  | cons e es =>
    -- at least one entry is gone, and no entry is empty
    obtain ⟨m, hm⟩ := Nat.exists_eq_succ_of_ne_zero (Nat.ne_of_gt hpos)
    have hge := h.chained.head.1.length_ge
    have hsplit := congrArg (fun l => (List.flatten l).length) (List.take_append_drop m es)
    unfold logFixedFieldSize logMacSize at hge
    simp only [List.flatten_append, List.length_append] at hsplit
    rw [List.flatten_cons, List.length_append] at hcounted
    rw [hm, Nat.succ_eq_add_one, List.drop_succ_cons]
    omega

/-- **Size accounting.** In a run, the size counter is exact in every state reached, and a
retrieval of the whole log returns exactly its entries, if and only if no call deletes some but
not all of the entries. -/
theorem accounted_runLog_iff (buf : Nat → UInt8) (ts : Nat) (cs : List LogCall) :
    (∀ cs', cs' <+: cs → Accounted (runLog buf ts cs').1)
      ↔ ∀ cs' c, cs' ++ [c] <+: cs → ¬ c.Partial (runLog buf ts cs').1 := by
  constructor
  · intro hacc cs' c hpre hc
    obtain ⟨es, h, -⟩ := logInv_runLog buf ts cs'
    have hbad := hacc _ hpre
    rw [runLog_concat] at hbad
    exact h.not_exact_of_partial hc hbad
  · intro hwhole cs' hpre
    -- every call up to here keeps the counter exact
    have hexact : ∃ es, LogInv (runLog buf ts cs').1 es ∧ Exact (runLog buf ts cs').1 es := by
      induction cs' using List.reverseRecOn with
      | nil => exact ⟨[], logInv_nil _ _, rfl⟩
      | append_singleton cs' c ih =>
        obtain ⟨es, h, hexact⟩ := ih ((List.prefix_append _ _).trans hpre)
        rw [runLog_concat]
        exact h.exact_step hexact (hwhole cs' c hpre)
    obtain ⟨es, h, hexact⟩ := hexact
    exact h.accounted_iff.mpr hexact

/-- A line with four bytes behind its size. -/
def fourByteLine : TfmLogLine := ⟨4, #v[1, 2, 3, 4]⟩

set_option maxRecDepth 100000 in
/-- Two lines are added and the older one is deleted: the log holds one entry of 28 bytes, but
reports 56 and returns as many. -/
theorem partial_delete_miscounts :
    let st := (runLog (fun _ => 0) 0
      [.addLine true fourByteLine, .addLine true fourByteLine, .deleteItems 1 false]).1
    st.entries = [logFormatBuffer 1 fourByteLine]
    ∧ logCoreGetInfo st = ⟨56, 1⟩
    ∧ (logCoreRetrieve 1 st 1024 tfmLogReadRecent).map (fun x => x.2) = some ⟨56, 1⟩ := by
  decide +kernel

/-! ## What an add drops

With an exact counter no entry is dropped without need. -/

/-- **Eviction.** With an exact counter, a line of an accepted size is added, and of the old entries
followed by the new one the log keeps the longest suffix that fits the ring. A line of any other
size is refused and leaves the log unchanged. -/
theorem addLine_keeps_longest_suffix (h : LogInv st es) (hexact : Exact st es) (line : TfmLogLine) :
    (line.Accepted → (logCoreAddLine st true line).1 = .ok () ∧
      ∃ k ≤ es.length,
        let kept := (es ++ [logFormatBuffer st.globalTimestamp line]).drop k
        LogInv (logCoreAddLine st true line).2 kept ∧ Exact (logCoreAddLine st true line).2 kept ∧
        kept.flatten.length ≤ logSize ∧
        ∀ j < k, logSize <
          ((es ++ [logFormatBuffer st.globalTimestamp line]).drop j).flatten.length) ∧
    (¬ line.Accepted → ∀ secureCaller,
      logCoreAddLine st secureCaller line = (.error .failure, st)) := by
  constructor
  · intro hline
    refine ⟨by rw [logCoreAddLine_accepted hline], ?_⟩
    obtain ⟨k, hk, hinv, hkept⟩ := h.addLine hline
    obtain ⟨hexact', hleast⟩ := hkept hexact
    refine ⟨k, hk, ?_⟩
    dsimp only
    rw [List.drop_append_of_le_length hk]
    refine ⟨hinv, hexact', Nat.le_trans hinv.counted hinv.fits, fun j hj => ?_⟩
    rw [List.drop_append_of_le_length (Nat.le_trans (Nat.le_of_lt hj) hk)]
    exact hleast j hj
  · intro hline secureCaller
    exact logCoreAddLine_refused fun haccepted => hline haccepted.2

/-- A log with two lines, in a ring that held zeros. -/
def twoLines : LogState :=
  (runLog (fun _ => 0) 0 [.addLine true fourByteLine, .addLine true fourByteLine]).1

/-- The invariant of the log with two lines. -/
theorem logInv_twoLines : LogInv twoLines twoLines.entries := logInv_entries _ _ _

set_option maxRecDepth 100000 in
theorem exact_twoLines : Exact twoLines twoLines.entries := by
  unfold Exact
  decide +kernel

/-- A line of 972 bytes leaves room for one of the two. -/
theorem addLine_keeps_longest_suffix_twoLines :
    let line : TfmLogLine := ⟨972, Vector.replicate 972 7⟩
    (logCoreAddLine twoLines true line).1 = .ok () ∧
      ∃ k ≤ twoLines.entries.length,
        let kept := (twoLines.entries ++ [logFormatBuffer twoLines.globalTimestamp line]).drop k
        LogInv (logCoreAddLine twoLines true line).2 kept ∧
        Exact (logCoreAddLine twoLines true line).2 kept ∧ kept.flatten.length ≤ logSize ∧
        ∀ j < k, logSize < ((twoLines.entries
          ++ [logFormatBuffer twoLines.globalTimestamp line]).drop j).flatten.length :=
  (addLine_keeps_longest_suffix logInv_twoLines exact_twoLines _).1 ⟨rfl, by decide⟩

end Tfm.AuditLog
