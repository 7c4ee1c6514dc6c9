import TrustedFirmware.AuditLog.Core

/-!
# The entries of the audit log

The log is read by walking from `first_el_idx`, each step as long as the size found in the ring
says. `LogInv st es` says that the walk finds the entries `es`, chained in one window of the ring,
and relates them to the counters: `num_items` is their number, `last_el_idx` the position of the
last one, and `stored_size` at least their total size.

Deleting drops entries at the front (`LogInv.deleteItems`); adding drops some at the front and
appends one (`LogInv.addLine`). That the counter may be larger than the entries is no mistake here:
a partial delete makes it so.
-/

namespace Tfm.AuditLog

open Word32 Ring

variable {buf : Nat → UInt8} {first : Nat} {e : List UInt8} {es : List (List UInt8)}

/-! ## Walking the ring

What a reader of the ring finds, without regard to whether there are entries. -/

/-- The bytes of the entry at `idx`. -/
def entryAt (buf : Nat → UInt8) (idx : Nat) : List UInt8 :=
  window logSize buf idx (logEntrySize buf idx)

/-- What is met in `n` steps from `idx` on. -/
def walk (get : Nat → List UInt8) (next : Nat → Nat) : Nat → Nat → List (List UInt8)
  | 0, _ => []
  | n + 1, idx => get idx :: walk get next n (next idx)

/-- The entries of the log. -/
def LogState.entries (st : LogState) : List (List UInt8) :=
  walk (entryAt st.logBuffer) (getNextLogIndex st.logBuffer) st.logState.numItems
    st.logState.firstElIdx

/-- The position `n` entries behind `idx`. -/
def skipItems (buf : Nat → UInt8) (n idx : Nat) : Nat := Nat.iterate (getNextLogIndex buf) n idx

theorem skipItems_succ (buf : Nat → UInt8) (n idx : Nat) :
    skipItems buf (n + 1) idx = skipItems buf n (getNextLogIndex buf idx) :=
  Function.iterate_succ_apply _ _ _

theorem skipItems_succ' (buf : Nat → UInt8) (n idx : Nat) :
    skipItems buf (n + 1) idx = getNextLogIndex buf (skipItems buf n idx) :=
  Function.iterate_succ_apply' _ _ _

theorem skipItems_add (buf : Nat → UInt8) (m n idx : Nat) :
    skipItems buf (m + n) idx = skipItems buf m (skipItems buf n idx) :=
  Function.iterate_add_apply _ _ _ _

/-! ## Well-formed entries

Sizes are multiples of four, so the size field of an entry never wraps around the end of the ring. -/

/-- The size field of the entry gives its length, a multiple of four that fits the ring. -/
structure WellSized (e : List UInt8) : Prop where
  size : ofLe32 e sizeOffset + (logFixedFieldSize + logMacSize) = e.length
  aligned : e.length % 4 = 0
  fits : e.length ≤ logSize

/-- An entry has at least its fixed fields and its MAC. -/
theorem WellSized.length_ge (h : WellSized e) : logFixedFieldSize + logMacSize ≤ e.length := by
  have := h.size
  omega

/-- The size field of a formatted entry is the size of its line. -/
theorem logFormatBuffer_size (timestamp : Nat) (line : TfmLogLine) :
    ofLe32 (logFormatBuffer timestamp line) sizeOffset = line.size.toNat := by
  have hread := ofLe32_append (le32 (timestamp % 2 ^ 32) ++ (le32 (timestamp / 2 ^ 32) ++ (le32 0
    ++ le32 dummyPartitionId))) (line.info.toList ++ [0, 1, 2, 3]) (UInt32.toNat_lt line.size)
  simp only [List.append_assoc] at hread
  exact hread

/-- The lines that `log_core_add_line` accepts. -/
def TfmLogLine.Accepted (line : TfmLogLine) : Prop :=
  line.size.toNat % 4 = 0 ∧ line.size.toNat ≤ logSize - (logFixedFieldSize + logMacSize)

/-- What is formatted for an accepted line is well formed. -/
theorem wellSized_logFormatBuffer (timestamp : Nat) {line : TfmLogLine} (h : line.Accepted) :
    WellSized (logFormatBuffer timestamp line) := by
  obtain ⟨haligned, hfits⟩ := h
  have hlen : (logFormatBuffer timestamp line).length
      = line.size.toNat + (logFixedFieldSize + logMacSize) := by
    simp only [logFormatBuffer, List.length_append, length_le32, Vector.length_toList,
      List.length_cons, List.length_nil, logFixedFieldSize, logMacSize]
    omega
  unfold logSize logFixedFieldSize logMacSize at *
  exact ⟨by rw [logFormatBuffer_size, hlen]; rfl, by omega, by unfold logSize; omega⟩

/-- The size that is computed from the size field is the length of the entry. -/
theorem WellSized.computeLogEntrySize_eq (h : WellSized e) :
    computeLogEntrySize (ofLe32 e sizeOffset) = e.length := by
  have hsize := h.size
  have hfits := h.fits
  unfold computeLogEntrySize logSize logFixedFieldSize logMacSize at *
  rw [u32_eq (by omega)]
  omega

/-- The size field lies within the ring, because entries start at multiples of four. -/
theorem getSizeField_of_window (hfirst : first % 4 = 0) (he : WellSized e)
    (hwin : window logSize buf first e.length = e) :
    getSizeField buf first = ofLe32 e sizeOffset := by
  have hge := he.length_ge
  unfold logFixedFieldSize logMacSize at hge
  have hbyte (i : Nat) (hi : i < 4) :
      buf ((first + sizeOffset) % logSize + i) = e.getD (sizeOffset + i) 0 := by
    -- the four bytes of the field do not wrap
    have hpos : (first + sizeOffset) % logSize + i = (first + (sizeOffset + i)) % logSize := by
      unfold sizeOffset logSize
      omega
    have hcell := getElem?_window (N := logSize) buf first
      (show sizeOffset + i < e.length by unfold sizeOffset; omega)
    rw [hwin] at hcell
    rw [hpos, List.getD_eq_getElem?_getD, hcell]
    rfl
  have h0 := hbyte 0 (by decide)
  have h1 := hbyte 1 (by decide)
  have h2 := hbyte 2 (by decide)
  have h3 := hbyte 3 (by decide)
  rw [Nat.add_zero, Nat.add_zero] at h0
  simp [getSizeField, ofLe32, h0, h1, h2, h3, List.range_succ]

/-- An entry that lies in the ring has its own length. -/
theorem logEntrySize_of_window (hfirst : first % 4 = 0) (he : WellSized e)
    (hwin : window logSize buf first e.length = e) : logEntrySize buf first = e.length := by
  rw [logEntrySize, getSizeField_of_window hfirst he hwin, he.computeLogEntrySize_eq]

/-! ## Chains of entries

Entries that follow each other in the ring are one window of it, and this is how they are described. -/

/-- The entries `es` lie one after the other in the ring, from `first` on. -/
structure Chained (buf : Nat → UInt8) (first : Nat) (es : List (List UInt8)) : Prop where
  lt : first < logSize
  aligned : first % 4 = 0
  sized : ∀ e ∈ es, WellSized e
  held : window logSize buf first es.flatten.length = es.flatten

theorem Chained.head (h : Chained buf first (e :: es)) :
    WellSized e ∧ window logSize buf first e.length = e := by
  have hheld := h.held
  rw [List.flatten_cons] at hheld
  exact ⟨h.sized e List.mem_cons_self, (window_append hheld).1⟩

/-- The entry at the beginning of a chain is its first one. -/
theorem Chained.entryAt_eq (h : Chained buf first (e :: es)) : entryAt buf first = e := by
  obtain ⟨he, hwin⟩ := h.head
  rw [entryAt, logEntrySize_of_window h.aligned he hwin, hwin]

theorem Chained.next_eq (h : Chained buf first (e :: es)) :
    getNextLogIndex buf first = (first + e.length) % logSize := by
  obtain ⟨he, hwin⟩ := h.head
  have hlt := h.lt
  have hfits := he.fits
  rw [getNextLogIndex, logEntrySize_of_window h.aligned he hwin, u32_eq]
  unfold logSize at *
  omega

theorem Chained.tail (h : Chained buf first (e :: es)) :
    Chained buf (getNextLogIndex buf first) es := by
  have hheld := h.held
  have haligned := h.aligned
  have hsize := h.head.1.aligned
  rw [List.flatten_cons] at hheld
  rw [h.next_eq]
  refine ⟨Nat.mod_lt _ (by decide), ?_, fun e' he' => h.sized e' (List.mem_cons_of_mem _ he'), ?_⟩
  · unfold logSize
    omega
  · rw [window_mod]
    exact (window_append hheld).2

/-- The walk over a chain finds its entries. -/
theorem Chained.walk_eq (h : Chained buf first es) :
    walk (entryAt buf) (getNextLogIndex buf) es.length first = es := by
  induction es generalizing first with
  | nil => rfl
  | cons e es ih =>
    rw [List.length_cons, walk, h.entryAt_eq, ih h.tail]

/-- What is behind the first `k` entries of a chain is a chain. -/
theorem Chained.drop (h : Chained buf first es) (k : Nat) (hk : k ≤ es.length) :
    Chained buf (skipItems buf k first) (es.drop k) := by
  induction k generalizing first es with
  | zero => exact h
  | succ k ih =>
    cases es with
    | nil => cases hk
    | cons e es =>
      rw [skipItems_succ]
      exact ih h.tail (Nat.le_of_succ_le_succ hk)

/-- The position behind the first `k` entries. -/
theorem Chained.skip_eq (h : Chained buf first es) (k : Nat) (hk : k ≤ es.length) :
    skipItems buf k first = (first + (es.take k).flatten.length) % logSize := by
  induction k generalizing first es with
  | zero => exact (Nat.mod_eq_of_lt h.lt).symm
  | succ k ih =>
    cases es with
    | nil => cases hk
    | cons e es =>
      rw [skipItems_succ, ih h.tail (Nat.le_of_succ_le_succ hk), h.next_eq, List.take_succ_cons,
        List.flatten_cons, List.length_append, Nat.mod_add_mod, Nat.add_assoc]

theorem length_le_of_sized (h : ∀ e ∈ es, WellSized e) : es.length ≤ es.flatten.length := by
  induction es with
  | nil => exact Nat.le_refl _
  | cons e es ih =>
    have hge := (h e List.mem_cons_self).length_ge
    have := ih fun e' he' => h e' (List.mem_cons_of_mem _ he')
    rw [List.flatten_cons, List.length_append, List.length_cons]
    unfold logFixedFieldSize logMacSize at hge
    omega

/-- Writing an entry behind a chain extends it. -/
theorem Chained.append (h : Chained buf first es) (he : WellSized e)
    (hfits : es.flatten.length + e.length ≤ logSize) :
    Chained (store logSize buf ((first + es.flatten.length) % logSize) e) first (es ++ [e]) := by
  refine ⟨h.lt, h.aligned, fun e' he' => ?_, ?_⟩
  · rcases List.mem_append.mp he' with he' | he'
    · exact h.sized e' he'
    · rw [List.mem_singleton.mp he']
      exact he
  · rw [List.flatten_append, List.flatten_singleton, store_mod]
    exact window_store_append h.held hfits

/-! ## The state of the log

The invariant of the service. -/

/-- The log holds the entries `es`. -/
structure LogInv (st : LogState) (es : List (List UInt8)) : Prop where
  chained : Chained st.logBuffer st.logState.firstElIdx es
  num : st.logState.numItems = es.length
  last : es ≠ [] → st.logState.lastElIdx
    = skipItems st.logBuffer (es.length - 1) st.logState.firstElIdx
  /-- The free room is never overestimated. -/
  counted : es.flatten.length ≤ st.logState.storedSize
  fits : st.logState.storedSize ≤ logSize
  empty : es = [] → st.logState = ⟨0, 0, 0, 0⟩

/-- The counter `stored_size` is exact. -/
def Exact (st : LogState) (es : List (List UInt8)) : Prop :=
  st.logState.storedSize = es.flatten.length

variable {st : LogState}

/-- The walk finds the entries of the invariant. -/
theorem LogInv.entries_eq (h : LogInv st es) : st.entries = es := by
  rw [LogState.entries, h.num, h.chained.walk_eq]

/-- An empty log, whatever the ring holds. -/
theorem logInv_nil (buf : Nat → UInt8) (ts : Nat) : LogInv ⟨buf, ⟨0, 0, 0, 0⟩, ts⟩ [] :=
  ⟨⟨Nat.succ_pos _, rfl, by simp, rfl⟩, rfl, fun h => absurd rfl h, Nat.le_refl _, Nat.zero_le _,
    fun _ => rfl⟩

/-- There are at most as many entries as bytes in the ring. -/
theorem LogInv.length_le (h : LogInv st es) : es.length ≤ logSize :=
  Nat.le_trans (length_le_of_sized h.chained.sized) (Nat.le_trans h.counted h.fits)

/-- The position behind the last entry. -/
theorem LogInv.next_last (h : LogInv st es) (hne : es ≠ []) :
    getNextLogIndex st.logBuffer st.logState.lastElIdx
      = (st.logState.firstElIdx + es.flatten.length) % logSize := by
  have hpos := List.length_pos_iff.mpr hne
  have hskip := h.chained.skip_eq es.length (Nat.le_refl _)
  have hlen : es.length = (es.length - 1) + 1 := by omega
  rw [List.take_length] at hskip
  rw [← hskip, hlen, skipItems_succ', h.last hne]

/-! ## Deleting entries

The head moves on by the sizes that it finds. -/

/-- A delete removes the oldest entries and reports how many. -/
theorem LogInv.deleteItems (h : LogInv st es) (n : Nat) :
    (logCoreDeleteItems st n false).1 = .ok (min n es.length)
      ∧ LogInv (logCoreDeleteItems st n false).2 (es.drop n) := by
  have hlen := h.length_le
  have hnum := h.num
  unfold logCoreDeleteItems
  rw [if_neg (by decide)]
  split
  · -- all entries: the log is reset
    rename_i hall
    rw [hnum] at hall
    rw [List.drop_eq_nil_of_le hall, hnum, Nat.min_eq_right hall]
    exact ⟨rfl, logInv_nil _ _⟩
  · -- some of them: the counter of the size is left alone
    rename_i hsome
    rw [hnum, Nat.not_le] at hsome
    have hrest : es.drop n ≠ [] := by
      rw [Ne, List.drop_eq_nil_iff]
      omega
    refine ⟨by rw [Nat.min_eq_left (Nat.le_of_lt hsome)], h.chained.drop n (Nat.le_of_lt hsome), ?_, fun _ => ?_, ?_,
      h.fits, fun hnil => absurd hnil hrest⟩
    · show sub32 st.logState.numItems n = _
      rw [hnum, List.length_drop, sub32_eq (Nat.le_of_lt hsome) (by unfold logSize at hlen; omega)]
    · show st.logState.lastElIdx = skipItems _ _ (skipItems _ n _)
      rw [← skipItems_add, h.last (by rintro rfl; cases hsome),
        List.length_drop, show es.length - n - 1 + n = es.length - 1 by omega]
    · have hsplit := congrArg (fun l => (List.flatten l).length) (List.take_append_drop n es)
      have hcounted := h.counted
      simp only [List.flatten_append, List.length_append] at hsplit
      show (es.drop n).flatten.length ≤ st.logState.storedSize
      omega

/-! ## Adding entries

Room is made by dropping entries from the front; the loop looks at the counter to see whether there
is enough. -/

theorem logReplaceLoop_zero (entrySize next : Nat → Nat) (size last first stored : Nat) :
    logReplaceLoop entrySize next size last 0 first stored
      = if size > sub32 logSize stored then ⟨0, 0, 0, 0⟩ else ⟨first, last, 0, stored⟩ := rfl

theorem logReplaceLoop_succ (entrySize next : Nat → Nat) (size last n first stored : Nat) :
    logReplaceLoop entrySize next size last (n + 1) first stored
      = if size > sub32 logSize stored then
          logReplaceLoop entrySize next size last n (next first) (sub32 stored (entrySize first))
        else ⟨first, last, n + 1, stored⟩ := rfl

/-- The loop that makes room for `size` bytes drops as few of the oldest entries as possible; it
falls back to an empty log only when the counter claims more than the entries take. -/
theorem logReplaceLoop_spec (size last : Nat) (hsize : size ≤ logSize) {stored : Nat}
    (h : Chained buf first es) (hcounted : es.flatten.length ≤ stored) (hstored : stored ≤ logSize) :
    (∃ k ≤ es.length, size + (stored - (es.take k).flatten.length) ≤ logSize
        ∧ (∀ j < k, logSize < size + (stored - (es.take j).flatten.length))
        ∧ logReplaceLoop (logEntrySize buf) (getNextLogIndex buf) size last es.length first stored
          = ⟨skipItems buf k first, last, es.length - k, stored - (es.take k).flatten.length⟩)
      ∨ (es.flatten.length < stored
        ∧ logReplaceLoop (logEntrySize buf) (getNextLogIndex buf) size last es.length first stored
          = ⟨0, 0, 0, 0⟩) := by
  -- on the entries, with the counter going down along with them
  induction es generalizing first stored with
  | nil =>
    rw [List.length_nil, logReplaceLoop_zero, sub32_eq hstored (by decide)]
    split
    · rename_i hfull
      exact Or.inr ⟨by rw [List.flatten_nil, List.length_nil]; omega, rfl⟩
    · rename_i hroom
      exact Or.inl ⟨0, Nat.le_refl _, by simp; omega, fun j hj => absurd hj (Nat.not_lt_zero j), rfl⟩
  | cons e es ih =>
    rw [List.length_cons, logReplaceLoop_succ, sub32_eq hstored (by decide)]
    split
    · rename_i hfull
      obtain ⟨he, hwin⟩ := h.head
      rw [List.flatten_cons, List.length_append] at hcounted
      have hsub : sub32 stored (logEntrySize buf first) = stored - e.length := by
        rw [logEntrySize_of_window h.aligned he hwin, sub32_eq (by omega)]
        unfold logSize at hstored
        omega
      rw [hsub]
      have hcounted' : es.flatten.length ≤ stored - e.length := by omega
      rcases ih h.tail hcounted' (by omega) with
        ⟨k, hk, hroom, hleast, heq⟩ | ⟨hlt, heq⟩
      · refine Or.inl ⟨k + 1, Nat.succ_le_succ hk, ?_, fun j hj => ?_, ?_⟩
        · rw [List.take_succ_cons, List.flatten_cons, List.length_append]
          omega
        · cases j with
          | zero =>
            show logSize < size + stored
            omega
          | succ j =>
            rw [List.take_succ_cons, List.flatten_cons, List.length_append, Nat.sub_add_eq]
            exact hleast j (Nat.lt_of_succ_lt_succ hj)
        · rw [heq, List.take_succ_cons, List.flatten_cons, List.length_append,
            Nat.add_sub_add_right, Nat.sub_add_eq, skipItems_succ]
      · refine Or.inr ⟨?_, heq⟩
        rw [List.flatten_cons, List.length_append]
        omega
    · rename_i hroom
      exact Or.inl ⟨0, Nat.zero_le _, by simp; omega, fun j hj => absurd hj (Nat.not_lt_zero j), rfl⟩

/-- The log `st'` with room for `size` bytes at `pos`, behind the entries `es`. -/
structure Room (st st' : LogState) (pos size : Nat) (es : List (List UInt8)) : Prop where
  buffer : st'.logBuffer = st.logBuffer
  timestamp : st'.globalTimestamp = st.globalTimestamp
  chained : Chained st.logBuffer st'.logState.firstElIdx es
  num : st'.logState.numItems = es.length
  pos_eq : pos = (st'.logState.firstElIdx + es.flatten.length) % logSize
  counted : es.flatten.length ≤ st'.logState.storedSize
  fits : size + st'.logState.storedSize ≤ logSize

/-- After the first `k` entries are dropped the counter is still exact, and there would not have
been room for `size` bytes with fewer of them dropped. -/
structure Evicts (st' : LogState) (es : List (List UInt8)) (size k : Nat) : Prop where
  exact : Exact st' (es.drop k)
  least : ∀ j < k, logSize < size + (es.drop j).flatten.length

/-- Making room drops the oldest entries. -/
theorem LogInv.room_of_replace (h : LogInv st es) (hne : es ≠ []) {size : Nat}
    (hsize : size ≤ logSize) :
    ∃ k ≤ es.length,
      Room st (logReplaceItem st size).2 (logReplaceItem st size).1 size (es.drop k)
      ∧ (Exact st es → Evicts (logReplaceItem st size).2 es size k) := by
  unfold logReplaceItem
  have hloop := logReplaceLoop_spec size st.logState.lastElIdx hsize h.chained h.counted h.fits
  rw [← h.num] at hloop
  have hsplit (j : Nat) : (es.take j).flatten.length + (es.drop j).flatten.length
      = es.flatten.length := by
    rw [← List.length_append, ← List.flatten_append, List.take_append_drop]
  rcases hloop with ⟨k, hk, hroom, hleast, heq⟩ | ⟨hlt, heq⟩
  · -- the loop has found room: some entries are dropped
    have hcounted := h.counted
    have hnum := h.num
    have htotal := hsplit k
    rw [heq]
    refine ⟨k, hnum ▸ hk, ⟨rfl, rfl, h.chained.drop k (hnum ▸ hk), ?_, ?_, ?_, hroom⟩, fun hexact => ?_⟩
    · rw [List.length_drop, hnum]
    · dsimp only
      split
      · rename_i hzero
        rw [List.drop_eq_nil_of_le (by omega)]
        exact (Nat.mod_eq_of_lt (h.chained.drop k (hnum ▸ hk)).lt).symm
      · -- the last entry is still there, and the position behind it has not moved
        rw [h.next_last hne, h.chained.skip_eq k (hnum ▸ hk), Nat.mod_add_mod, Nat.add_assoc, htotal]
    · show (es.drop k).flatten.length ≤ st.logState.storedSize - _
      omega
    · unfold Exact at hexact
      constructor
      · show st.logState.storedSize - _ = _
        omega
      · intro j hj
        have hroom_j := hleast j hj
        have htotal_j := hsplit j
        omega
  · -- the loop has given up, which takes a counter that is too large: the log is reset
    rw [heq]
    refine ⟨es.length, Nat.le_refl _, ?_, fun hexact => absurd hexact (Nat.ne_of_gt hlt)⟩
    rw [List.drop_length]
    exact ⟨rfl, rfl, ⟨Nat.succ_pos _, rfl, by simp, rfl⟩, rfl, rfl, Nat.le_refl _, hsize⟩

/-- The position for a line: an empty log is at the beginning of the ring. -/
theorem LogInv.position (h : LogInv st es) {size : Nat}
    (hsize : computeLogEntrySize size ≤ logSize) :
    ∃ k ≤ es.length, Room st (logCoreAddLine.position st size).2
        (logCoreAddLine.position st size).1 (computeLogEntrySize size) (es.drop k)
      ∧ (Exact st es →
        Evicts (logCoreAddLine.position st size).2 es (computeLogEntrySize size) k) := by
  unfold logCoreAddLine.position
  cases es with
  | nil =>
    have hvars := h.empty rfl
    have hnum : (logCoreGetInfo st).numItems = 0 := h.num
    rw [if_pos hnum]
    refine ⟨0, Nat.le_refl _, ⟨rfl, rfl, h.chained, h.num, ?_, Nat.zero_le _, ?_⟩,
      fun hexact => ⟨hexact, fun j hj => absurd hj (Nat.not_lt_zero j)⟩⟩
    · rw [hvars]
      rfl
    · rw [hvars]
      exact hsize
  | cons e es =>
    have hnum : ¬ (logCoreGetInfo st).numItems = 0 := by
      show ¬ st.logState.numItems = 0
      rw [h.num]
      exact Nat.succ_ne_zero _
    rw [if_neg hnum]
    exact h.room_of_replace (List.cons_ne_nil e es) hsize

/-- Writing an entry where there is room for it. -/
theorem Room.append {st' : LogState} {pos : Nat} {line : TfmLogLine} (hline : line.Accepted)
    (h : Room st st' pos (computeLogEntrySize line.size.toNat) es) :
    LogInv (logCoreAddLine.append st' pos line) (es ++ [logFormatBuffer st.globalTimestamp line])
    ∧ (Exact st' es → Exact (logCoreAddLine.append st' pos line)
        (es ++ [logFormatBuffer st.globalTimestamp line])) := by
  have he := wellSized_logFormatBuffer st.globalTimestamp hline
  have hlen := he.computeLogEntrySize_eq
  rw [logFormatBuffer_size] at hlen
  have hfits := h.fits
  have hcounted := h.counted
  have hnum := length_le_of_sized h.chained.sized
  unfold logCoreAddLine.append Exact
  rw [h.timestamp]
  rw [hlen] at hfits ⊢
  generalize logFormatBuffer st.globalTimestamp line = e at he hlen hfits ⊢
  -- the copy is made: the position is in the ring and the entry is not larger than it
  have hcopy : (logBufferCopy st'.logBuffer pos e).2 = store logSize st.logBuffer
      ((st'.logState.firstElIdx + es.flatten.length) % logSize) e := by
    have hpos : pos < logSize := by
      rw [h.pos_eq]
      exact Nat.mod_lt _ (Nat.succ_pos _)
    have := he.fits
    rw [logBufferCopy, if_neg (by omega), h.buffer, ← h.pos_eq]
  have hchain := h.chained.append he (by omega)
  have htotal : (es ++ [e]).flatten.length = es.flatten.length + e.length := by
    rw [List.flatten_append, List.flatten_singleton, List.length_append]
  have hstored : add32 st'.logState.storedSize e.length = st'.logState.storedSize + e.length :=
    add32_eq (by unfold logSize at hfits; omega)
  rw [hcopy, hstored, htotal]
  refine ⟨⟨hchain, ?_, fun _ => ?_, ?_, ?_, fun hnil => ?_⟩, fun hexact => ?_⟩
  · rw [h.num, add32_eq (by unfold logSize at hfits; omega), List.length_append, List.length_singleton]
  · show pos = skipItems _ _ _
    rw [List.length_append, List.length_singleton, Nat.add_sub_cancel, hchain.skip_eq _ (by simp),
      List.take_left, h.pos_eq]
  · rw [htotal]
    exact Nat.add_le_add_right hcounted _
  · show st'.logState.storedSize + e.length ≤ logSize
    omega
  · exact absurd hnil (by simp)
  · rw [hexact]

theorem logCoreAddLine_refused {secureCaller : Bool} {line : TfmLogLine}
    (h : ¬ (secureCaller = true ∧ line.Accepted)) :
    logCoreAddLine st secureCaller line = (.error .failure, st) := by
  unfold logCoreAddLine
  split
  · rfl
  split
  · rfl
  split
  · rfl
  · rename_i hsecure haligned hfits
    refine absurd ⟨?_, ?_, ?_⟩ h
    · simpa using hsecure
    · simpa using haligned
    · exact Nat.not_lt.mp hfits

/-- A line that is accepted is appended at the position found for it. -/
theorem logCoreAddLine_accepted {line : TfmLogLine} (h : line.Accepted) :
    logCoreAddLine st true line
      = (.ok (), logCoreAddLine.append (logCoreAddLine.position st line.size.toNat).2
          (logCoreAddLine.position st line.size.toNat).1 line) := by
  unfold logCoreAddLine
  rw [if_neg (by simp), if_neg (by rw [h.1]; simp), if_neg (Nat.not_lt.mpr h.2)]

/-- An accepted line is written behind the entries for which there is room besides it. -/
theorem LogInv.addLine (h : LogInv st es) {line : TfmLogLine} (hline : line.Accepted) :
    ∃ k ≤ es.length, LogInv (logCoreAddLine st true line).2
          (es.drop k ++ [logFormatBuffer st.globalTimestamp line])
        ∧ (Exact st es → Exact (logCoreAddLine st true line).2
            (es.drop k ++ [logFormatBuffer st.globalTimestamp line])
          ∧ ∀ j < k, logSize <
              (es.drop j ++ [logFormatBuffer st.globalTimestamp line]).flatten.length) := by
  have he := wellSized_logFormatBuffer st.globalTimestamp hline
  have hsize := he.computeLogEntrySize_eq
  rw [logFormatBuffer_size] at hsize
  obtain ⟨k, hk, hroom, hevicts⟩ := h.position (hsize ▸ he.fits)
  obtain ⟨hinv, hexact⟩ := hroom.append hline
  rw [logCoreAddLine_accepted hline]
  refine ⟨k, hk, hinv, fun hx => ⟨hexact (hevicts hx).exact, fun j hj => ?_⟩⟩
  have hleast := (hevicts hx).least j hj
  rw [hsize] at hleast
  rw [List.flatten_append, List.flatten_singleton, List.length_append]
  omega

end Tfm.AuditLog
