import TrustedFirmware.AuditLog.Runs
import TrustedFirmware.Lib.BoundedIteration
import Mathlib.Data.Nat.Find

/-!
# Audit log — retrieving entries

`log_core_retrieve` has two loops. The one for the most recent entries leaves out entries at the
front until the rest fits; it is bounded by the entries (**`retrieve_longest_suffix`**). The one
that starts from a given entry collects entries until the next one does not fit, and does not look
at the number of entries: behind the last one it takes whatever the ring holds there for the size of
a next entry. It thereby returns bytes of no entry (**`retrievesRun_iff`**), and with sizes that
wrap it does not end (**`retrieve_ends_of_runLog_iff`**).

The second loop is described by the sizes it adds up (`spanSize`). The position it has reached is
determined by the sum, so the loop is an iteration on the sum (`spanStep`).
-/

namespace Tfm.AuditLog

open Word32 Ring BoundedIteration

variable {buf : Nat → UInt8} {st : LogState} {es : List (List UInt8)} {pos bound : Nat}

/-! ## Sizes along the ring

The sums over stored entries are what one expects; behind them the sum goes on, in 32-bit words. -/

/-- The sum, as the loop computes it, of the sizes of `n` entries found from `pos` on. -/
def spanSize (buf : Nat → UInt8) (pos : Nat) : Nat → Nat
  | 0 => 0
  | n + 1 => add32 (spanSize buf pos n) (logEntrySize buf (skipItems buf n pos))

/-! ### The sum decides

Where the loop stands is determined by the sum so far, so that it can be seen as an iteration on
sums. -/

/-- One more entry, from the sum of those before. -/
def spanStep (buf : Nat → UInt8) (pos total : Nat) : Nat :=
  add32 total (logEntrySize buf ((pos + total) % logSize))

theorem logEntrySize_lt (buf : Nat → UInt8) (idx : Nat) : logEntrySize buf idx < 2 ^ 32 :=
  u32_lt _

/-- The first sum is the size of the first entry. -/
theorem spanSize_one (buf : Nat → UInt8) (pos : Nat) : spanSize buf pos 1 = logEntrySize buf pos := by
  show add32 0 (logEntrySize buf pos) = _
  rw [add32, Nat.zero_add, u32_eq (logEntrySize_lt buf pos)]

/-- The sum gives the position. -/
theorem skipItems_eq_span (hpos : pos < logSize) (n : Nat) :
    skipItems buf n pos = (pos + spanSize buf pos n) % logSize := by
  induction n with
  | zero => exact (Nat.mod_eq_of_lt hpos).symm
  | succ n ih =>
    rw [skipItems_succ', spanSize, getNextLogIndex]
    generalize logEntrySize buf (skipItems buf n pos) = size
    rw [ih]
    -- the size of the ring divides `2 ^ 32`, so the words may wrap
    unfold add32 u32 logSize
    omega

/-- The sums are the iterates of one step. -/
theorem spanSize_eq_iterate (hpos : pos < logSize) (n : Nat) :
    spanSize buf pos n = (spanStep buf pos)^[n] 0 := by
  induction n with
  | zero => rfl
  | succ n ih =>
    rw [Function.iterate_succ_apply', ← ih, spanStep, ← skipItems_eq_span hpos]
    rfl

/-- The sums over stored entries are exact. -/
theorem Chained.spanSize_eq (h : Chained buf pos es) (hfits : es.flatten.length ≤ logSize) {n : Nat}
    (hn : n ≤ es.length) : spanSize buf pos n = (es.take n).flatten.length := by
  induction n with
  | zero => rfl
  | succ n ih =>
    have hrest := h.drop n (Nat.le_of_succ_le hn)
    cases hdrop : es.drop n with
    | nil =>
      have := List.drop_eq_nil_iff.mp hdrop
      omega
    -- one more entry of the chain, found at the position behind the others
    | cons e rest =>
      rw [hdrop] at hrest
      obtain ⟨he, hwin⟩ := hrest.head
      have hsplit : es.take (n + 1) = es.take n ++ [e] := by
        rw [List.take_add, hdrop]
        rfl
      have hle : (es.take (n + 1)).flatten.length ≤ es.flatten.length := by
        conv_rhs => rw [← List.take_append_drop (n + 1) es, List.flatten_append, List.length_append]
        exact Nat.le_add_right _ _
      rw [spanSize, ih (Nat.le_of_succ_le hn), logEntrySize_of_window hrest.aligned he hwin]
      rw [hsplit, List.flatten_append, List.flatten_singleton, List.length_append] at hle ⊢
      exact add32_eq (by unfold logSize at hfits; omega)

/-- No sum over stored entries is larger than their total. -/
theorem Chained.spanSize_le (h : Chained buf pos es) (hfits : es.flatten.length ≤ logSize) {n : Nat}
    (hn : n ≤ es.length) : spanSize buf pos n ≤ es.flatten.length := by
  rw [h.spanSize_eq hfits hn]
  conv_rhs => rw [← List.take_append_drop n es, List.flatten_append, List.length_append]
  exact Nat.le_add_right _ _

/-- The sum over all of them is their total. -/
theorem Chained.spanSize_all (h : Chained buf pos es) (hfits : es.flatten.length ≤ logSize) :
    spanSize buf pos es.length = es.flatten.length := by
  rw [h.spanSize_eq hfits (Nat.le_refl _), List.take_length]

/-- Behind the stored entries, the sum goes on with what the ring holds there. -/
theorem Chained.spanSize_behind (h : Chained buf pos es) (hfits : es.flatten.length ≤ logSize) :
    spanSize buf pos (es.length + 1)
      = add32 es.flatten.length (logEntrySize buf (skipItems buf es.length pos)) := by
  rw [spanSize, h.spanSize_all hfits]

/-- The first entries are the first bytes of the window. -/
theorem Chained.window_take (h : Chained buf pos es) (n : Nat) :
    window logSize buf pos (es.take n).flatten.length = (es.take n).flatten := by
  have hheld := h.held
  rw [← List.take_append_drop n es, List.flatten_append] at hheld
  exact (window_append hheld).1

/-- The position behind the entries from the `n`-th on. -/
theorem LogInv.skip_drop (h : LogInv st es) {n : Nat} (hn : n < es.length) :
    skipItems st.logBuffer (es.drop n).length (skipItems st.logBuffer n st.logState.firstElIdx)
      = getNextLogIndex st.logBuffer st.logState.lastElIdx := by
  rw [← skipItems_add, List.length_drop, Nat.sub_add_cancel (Nat.le_of_lt hn),
    h.last (by rintro rfl; cases hn), ← skipItems_succ', Nat.sub_add_cancel (by omega)]

/-! ## The loop from a given entry

An iteration that stays below a bound for longer than there are values below it stays there forever. -/

/-- The loop stops in front of the first entry that does not fit. -/
theorem logRetrieveFrom_span {fuel m t items : Nat} (hle : m ≤ t)
    (hstay : ∀ k, m ≤ k → k < t → spanSize buf pos (k + 1) ≤ bound)
    (hleave : bound < spanSize buf pos (t + 1)) (hfuel : t - m < fuel)
    (hitems : items + (t - m) < 2 ^ 32) :
    logRetrieveFrom (logEntrySize buf) (getNextLogIndex buf) bound fuel (skipItems buf m pos) items
      (spanSize buf pos m) = some (items + (t - m), spanSize buf pos t) := by
  induction fuel generalizing m items with
  | zero => cases hfuel
  | succ fuel ih =>
    unfold logRetrieveFrom
    rw [show add32 (spanSize buf pos m) (logEntrySize buf (skipItems buf m pos))
      = spanSize buf pos (m + 1) from rfl, ← skipItems_succ']
    -- the entry does not fit, or there is one more round
    rcases Nat.eq_or_lt_of_le hle with rfl | hlt
    · dsimp only
      rw [if_neg (Nat.not_le.mpr hleave), Nat.sub_self, Nat.add_zero]
    · dsimp only
      rw [if_pos (hstay m (Nat.le_refl m) hlt), add32_eq (by omega),
        ih hlt (fun k hk => hstay k (Nat.le_of_succ_le hk)) (by omega) (by omega)]
      congr 2
      omega

/-- The loop does not end while all further entries fit. -/
theorem logRetrieveFrom_none {m items : Nat} (hstay : ∀ k, m ≤ k → spanSize buf pos (k + 1) ≤ bound)
    (fuel : Nat) :
    logRetrieveFrom (logEntrySize buf) (getNextLogIndex buf) bound fuel (skipItems buf m pos) items
      (spanSize buf pos m) = none := by
  induction fuel generalizing m items with
  | zero => rfl
  | succ fuel ih =>
    unfold logRetrieveFrom
    rw [show add32 (spanSize buf pos m) (logEntrySize buf (skipItems buf m pos))
      = spanSize buf pos (m + 1) from rfl, ← skipItems_succ']
    dsimp only
    rw [if_pos (hstay m (Nat.le_refl m)), ih fun k hk => hstay k (Nat.le_of_succ_le hk)]

/-- What the loop returns, for the sums from the position of the first entry on: it stops in front
of the first entry that does not fit, within as many rounds as there are sums, or not at all. -/
theorem logRetrieveFrom_cases (hpos : pos < logSize) (hbound : bound ≤ logSize)
    (hfirst : spanSize buf pos 1 ≤ bound) :
    (∃ t, 0 < t ∧ t ≤ bound + 1 ∧ (∀ k ≤ t, spanSize buf pos k ≤ bound) ∧
      bound < spanSize buf pos (t + 1) ∧ ∀ fuel, t ≤ fuel →
        logRetrieveFrom (logEntrySize buf) (getNextLogIndex buf) bound fuel (skipItems buf 1 pos) 1
          (spanSize buf pos 1) = some (t, spanSize buf pos t)) ∨
    ((∀ k, spanSize buf pos k ≤ bound) ∧ ∀ fuel,
      logRetrieveFrom (logEntrySize buf) (getNextLogIndex buf) bound fuel (skipItems buf 1 pos) 1
        (spanSize buf pos 1) = none) := by
  by_cases hall : ∀ k, spanSize buf pos k ≤ bound
  · exact .inr ⟨hall, fun fuel => logRetrieveFrom_none (fun k _ => hall (k + 1)) fuel⟩
  · left
    have hex : ∃ k, bound < spanSize buf pos k := by
      obtain ⟨k, hk⟩ := not_forall.mp hall
      exact ⟨k, Nat.not_le.mp hk⟩
    -- the first sum that is too large
    have hleave := Nat.find_spec hex
    have hmin : ∀ k < Nat.find hex, spanSize buf pos k ≤ bound :=
      fun k hk => Nat.not_lt.mp (Nat.find_min hex hk)
    generalize Nat.find hex = n at hleave hmin
    have hn : 2 ≤ n := by
      match n, hleave with
      | 0, hleave => exact absurd hleave (Nat.not_lt_zero _)
      | 1, hleave => exact absurd hfirst (Nat.not_le.mpr hleave)
      | n + 2, _ => exact Nat.le_add_left 2 n
    -- otherwise one of the sums below the bound would have come back
    have hsmall : n ≤ bound + 2 := by
      by_contra hlarge
      have hwithin : Within (spanStep buf pos) 0 bound (bound + 1) := by
        intro k hk
        rw [← spanSize_eq_iterate hpos]
        exact hmin k (by omega)
      have hstay := within_of_within_bound hwithin n n (Nat.le_refl n)
      rw [← spanSize_eq_iterate hpos] at hstay
      omega
    obtain ⟨t, rfl⟩ : ∃ t, n = t + 1 := ⟨n - 1, by omega⟩
    refine ⟨t, by omega, by omega, fun k hk => hmin k (by omega), hleave, fun fuel hfuel => ?_⟩
    have hloop : logRetrieveFrom (logEntrySize buf) (getNextLogIndex buf) bound fuel
        (skipItems buf 1 pos) 1 (spanSize buf pos 1) = some (1 + (t - 1), spanSize buf pos t) :=
      logRetrieveFrom_span (by omega) (fun k _ hk => hmin (k + 1) (by omega)) hleave (by omega)
        (by unfold logSize at hbound; omega)
    rw [hloop, show 1 + (t - 1) = t by omega]

/-- More rounds do not change the result. -/
theorem logRetrieveFrom_mono {entrySize next : Nat → Nat} {fuel fuel' idx items total : Nat}
    {r : Nat × Nat} (hle : fuel ≤ fuel')
    (h : logRetrieveFrom entrySize next bound fuel idx items total = some r) :
    logRetrieveFrom entrySize next bound fuel' idx items total = some r := by
  induction fuel generalizing fuel' idx items total with
  | zero => cases h
  | succ fuel ih =>
    obtain ⟨fuel', rfl⟩ := Nat.exists_eq_add_of_le' hle
    rw [← Nat.add_assoc]
    unfold logRetrieveFrom at h ⊢
    dsimp only at h ⊢
    split at h
    · rename_i hfits
      rw [if_pos hfits]
      exact ih (by omega) h
    · rename_i hfits
      rw [if_neg hfits]
      exact h

/-- Where a retrieval from the entry `start` begins. -/
def retrieveStart (st : LogState) (start : Int32) : Nat :=
  skipItems st.logBuffer start.toUInt32.toNat st.logState.firstElIdx

/-- How much is retrieved at most. -/
def retrieveBound (st : LogState) (size : UInt32) : Nat := min size.toNat st.logState.storedSize

/-- A retrieval from an entry that exists. -/
theorem logCoreRetrieve_from {size : UInt32} {start : Int32} (hsize : size ≠ 0)
    (hrecent : start ≠ tfmLogReadRecent) (hstart : start.toUInt32.toNat < st.logState.numItems)
    (fuel : Nat) :
    logCoreRetrieve fuel st size start =
      if retrieveBound st size < spanSize st.logBuffer (retrieveStart st start) 1 then
        some (.ok [], ⟨0, 0⟩)
      else (logRetrieveFrom (logEntrySize st.logBuffer) (getNextLogIndex st.logBuffer)
        (retrieveBound st size) fuel (skipItems st.logBuffer 1 (retrieveStart st start)) 1
        (spanSize st.logBuffer (retrieveStart st start) 1)).map
          fun r => (.ok (window logSize st.logBuffer (retrieveStart st start) r.2), ⟨r.2, r.1⟩) := by
  unfold logCoreRetrieve retrieveBound retrieveStart
  dsimp only [logCoreGetInfo]
  rw [if_neg hsize, if_neg (by omega), if_neg hrecent, if_pos hstart, spanSize_one]
  unfold skipItems
  generalize logEntrySize st.logBuffer = entrySize
  generalize getNextLogIndex st.logBuffer = next
  rw [Function.iterate_one]
  generalize next^[start.toUInt32.toNat] st.logState.firstElIdx = pos
  generalize min size.toNat st.logState.storedSize = bound
  split
  · rfl
  · cases logRetrieveFrom entrySize next bound fuel (next pos) 1 (entrySize pos) with
    | none => rfl
    | some r => rfl

/-! ## Retrieval from a given entry

When the loop stops in time, what it returns is a run of entries. -/

/-- The retrieval returns the longest run of stored entries from the `n`-th on that fits. -/
def RetrievesRun (st : LogState) (es : List (List UInt8)) (size : UInt32) (n : Nat) : Prop :=
  ∃ fuel k, k ≤ (es.drop n).length ∧ ((es.drop n).take k).flatten.length ≤ size.toNat ∧
    (k < (es.drop n).length → size.toNat < ((es.drop n).take (k + 1)).flatten.length) ∧
    logCoreRetrieve fuel st size (Int32.ofNat n) =
      some (.ok ((es.drop n).take k).flatten, ⟨((es.drop n).take k).flatten.length, k⟩)

/-- Positions in the log survive the conversions of the call. -/
theorem toNat_toUInt32_ofNat {n : Nat} (hn : n < logSize) :
    (Int32.ofNat n).toUInt32.toNat = n := by
  rw [Int32.toUInt32_ofNat', UInt32.toNat_ofNat']
  exact Nat.mod_eq_of_lt (by unfold logSize at hn; omega)

/-- No position is taken for the request of the most recent entries. -/
theorem ofNat_ne_recent {n : Nat} (hn : n < logSize) : Int32.ofNat n ≠ tfmLogReadRecent := by
  intro heq
  have hword := toNat_toUInt32_ofNat hn
  rw [heq, show tfmLogReadRecent.toUInt32.toNat = 2 ^ 32 - 1 from rfl] at hword
  unfold logSize at hn
  omega

/-- The longest run is returned exactly if the stored entries do not all fit, or if what the ring
holds behind the last entry, read as the size of a further one, does not fit besides them. -/
theorem retrievesRun_iff (h : LogInv st es) (hexact : Exact st es) {size : UInt32}
    (hsize : 0 < size.toNat) {n : Nat} (hn : n < es.length) :
    RetrievesRun st es size n ↔
      size.toNat < (es.drop n).flatten.length ∨
      min size.toNat st.logState.storedSize < add32 (es.drop n).flatten.length
        (logEntrySize st.logBuffer (getNextLogIndex st.logBuffer st.logState.lastElIdx)) := by
  have hlog := h.length_le
  have hstart : (Int32.ofNat n).toUInt32.toNat = n := toNat_toUInt32_ofNat (by omega)
  have hne : size ≠ 0 := by
    rintro rfl
    cases hsize
  have hretrieve := logCoreRetrieve_from hne (ofNat_ne_recent (n := n) (by omega))
    (by rw [hstart, h.num]; exact hn)
  rw [retrieveStart, retrieveBound, hstart] at hretrieve
  have hchain := h.chained.drop n (Nat.le_of_lt hn)
  have htotal : (es.take n).flatten.length + (es.drop n).flatten.length = st.logState.storedSize := by
    rw [hexact, ← List.length_append, ← List.flatten_append, List.take_append_drop]
  have hstored := h.fits
  have hlen : 0 < (es.drop n).length := by
    rw [List.length_drop]
    omega
  unfold RetrievesRun
  rw [← h.skip_drop hn]
  generalize es.drop n = run at *
  generalize skipItems st.logBuffer n st.logState.firstElIdx = pos at *
  have hfits : run.flatten.length ≤ logSize := by omega
  rw [← hchain.spanSize_behind hfits]
  generalize hbound : min size.toNat st.logState.storedSize = bound at *
  -- on the stored entries, the bound by the counter does not matter
  have hdiff : ∀ k ≤ run.length, bound < spanSize st.logBuffer pos k →
      size.toNat < spanSize st.logBuffer pos k := by
    intro k hk hlt
    have := hchain.spanSize_le hfits hk
    omega
  by_cases hfirst : bound < spanSize st.logBuffer pos 1
  · -- not even the first entry fits
    have hlarge := hdiff 1 hlen hfirst
    refine iff_of_true ⟨0, 0, Nat.zero_le _, Nat.zero_le _, fun _ => ?_, ?_⟩ (.inl ?_)
    · rw [← hchain.spanSize_eq hfits hlen]
      exact hlarge
    · rw [hretrieve, if_pos hfirst]
      rfl
    · exact Nat.lt_of_lt_of_le hlarge (hchain.spanSize_le hfits hlen)
  · simp only [if_neg hfirst] at hretrieve
    obtain ⟨t, -, -, hstay, hleave, hloop⟩ | ⟨hall, hloop⟩ :=
      logRetrieveFrom_cases hchain.lt (show bound ≤ logSize by omega) (Nat.not_lt.mp hfirst)
    · rcases Nat.lt_or_ge run.length t with hlt | hle
      · -- the loop has passed the last entry
        refine iff_of_false ?_ ?_
        · rintro ⟨fuel, k, hk, -, -, hres⟩
          rw [hretrieve] at hres
          obtain ⟨r, hr, hmap⟩ := Option.map_eq_some_iff.mp hres
          have hmore := logRetrieveFrom_mono (Nat.le_max_left fuel t) hr
          rw [hloop _ (Nat.le_max_right fuel t)] at hmore
          cases hmore
          have hcount : t = k := by
            have hinfo := congrArg (fun x => x.2.numItems) hmap
            exact hinfo
          omega
        · have hin := hstay run.length (Nat.le_of_lt hlt)
          have hnext := hstay (run.length + 1) hlt
          rw [hchain.spanSize_all hfits] at hin
          omega
      · have hrun := hchain.spanSize_eq hfits hle
        have hthere := hstay t (Nat.le_refl t)
        refine iff_of_true ⟨t, t, hle, by omega, fun hlt => ?_, ?_⟩ ?_
        · rw [← hchain.spanSize_eq hfits hlt]
          exact hdiff (t + 1) hlt hleave
        · rw [hretrieve, hloop t (Nat.le_refl t), Option.map_some, hrun, hchain.window_take]
        · rcases Nat.eq_or_lt_of_le hle with rfl | hlt
          · exact .inr hleave
          · exact .inl (Nat.lt_of_lt_of_le (hdiff (t + 1) hlt hleave) (hchain.spanSize_le hfits hlt))
    · -- the loop does not end
      refine iff_of_false ?_ ?_
      · rintro ⟨fuel, k, -, -, -, hres⟩
        rw [hretrieve, hloop] at hres
        cases hres
      · have hin := hall run.length
        have hnext := hall (run.length + 1)
        rw [hchain.spanSize_all hfits] at hin
        omega

set_option maxRecDepth 100000 in
/-- Both lines are retrieved from the first one on: what follows them in the ring would not fit. -/
theorem retrievesRun_twoLines : RetrievesRun twoLines twoLines.entries 1024 0 :=
  (retrievesRun_iff logInv_twoLines exact_twoLines (by decide) (by decide +kernel)).mpr
    (.inr (by decide +kernel))

set_option maxRecDepth 100000 in
/-- From the second line on, the zeros behind it are taken for an entry of 24 bytes, because the
counter leaves room for it: two entries and 52 bytes are returned instead of one and 28. -/
theorem retrieve_past_last_entry :
    (logCoreRetrieve 3 twoLines 1024 1).map (fun x => x.2) = some ⟨52, 2⟩ ∧
      ¬ RetrievesRun twoLines twoLines.entries 1024 1 := by
  refine ⟨by decide +kernel, ?_⟩
  -- there is one entry to retrieve, and two are reported
  rintro ⟨fuel, k, hk, -, -, hres⟩
  have hlen : (twoLines.entries.drop 1).length = 1 := by decide +kernel
  rw [logCoreRetrieve_from (by decide) (by decide) (by decide +kernel),
    if_neg (by decide +kernel)] at hres
  obtain ⟨r, hr, hmap⟩ := Option.map_eq_some_iff.mp hres
  have hthree : logRetrieveFrom (logEntrySize twoLines.logBuffer) (getNextLogIndex twoLines.logBuffer)
      (retrieveBound twoLines 1024) 3
      (skipItems twoLines.logBuffer 1 (retrieveStart twoLines (Int32.ofNat 1))) 1
      (spanSize twoLines.logBuffer (retrieveStart twoLines (Int32.ofNat 1)) 1) = some (2, 52) := by
    decide +kernel
  have hmore := logRetrieveFrom_mono (Nat.le_max_left fuel 3) hr
  rw [logRetrieveFrom_mono (Nat.le_max_right fuel 3) hthree] at hmore
  cases hmore
  have hcount : 2 = k := congrArg (fun x => x.2.numItems) hmap
  omega

/-! ## Retrieval of the most recent entries

The loop compares the size of the rest, as a distance around the ring, with the size of the buffer. -/

/-- The distance around the ring to the end of a window that does not fill it. -/
theorem ringDistance {a d : Nat} (ha : a < logSize) (hd : d < logSize) :
    (if (a + d) % logSize ≥ a then (a + d) % logSize - a
      else (logSize - a) + (a + d) % logSize) = d := by
  unfold logSize at *
  split <;> omega

theorem logRetrieveRecent_succ (next : Nat → Nat) (empty fuel start items stored retrieved : Nat) :
    logRetrieveRecent next empty (fuel + 1) start items stored retrieved =
      if retrieved < stored then
        let stored := if empty ≥ next start then empty - next start
          else (logSize - next start) + empty
        logRetrieveRecent next empty fuel (next start) (sub32 items 1) stored
          (if stored < retrieved then stored else retrieved)
      else some (start, items, stored, retrieved) := rfl

/-- One round leaves out the first entry; the size of the rest is the distance to the end. -/
theorem Chained.recent_step {e : List UInt8} {start : Nat} (h : Chained buf start (e :: es))
    (hfits : (e :: es).flatten.length ≤ logSize) {retrieved stored : Nat} (hmore : retrieved < stored)
    (fuel : Nat) :
    logRetrieveRecent (getNextLogIndex buf) ((start + (e :: es).flatten.length) % logSize) (fuel + 1)
      start (e :: es).length stored retrieved =
    logRetrieveRecent (getNextLogIndex buf)
      ((getNextLogIndex buf start + es.flatten.length) % logSize) fuel (getNextLogIndex buf start)
      es.length es.flatten.length (min retrieved es.flatten.length) := by
  have hsmall := h.head.1.length_ge
  rw [List.flatten_cons, List.length_append] at hfits ⊢
  have hnum := length_le_of_sized h.tail.sized
  have hend : (start + (e.length + es.flatten.length)) % logSize
      = (getNextLogIndex buf start + es.flatten.length) % logSize := by
    rw [h.next_eq, Nat.mod_add_mod, Nat.add_assoc]
  have hdist := ringDistance h.tail.lt (show es.flatten.length < logSize by
    unfold logFixedFieldSize logMacSize at hsmall
    omega)
  have hitems : sub32 (e :: es).length 1 = es.length := by
    rw [List.length_cons, sub32_eq (Nat.le_add_left 1 _) (by unfold logSize at hfits; omega)]
    rfl
  have hmin : (if es.flatten.length < retrieved then es.flatten.length else retrieved)
      = min retrieved es.flatten.length := by
    split <;> omega
  rw [logRetrieveRecent_succ, if_pos hmore, hend, hitems]
  dsimp only
  rw [hdist, hmin]

/-- The loop leaves out as few entries as possible. -/
theorem Chained.recent_eq {start : Nat} (h : Chained buf start es)
    (hfits : es.flatten.length ≤ logSize) (limit : Nat) {fuel : Nat} (hfuel : es.length < fuel) :
    ∃ k ≤ es.length, (es.drop k).flatten.length ≤ limit ∧
      (∀ j < k, limit < (es.drop j).flatten.length) ∧
      logRetrieveRecent (getNextLogIndex buf) ((start + es.flatten.length) % logSize) fuel start
          es.length es.flatten.length (min limit es.flatten.length)
        = some (skipItems buf k start, (es.drop k).length, (es.drop k).flatten.length,
            (es.drop k).flatten.length) := by
  obtain ⟨fuel, rfl⟩ := Nat.exists_eq_add_of_lt hfuel
  induction es generalizing start with
  | nil =>
    refine ⟨0, Nat.le_refl _, Nat.zero_le _, fun j hj => absurd hj (Nat.not_lt_zero j), ?_⟩
    have hnone : min limit ([] : List (List UInt8)).flatten.length = 0 := Nat.min_zero limit
    rw [logRetrieveRecent_succ, if_neg (by simp), hnone]
    rfl
  | cons e es ih =>
    -- all of the rest fits, or its first entry is left out
    by_cases hall : (e :: es).flatten.length ≤ limit
    · refine ⟨0, Nat.zero_le _, hall, fun j hj => absurd hj (Nat.not_lt_zero j), ?_⟩
      rw [logRetrieveRecent_succ, if_neg (by omega), Nat.min_eq_right hall]
      rfl
    · have hrest : es.flatten.length ≤ logSize := by
        rw [List.flatten_cons, List.length_append] at hfits
        omega
      obtain ⟨k, hk, hle, hlarge, hloop⟩ := ih h.tail hrest (by omega)
      refine ⟨k + 1, Nat.succ_le_succ hk, hle, fun j hj => ?_, ?_⟩
      · cases j with
        | zero => exact Nat.not_le.mp hall
        | succ j => exact hlarge j (Nat.lt_of_succ_lt_succ hj)
      · rw [List.length_cons, Nat.add_assoc es.length 1, Nat.add_comm 1 fuel, ← Nat.add_assoc,
          ← List.length_cons (a := e), h.recent_step hfits (by omega),
          Nat.min_eq_left (Nat.le_of_lt (Nat.not_le.mp hall))]
        rw [skipItems_succ]
        exact hloop

/-- The retrieval of the most recent entries, for a log that is not empty. -/
theorem logCoreRetrieve_recent {size : UInt32} (hsize : size ≠ 0) (hnum : st.logState.numItems ≠ 0)
    (fuel : Nat) :
    logCoreRetrieve fuel st size tfmLogReadRecent =
      (logRetrieveRecent (getNextLogIndex st.logBuffer)
        (getNextLogIndex st.logBuffer st.logState.lastElIdx) fuel st.logState.firstElIdx
        st.logState.numItems st.logState.storedSize (min size.toNat st.logState.storedSize)).map
        fun r => if r.2.2.1 = 0 then (.ok [], ⟨0, 0⟩)
          else (.ok (window logSize st.logBuffer r.1 r.2.2.2), ⟨r.2.2.2, r.2.1⟩) := by
  unfold logCoreRetrieve
  dsimp only [logCoreGetInfo]
  rw [if_neg hsize, if_neg hnum, if_pos rfl]
  generalize getNextLogIndex st.logBuffer = next
  generalize min size.toNat st.logState.storedSize = retrieved
  cases logRetrieveRecent next (next st.logState.lastElIdx) fuel st.logState.firstElIdx
      st.logState.numItems st.logState.storedSize retrieved with
  | none => rfl
  | some r =>
    show (if r.2.2.1 = 0 then _ else _) = some (if r.2.2.1 = 0 then _ else _)
    split <;> rfl

/-- **Most recent entries.** With an exact counter, the retrieval ends and returns the longest suffix
of the entries that fits, with its size and its number of entries. -/
theorem retrieve_longest_suffix (h : LogInv st es) (hexact : Exact st es) {size : UInt32}
    (hsize : 0 < size.toNat) {fuel : Nat} (hfuel : es.length < fuel) :
    ∃ k ≤ es.length, (es.drop k).flatten.length ≤ size.toNat ∧
      (∀ j < k, size.toNat < (es.drop j).flatten.length) ∧
      logCoreRetrieve fuel st size tfmLogReadRecent =
        some (.ok (es.drop k).flatten, ⟨(es.drop k).flatten.length, (es.drop k).length⟩) := by
  have hne : size ≠ 0 := by
    rintro rfl
    cases hsize
  by_cases hnil : es = []
  · refine ⟨0, Nat.zero_le _, by simp [hnil], fun j hj => absurd hj (Nat.not_lt_zero j), ?_⟩
    unfold logCoreRetrieve
    dsimp only [logCoreGetInfo]
    rw [if_neg hne, if_pos (by rw [h.num, hnil]; rfl), hnil]
    rfl
  · have hnum : st.logState.numItems ≠ 0 := by
      rw [h.num]
      exact fun hzero => hnil (List.length_eq_zero_iff.mp hzero)
    have hfits : es.flatten.length ≤ logSize := Nat.le_trans h.counted h.fits
    obtain ⟨k, hk, hle, hlarge, hloop⟩ := h.chained.recent_eq hfits size.toNat hfuel
    refine ⟨k, hk, hle, hlarge, ?_⟩
    rw [logCoreRetrieve_recent hne hnum, h.next_last hnil, h.num, hexact, hloop, Option.map_some]
    have hheld := (h.chained.drop k hk).held
    dsimp only
    rw [hheld]
    split
    · -- nothing fits: the call reports no entries
      rename_i hzero
      have hcount := length_le_of_sized (h.chained.drop k hk).sized
      have hnone : (es.drop k).length = 0 := by omega
      rw [List.length_eq_zero_iff.mp hnone]
      rfl
    · rfl

set_option maxRecDepth 100000 in
/-- In a buffer of 30 bytes there is room for the newer of two lines. -/
theorem retrieve_longest_suffix_twoLines :
    ∃ k ≤ twoLines.entries.length,
      (twoLines.entries.drop k).flatten.length ≤ (30 : UInt32).toNat ∧
      (∀ j < k, (30 : UInt32).toNat < (twoLines.entries.drop j).flatten.length) ∧
      logCoreRetrieve 3 twoLines 30 tfmLogReadRecent =
        some (.ok (twoLines.entries.drop k).flatten,
          ⟨(twoLines.entries.drop k).flatten.length, (twoLines.entries.drop k).length⟩) :=
  retrieve_longest_suffix logInv_twoLines exact_twoLines (by decide) (by decide +kernel)

/-! ## Termination

Only the loop from a given entry can fail to end, and it does when a sum comes back. -/

/-- The retrieval of the most recent entries ends, also with a counter that is too large. -/
theorem LogInv.recent_ends (h : LogInv st es) {size : UInt32} (hsize : size ≠ 0) :
    (logCoreRetrieve (es.length + 1) st size tfmLogReadRecent).isSome = true := by
  cases es with
  | nil =>
    unfold logCoreRetrieve
    dsimp only [logCoreGetInfo]
    rw [if_neg hsize, if_pos (by rw [h.num]; rfl)]
    rfl
  | cons e es =>
    have hfits : (e :: es).flatten.length ≤ logSize := Nat.le_trans h.counted h.fits
    have hrest : es.flatten.length ≤ logSize := by
      rw [List.flatten_cons, List.length_append] at hfits
      omega
    rw [logCoreRetrieve_recent hsize (by rw [h.num]; exact Nat.succ_ne_zero _),
      h.next_last (List.cons_ne_nil e es), h.num, Option.isSome_map]
    by_cases hmore : min size.toNat st.logState.storedSize < st.logState.storedSize
    · -- the counter is used in the first round only
      rw [h.chained.recent_step hfits hmore]
      obtain ⟨k, -, -, -, hloop⟩ := h.chained.tail.recent_eq hrest
        (min size.toNat st.logState.storedSize) (Nat.lt_succ_self es.length)
      rw [List.length_cons, hloop]
      rfl
    · rw [logRetrieveRecent_succ, if_neg hmore]
      rfl

/-- No entries that follow each other, as the sizes found in the ring from `pos` on describe them,
have sizes that sum to zero in 32-bit words while the total is at most `bound`. -/
def NoZeroRun (buf : Nat → UInt8) (pos bound : Nat) : Prop :=
  ∀ i j, i < j → (∀ m ≤ j, spanSize buf pos m ≤ bound) → spanSize buf pos i ≠ spanSize buf pos j

/-- The loop from an entry that fits ends exactly if the sizes let the sum leave the bound. -/
theorem logRetrieveFrom_ends_iff (hpos : pos < logSize) (hbound : bound ≤ logSize)
    (hfirst : spanSize buf pos 1 ≤ bound) :
    (∃ fuel, (logRetrieveFrom (logEntrySize buf) (getNextLogIndex buf) bound fuel
      (skipItems buf 1 pos) 1 (spanSize buf pos 1)).isSome = true) ↔ NoZeroRun buf pos bound := by
  have hleaves : (∃ n, bound < spanSize buf pos n) ↔ NoZeroRun buf pos bound := by
    unfold NoZeroRun
    simp only [spanSize_eq_iterate hpos]
    exact leaves_iff_no_repeat
  rw [← hleaves]
  obtain ⟨t, -, -, -, hleave, hloop⟩ | ⟨hall, hloop⟩ := logRetrieveFrom_cases hpos hbound hfirst
  · refine iff_of_true ⟨t, ?_⟩ ⟨t + 1, hleave⟩
    rw [hloop t (Nat.le_refl t)]
    rfl
  · refine iff_of_false ?_ ?_
    · rintro ⟨fuel, hsome⟩
      rw [hloop] at hsome
      cases hsome
    · rintro ⟨n, hn⟩
      exact Nat.not_le.mpr hn (hall n)

/-- When a retrieval from a log with these entries ends. -/
theorem LogInv.retrieve_ends_iff (h : LogInv st es) (size : UInt32) (start : Int32) :
    (∃ fuel, (logCoreRetrieve fuel st size start).isSome = true) ↔
      size = 0 ∨ start = tfmLogReadRecent ∨ st.logState.numItems ≤ start.toUInt32.toNat ∨
      retrieveBound st size < logEntrySize st.logBuffer (retrieveStart st start) ∨
      NoZeroRun st.logBuffer (retrieveStart st start) (retrieveBound st size) := by
  by_cases hsize : size = 0
  · refine iff_of_true ⟨0, ?_⟩ (.inl hsize)
    unfold logCoreRetrieve
    rw [if_pos hsize]
    rfl
  by_cases hrecent : start = tfmLogReadRecent
  · refine iff_of_true ⟨es.length + 1, ?_⟩ (.inr (.inl hrecent))
    rw [hrecent]
    exact h.recent_ends hsize
  -- the loop is entered only for an entry of the log
  by_cases hstart : start.toUInt32.toNat < st.logState.numItems
  · have hpos : retrieveStart st start < logSize :=
      (h.chained.drop start.toUInt32.toNat (by rw [← h.num]; omega)).lt
    have hbound : retrieveBound st size ≤ logSize := Nat.le_trans (Nat.min_le_right _ _) h.fits
    simp only [hsize, hrecent, Nat.not_le.mpr hstart, false_or,
      logCoreRetrieve_from hsize hrecent hstart]
    rw [← spanSize_one]
    by_cases hfirst : retrieveBound st size < spanSize st.logBuffer (retrieveStart st start) 1
    · refine iff_of_true ⟨0, ?_⟩ (.inl hfirst)
      rw [if_pos hfirst]
      rfl
    · simp only [hfirst, if_false, Option.isSome_map, false_or]
      exact logRetrieveFrom_ends_iff hpos hbound (Nat.not_lt.mp hfirst)
  · refine iff_of_true ⟨0, ?_⟩ (.inr (.inr (.inl (Nat.not_lt.mp hstart))))
    unfold logCoreRetrieve
    dsimp only [logCoreGetInfo]
    rw [if_neg hsize]
    split
    · rfl
    · rfl

/-- **Termination.** After any calls, a retrieval ends exactly if it does not scan from a given
entry, or that entry does not fit, or no run of entries behind it has sizes that sum to zero. -/
theorem retrieve_ends_of_runLog_iff (buf : Nat → UInt8) (ts : Nat) (cs : List LogCall)
    (size : UInt32) (start : Int32) :
    (∃ fuel, (logCoreRetrieve fuel (runLog buf ts cs).1 size start).isSome = true) ↔
      size = 0 ∨ start = tfmLogReadRecent ∨
      (runLog buf ts cs).1.logState.numItems ≤ start.toUInt32.toNat ∨
      retrieveBound (runLog buf ts cs).1 size < logEntrySize (runLog buf ts cs).1.logBuffer
        (retrieveStart (runLog buf ts cs).1 start) ∨
      NoZeroRun (runLog buf ts cs).1.logBuffer (retrieveStart (runLog buf ts cs).1 start)
        (retrieveBound (runLog buf ts cs).1 size) := by
  obtain ⟨es, h, -⟩ := logInv_runLog buf ts cs
  exact h.retrieve_ends_iff size start

/-- A line whose last bytes read as the size `2 ^ 32 - 24`, which makes an entry of size zero. -/
def wrappingLine : TfmLogLine :=
  ⟨28, #v[0, 0, 0, 0, 0, 0, 0, 0, 0, 0, 0, 0, 0, 0, 0, 0, 0, 0, 0, 0, 0xE8, 0xFF, 0xFF, 0xFF,
    0, 0, 0, 0]⟩

/-- The wrapping line is deleted, and a line without contents takes the place of its header. -/
def zeroSizeBehind : LogState :=
  (runLog (fun _ => 0) 0 [.addLine true wrappingLine, .deleteItems 1 false, .addLine true ⟨0, #v[]⟩]).1

set_option maxRecDepth 100000 in
/-- The retrieval of the only entry does not end: behind it the ring describes an entry of size zero,
which always fits. -/
theorem retrieve_never_ends :
    ¬ ∃ fuel, (logCoreRetrieve fuel zeroSizeBehind 1024 0).isSome = true := by
  rintro ⟨fuel, hsome⟩
  have hpos : retrieveStart zeroSizeBehind 0 < logSize := by decide +kernel
  have hbound : retrieveBound zeroSizeBehind 1024 = 24 := by decide +kernel
  have hfirst : spanStep zeroSizeBehind.logBuffer (retrieveStart zeroSizeBehind 0) 0 = 24 := by
    decide +kernel
  have hfixed : spanStep zeroSizeBehind.logBuffer (retrieveStart zeroSizeBehind 0) 24 = 24 := by
    decide +kernel
  -- the sum stays at 24 from the first entry on
  have hspan (k : Nat) :
      spanSize zeroSizeBehind.logBuffer (retrieveStart zeroSizeBehind 0) (k + 1) = 24 := by
    rw [spanSize_eq_iterate hpos, Function.iterate_succ_apply, hfirst]
    exact Function.iterate_fixed hfixed k
  rw [logCoreRetrieve_from (by decide) (by decide) (by decide +kernel), hbound,
    if_neg (Nat.not_lt.mpr (Nat.le_of_eq (hspan 0))),
    logRetrieveFrom_none (fun k _ => Nat.le_of_eq (hspan k)) fuel] at hsome
  cases hsome

end Tfm.AuditLog
