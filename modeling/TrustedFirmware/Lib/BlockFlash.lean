import TrustedFirmware.Lib.Device

/-!
# Block flash

A flash device is a family of blocks, each a row of bytes. Programming overwrites bytes, erasing a
block sets all of them to `0xFF`, and a block-to-block move programs a copy of a range of another
block. The read-over-write lemmas (`Row.get_put_disjoint`, `Row.get_put_self`, `Row.get_put_get`)
are all a client needs about rows; a power cut (`PowerCut`) leaves any prefix of the calls, the last
one possibly torn in the middle.

What survives a cut is said in two grains: a block that no call targets (`PowerCut.of_target_ne`),
and a byte that no call programs (`PowerCut.of_untouched`).
-/

namespace BlockFlash

/-! ## Rows of bytes

A row is a function of the offset, without an end: bounds belong to the driver, not to the device.
Reads and programs are lists. -/

/-- The bytes of one block, by offset. -/
abbrev Row := Nat → UInt8

/-- The value of an erased byte. -/
def erasedByte : UInt8 := 0xFF

/-- A freshly erased block. -/
def Row.erased : Row := fun _ => erasedByte

/-- Read `n` bytes at `off`. -/
def Row.get (r : Row) (off n : Nat) : List UInt8 := (List.range n).map fun i => r (off + i)

/-- Program the bytes `d` at `off`. -/
def Row.put (r : Row) (off : Nat) (d : List UInt8) : Row := fun o =>
  if off ≤ o ∧ o < off + d.length then d.getD (o - off) 0 else r o

/-- Copy `n` bytes of the row `r0` at `src` to `dst`. -/
def Row.copy (r : Row) (dst : Nat) (r0 : Row) (src n : Nat) : Row := fun o =>
  if dst ≤ o ∧ o < dst + n then r0 (src + (o - dst)) else r o

/-- A read gives as many bytes as asked for. -/
@[simp] theorem Row.length_get (r : Row) (off n : Nat) : (r.get off n).length = n := by
  simp [Row.get]

@[simp] theorem Row.get_zero (r : Row) (off : Nat) : r.get off 0 = [] := rfl

theorem Row.getD_get (r : Row) (off n : Nat) {i : Nat} (h : i < n) (d : UInt8) :
    (r.get off n).getD i d = r (off + i) := by
  simp [Row.get, List.getD_eq_getElem?_getD, h]

/-- A row holds given bytes, if it holds each of them. -/
theorem Row.get_eq_of_getD {r : Row} {off n : Nat} {l : List UInt8} (hl : l.length = n)
    (h : ∀ k < n, r (off + k) = l.getD k 0) : r.get off n = l := by
  refine List.ext_getElem (by simp [hl]) fun k hk hk' => ?_
  simp only [Row.get, List.getElem_map, List.getElem_range]
  rw [h k (hl ▸ hk'), List.getD_eq_getElem?_getD, List.getElem?_eq_getElem hk', Option.getD_some]

theorem Row.get_congr {r r' : Row} {off off' n : Nat}
    (h : ∀ i, i < n → r (off + i) = r' (off' + i)) : r.get off n = r'.get off' n := by
  unfold Row.get
  exact List.map_congr_left fun i hi => h i (List.mem_range.mp hi)

/-- Two reads agree exactly when the bytes do. -/
theorem Row.get_eq_get {r r' : Row} {off off' n : Nat} :
    r.get off n = r'.get off' n ↔ ∀ i, i < n → r (off + i) = r' (off' + i) := by
  refine ⟨fun h i hi => ?_, Row.get_congr⟩
  have := congrArg (fun l => l.getD i 0) h
  simpa only [Row.getD_get _ _ _ hi] using this

theorem Row.get_add (r : Row) (off m n : Nat) :
    r.get off (m + n) = r.get off m ++ r.get (off + m) n := by
  simp [Row.get, List.range_add, Nat.add_assoc]

theorem Row.put_of_lt {r : Row} {off o : Nat} {d : List UInt8} (h : o < off) :
    r.put off d o = r o := by
  simp [Row.put, Nat.not_le.mpr h]

theorem Row.put_of_ge {r : Row} {off o : Nat} {d : List UInt8} (h : off + d.length ≤ o) :
    r.put off d o = r o := by
  simp [Row.put, Nat.not_lt.mpr h]

theorem Row.put_of_mem {r : Row} {off o : Nat} {d : List UInt8} (h : off ≤ o)
    (h' : o < off + d.length) : r.put off d o = d.getD (o - off) 0 := by
  simp [Row.put, h, h']

@[simp] theorem Row.put_nil (r : Row) (off : Nat) : r.put off [] = r := by
  funext o
  by_cases h : o < off
  · exact Row.put_of_lt h
  · exact Row.put_of_ge (by simpa using h)

/-- **A read beside a program.** -/
theorem Row.get_put_disjoint {r : Row} {off off' n : Nat} {d : List UInt8}
    (h : off' + n ≤ off ∨ off + d.length ≤ off') :
    (r.put off d).get off' n = r.get off' n := by
  refine Row.get_congr fun i hi => ?_
  rcases h with h | h
  · exact Row.put_of_lt (by omega)
  · exact Row.put_of_ge (by omega)

/-- **A read of what was programmed.** -/
theorem Row.get_put_self {r : Row} {off n : Nat} {d : List UInt8} (h : d.length = n) :
    (r.put off d).get off n = d := by
  refine List.ext_getElem (by simp [h]) fun i hi _ => ?_
  have hi' : i < d.length := by simpa [h] using hi
  simp [Row.get, Row.put, hi', List.getD_eq_getElem?_getD]

/-- Reading inside a copied range reads the source. -/
theorem Row.get_put_get {r r0 : Row} {dst src n off' n' : Nat} (h : dst ≤ off')
    (h' : off' + n' ≤ dst + n) :
    (r.put dst (r0.get src n)).get off' n' = r0.get (src + (off' - dst)) n' := by
  refine Row.get_congr fun i hi => ?_
  rw [Row.put_of_mem (by omega) (by simp; omega), Row.getD_get _ _ _ (by omega)]
  congr 1
  omega

/-- A copy programs what it reads. -/
theorem Row.copy_eq_put (r : Row) (dst : Nat) (r0 : Row) (src n : Nat) :
    r.copy dst r0 src n = r.put dst (r0.get src n) := by
  funext o
  by_cases h : dst ≤ o ∧ o < dst + n
  · simp only [Row.copy, Row.put, h, Row.length_get, and_self, if_true]
    exact (Row.getD_get r0 src n (by omega) 0).symm
  · simp [Row.copy, Row.put, h]

/-- Two adjacent programs are one. -/
theorem Row.put_put_adjacent (r : Row) (off : Nat) (d d' : List UInt8) :
    (r.put off d).put (off + d.length) d' = r.put off (d ++ d') := by
  funext o
  -- the offset lies in front of both, in the first, in the second, or behind both
  by_cases h1 : o < off
  · rw [Row.put_of_lt (by omega), Row.put_of_lt h1, Row.put_of_lt h1]
  by_cases h2 : o < off + d.length
  · rw [Row.put_of_lt h2, Row.put_of_mem (by omega) h2,
      Row.put_of_mem (by omega) (by simp; omega)]
    simp [List.getD_eq_getElem?_getD, List.getElem?_append_left (show o - off < d.length by omega)]
  by_cases h3 : o < off + d.length + d'.length
  · rw [Row.put_of_mem (by omega) h3, Row.put_of_mem (by omega) (by simp; omega)]
    have : o - (off + d.length) = o - off - d.length := by omega
    simp [List.getD_eq_getElem?_getD,
      List.getElem?_append_right (show d.length ≤ o - off by omega), this]
  · rw [Row.put_of_ge (by omega), Row.put_of_ge (by omega), Row.put_of_ge (by simp; omega)]

/-! ## The device

Calls name a block; only moves name two. `Call.target` and `Call.programs` say which block and which
bytes a call changes, and are all that the frame lemmas look at. -/

/-- The contents of every block. -/
abbrev Flash := Nat → Row

/-- A call of the flash driver. -/
inductive Call where
  | read (block off size : Nat)
  | write (block off : Nat) (data : List UInt8)
  | move (dst dstOff src srcOff size : Nat)
  | erase (block : Nat)
  deriving DecidableEq, Repr

/-- The flash after a call. -/
def Call.apply : Call → Flash → Flash
  | .read .., f => f
  | .write b off d, f => Function.update f b ((f b).put off d)
  | .move dst dstOff src srcOff n, f =>
    Function.update f dst ((f dst).copy dstOff (f src) srcOff n)
  | .erase b, f => Function.update f b Row.erased

/-- The bytes a call returns. -/
def Call.resp : Call → Flash → List UInt8
  | .read b off n, f => (f b).get off n
  | _, _ => []

/-- The flash device. -/
def device : Device.Model Call (List UInt8) Flash where
  next := Call.apply
  resp := Call.resp

/-- The block a call programs or erases. -/
def Call.target : Call → Option Nat
  | .read .. => none
  | .write b .. => some b
  | .move dst .. => some dst
  | .erase b => some b

/-- The byte range a call programs: block, offset and length. -/
def Call.programs : Call → Option (Nat × Nat × Nat)
  | .write b off d => some (b, off, d.length)
  | .move dst dstOff _ _ n => some (dst, dstOff, n)
  | _ => none

@[simp] theorem device_next (c : Call) (f : Flash) : device.next c f = c.apply f := rfl

@[simp] theorem device_resp (c : Call) (f : Flash) : device.resp c f = c.resp f := rfl

theorem apply_move (dst dstOff src srcOff n : Nat) (f : Flash) :
    (Call.move dst dstOff src srcOff n).apply f
      = Function.update f dst ((f dst).put dstOff ((f src).get srcOff n)) := by
  rw [Call.apply, Row.copy_eq_put]

theorem apply_of_target_ne {c : Call} {f : Flash} {b : Nat} (h : c.target ≠ some b) :
    c.apply f b = f b := by
  cases c with
  | read => rfl
  | write b' => exact Function.update_of_ne (fun he => h (by simp [Call.target, he])) _ _
  | move dst => exact Function.update_of_ne (fun he => h (by simp [Call.target, he])) _ _
  | erase b' => exact Function.update_of_ne (fun he => h (by simp [Call.target, he])) _ _

/-- A block that no call of the list programs or erases keeps its contents. -/
theorem replay_of_target_ne {cs : List Call} {f : Flash} {b : Nat}
    (h : ∀ c ∈ cs, c.target ≠ some b) : device.replay cs f b = f b := by
  induction cs generalizing f with
  | nil => rfl
  | cons c cs ih =>
    rw [Device.Model.replay_cons, ih fun c' hc' => h c' (List.mem_cons_of_mem _ hc')]
    exact apply_of_target_ne (h c List.mem_cons_self)

/-- A byte that a call does not program, the block not being erased, keeps its value. -/
theorem apply_of_untouched {c : Call} {f : Flash} {b o : Nat} (he : c ≠ .erase b)
    (hp : ∀ off n, c.programs = some (b, off, n) → o < off ∨ off + n ≤ o) :
    c.apply f b o = f b o := by
  by_cases ht : c.target = some b
  · -- the call programs block `b`, but not at `o`
    cases c with
    | read => rfl
    | write b' off d =>
      obtain rfl : b' = b := by simpa [Call.target] using ht
      simp only [Call.apply, Function.update_self]
      rcases hp off d.length rfl with h | h
      · exact Row.put_of_lt h
      · exact Row.put_of_ge h
    | move dst dstOff src srcOff n =>
      obtain rfl : dst = b := by simpa [Call.target] using ht
      simp only [apply_move, Function.update_self]
      rcases hp dstOff n rfl with h | h
      · exact Row.put_of_lt h
      · exact Row.put_of_ge (by simpa using h)
    | erase b' =>
      obtain rfl : b' = b := by simpa [Call.target] using ht
      exact absurd rfl he
  · exact congrFun (apply_of_target_ne ht) o

/-- None of the calls programs the byte `o` of block `b`, or erases the block. -/
def Untouched (b o : Nat) (cs : List Call) : Prop :=
  ∀ c ∈ cs, c ≠ .erase b ∧ ∀ off n, c.programs = some (b, off, n) → o < off ∨ off + n ≤ o

namespace Untouched

variable {b b' o off : Nat} {cs ds : List Call}

theorem nil : Untouched b o [] := by
  intro c hc
  cases hc

theorem append (h : Untouched b o cs) (h' : Untouched b o ds) : Untouched b o (cs ++ ds) := by
  intro c hc
  rcases List.mem_append.mp hc with hc | hc
  · exact h c hc
  · exact h' c hc

/-- Calls that are only made under a condition. -/
theorem ite {p : Prop} [Decidable p] (h : p → Untouched b o cs) :
    Untouched b o (if p then cs else []) := by
  split
  · exact h ‹_›
  · exact nil

/-- A write beside the byte, or in another block. -/
theorem write {d : List UInt8} (h : b' = b → o < off ∨ off + d.length ≤ o) :
    Untouched b o [.write b' off d] := by
  intro c hc
  obtain rfl := List.mem_singleton.mp hc
  refine ⟨by simp, fun off' n hp => ?_⟩
  simp only [Call.programs, Option.some.injEq, Prod.mk.injEq] at hp
  obtain ⟨hb, rfl, rfl⟩ := hp
  exact h hb

/-- A move beside the byte, or to another block. -/
theorem move {src srcOff n : Nat} (h : b' = b → o < off ∨ off + n ≤ o) :
    Untouched b o [.move b' off src srcOff n] := by
  intro c hc
  obtain rfl := List.mem_singleton.mp hc
  refine ⟨by simp, fun off' n' hp => ?_⟩
  simp only [Call.programs, Option.some.injEq, Prod.mk.injEq] at hp
  obtain ⟨hb, rfl, rfl⟩ := hp
  exact h hb

end Untouched

/-! ## Power cuts

A write or a move that is torn has programmed a first part of its bytes. What is torn is the last
call that happened: the cut stops all later ones. -/

/-- The flash when power is lost during a call, after `k` bytes of a program. Reads and
erases have no intermediate state: an erase that is cut has not happened. -/
def Call.torn (k : Nat) : Call → Flash → Flash
  | .write b off d, f => (Call.write b off (d.take k)).apply f
  | .move dst dstOff src srcOff n, f => (Call.move dst dstOff src srcOff (min k n)).apply f
  | _, f => f

/-- `PowerCut cs f g`: power is lost while the calls `cs` are issued on flash `f`, which
leaves `g`. -/
inductive PowerCut : List Call → Flash → Flash → Prop where
  | done (f : Flash) : PowerCut [] f f
  | during (c : Call) (cs : List Call) (f : Flash) (k : Nat) :
      PowerCut (c :: cs) f (c.torn k f)
  | later {c : Call} {cs : List Call} {f g : Flash} (h : PowerCut cs (c.apply f) g) :
      PowerCut (c :: cs) f g

/-- A call that is cut at once has not happened. -/
@[simp] theorem torn_zero (c : Call) (f : Flash) : c.torn 0 f = f := by
  cases c with
  | read | erase => rfl
  | write b off d => simp [Call.torn, Call.apply]
  | move dst dstOff src srcOff n =>
    rw [Call.torn, Nat.zero_min, apply_move, Row.get_zero, Row.put_nil, Function.update_eq_self]

/-- Power may be lost after any number of calls. -/
theorem PowerCut.take (cs : List Call) (f : Flash) (k : Nat) :
    PowerCut cs f (device.replay (cs.take k) f) := by
  induction cs generalizing f k with
  | nil =>
    rw [List.take_nil]
    exact .done f
  | cons c cs ih =>
    cases k with
    -- no call is made: a cut in the first one, after none of its bytes
    | zero =>
      have hcut := PowerCut.during c cs f 0
      rwa [torn_zero] at hcut
    | succ k => exact .later (ih (c.apply f) k)

/-- Power may be lost after the last call. -/
theorem PowerCut.all (cs : List Call) (f : Flash) : PowerCut cs f (device.replay cs f) := by
  have hcut := PowerCut.take cs f cs.length
  rwa [List.take_length] at hcut

/-- A cut during two stretches of calls happens in the first or, the first completed, in
the second. -/
theorem PowerCut.append {cs ds : List Call} {f g : Flash} (h : PowerCut (cs ++ ds) f g) :
    PowerCut cs f g ∨ PowerCut ds (device.replay cs f) g := by
  induction cs generalizing f with
  | nil => exact Or.inr h
  | cons c cs ih =>
    cases h with
    | during _ _ _ k => exact Or.inl (.during c cs f k)
    | later h =>
      rcases ih h with h | h
      · exact Or.inl (.later h)
      · exact Or.inr h

/-- A torn call touches no more than the call. -/
theorem torn_of_target_ne {c : Call} {f : Flash} {b : Nat} (k : Nat) (h : c.target ≠ some b) :
    c.torn k f b = f b := by
  cases c with
  | read | erase => rfl
  | write b' off d => exact apply_of_target_ne (c := .write b' off (d.take k)) h
  | move dst dstOff src srcOff n =>
    exact apply_of_target_ne (c := .move dst dstOff src srcOff (min k n)) h

/-- A torn call programs no more than the call. -/
theorem torn_of_untouched {c : Call} {f : Flash} {b o : Nat} (k : Nat)
    (hp : ∀ off n, c.programs = some (b, off, n) → o < off ∨ off + n ≤ o) :
    c.torn k f b o = f b o := by
  cases c with
  | read | erase => rfl
  | write b' off d =>
    refine apply_of_untouched (c := .write b' off (d.take k)) (by simp) fun off' n' hp' => ?_
    simp only [Call.programs, Option.some.injEq, Prod.mk.injEq] at hp'
    obtain ⟨rfl, rfl, rfl⟩ := hp'
    rcases hp off d.length rfl with h | h
    · exact Or.inl h
    · exact Or.inr (by simp; omega)
  | move dst dstOff src srcOff n =>
    refine apply_of_untouched (c := .move dst dstOff src srcOff (min k n)) (by simp)
      fun off' n' hp' => ?_
    simp only [Call.programs, Option.some.injEq, Prod.mk.injEq] at hp'
    obtain ⟨rfl, rfl, rfl⟩ := hp'
    rcases hp dstOff n rfl with h | h
    · exact Or.inl h
    · exact Or.inr (by omega)

/-- A block that no call programs or erases survives every cut. -/
theorem PowerCut.of_target_ne {cs : List Call} {f g : Flash} {b : Nat} (hcut : PowerCut cs f g)
    (h : ∀ c ∈ cs, c.target ≠ some b) : g b = f b := by
  induction hcut with
  | done f => rfl
  | during c cs f k => exact torn_of_target_ne k (h c List.mem_cons_self)
  | later hcut ih =>
    rw [ih fun c hc => h c (List.mem_cons_of_mem _ hc)]
    exact apply_of_target_ne (h _ List.mem_cons_self)

/-- A byte that no call programs or erases survives every cut. -/
theorem PowerCut.of_untouched {cs : List Call} {f g : Flash} {b o : Nat}
    (hcut : PowerCut cs f g) (h : Untouched b o cs) : g b o = f b o := by
  induction hcut with
  | done f => rfl
  | during c cs f k => exact torn_of_untouched k (h c List.mem_cons_self).2
  | later hcut ih =>
    rw [ih fun c hc => h c (List.mem_cons_of_mem _ hc)]
    obtain ⟨he, hp⟩ := h _ List.mem_cons_self
    exact apply_of_untouched he hp

/-- A write is cut from its end: a byte that it has reached is preceded by all the others. -/
theorem torn_write_of_ne {b off k o o' : Nat} {d : List UInt8} {f : Flash} (hoff : off ≤ o')
    (ho : o' ≤ o) (hlt : o < off + d.length)
    (hne : (Call.write b off d).torn k f b o ≠ f b o) :
    (Call.write b off d).torn k f b o' = (Call.write b off d).apply f b o' := by
  simp only [Call.torn, Call.apply, Function.update_self] at hne ⊢
  have hk : o < off + (d.take k).length := by
    by_contra hk
    exact hne (Row.put_of_ge (Nat.not_lt.mp hk))
  rw [Row.put_of_mem hoff (by omega), Row.put_of_mem hoff (by omega)]
  rw [List.length_take] at hk
  simp only [List.getD_eq_getElem?_getD]
  rw [List.getElem?_take_of_lt (by omega)]

/-- A single byte is programmed or not. -/
theorem PowerCut.of_byte {b off : Nat} {x : UInt8} {f g : Flash}
    (hcut : PowerCut [.write b off [x]] f g) : g = f ∨ g = (Call.write b off [x]).apply f := by
  cases hcut with
  | during _ _ _ k =>
    cases k with
    | zero => exact Or.inl (by simp [Call.torn, Call.apply])
    | succ k => exact Or.inr (by simp [Call.torn])
  | later h =>
    cases h with
    | done => exact Or.inr rfl

/-- A cut between erases leaves each block as it was, or erased. -/
theorem PowerCut.of_erases {cs : List Call} {f g : Flash} (hcut : PowerCut cs f g)
    (h : ∀ c ∈ cs, c.programs = none) (b : Nat) : g b = f b ∨ g b = Row.erased := by
  induction hcut with
  | done f => exact Or.inl rfl
  | during c cs f k =>
    have hc := h c List.mem_cons_self
    cases c with
    | read | erase => exact Or.inl rfl
    | write | move => cases hc
  -- the last erase of the block decides; before that it was as it was, or erased
  | @later c cs f g _ ih =>
    have hc := h c List.mem_cons_self
    rcases ih fun c' hc' => h c' (List.mem_cons_of_mem _ hc') with hg | hg
    · cases c with
      | read => exact Or.inl hg
      | write | move => cases hc
      | erase b' =>
        rw [hg]
        by_cases hb : b = b'
        · exact Or.inr (hb ▸ Function.update_self ..)
        · exact Or.inl (Function.update_of_ne hb _ _)
    · exact Or.inr hg

end BlockFlash
