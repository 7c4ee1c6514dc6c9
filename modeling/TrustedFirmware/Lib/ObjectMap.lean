import Mathlib.Logic.Function.Basic

/-!
# Maps from ids to byte strings

What a store of bounded byte strings is for: a finite map from ids to objects, each with a
maximum size and a current content, with the updates that create, overwrite and remove an
object, and a bounds-checked read.
-/

/-- A stored object. -/
structure StoredObject where
  maxSize : Nat
  content : List UInt8
  deriving DecidableEq, Repr

/-- The objects of a store, by id. -/
def ObjectMap (ι : Type) : Type := ι → Option StoredObject

namespace ObjectMap

variable {ι : Type} {m : ObjectMap ι} {u v : ι}

/-! ## Overlaying bytes

A write in the middle of an object, or one that goes on behind its end. A gap is not possible: the
position is at most the length. -/

/-- The bytes `c` with `d` written over them at position `p`. -/
def overlay (c : List UInt8) (p : Nat) (d : List UInt8) : List UInt8 :=
  c.take p ++ d ++ c.drop (p + d.length)

/-- An object grows if the write ends behind it. -/
theorem length_overlay {c d : List UInt8} {p : Nat} (h : p ≤ c.length) :
    (overlay c p d).length = max c.length (p + d.length) := by
  simp only [overlay, List.length_append, List.length_take, List.length_drop]
  omega

/-- A byte of the write, or one of the old bytes. -/
theorem getD_overlay {c d : List UInt8} {p : Nat} (h : p ≤ c.length) (k : Nat) :
    (overlay c p d).getD k 0
      = if p ≤ k ∧ k < p + d.length then d.getD (k - p) 0 else c.getD k 0 := by
  have hp : (c.take p).length = p := by rw [List.length_take]; omega
  simp only [overlay, List.append_assoc, List.getD_eq_getElem?_getD]
  -- in front of the write, in it, or behind it
  rcases Nat.lt_or_ge k p with hk | hk
  · rw [if_neg (by omega), List.getElem?_append_left (by omega), List.getElem?_take_of_lt hk]
  · rw [List.getElem?_append_right (by omega), hp]
    rcases Nat.lt_or_ge k (p + d.length) with hk' | hk'
    · rw [if_pos ⟨hk, hk'⟩, List.getElem?_append_left (by omega)]
    · rw [if_neg (by omega), List.getElem?_append_right (by omega), List.getElem?_drop]
      congr 2
      omega

/-! ## Reads

A read is all or nothing: it does not stop at the end of the object. -/

/-- The `n` bytes at position `o` of an object, if it has them. -/
def read (m : ObjectMap ι) (v : ι) (o n : Nat) : Option (List UInt8) :=
  (m v).bind fun ob => if o + n ≤ ob.content.length then some ((ob.content.drop o).take n) else none

theorem read_of_none (h : m v = none) (o n : Nat) : m.read v o n = none := by
  rw [read, h]
  rfl

theorem read_of_some {ob : StoredObject} (h : m v = some ob) (o n : Nat) :
    m.read v o n
      = if o + n ≤ ob.content.length then some ((ob.content.drop o).take n) else none := by
  rw [read, h]
  rfl

/-- An object can be read, if only its empty part. -/
theorem read_zero (h : m v ≠ none) : m.read v 0 0 = some [] := by
  obtain ⟨ob, hob⟩ := Option.ne_none_iff_exists'.mp h
  rw [read_of_some hob, if_pos (Nat.zero_le _)]
  simp

/-! ## Updates

Each of them changes one id. -/

variable [DecidableEq ι]

/-- Add an empty object. -/
def create (m : ObjectMap ι) (u : ι) (maxSize : Nat) : ObjectMap ι :=
  Function.update m u (some ⟨maxSize, []⟩)

/-- Write the bytes `d` at position `p` of an object, extending it if need be. -/
def write (m : ObjectMap ι) (u : ι) (p : Nat) (d : List UInt8) : ObjectMap ι :=
  Function.update m u ((m u).map fun ob => { ob with content := overlay ob.content p d })

/-- Replace an object. -/
def put (m : ObjectMap ι) (u : ι) (ob : StoredObject) : ObjectMap ι := Function.update m u (some ob)

theorem put_self (ob : StoredObject) : m.put u ob u = some ob := Function.update_self ..

theorem put_of_ne (h : v ≠ u) (ob : StoredObject) : m.put u ob v = m v := Function.update_of_ne h ..

/-- A write replaces the object by one with the new content. -/
theorem write_eq_put {ob : StoredObject} (h : m u = some ob) (p : Nat) (d : List UInt8) :
    m.write u p d = m.put u { ob with content := overlay ob.content p d } := by
  rw [write, h, Option.map_some, put]

theorem put_create (n : Nat) (ob : StoredObject) : (m.create u n).put u ob = m.put u ob :=
  Function.update_idem ..

theorem create_self (n : Nat) : m.create u n u = some ⟨n, []⟩ := Function.update_self ..

theorem create_of_ne (h : v ≠ u) (n : Nat) : m.create u n v = m v := Function.update_of_ne h ..

theorem write_self (p : Nat) (d : List UInt8) :
    m.write u p d u = (m u).map fun ob => { ob with content := overlay ob.content p d } :=
  Function.update_self ..

theorem write_of_ne (h : v ≠ u) (p : Nat) (d : List UInt8) : m.write u p d v = m v :=
  Function.update_of_ne h ..

end ObjectMap
