import TrustedFirmware.Lib.FlashDriver
import Mathlib.Data.Set.Disjoint
import Mathlib.Data.Set.Lattice
import Mathlib.Order.CompletePartialOrder

/-!
# Erase before program

NOR flash must be erased before it is programmed again. `Call.mark` tracks the bytes that were
programmed since their block was last erased, and `ErasedFirst P cs` says that the calls `cs` never
program one of them, when `P` are marked at the start.

A stretch of calls that programs each byte of a region at most once is summarised by `Fills`;
stretches for disjoint regions compose (`Fills.append`), and a stretch that fills a region may
follow any history that left the region unmarked (`Fills.erasedFirst`).
-/

namespace BlockFlash

open Device

/-- A set of bytes, by block and offset. -/
abbrev Region := Set (Nat × Nat)

/-- The bytes a call programs. -/
def Call.range (c : Call) : Region :=
  {x | ∃ off n, c.programs = some (x.1, off, n) ∧ off ≤ x.2 ∧ x.2 < off + n}

/-- The bytes programmed since the last erase, after a call. -/
def Call.mark (c : Call) (P : Region) : Region := {x | c ≠ .erase x.1 ∧ (x ∈ P ∨ x ∈ c.range)}

/-- The bytes programmed since the last erase, after a list of calls. -/
def markAll (cs : List Call) (P : Region) : Region := cs.foldl (fun P c => c.mark P) P

/-- No call programs a byte that was programmed since its block was last erased. -/
def ErasedFirst : Region → List Call → Prop
  | _, [] => True
  | P, c :: cs => Disjoint c.range P ∧ ErasedFirst (c.mark P) cs

@[simp] theorem markAll_nil (P : Region) : markAll [] P = P := rfl

@[simp] theorem markAll_cons (c : Call) (cs : List Call) (P : Region) :
    markAll (c :: cs) P = markAll cs (c.mark P) := rfl

@[simp] theorem markAll_append (cs ds : List Call) (P : Region) :
    markAll (cs ++ ds) P = markAll ds (markAll cs P) := List.foldl_append

@[simp] theorem erasedFirst_nil (P : Region) : ErasedFirst P [] := trivial

/-- Two stretches: the second starts with the marks of the first. -/
theorem erasedFirst_append {cs ds : List Call} {P : Region} :
    ErasedFirst P (cs ++ ds) ↔ ErasedFirst P cs ∧ ErasedFirst (markAll cs P) ds := by
  induction cs generalizing P with
  | nil => simp
  | cons c cs ih =>
    simp only [List.cons_append, ErasedFirst, ih, markAll_cons]
    tauto

/-! ## Single calls

Which bytes a call programs, and what it marks. -/

@[simp] theorem range_read (b off n : Nat) : (Call.read b off n).range = ∅ := by
  ext x
  simp [Call.range, Call.programs]

@[simp] theorem range_erase (b : Nat) : (Call.erase b).range = ∅ := by
  ext x
  simp [Call.range, Call.programs]

@[simp] theorem mem_range_write {b off : Nat} {d : List UInt8} {x : Nat × Nat} :
    x ∈ (Call.write b off d).range ↔ x.1 = b ∧ off ≤ x.2 ∧ x.2 < off + d.length := by
  simp only [Call.range, Call.programs, Set.mem_ofPred_eq, Option.some.injEq, Prod.mk.injEq]
  constructor
  · rintro ⟨off', n, ⟨rfl, rfl, rfl⟩, h⟩
    exact ⟨rfl, h⟩
  · rintro ⟨rfl, h⟩
    exact ⟨_, _, ⟨rfl, rfl, rfl⟩, h⟩

@[simp] theorem mem_range_move {b off src srcOff n : Nat} {x : Nat × Nat} :
    x ∈ (Call.move b off src srcOff n).range ↔ x.1 = b ∧ off ≤ x.2 ∧ x.2 < off + n := by
  simp only [Call.range, Call.programs, Set.mem_ofPred_eq, Option.some.injEq, Prod.mk.injEq]
  constructor
  · rintro ⟨off', n, ⟨rfl, rfl, rfl⟩, h⟩
    exact ⟨rfl, h⟩
  · rintro ⟨rfl, h⟩
    exact ⟨_, _, ⟨rfl, rfl, rfl⟩, h⟩

@[simp] theorem mark_read (b off n : Nat) (P : Region) : (Call.read b off n).mark P = P := by
  ext x
  simp [Call.mark]

theorem mark_subset (c : Call) (P : Region) : c.mark P ⊆ P ∪ c.range := fun _ hx => hx.2

theorem mark_mono {P Q : Region} (c : Call) (h : P ⊆ Q) : c.mark P ⊆ c.mark Q :=
  fun _ hx => ⟨hx.1, hx.2.imp (@h _) id⟩

/-! ## Lists of calls

Marks grow by what is programmed and shrink with erases. -/

/-- Marks are old ones, or of bytes that were programmed. -/
theorem markAll_subset (cs : List Call) (P : Region) :
    markAll cs P ⊆ P ∪ {x | ∃ c ∈ cs, x ∈ c.range} := by
  induction cs generalizing P with
  | nil => exact Set.subset_union_left
  | cons c cs ih =>
    intro x hx
    rcases ih _ hx with hx | ⟨c', hc', hx⟩
    · rcases mark_subset c P hx with hx | hx
      · exact Or.inl hx
      · exact Or.inr ⟨c, List.mem_cons_self, hx⟩
    · exact Or.inr ⟨c', List.mem_cons_of_mem _ hc', hx⟩

/-- Fewer marks, fewer restrictions. -/
theorem ErasedFirst.mono {P Q : Region} {cs : List Call} (h : ErasedFirst Q cs) (hPQ : P ⊆ Q) :
    ErasedFirst P cs := by
  induction cs generalizing P Q with
  | nil => trivial
  | cons c cs ih => exact ⟨h.1.mono_right hPQ, ih h.2 (mark_mono c hPQ)⟩

/-- Reads neither program nor erase. -/
theorem erasedFirst_filter_modifies {P : Region} {cs : List Call} :
    ErasedFirst P (cs.filter Call.modifies) ↔ ErasedFirst P cs := by
  induction cs generalizing P with
  | nil => rfl
  | cons c cs ih =>
    cases c with
    | read b off n =>
      rw [List.filter_cons_of_neg (by simp [Call.modifies, Call.target]), ih]
      simp [ErasedFirst]
    | write | move | erase =>
      rw [List.filter_cons_of_pos rfl]
      simp only [ErasedFirst, ih]

theorem markAll_filter_modifies {P : Region} {cs : List Call} :
    markAll (cs.filter Call.modifies) P = markAll cs P := by
  induction cs generalizing P with
  | nil => rfl
  | cons c cs ih =>
    cases c with
    | read b off n =>
      rw [List.filter_cons_of_neg (by simp [Call.modifies, Call.target]), ih]
      simp
    | write | move | erase =>
      rw [List.filter_cons_of_pos rfl, markAll_cons, markAll_cons, ih]

/-- Erases may come at any time. -/
theorem erasedFirst_of_erases {P : Region} {cs : List Call} (h : ∀ c ∈ cs, c.programs = none) :
    ErasedFirst P cs := by
  induction cs generalizing P with
  | nil => trivial
  | cons c cs ih =>
    refine ⟨Set.disjoint_left.mpr fun x hx _ => ?_, ih fun c' hc' => h c' (List.mem_cons_of_mem _ hc')⟩
    obtain ⟨off, n, hp, -⟩ := hx
    rw [h c List.mem_cons_self] at hp
    cases hp

/-! ## Filling regions

A region is filled when its bytes are programmed, in any order, but none twice. `once` says this by
marking everything outside of the region from the start. -/

/-- The calls program bytes of `R` only, each at most once. -/
structure Fills (R : Region) (cs : List Call) : Prop where
  within : ∀ c ∈ cs, c.range ⊆ R
  once : ErasedFirst Rᶜ cs

namespace Fills

variable {R R' : Region} {cs ds : List Call}

/-- A region that is not marked may be filled. -/
theorem erasedFirst (h : Fills R cs) {P : Region} (hP : Disjoint R P) : ErasedFirst P cs :=
  h.once.mono fun _ hx hR => Set.disjoint_left.mp hP hR hx

theorem markAll_subset (h : Fills R cs) (P : Region) : markAll cs P ⊆ P ∪ R := by
  intro x hx
  rcases BlockFlash.markAll_subset cs P hx with hx | ⟨c, hc, hx⟩
  · exact Or.inl hx
  · exact Or.inr (h.within c hc hx)

theorem nil : Fills R [] := ⟨fun _ hc => (List.not_mem_nil hc).elim, trivial⟩

/-- One call. -/
theorem single {c : Call} (h : c.range ⊆ R) : Fills R [c] := by
  refine ⟨fun c' hc' => by rwa [List.mem_singleton.mp hc'], ?_, trivial⟩
  exact Set.disjoint_left.mpr fun x hx hR => hR (h hx)

theorem mono (h : Fills R cs) (hR : R ⊆ R') : Fills R' cs :=
  ⟨fun c hc => (h.within c hc).trans hR, h.once.mono (Set.compl_subset_compl.mpr hR)⟩

/-- **Disjoint regions are filled one after the other.** -/
theorem append (h : Fills R cs) (h' : Fills R' ds) (hd : Disjoint R R') :
    Fills (R ∪ R') (cs ++ ds) := by
  constructor
  · intro c hc
    rcases List.mem_append.mp hc with hc | hc
    · exact (h.within c hc).trans Set.subset_union_left
    · exact (h'.within c hc).trans Set.subset_union_right
  · rw [erasedFirst_append]
    refine ⟨h.once.mono (Set.compl_subset_compl.mpr Set.subset_union_left), h'.once.mono ?_⟩
    -- what the first stretch marks lies in `R`, outside `R'`
    intro x hx hR'
    rcases h.markAll_subset _ hx with hx | hx
    · exact hx (Or.inr hR')
    · exact Set.disjoint_left.mp hd hx hR'

theorem ite {p : Prop} [Decidable p] (h : p → Fills R cs) : Fills R (if p then cs else []) := by
  split
  · exact h ‹_›
  · exact nil

end Fills

end BlockFlash
