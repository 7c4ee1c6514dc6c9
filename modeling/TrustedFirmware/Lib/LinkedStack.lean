import Mathlib.Data.List.Basic
import Mathlib.Logic.Function.Basic

/-!
# Stacks threaded through a pointer

A stack can be kept by giving every element a pointer to the one below it. `Linked next stop l`
says that following `next` from the top visits the elements of `l` and then meets `stop`.
Pushing an element updates its own pointer only, and popping leaves the rest of the stack as it
is, because the elements of the stack are distinct.
-/

namespace LinkedStack

variable {α : Type} {next next' : α → α} {stop x y : α} {l : List α}

/-- Following `next` visits `l` and ends at `stop`. -/
def Linked (next : α → α) (stop : α) : List α → Prop
  | [] => True
  | [x] => next x = stop
  | x :: y :: l => next x = y ∧ Linked next stop (y :: l)

theorem Linked.tail (h : Linked next stop (x :: l)) : Linked next stop l := by
  cases l with
  | nil => trivial
  | cons y l => exact h.2

theorem Linked.congr (h : Linked next stop l) (heq : ∀ x ∈ l, next' x = next x) :
    Linked next' stop l := by
  induction l with
  | nil => trivial
  | cons x l ih =>
    have hx := heq x List.mem_cons_self
    cases l with
    | nil => exact hx.trans h
    | cons y l => exact ⟨hx.trans h.1, ih h.2 fun z hz => heq z (List.mem_cons_of_mem _ hz)⟩

/-- An element that is not yet on the stack is pushed. -/
theorem Linked.push (h : Linked next stop (y :: l)) (hx : next' x = y)
    (heq : ∀ z ∈ y :: l, next' z = next z) : Linked next' stop (x :: y :: l) :=
  ⟨hx, h.congr heq⟩

end LinkedStack
