import TrustedFirmware.Lib.BlockFlash
import TrustedFirmware.Lib.CrashLogic

/-!
# Byte-addressed flash with sectors

A flash whose bytes are read and programmed at any address and erased by sectors. When power is
lost, a program leaves a first part of its bytes, and an erase has happened or not. Programs on a
range are seen through windows (`window`): a range that is disjoint from a window does not change
it.

The rules for the three calls (`observes_read`, `wpc_program`, `wpc_eraseSector`) and the three
facts about windows (`window_get`, `window_put`, `window_put_disjoint`) are what a client works
with.
-/

namespace LinearFlash

open BlockFlash (Row erasedByte)
open Device

/-- A call of the flash device. -/
inductive Call where
  | read (addr n : Nat)
  | program (addr : Nat) (data : List UInt8)
  | eraseSector (addr : Nat)
  deriving DecidableEq, Repr

/-- Erase the `n` bytes at `addr`. -/
def eraseRange (f : Row) (addr n : Nat) : Row := f.put addr (List.replicate n erasedByte)

/-- The device, with sectors of a given size. -/
def device (sectorSize : Nat) : Model Call (List UInt8) Row where
  next
    | .read .., f => f
    | .program addr data, f => f.put addr data
    | .eraseSector addr, f => eraseRange f addr sectorSize
  resp
    | .read addr n, f => f.get addr n
    | _, _ => []

/-- What a cut in a call leaves. -/
def Torn : Call → Row → Row → Prop
  | .program addr data, f, g => ∃ k, g = f.put addr (data.take k)
  | _, f, g => g = f

section Calls

variable {ε ρ : Type} {sectorSize : Nat} {I : Row → Prop} {r : ρ} {f : Row}

theorem observes_read (addr n : Nat) (e : ε) :
    Observes (device sectorSize) Torn (M.call (.read addr n) e : M Call (List UInt8) ε ρ (List UInt8)) r f
      (f.get addr n) :=
  Observes.call (fun _ hg => hg) rfl

/-- A program is cut after some of its bytes. -/
theorem wpc_program {addr : Nat} {data : List UInt8} {e : ε} {Q : List UInt8 → ρ → Row → Prop}
    (hI : ∀ k, I (f.put addr (data.take k))) (hQ : Q [] r (f.put addr data)) :
    Wpc (device sectorSize) Torn I (M.call (.program addr data) e) Q r f := by
  refine Wpc.call ?_ ?_ hQ
  · rintro g ⟨k, rfl⟩
    exact hI k
  · have h := hI data.length
    rwa [List.take_length] at h

/-- An erase that is cut has not happened. -/
theorem wpc_eraseSector {addr : Nat} {e : ε} {Q : List UInt8 → ρ → Row → Prop} (hI : I f)
    (hI' : I (eraseRange f addr sectorSize)) (hQ : Q [] r (eraseRange f addr sectorSize)) :
    Wpc (device sectorSize) Torn I (M.call (.eraseSector addr) e) Q r f :=
  Wpc.call (fun _ hg => hg ▸ hI) hI' hQ

end Calls

/-! ## Windows

A client that owns a range of the flash sees it as a row of its own. -/

/-- The `size` bytes at `base` as a row of their own; behind them it is erased. -/
def window (f : Row) (base size : Nat) : Row := fun o => if o < size then f (base + o) else erasedByte

theorem window_get {f : Row} {base size off n : Nat} (h : off + n ≤ size) :
    (window f base size).get off n = f.get (base + off) n := by
  refine Row.get_congr fun i hi => ?_
  rw [window, if_pos (by omega), Nat.add_assoc]

/-- A program inside of a window. -/
theorem window_put {f : Row} {base size off : Nat} {data : List UInt8} (h : off + data.length ≤ size) :
    window (f.put (base + off) data) base size = (window f base size).put off data := by
  funext o
  -- the offset is programmed, or it keeps its value on both sides
  by_cases ho : off ≤ o ∧ o < off + data.length
  · rw [window, if_pos (by omega), Row.put_of_mem (by omega) (by omega), Row.put_of_mem ho.1 ho.2]
    congr 1
    omega
  · have hput : (window f base size).put off data o = window f base size o := by
      by_cases h1 : o < off
      · exact Row.put_of_lt h1
      · exact Row.put_of_ge (by omega)
    rw [hput, window, window]
    by_cases hsize : o < size
    · rw [if_pos hsize, if_pos hsize]
      by_cases h1 : o < off
      · exact Row.put_of_lt (by omega)
      · exact Row.put_of_ge (by omega)
    · rw [if_neg hsize, if_neg hsize]

/-- A program outside of a window. -/
theorem window_put_disjoint {f : Row} {base size addr : Nat} {data : List UInt8}
    (h : addr + data.length ≤ base ∨ base + size ≤ addr) :
    window (f.put addr data) base size = window f base size := by
  funext o
  by_cases hsize : o < size
  · rw [window, window, if_pos hsize, if_pos hsize]
    rcases h with h | h
    · exact Row.put_of_ge (by omega)
    · exact Row.put_of_lt (by omega)
  · rw [window, window, if_neg hsize, if_neg hsize]

end LinearFlash
