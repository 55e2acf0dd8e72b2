import Mathlib.Data.Nat.Notation
import Mathlib.Logic.Function.Basic

/-!
A count of how often each resource has been released, with a mark that is set when one is used or released after its
release.
-/

structure Ledger (R : Type) where
  released : R → ℕ
  fault : Bool

namespace Ledger

variable {R : Type} {l : Ledger R} {r : R}

def empty : Ledger R := ⟨fun _ => 0, false⟩

def touch (l : Ledger R) (r : R) : Ledger R :=
  { l with fault := l.fault || decide (0 < l.released r) }

theorem touch_eq (h : l.released r = 0) : l.touch r = l := by
  simp only [touch, h, Nat.lt_irrefl, decide_false, Bool.or_false]

variable [DecidableEq R]

def release (l : Ledger R) (r : R) : Ledger R :=
  { l.touch r with released := Function.update l.released r (l.released r + 1) }

def mark (l : Ledger R) : Ledger R := { l with fault := true }

theorem release_eq (h : l.released r = 0) : l.release r = { l with released := Function.update l.released r 1 } := by
  rw [release, touch_eq h, h]

end Ledger
