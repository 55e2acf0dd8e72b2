import Mathlib.Tactic.Common

structure Countdown where
  spent : ℕ
  armed : ℕ
  elapsed : ℕ
  deriving DecidableEq

namespace Countdown

def zero : Countdown := ⟨0, 0, 0⟩

def arm (c : Countdown) (n : ℕ) : Countdown := { c with armed := n, elapsed := 0 }

def tick (c : Countdown) (asleep : Bool) : Countdown :=
  { c with spent := c.spent + (if asleep then 1 else 0), elapsed := c.elapsed + 1 }

structure Within (c : Countdown) (limit : ℕ) (asleep : Prop) : Prop where
  budget : c.spent + (c.armed - c.elapsed) ≤ limit
  ahead : asleep → c.elapsed < c.armed

variable {c : Countdown} {limit : ℕ} {p q : Prop}

theorem within_zero (limit : ℕ) (h : ¬ p) : zero.Within limit p := ⟨Nat.zero_le _, fun hp => absurd hp h⟩

theorem Within.spent_le (h : c.Within limit p) : c.spent ≤ limit := Nat.le_trans (Nat.le_add_right _ _) h.budget

theorem Within.mono (h : c.Within limit p) (hq : q → p) :
    c.Within limit q := ⟨h.budget, fun hp => h.ahead (hq hp)⟩

theorem Within.arm {n : ℕ} (hn : 0 < n) (h : c.spent + n ≤ limit) : (c.arm n).Within limit p := ⟨h, fun _ => hn⟩

theorem Within.tick {asleep : Bool} (h : c.Within limit (asleep = true))
    (hq : q → asleep = true ∧ c.elapsed + 1 ≠ c.armed) : (c.tick asleep).Within limit q := by
  refine ⟨?_, fun hp => ?_⟩
  · have hb := h.budget
    cases asleep with
    | false =>
      simp only [Countdown.tick, Bool.false_eq_true, if_false]
      omega
    | true =>
      have ha := h.ahead rfl
      simp only [Countdown.tick, if_true]
      omega
  · obtain ⟨hs, hne⟩ := hq hp
    have ha := h.ahead hs
    simp only [Countdown.tick]
    omega

end Countdown
