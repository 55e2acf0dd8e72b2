import Mathlib.Data.BitVec

namespace Serial

open BitVec

variable {w : ℕ}

def ahead (now t : BitVec w) : ℕ := (t - now).toNat

theorem ahead_lt (now t : BitVec w) : ahead now t < 2 ^ w := (t - now).isLt

theorem ahead_self (now : BitVec w) : ahead now now = 0 := by
  simp [ahead]

theorem ahead_add (now d : BitVec w) : ahead now (now + d) = d.toNat := by
  simp [ahead, BitVec.add_comm now d]

variable {now s t : BitVec w}

theorem eq_of_ahead (h : ahead now s = ahead now t) : s = t := by
  have hsub : s - now = t - now := eq_of_toNat_eq h
  rw [← BitVec.sub_add_cancel s now, hsub, BitVec.sub_add_cancel]

theorem toNat_sub_of_le {a b : BitVec w} (h : b.toNat ≤ a.toNat) : (a - b).toNat = a.toNat - b.toNat :=
  BitVec.toNat_sub_of_le (le_def.mpr h)

theorem toNat_sub_of_lt {a b : BitVec w} (h : a.toNat < b.toNat) : (a - b).toNat = 2 ^ w - (b.toNat - a.toNat) := by
  rw [toNat_sub, Nat.mod_eq_of_lt (by omega)]
  omega

theorem sub_eq (now s t : BitVec w) : t - s = (t - now) - (s - now) :=
  (sub_sub_sub_cancel_right t s now).symm

theorem sub_toNat_of_le (h : ahead now s ≤ ahead now t) : (t - s).toNat = ahead now t - ahead now s := by
  rw [sub_eq now]
  exact toNat_sub_of_le h

theorem sub_toNat_of_lt (h : ahead now t < ahead now s) : (t - s).toNat = 2 ^ w - (ahead now s - ahead now t) := by
  rw [sub_eq now]
  exact toNat_sub_of_lt h

theorem ahead_succ (h : ahead now t ≠ 0) : ahead (now + 1) t = ahead now t - 1 := by
  have hw : w ≠ 0 := by
    rintro rfl
    exact h (Nat.lt_one_iff.mp (ahead_lt now t))
  have hone : ahead now (now + 1) = 1 := by
    rw [ahead_add]
    exact toNat_one (Nat.pos_of_ne_zero hw)
  have hle : ahead now (now + 1) ≤ ahead now t := by
    rw [hone]
    exact Nat.one_le_iff_ne_zero.mpr h
  rw [← hone]
  exact sub_toNat_of_le hle

def place (now t : BitVec w) : ℕ := ahead (now + BitVec.ofNat w (2 ^ (w - 1))) t

theorem eq_of_place (h : place now s = place now t) : s = t := eq_of_ahead h

theorem place_succ (h : place now t ≠ 0) : place (now + 1) t = place now t - 1 := by
  have hbase : now + 1 + BitVec.ofNat w (2 ^ (w - 1)) = now + BitVec.ofNat w (2 ^ (w - 1)) + 1 := by
    rw [BitVec.add_assoc, BitVec.add_comm 1, ← BitVec.add_assoc]
  rw [place, hbase]
  exact ahead_succ h

theorem place_add {d : BitVec w} (hw : 0 < w) (hd : d.toNat < 2 ^ (w - 1)) :
    place now (now + d) = 2 ^ (w - 1) + d.toNat := by
  have hpow := Nat.two_pow_pred_add_two_pow_pred hw
  have hhalf : (BitVec.ofNat w (2 ^ (w - 1))).toNat = 2 ^ (w - 1) := by
    rw [toNat_ofNat, Nat.mod_eq_of_lt]
    omega
  have hsub : now + d - (now + BitVec.ofNat w (2 ^ (w - 1))) = d - BitVec.ofNat w (2 ^ (w - 1)) :=
    add_sub_add_left_eq_sub _ _ _
  rw [place, ahead, hsub, toNat_sub_of_lt (by rw [hhalf]; exact hd)]
  omega

end Serial
