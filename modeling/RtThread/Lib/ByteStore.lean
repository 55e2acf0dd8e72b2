import Mathlib.Tactic.Common

namespace ByteStore

open List BitVec

variable {m : ℕ → BitVec 8} {a b x : ℕ} {v : BitVec 32}

def store (m : ℕ → BitVec 8) (a : ℕ) (v : BitVec 32) : ℕ → BitVec 8 :=
  fun x => if a ≤ x ∧ x < a + 4 then v.extractLsb' (8 * (x - a)) 8 else m x

theorem store_of_outside (h : x < a ∨ a + 4 ≤ x) : store m a v x = m x := if_neg (by omega)

def load (m : ℕ → BitVec 8) (a : ℕ) : BitVec 32 := m (a + 3) ++ m (a + 2) ++ m (a + 1) ++ m a

theorem load_congr {m' : ℕ → BitVec 8} (h : ∀ i < 4, m' (a + i) = m (a + i)) : load m' a = load m a := by
  have hzero : m' a = m a := h 0 (by omega)
  rw [load, load, h 3 (by omega), h 2 (by omega), h 1 (by omega), hzero]

theorem load_store_of_apart (h : b + 4 ≤ a ∨ a + 4 ≤ b) : load (store m a v) b = load m b :=
  load_congr (fun _ _ => store_of_outside (by omega))

theorem store_add {i : ℕ} (h : i < 4) : store m a v (a + i) = v.extractLsb' (8 * i) 8 := by
  rw [store, if_pos (by omega), Nat.add_sub_cancel_left]

theorem load_store_self : load (store m a v) a = v := by
  have hzero : store m a v a = v.extractLsb' 0 8 := store_add (i := 0) (by omega)
  rw [load, store_add (by omega), store_add (by omega), store_add (by omega), hzero]
  apply eq_of_getLsbD_eq
  intro i hi
  simp only [getLsbD_append, getLsbD_extractLsb']
  grind

theorem load_foldl_store {f : ℕ → ℕ} {w : ℕ → BitVec 32} {n k : ℕ}
    (hf : ∀ i j, i < j → j < n → f i + 4 ≤ f j)
    (hk : k < n) : load ((List.range n).foldl (fun m i => store m (f i) (w i)) m) (f k) = w k := by
  induction n with
  | zero => omega
  | succ n ih =>
    rw [range_succ, foldl_append, foldl_cons, foldl_nil]
    obtain rfl | hlt := Nat.eq_or_lt_of_le (Nat.le_of_lt_succ hk)
    · exact load_store_self
    · rw [load_store_of_apart (.inl (hf k n hlt (Nat.lt_succ_self n)))]
      exact ih (fun i j hij hj => hf i j hij (Nat.lt_succ_of_lt hj)) hlt

end ByteStore
