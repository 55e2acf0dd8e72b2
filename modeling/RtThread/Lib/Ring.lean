import Mathlib.Data.List.Range
import Mathlib.Data.Nat.ModEq

namespace Ring

open Function List Nat

variable {α : Type*}

def contents (cell : ℕ → α) (n first len : ℕ) : List α :=
  (List.range len).map (fun i => cell ((first + i) % n))

def succ (n i : ℕ) : ℕ := if n ≤ i + 1 then 0 else i + 1

structure Valid (n first last len : ℕ) : Prop where
  len_le : len ≤ n
  first_lt : first < n
  last_lt : last < n
  last_eq : last = (first + len) % n

variable {n first last len : ℕ} {i : ℕ}

theorem succ_eq_mod (h : i < n) : succ n i = (i + 1) % n := by
  unfold succ
  split_ifs with hn
  · rw [show i + 1 = n by omega, mod_self]
  · rw [mod_eq_of_lt (by omega)]

@[simp] theorem contents_zero (cell : ℕ → α) (n first : ℕ) : contents cell n first 0 = [] := rfl

theorem Valid.empty (h : 0 < n) : Valid n 0 0 0 := ⟨zero_le n, h, h, by simp⟩

theorem Valid.push (h : Valid n first last len) (hlen : len < n) : Valid n first (succ n last) (len + 1) := by
  have hn : 0 < n := zero_lt_of_lt hlen
  rw [succ_eq_mod h.last_lt]
  refine ⟨hlen, h.first_lt, mod_lt _ hn, ?_⟩
  rw [h.last_eq, mod_add_mod, add_assoc]

theorem Valid.pop (h : Valid n first last (len + 1)) : Valid n (succ n first) last len := by
  have hn : 0 < n := zero_lt_of_lt h.len_le
  rw [succ_eq_mod h.first_lt]
  refine ⟨le_of_succ_le h.len_le, mod_lt _ hn, h.last_lt, ?_⟩
  rw [h.last_eq, mod_add_mod, add_assoc, add_comm 1]

theorem add_mod_ne {j : ℕ} (hi : i < j) (hj : j < n) : (first + i) % n ≠ (first + j) % n := by
  intro h
  have hmod : i % n = j % n := Nat.ModEq.add_left_cancel' first h
  rw [mod_eq_of_lt (hi.trans hj), mod_eq_of_lt hj] at hmod
  omega

theorem Valid.contents_push (h : Valid n first last len) (hlen : len < n) (cell : ℕ → α)
    (x : α) : contents (update cell last x) n first (len + 1) = contents cell n first len ++ [x] := by
  unfold contents
  rw [range_succ, map_append, h.last_eq]
  congr 1
  · refine map_congr_left (fun i hi => ?_)
    exact update_of_ne (add_mod_ne (mem_range.mp hi) hlen) x cell
  · simp

theorem Valid.contents_pop (h : Valid n first last (len + 1)) (cell : ℕ → α) :
    contents cell n first (len + 1) = cell first :: contents cell n (succ n first) len := by
  unfold contents
  rw [range_succ_eq_map, map_cons, List.map_map, succ_eq_mod h.first_lt]
  congr 1
  · rw [add_zero, mod_eq_of_lt h.first_lt]
  · refine map_congr_left (fun i _ => ?_)
    simp only [comp_apply, mod_add_mod]
    rw [add_assoc, add_comm 1]

def pred (n i : ℕ) : ℕ := if i = 0 then n - 1 else i - 1

theorem pred_lt (h : i < n) : pred n i < n := by
  unfold pred
  split_ifs <;> omega

theorem succ_pred (h : i < n) : succ n (pred n i) = i := by
  unfold succ pred
  split_ifs <;> omega

theorem eq_succ_pred_mod (h : i < n) : i = (pred n i + 1) % n := by
  rw [← succ_eq_mod (pred_lt h), succ_pred h]

theorem Valid.pushFront (h : Valid n first last len) (hlen : len < n) : Valid n (pred n first) last (len + 1) := by
  refine ⟨hlen, pred_lt h.first_lt, h.last_lt, ?_⟩
  calc last = (first + len) % n := h.last_eq
    _ = ((pred n first + 1) % n + len) % n := by rw [← eq_succ_pred_mod h.first_lt]
    _ = (pred n first + (len + 1)) % n := by rw [mod_add_mod, add_assoc, add_comm 1]

theorem contents_congr {cell cell' : ℕ → α} (h : ∀ i < len, cell ((first + i) % n) = cell' ((first + i) % n)) :
    contents cell n first len = contents cell' n first len :=
  map_congr_left (fun i hi => h i (mem_range.mp hi))

theorem Valid.contents_pushFront (h : Valid n first last len) (hlen : len < n) (cell : ℕ → α) (x : α) :
    contents (update cell (pred n first) x) n (pred n first) (len + 1) =
      x :: contents cell n first len := by
  have hv := h.pushFront hlen
  rw [hv.contents_pop, update_self, succ_pred h.first_lt]
  congr 1
  refine contents_congr (fun i hi => update_of_ne ?_ x cell)
  -- the new first cell is the one `n - 1` cells further on, and fewer are in use
  have hcell : (first + i) % n = (pred n first + (i + 1)) % n := by
    calc (first + i) % n = ((pred n first + 1) % n + i) % n := by rw [← eq_succ_pred_mod h.first_lt]
      _ = (pred n first + (i + 1)) % n := by rw [mod_add_mod, add_assoc, add_comm 1]
  have hne : (pred n first + 0) % n ≠ (pred n first + (i + 1)) % n := add_mod_ne (zero_lt_succ i) (by omega)
  rw [add_zero, mod_eq_of_lt (pred_lt h.first_lt)] at hne
  rw [hcell]
  exact hne.symm

theorem Valid.contents_replace (h : Valid n first last (len + 1)) (cell : ℕ → α) (x : α) :
    contents (update cell first x) n first (len + 1) = x :: contents cell n (succ n first) len := by
  rw [h.contents_pop, update_self]
  congr 1
  refine contents_congr (fun i hi => update_of_ne ?_ x cell)
  have hlen := h.len_le
  have hne : (first + 0) % n ≠ (first + (i + 1)) % n := add_mod_ne (zero_lt_succ i) (by omega)
  rw [add_zero, mod_eq_of_lt h.first_lt] at hne
  rw [succ_eq_mod h.first_lt, mod_add_mod, add_assoc, add_comm 1]
  exact hne.symm

theorem length_contents (cell : ℕ → α) (n first len : ℕ) : (contents cell n first len).length = len := by
  simp [contents]

end Ring
