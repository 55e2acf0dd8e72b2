import Mathlib.Data.List.DropRight
import RtThread.Lib.Ring

namespace Ring

open List Nat

variable {α : Type*} {cell cell' : ℕ → α} {xs : List α} {n first last len dst k : ℕ}

def copyIn (cell : ℕ → α) (dst : ℕ) (xs : List α) : ℕ → α :=
  fun i => if dst ≤ i then (xs[i - dst]?).getD (cell i) else cell i

def copyOut (cell : ℕ → α) (src len : ℕ) : List α := (List.range len).map (fun i => cell (src + i))

theorem copyIn_add {i : ℕ} (h : i < xs.length) : copyIn cell dst xs (dst + i) = xs[i] := by
  rw [copyIn, if_pos (Nat.le_add_right dst i), Nat.add_sub_cancel_left, List.getElem?_eq_getElem h, Option.getD_some]

theorem copyIn_of_outside {i : ℕ} (h : i < dst ∨ dst + xs.length ≤ i) : copyIn cell dst xs i = cell i := by
  unfold copyIn
  split_ifs with hd
  · rw [List.getElem?_eq_none (by omega), Option.getD_none]
  · rfl

theorem mod_of_wrapped {i : ℕ} (h : n ≤ i) (hi : i < n + n) : i % n = i - n := by
  rw [mod_eq_sub_mod h, mod_eq_of_lt (by omega)]

structure Written (n dst : ℕ) (xs : List α) (cell cell' : ℕ → α) : Prop where
  inside : ∀ i (h : i < xs.length), cell' ((dst + i) % n) = xs[i]
  outside : ∀ i, xs.length ≤ i → i < n → cell' ((dst + i) % n) = cell ((dst + i) % n)

theorem written_copyIn (h : dst + xs.length ≤ n) : Written n dst xs cell (copyIn cell dst xs) := by
  constructor
  · intro i hi
    rw [mod_eq_of_lt (by omega)]
    exact copyIn_add hi
  · intro i hi hn
    apply copyIn_of_outside
    obtain hlt | hge := lt_or_ge (dst + i) n
    · rw [mod_eq_of_lt hlt]
      omega
    · rw [mod_of_wrapped hge (by omega)]
      omega

theorem written_copyIn_copyIn (hd : dst < n) (h : n - dst ≤ xs.length) (hle : xs.length ≤ n) :
    Written n dst xs cell (copyIn (copyIn cell dst (xs.take (n - dst))) 0 (xs.drop (n - dst))) := by
  have hfirst : (xs.take (n - dst)).length = n - dst := length_take_of_le h
  have hsecond : (xs.drop (n - dst)).length = xs.length - (n - dst) := length_drop
  constructor
  · intro i hi
    obtain hlt | hge := lt_or_ge (dst + i) n
    · rw [mod_eq_of_lt hlt, copyIn_of_outside (by omega), copyIn_add (by omega)]
      exact getElem_take
    · rw [mod_of_wrapped hge (by omega), show dst + i - n = 0 + (i - (n - dst)) by omega, copyIn_add (by omega),
        getElem_drop]
      simp only [show n - dst + (i - (n - dst)) = i by omega]
  · intro i hi hn
    rw [mod_of_wrapped (by omega) (by omega), copyIn_of_outside (by omega), copyIn_of_outside (by omega)]

theorem written_update (hd : dst < n) (x : α) : Written n dst [x] cell (Function.update cell dst x) := by
  constructor
  · intro i hi
    obtain rfl : i = 0 := by simpa using hi
    rw [add_zero, mod_eq_of_lt hd, Function.update_self, getElem_singleton]
  · intro i hi hn
    have hpos : 0 < i := hi
    have hne : (dst + 0) % n ≠ (dst + i) % n := add_mod_ne hpos hn
    rw [add_zero, mod_eq_of_lt hd] at hne
    exact Function.update_of_ne hne.symm x cell

theorem contents_append (cell : ℕ → α) (n first len k : ℕ) :
    contents cell n first (len + k) = contents cell n first len ++ contents cell n ((first + len) % n) k := by
  simp only [contents, range_add, map_append, List.map_map, mod_add_mod, add_assoc]
  rfl

theorem contents_take (h : k ≤ len) : contents cell n first k = (contents cell n first len).take k := by
  obtain ⟨m, rfl⟩ := Nat.exists_eq_add_of_le h
  rw [contents_append, take_left' (length_contents ..)]

theorem contents_drop (h : k ≤ len) :
    contents cell n ((first + k) % n) (len - k) = (contents cell n first len).drop k := by
  obtain ⟨m, rfl⟩ := Nat.exists_eq_add_of_le h
  rw [contents_append, drop_left' (length_contents ..), Nat.add_sub_cancel_left]

theorem Valid.drop (h : Valid n first last len) (hk : k ≤ len) : Valid n ((first + k) % n) last (len - k) := by
  have hn : 0 < n := Nat.zero_lt_of_lt h.first_lt
  refine ⟨(Nat.sub_le len k).trans h.len_le, Nat.mod_lt _ hn, h.last_lt, ?_⟩
  rw [h.last_eq, Nat.mod_add_mod, Nat.add_assoc, Nat.add_sub_cancel' hk]

theorem Valid.contents_write (h : Valid n first last len) (hlen : len + xs.length ≤ n)
    (hw : Written n last xs cell cell') :
    contents cell' n first (len + xs.length) = contents cell n first len ++ xs := by
  rw [contents_append, ← h.last_eq]
  congr 1
  · apply contents_congr
    intro i hi
    -- the cell `i` places from `first` is `n - len + i` places from `last`
    have hcell : (first + i) % n = (last + (n - len + i)) % n := by
      rw [h.last_eq, mod_add_mod, show first + len + (n - len + i) = first + i + n by omega, add_mod_right]
    rw [hcell]
    exact hw.outside _ (by omega) (by omega)
  · apply ext_getElem (length_contents ..)
    intro i _ hi
    simpa [contents] using hw.inside i hi

theorem copyOut_eq_contents (h : first + k ≤ n) : copyOut cell first k = contents cell n first k := by
  apply map_congr_left
  intro i hi
  rw [mod_eq_of_lt]
  have := mem_range.mp hi
  omega

theorem copyOut_append_copyOut (hf : first < n) (h : n - first ≤ k) (hk : k ≤ n) :
    copyOut cell first (n - first) ++ copyOut cell 0 (k - (n - first)) = contents cell n first k := by
  have hend : (first + (n - first)) % n = 0 := by rw [Nat.add_sub_cancel' hf.le, Nat.mod_self]
  rw [copyOut_eq_contents (by omega : first + (n - first) ≤ n),
    copyOut_eq_contents (by omega : 0 + (k - (n - first)) ≤ n),
    ← hend, ← contents_append, Nat.add_sub_cancel' h]

def writeBlock (n : ℕ) (cell : ℕ → α) (dst : ℕ) (xs : List α) : ℕ → α :=
  if dst + xs.length ≤ n then copyIn cell dst xs
  else copyIn (copyIn cell dst (xs.take (n - dst))) 0 (xs.drop (n - dst))

theorem written_writeBlock (hd : dst < n) (hle : xs.length ≤ n) :
    Written n dst xs cell (writeBlock n cell dst xs) := by
  unfold writeBlock
  split_ifs with h
  · exact written_copyIn h
  · exact written_copyIn_copyIn hd (by omega) hle

theorem rtake_of_length_le {l : List α} (h : l.length ≤ n) : l.rtake n = l := by
  rw [List.rtake, Nat.sub_eq_zero_of_le h, drop_zero]

theorem rtake_rtake_append (l xs : List α) (k : ℕ) : (l.rtake k ++ xs).rtake k = (l ++ xs).rtake k := by
  have hle : l.length - k ≤ l.length := sub_le ..
  simp only [List.rtake, ← drop_append_of_le_length hle, drop_drop, length_drop, length_append]
  congr 1
  omega

end Ring
