import Mathlib.Data.List.Nodup

namespace Pool

open List Function

variable {α β : Type*}

def Links (next : α → Option α) : Option α → List α → Prop
  | p, [] => p = none
  | p, a :: l => p = some a ∧ Links next (next a) l

variable {next : α → Option α} {p : Option α} {l : List α}

theorem Links.head (h : Links next p l) : p = l.head? := by
  cases l with
  | nil => exact h
  | cons a l => exact h.1

theorem Links.pop {a : α} (h : Links next p l)
    (hp : p = some a) : ∃ rest, l = a :: rest ∧ Links next (next a) rest := by
  cases l with
  | nil => exact absurd (hp.symm.trans h) (by simp)
  | cons b rest =>
    obtain rfl : b = a := Option.some.inj (h.1.symm.trans hp)
    exact ⟨rest, rfl, h.2⟩

theorem Links.congr {next' : α → Option α} (h : Links next p l) (he : ∀ a ∈ l, next' a = next a) :
    Links next' p l := by
  induction l generalizing p with
  | nil => exact h
  | cons a l ih =>
    refine ⟨h.1, ?_⟩
    rw [he a mem_cons_self]
    exact ih h.2 (fun b hb => he b (mem_cons_of_mem a hb))

theorem links_range {f : ℕ → α} {j n : ℕ} (hstep : ∀ k < n, next (f (j + k)) = some (f (j + k + 1)))
    (hlast : next (f (j + n)) = none) : Links next (some (f j)) ((List.range' j (n + 1)).map f) := by
  induction n generalizing j with
  | zero => exact ⟨rfl, hlast⟩
  | succ n ih =>
    refine ⟨rfl, ?_⟩
    rw [← Nat.add_zero j, hstep 0 (by omega)]
    apply ih
    · intro k hk
      have h := hstep (k + 1) (by omega)
      rwa [show j + (k + 1) = j + 1 + k by omega] at h
    · rwa [show j + 1 + n = j + (n + 1) by omega]

section

variable [DecidableEq α] {next : α → Option α} {p : Option α} {a : α} {l : List α}

variable (h : Links next p l)

include h

theorem Links.update (ha : a ∉ l) (q : Option α) : Links (Function.update next a q) p l := by
  induction l generalizing p with
  | nil => exact h
  | cons b l ih =>
    obtain ⟨hb, hl⟩ := ne_and_not_mem_of_not_mem_cons ha
    refine ⟨h.1, ?_⟩
    rw [update_of_ne (Ne.symm hb)]
    exact ih h.2 hl

theorem Links.push (ha : a ∉ l) : Links (Function.update next a p) (some a) (a :: l) := by
  refine ⟨rfl, ?_⟩
  rw [update_self]
  exact h.update ha p

theorem Links.append (hnd : l.Nodup) {z : α} (hz : l.getLast? = some z) (ha : a ∉ l)
    (hn : next a = none) : Links (Function.update next z (some a)) p (l ++ [a]) := by
  induction l generalizing p with
  | nil => simp at hz
  | cons b l ih =>
    obtain ⟨hb, hl⟩ := ne_and_not_mem_of_not_mem_cons ha
    obtain ⟨hbl, hnd'⟩ := nodup_cons.mp hnd
    refine ⟨h.1, ?_⟩
    cases l with
    | nil =>
      obtain rfl : b = z := by simpa using hz
      refine ⟨update_self .., ?_⟩
      rw [update_of_ne hb]
      exact hn
    | cons c l =>
      have hz' : (c :: l).getLast? = some z := by simpa [getLast?_cons_cons] using hz
      have hbz : b ≠ z := fun he => hbl (he ▸ mem_of_getLast? hz')
      rw [update_of_ne hbz]
      exact ih h.2 hnd' hz' hl

end

structure Placed (valid : α → Prop) (lies : α → β → Prop) : Prop where
  unique : ∀ a, valid a → ∃! x, lies a x
  valid : ∀ a x, lies a x → valid a

variable {valid : α → Prop} {lies : α → β → Prop}

theorem Placed.eq (h : Placed valid lies) {a : α} {x y : β} (hx : lies a x) (hy : lies a y) : x = y :=
  (h.unique a (h.valid a x hx)).unique hx hy

variable {lies' : α → β → Prop} (h : Placed valid lies)

include h

theorem Placed.relocate (f : α → β → β) (hf : ∀ a y, lies' a y ↔ ∃ x, lies a x ∧ f a x = y) :
    Placed valid lies' := by
  refine ⟨fun a ha => ?_, fun a y hy => ?_⟩
  · obtain ⟨x, hx, huniq⟩ := h.unique a ha
    refine ⟨f a x, (hf a _).mpr ⟨x, hx, rfl⟩, fun y hy => ?_⟩
    obtain ⟨x', hx', rfl⟩ := (hf a y).mp hy
    rw [huniq x' hx']
  · obtain ⟨x, hx, -⟩ := (hf a y).mp hy
    exact h.valid a x hx

theorem Placed.move {a : α} {x y : β}
    (hx : lies a x) (ha : ∀ z, lies' a z ↔ z = y) (ho : ∀ b z, b ≠ a → (lies' b z ↔ lies b z)) :
    Placed valid lies' := by
  classical
  refine h.relocate (fun b z => if b = a then y else z) (fun b z => ?_)
  obtain rfl | hb := eq_or_ne b a
  · simp only [ha, if_true]
    exact ⟨fun hz => ⟨x, hx, hz.symm⟩, fun ⟨_, _, hz⟩ => hz.symm⟩
  · simp only [ho b z hb, if_neg hb, exists_eq_right]

end Pool
