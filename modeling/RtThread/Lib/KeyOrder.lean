import Mathlib.Data.List.Sort

namespace KeyOrder

open Function List

variable {α : Type*}

def Sorted (key : α → ℕ) (l : List α) : Prop := l.Pairwise (fun a b => key a ≤ key b)

variable {key key' : α → ℕ} {a : α} {l : List α}

theorem Sorted.sublist (h : Sorted key l) {l' : List α} (hl : l'.Sublist l) : Sorted key l' :=
  List.Pairwise.sublist hl h

theorem Sorted.congr (h : Sorted key l) (he : ∀ a ∈ l, key' a = key a) : Sorted key' l :=
  h.imp_of_mem (fun ha hb hle => by rwa [he _ ha, he _ hb])

theorem Sorted.head_le (h : Sorted key (a :: l)) : ∀ b ∈ a :: l, key a ≤ key b := by
  intro b hb
  rcases mem_cons.mp hb with rfl | hb
  · exact le_rfl
  · exact (pairwise_cons.mp h).1 b hb

theorem Sorted.orderedInsert (h : Sorted key l) (a : α) :
    Sorted key (l.orderedInsert (fun b c => key b < key c) a) := by
  induction l with
  | nil => exact pairwise_singleton _ a
  | cons b l ih =>
    rw [orderedInsert_cons]
    obtain ⟨hb, hl⟩ := pairwise_cons.mp h
    split_ifs with hab
    · exact pairwise_cons.mpr ⟨fun c hc => hab.le.trans (h.head_le c hc), h⟩
    · refine pairwise_cons.mpr ⟨fun c hc => ?_, ih hl⟩
      rcases (mem_orderedInsert _).mp hc with rfl | hc
      · exact not_lt.mp hab
      · exact hb c hc

variable {r : α → α → Prop}

theorem orderedInsert_congr {q : α → α → Prop} [DecidableRel r] [DecidableRel q]
    (h : ∀ b ∈ l, r a b ↔ q a b) : l.orderedInsert r a = l.orderedInsert q a := by
  induction l with
  | nil => rfl
  | cons b l ih =>
    rw [orderedInsert_cons, orderedInsert_cons, ih (fun c hc => h c (mem_cons_of_mem b hc))]
    by_cases hb : r a b
    · rw [if_pos hb, if_pos ((h b mem_cons_self).mp hb)]
    · rw [if_neg hb, if_neg (fun hb' => hb ((h b mem_cons_self).mpr hb'))]

theorem filter_orderedInsert_of_neg [DecidableRel r] {p : α → Bool} (ha : p a = false)
    (l : List α) : (l.orderedInsert r a).filter p = l.filter p := by
  induction l with
  | nil => simp [ha]
  | cons b l ih =>
    rw [orderedInsert_cons]
    split_ifs with hab
    · rw [filter_cons_of_neg (by simp [ha])]
    · rw [filter_cons, filter_cons, ih]

theorem takeWhile_congr {p q : α → Bool} (h : ∀ b ∈ l, q b = p b) : l.takeWhile q = l.takeWhile p := by
  induction l with
  | nil => rfl
  | cons b l ih =>
    rw [takeWhile_cons, takeWhile_cons, h b mem_cons_self, ih (fun c hc => h c (mem_cons_of_mem b hc))]

theorem takeWhile_orderedInsert_prefix [DecidableRel r] {p q : α → Bool} (ha : q a = false)
    (hq : ∀ b ∈ l, q b = p b) : (l.orderedInsert r a).takeWhile q <+: l.takeWhile p := by
  induction l with
  | nil => simp [ha]
  | cons b l ih =>
    rw [orderedInsert_cons]
    split_ifs with hab
    · rw [takeWhile_cons_of_neg (by simp [ha])]
      exact nil_prefix
    · rw [takeWhile_cons, takeWhile_cons, hq b mem_cons_self]
      split_ifs
      · exact (prefix_cons_inj b).mpr (ih (fun c hc => hq c (mem_cons_of_mem b hc)))
      · exact nil_prefix

theorem orderedInsert_append_cons [DecidableRel r] (a b : α) (l₁ l₂ : List α) :
    ∃ l l', (l₁ ++ b :: l₂).orderedInsert r a = l ++ b :: l' ∧ (l' = l₂ ∨ l' = l₂.orderedInsert r a) := by
  induction l₁ with
  | nil =>
    rw [nil_append, orderedInsert_cons]
    split_ifs
    · exact ⟨[a], l₂, rfl, .inl rfl⟩
    · exact ⟨[], _, rfl, .inr rfl⟩
  | cons c l₁ ih =>
    rw [cons_append, orderedInsert_cons]
    split_ifs
    · exact ⟨a :: c :: l₁, l₂, rfl, .inl rfl⟩
    · obtain ⟨l, l', hl, hl'⟩ := ih
      exact ⟨c :: l, l', by rw [hl, cons_append], hl'⟩

theorem pairwise_orderedInsert
    (h : l.Pairwise (fun b c => key b < key c ∨ key b = key c ∧ r b c)) (ha : ∀ b ∈ l, r b a) :
    (l.orderedInsert (fun b c => key b < key c) a).Pairwise
      (fun b c => key b < key c ∨ key b = key c ∧ r b c) := by
  induction l with
  | nil => exact pairwise_singleton _ a
  | cons b l ih =>
    rw [orderedInsert_cons]
    obtain ⟨hb, hl⟩ := pairwise_cons.mp h
    split_ifs with hab
    · refine pairwise_cons.mpr ⟨fun c hc => Or.inl ?_, h⟩
      rcases mem_cons.mp hc with rfl | hc
      · exact hab
      · have := hb c hc
        omega
    · refine pairwise_cons.mpr ⟨fun c hc => ?_, ih hl (fun c hc => ha c (mem_cons_of_mem b hc))⟩
      rcases (mem_orderedInsert _).mp hc with rfl | hc
      · rcases (not_lt.mp hab).lt_or_eq with hlt | heq
        · exact Or.inl hlt
        · exact Or.inr ⟨heq, ha b mem_cons_self⟩
      · exact hb c hc

theorem sorted_update_iff [DecidableEq α] (h : Sorted key l) (hnd : l.Nodup) (p : ℕ) :
    Sorted (update key a p) l ↔
      ∀ l₁ l₂, l = l₁ ++ a :: l₂ → (∀ b ∈ l₁, key b ≤ p) ∧ ∀ b ∈ l₂, p ≤ key b := by
  have hkeep : ∀ l₁ l₂, l = l₁ ++ a :: l₂ → ∀ b ∈ l₁ ++ l₂, update key a p b = key b := by
    rintro l₁ l₂ rfl b hb
    refine update_of_ne ?_ _ _
    rintro rfl
    exact (nodup_cons.mp (nodup_middle.mp hnd)).1 hb
  constructor
  · intro hs l₁ l₂ hl
    have hkeep' := hkeep l₁ l₂ hl
    subst hl
    obtain ⟨-, htail, hcross⟩ := pairwise_append.mp hs
    refine ⟨fun b hb => ?_, fun b hb => ?_⟩
    · have := hcross b hb a mem_cons_self
      rwa [hkeep' b (mem_append_left _ hb), update_self] at this
    · have := (pairwise_cons.mp htail).1 b hb
      rwa [hkeep' b (mem_append_right _ hb), update_self] at this
  · intro hplace
    by_cases ha : a ∈ l
    · obtain ⟨l₁, l₂, hl⟩ := append_of_mem ha
      obtain ⟨hbefore, hafter⟩ := hplace l₁ l₂ hl
      have hkeep' := hkeep l₁ l₂ hl
      subst hl
      obtain ⟨h₁, htail, hcross⟩ := pairwise_append.mp h
      obtain ⟨-, h₂⟩ := pairwise_cons.mp htail
      refine pairwise_append.mpr ⟨?_, pairwise_cons.mpr ⟨fun b hb => ?_, ?_⟩, fun b hb c hc => ?_⟩
      · exact Sorted.congr h₁ (fun b hb => hkeep' b (mem_append_left _ hb))
      · rw [hkeep' b (mem_append_right _ hb), update_self]
        exact hafter b hb
      · exact Sorted.congr h₂ (fun b hb => hkeep' b (mem_append_right _ hb))
      · rw [hkeep' b (mem_append_left _ hb)]
        rcases mem_cons.mp hc with rfl | hc'
        · rw [update_self]
          exact hbefore b hb
        · rw [hkeep' c (mem_append_right _ hc')]
          exact hcross b hb c hc
    · refine h.congr (fun b hb => update_of_ne ?_ _ _)
      rintro rfl
      exact ha hb

end KeyOrder
