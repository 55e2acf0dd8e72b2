import Mathlib.Data.List.Cycle
import Mathlib.Data.List.Iterate

structure Linked (α : Type*) where
  next : α → α
  prev : α → α

namespace Linked

open Function List

variable {α : Type*}

section

variable {d e : Linked α} {l l₁ l₂ : List α} {a b : α}

def Link (d : Linked α) (a b : α) : Prop := d.next a = b ∧ d.prev b = a

structure Ring (d : Linked α) (l : List α) : Prop where
  chain : Cycle.Chain d.Link (l : Cycle α)
  nodup : l.Nodup

theorem ring_cons : d.Ring (a :: l) ↔ (a :: (l ++ [a])).IsChain d.Link ∧ (a :: l).Nodup :=
  ⟨fun h => ⟨h.chain, h.nodup⟩, fun h => ⟨h.1, h.2⟩⟩

theorem Ring.rotate (h : d.Ring (l₁ ++ l₂)) : d.Ring (l₂ ++ l₁) := by
  have heq : ((l₁ ++ l₂ : List α) : Cycle α) = (l₂ ++ l₁ : List α) := Cycle.coe_eq_coe.mpr isRotated_append
  exact ⟨heq ▸ h.chain, (perm_append_comm.nodup_iff).mp h.nodup⟩

theorem isChain_congr (h : l.IsChain d.Link) (hn : ∀ x ∈ l.dropLast, e.next x = d.next x)
    (hp : ∀ x ∈ l.tail, e.prev x = d.prev x) : l.IsChain e.Link := by
  induction l with
  | nil => exact isChain_nil
  | cons x l ih =>
    cases l with
    | nil => exact isChain_singleton x
    | cons y l =>
      obtain ⟨⟨hnext, hprev⟩, hrest⟩ := isChain_cons_cons.mp h
      refine isChain_cons_cons.mpr ⟨⟨?_, ?_⟩, ih hrest (fun z hz => ?_) (fun z hz => ?_)⟩
      · rw [hn x (by simp), hnext]
      · rw [hp y (by simp), hprev]
      · exact hn z (by simp [hz])
      · exact hp z (mem_of_mem_tail hz)

theorem Ring.congr (h : d.Ring l) (hn : ∀ x ∈ l, e.next x = d.next x) (hp : ∀ x ∈ l, e.prev x = d.prev x) :
    e.Ring l := by
  cases l with
  | nil => exact ⟨trivial, h.nodup⟩
  | cons a l =>
    obtain ⟨hchain, hnodup⟩ := ring_cons.mp h
    refine ring_cons.mpr ⟨isChain_congr hchain (fun x hx => hn x ?_) (fun x hx => hp x ?_), hnodup⟩
    · rwa [← List.cons_append, dropLast_concat] at hx
    · simpa [or_comm] using hx

theorem ring_head_link (h : d.Ring (a :: b :: l)) : d.Link a b :=
  (isChain_cons_cons.mp (ring_cons.mp h).1).1

theorem Ring.link (h : d.Ring (l₁ ++ a :: b :: l₂)) : d.Link a b :=
  ring_head_link (h.rotate : d.Ring (a :: b :: (l₂ ++ l₁)))

theorem Ring.link_last (h : d.Ring (a :: l ++ [b])) : d.Link b a :=
  ring_head_link (h.rotate : d.Ring (b :: a :: l))

theorem Ring.link_around {c : α} (h : d.Ring (c :: l)) (hl : c :: (l ++ [c]) = l₁ ++ a :: b :: l₂) :
    d.Link a b := by
  have hchain := (ring_cons.mp h).1
  rw [hl] at hchain
  exact (isChain_cons_cons.mp (isChain_split.mp hchain).2).1

theorem Ring.iterate (h : d.Ring (a :: l)) : a :: l = List.iterate d.next a (l.length + 1) := by
  have hchain : (a :: l).IsChain d.Link := (isChain_append.mp (ring_cons.mp h).1).1
  clear h
  induction l generalizing a with
  | nil => rfl
  | cons b l ih =>
    obtain ⟨⟨hab, -⟩, hrest⟩ := isChain_cons_cons.mp hchain
    rw [length_cons, List.iterate, hab, ← ih hrest]

theorem Ring.next_mem (h : d.Ring l) (ha : a ∈ l) : d.next a ∈ l ∧ d.prev (d.next a) = a := by
  obtain ⟨l₁, l₂, rfl⟩ := append_of_mem ha
  have hr : d.Ring (a :: (l₂ ++ l₁)) := h.rotate
  cases hm : l₂ ++ l₁ with
  | nil =>
    obtain ⟨hn, hp⟩ : d.Link a a := by
      rw [hm] at hr
      exact (isChain_cons_cons.mp (ring_cons.mp hr).1).1
    exact ⟨hn.symm ▸ ha, hn.symm ▸ hp⟩
  | cons b m =>
    rw [hm] at hr
    obtain ⟨rfl, hp⟩ : d.Link a b := ring_head_link hr
    refine ⟨?_, hp⟩
    have hb : d.next a ∈ l₂ ++ l₁ := hm ▸ mem_cons_self
    simp only [mem_append, mem_cons] at hb ⊢
    tauto

theorem exists_behind (h : (a :: l).Nodup) : ∃ c m, l ++ [a] = c :: m ∧ (c :: m).dropLast = l ∧ c ∉ m := by
  obtain ⟨c, m, hcm⟩ : ∃ c m, l ++ [a] = c :: m := exists_cons_of_ne_nil (by simp)
  have hnodup : (c :: m).Nodup := hcm ▸ (perm_append_singleton a l).symm.nodup_iff.mp h
  exact ⟨c, m, hcm, by rw [← hcm, dropLast_concat], (nodup_cons.mp hnodup).1⟩

theorem Ring.prev_mem (h : d.Ring l) (ha : a ∈ l) : d.prev a ∈ l ∧ d.next (d.prev a) = a := by
  obtain ⟨l₁, l₂, rfl⟩ := append_of_mem ha
  have hr : d.Ring (a :: (l₂ ++ l₁)) := h.rotate
  obtain hm | ⟨m, b, hm⟩ := eq_nil_or_concat (l₂ ++ l₁)
  · obtain ⟨hn, hp⟩ : d.Link a a := by
      rw [hm] at hr
      exact (isChain_cons_cons.mp (ring_cons.mp hr).1).1
    exact ⟨hp.symm ▸ ha, hp.symm ▸ hn⟩
  · rw [hm, concat_eq_append] at hr
    obtain ⟨hn, rfl⟩ : d.Link b a := hr.link_last
    refine ⟨?_, hn⟩
    have hb : d.prev a ∈ l₂ ++ l₁ := by simp [hm]
    simp only [mem_append, mem_cons] at hb ⊢
    tauto

theorem Ring.mem_iff_iterate (h : d.Ring (a :: l)) : b ∈ a :: l ↔ ∃ k, b = d.next^[k] a := by
  constructor
  · intro hb
    rw [h.iterate, mem_iterate] at hb
    obtain ⟨k, -, hk⟩ := hb
    exact ⟨k, hk⟩
  · rintro ⟨k, rfl⟩
    induction k with
    | zero => exact mem_cons_self
    | succ k ih =>
      rw [Function.iterate_succ_apply']
      exact (h.next_mem ih).1

theorem Ring.next_inj (h : d.Ring l) (ha : a ∈ l) (hb : b ∈ l) (he : d.next a = d.next b) : a = b := by
  rw [← (h.next_mem ha).2, he, (h.next_mem hb).2]

end

section

variable [DecidableEq α] {d : Linked α} {l l₁ l₂ : List α} {a b n : α}

def set (d : Linked α) (a n p : α) : Linked α where
  next := update d.next a n
  prev := update d.prev a p

def join (d : Linked α) (a c : α) : Linked α where
  next := update d.next a c
  prev := update d.prev c a

def insertAfter (d : Linked α) (a n : α) : Linked α where
  next := update (update d.next n (d.next a)) a n
  prev := update (update d.prev n a) (d.next a) n

theorem Ring.insertAfter_cons (h : d.Ring (a :: l)) (hn : n ∉ a :: l) : (d.insertAfter a n).Ring (a :: n :: l) := by
  obtain ⟨c, m, hcm, hlast, hcm'⟩ := exists_behind h.nodup
  obtain ⟨hal, hl⟩ := nodup_cons.mp h.nodup
  have hchain := (ring_cons.mp h).1
  rw [hcm] at hchain
  obtain ⟨⟨hac, -⟩, hrest⟩ := isChain_cons_cons.mp hchain
  have hnm : n ∉ c :: m := by
    rw [← hcm]
    simpa [or_comm] using hn
  obtain ⟨hna, hnl⟩ := ne_and_not_mem_of_not_mem_cons hn
  obtain ⟨hnc, hnm⟩ := ne_and_not_mem_of_not_mem_cons hnm
  refine ring_cons.mpr ⟨?_, nodup_cons.mpr ⟨?_, nodup_cons.mpr ⟨hnl, hl⟩⟩⟩
  · rw [List.cons_append, hcm]
    refine isChain_cons_cons.mpr ⟨⟨?_, ?_⟩, isChain_cons_cons.mpr ⟨⟨?_, ?_⟩, ?_⟩⟩
    · simp [insertAfter]
    · simp [insertAfter, hac, hnc]
    · simp [insertAfter, hac, hna]
    · simp [insertAfter, hac]
    · -- behind `c` neither list has a node whose pointers were written
      refine isChain_congr hrest (fun x hx => ?_) (fun x hx => ?_)
      · rw [hlast] at hx
        have hxa : x ≠ a := fun he => hal (he ▸ hx)
        have hxn : x ≠ n := fun he => hnl (he ▸ hx)
        simp [insertAfter, hxa, hxn]
      · have hxc : x ≠ c := fun he => hcm' (he ▸ hx)
        have hxn : x ≠ n := fun he => hnm (he ▸ hx)
        simp [insertAfter, hac, hxc, hxn]
  · exact not_mem_cons_of_ne_of_not_mem (Ne.symm hna) hal

theorem Ring.join_cons (h : d.Ring (a :: b :: l)) : (d.join a (d.next b)).Ring (a :: l) := by
  have hnodup : (a :: l).Nodup := h.nodup.sublist ((sublist_cons_self b l).cons_cons a)
  obtain ⟨c, m, hcm, hlast, hcm'⟩ := exists_behind hnodup
  have hal : a ∉ l := (nodup_cons.mp hnodup).1
  have hchain := (ring_cons.mp h).1
  rw [List.cons_append, hcm] at hchain
  obtain ⟨⟨rfl, -⟩, hrest⟩ := isChain_cons_cons.mp (isChain_cons_cons.mp hchain).2
  refine ring_cons.mpr ⟨?_, hnodup⟩
  rw [hcm]
  refine isChain_cons_cons.mpr ⟨⟨?_, ?_⟩, isChain_congr hrest (fun x hx => ?_) (fun x hx => ?_)⟩
  · simp [join]
  · simp [join]
  · rw [hlast] at hx
    have hxa : x ≠ a := fun he => hal (he ▸ hx)
    simp [join, hxa]
  · have hxc : x ≠ d.next b := fun he => hcm' (he ▸ hx)
    simp [join, hxc]

theorem Ring.set_of_notMem (h : d.Ring l) (ha : a ∉ l) (n p : α) : (d.set a n p).Ring l := by
  have hne : ∀ x ∈ l, x ≠ a := fun x hx he => ha (he ▸ hx)
  exact h.congr (fun x hx => update_of_ne (hne x hx) ..) (fun x hx => update_of_ne (hne x hx) ..)

theorem Ring.remove (h : d.Ring l) (hb : b ∈ l) (hl : l ≠ [b]) :
    (d.join (d.prev b) (d.next b)).Ring (l.erase b) := by
  obtain ⟨l₁, l₂, rfl⟩ := append_of_mem hb
  have hr : d.Ring (b :: (l₂ ++ l₁)) := h.rotate
  have hne : l₂ ++ l₁ ≠ [] := fun he => hl (by simp_all)
  obtain ⟨m, a, hm⟩ : ∃ m a, l₂ ++ l₁ = m ++ [a] := ⟨_, _, (dropLast_append_getLast hne).symm⟩
  rw [hm] at hr
  have hab : d.Ring (a :: b :: m) := (hr.rotate : d.Ring ([a] ++ b :: m))
  have hout : (d.join a (d.next b)).Ring ([a] ++ m) := hab.join_cons
  have hb₁ : b ∉ l₁ := fun hb₁ => (nodup_cons.mp hr.nodup).1 (hm ▸ mem_append_right l₂ hb₁)
  rw [(ring_head_link hab).2, erase_append_right _ hb₁, erase_cons_head]
  exact (hm ▸ hout.rotate : (d.join a (d.next b)).Ring (l₂ ++ l₁)).rotate

theorem Ring.insert (h : d.Ring (l₁ ++ a :: l₂)) (hn : n ∉ l₁ ++ a :: l₂) :
    (d.insertAfter a n).Ring (l₁ ++ a :: n :: l₂) := by
  have hr : d.Ring (a :: (l₂ ++ l₁)) := h.rotate
  have hn' : n ∉ a :: (l₂ ++ l₁) := by
    simp only [mem_append, mem_cons, not_or] at hn ⊢
    tauto
  exact Ring.rotate (hr.insertAfter_cons hn' : (d.insertAfter a n).Ring ((a :: n :: l₂) ++ l₁))

end

end Linked
