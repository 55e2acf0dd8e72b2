import Mathlib.Algebra.GroupWithZero.Nat
import Mathlib.Algebra.Order.BigOperators.Group.List
import RtThread.Mem.Memheap

namespace RtThread

open Function List Memheap Option

theorem add32_eq {a b : ℕ} (h : a + b < 2 ^ 32) : add32 a b = a + b := by
  exact Nat.mod_eq_of_lt h

theorem add32_add32_eq {a b c : ℕ} (h : a + b + c < 2 ^ 32) : add32 (add32 a b) c = a + b + c := by
  rw [add32_eq (by omega : a + b < 2 ^ 32), add32_eq h]

theorem sub32_eq {a b : ℕ} (hb : b ≤ a) (ha : a < 2 ^ 32) : sub32 a b = a - b := by
  unfold sub32
  omega

theorem add_memheapSize_ne_null (a : ℕ) : a + memheapSize ≠ null := by
  unfold memheapSize null
  omega

structure HeapArea where
  self : ℕ
  freeHeader : ℕ
  startAddr : ℕ
  size : ℕ
  room : 2 * memheapSize + memheapMiniAlloc ≤ size
  size_lt : size < 2 ^ 32
  bound : startAddr + size ≤ 2 ^ 32
  apart : freeHeader + memheapSize ≤ startAddr ∨ startAddr + size ≤ freeHeader

def HeapArea.poolSize (A : HeapArea) : ℕ := A.size / 4 * 4

def HeapArea.tail (A : HeapArea) : ℕ := A.startAddr + A.poolSize - memheapSize

theorem HeapArea.tail_spec (A : HeapArea) :
    A.startAddr + memheapSize + memheapMiniAlloc ≤ A.tail ∧ A.tail + memheapSize = A.startAddr + A.poolSize ∧
      A.poolSize ≤ A.size := by
  have := A.room
  unfold HeapArea.tail HeapArea.poolSize memheapSize memheapMiniAlloc at *
  omega

def Spaced (a b : ℕ) : Prop := a + memheapSize + memheapMiniAlloc ≤ b

instance : IsTrans ℕ Spaced := ⟨fun a b c hab hbc => by unfold Spaced at *; omega⟩

structure Blocks (A : HeapArea) (h : Memheap) (bs : List ℕ) : Prop where
  self : h.self = A.self
  startAddr : h.startAddr = A.startAddr
  poolSize : h.poolSize = A.poolSize
  freeList : h.freeList = A.freeHeader
  ring : h.block.Ring (bs ++ [A.tail])
  first : bs.head? = some A.startAddr
  spaced : (bs ++ [A.tail]).IsChain Spaced
  item : ∀ a ∈ bs ++ [A.tail], h.magic a &&& memheapMask = memheapMagic ∧ h.poolPtr a = h.self
  tail_used : h.isUsed A.tail = true

namespace Blocks

variable {A : HeapArea} {h : Memheap} {bs : List ℕ} {a b n : ℕ}

variable (hb : Blocks A h bs)

include hb

theorem spaced_pairwise : (bs ++ [A.tail]).Pairwise Spaced :=
  isChain_iff_pairwise.mp hb.spaced

theorem start_le (ha : a ∈ bs) : A.startAddr ≤ a := by
  obtain ⟨rest, rfl⟩ : ∃ rest, bs = A.startAddr :: rest := head?_eq_some_iff.mp hb.first
  obtain rfl | ha := mem_cons.mp ha
  · exact le_rfl
  · have hs : Spaced A.startAddr a := (pairwise_cons.mp hb.spaced_pairwise).1 a (by simp [ha])
    unfold Spaced at hs
    omega

theorem le_tail (ha : a ∈ bs) : Spaced a A.tail :=
  (pairwise_append.mp hb.spaced_pairwise).2.2 a ha A.tail (by simp)

theorem tail_notMem : A.tail ∉ bs := by
  intro ht
  have hs := hb.le_tail ht
  unfold Spaced memheapSize memheapMiniAlloc at hs
  omega

theorem mem_of_unused (ha : a ∈ bs ++ [A.tail]) (hu : h.isUsed a = false) : a ∈ bs := by
  obtain ha | ha := mem_append.mp ha
  · exact ha
  · rw [mem_singleton.mp ha, hb.tail_used] at hu
    exact absurd hu (by simp)

section

variable (ha : a ∈ bs)

include ha

theorem exists_next : ∃ l₁ l₂ l, bs = l₁ ++ a :: l₂ ∧ l₂ ++ [A.tail] = h.block.next a :: l := by
  obtain ⟨l₁, l₂, rfl⟩ := append_of_mem ha
  obtain ⟨c, l, hl⟩ : ∃ c l, l₂ ++ [A.tail] = c :: l := exists_cons_of_ne_nil (by simp)
  have hring := hb.ring
  rw [List.append_assoc, List.cons_append, hl] at hring
  exact ⟨l₁, l₂, l, rfl, by rw [hl, hring.link.1]⟩

theorem next_spaced : Spaced a (h.block.next a) := by
  obtain ⟨l₁, l₂, l, rfl, hl⟩ := hb.exists_next ha
  have hs := hb.spaced
  rw [List.append_assoc, List.cons_append, hl] at hs
  exact (isChain_cons_cons.mp (isChain_split.mp hs).2).1

theorem next_mem : h.block.next a ∈ bs ++ [A.tail] :=
  (hb.ring.next_mem (mem_append_left _ ha)).1

theorem prev_next : h.block.prev (h.block.next a) = a :=
  (hb.ring.next_mem (mem_append_left _ ha)).2

theorem next_le (hmem : b ∈ bs ++ [A.tail]) (hab : a < b) : h.block.next a ≤ b := by
  obtain ⟨l₁, l₂, l, rfl, hl⟩ := hb.exists_next ha
  have hs := hb.spaced_pairwise
  rw [List.append_assoc, List.cons_append, hl] at hmem hs
  obtain ⟨-, hs, hcross⟩ := pairwise_append.mp hs
  have hbehind := (pairwise_cons.mp (pairwise_cons.mp hs).2).1
  simp only [mem_append, mem_cons] at hmem
  unfold Spaced at *
  obtain hb₁ | rfl | rfl | hb₂ := hmem
  · have := hcross b hb₁ a (by simp)
    omega
  · omega
  · exact le_rfl
  · have := hbehind b hb₂
    omega

theorem prev_mem : h.block.prev a ∈ bs ++ [A.tail] ∧ h.block.next (h.block.prev a) = a :=
  hb.ring.prev_mem (mem_append_left _ ha)

end

theorem add_size_le (ha : a ∈ bs ++ [A.tail]) : a + memheapSize ≤ 2 ^ 32 := by
  obtain ⟨-, htail, hsize⟩ := A.tail_spec
  have hbound := A.bound
  obtain ha | ha := mem_append.mp ha
  · have hs := hb.le_tail ha
    unfold Spaced at hs
    omega
  · rw [mem_singleton.mp ha]
    omega

theorem lt_bound (ha : a ∈ bs ++ [A.tail]) : a < 2 ^ 32 := by
  have hle := hb.add_size_le ha
  unfold memheapSize at hle
  omega

theorem tail_lt : A.tail < 2 ^ 32 :=
  hb.lt_bound (mem_append_right bs (mem_singleton_self A.tail))

theorem sub32_eq_header (ha : a ∈ bs) : sub32 (a + memheapSize) memheapSize = a := by
  have hs := hb.le_tail ha
  have htail := hb.tail_lt
  unfold Spaced at hs
  rw [sub32_eq (by omega) (by omega), Nat.add_sub_cancel]

theorem memItemSize_spec (ha : a ∈ bs) :
    h.block.next a = a + memheapSize + h.memItemSize a ∧ memheapMiniAlloc ≤ h.memItemSize a := by
  have hs := hb.next_spaced ha
  have hlt := hb.lt_bound (hb.next_mem ha)
  unfold Spaced at hs
  have hsize : h.memItemSize a = h.block.next a - a - memheapSize := by
    unfold memItemSize
    rw [sub32_eq (by omega) hlt, sub32_eq (by omega) (by omega)]
  omega

theorem sum_suffix_le {l₁ l₂ : List ℕ} (hl : bs = l₁ ++ l₂) {c : ℕ}
    (hc : (l₂ ++ [A.tail]).head? = some c) : c + (l₂.map h.memItemSize).sum ≤ A.tail := by
  induction l₂ generalizing l₁ c with
  | nil =>
    obtain rfl : A.tail = c := by simpa using hc
    simp
  | cons b l₂ ih =>
    obtain rfl : b = c := by simpa using hc
    obtain ⟨d, hd⟩ : ∃ d, (l₂ ++ [A.tail]).head? = some d := by cases l₂ <;> simp
    obtain ⟨l, hl'⟩ := head?_eq_some_iff.mp hd
    have hring := hb.ring
    rw [hl, List.append_assoc, List.cons_append, hl'] at hring
    have hrest := ih (hl.trans (append_cons l₁ b l₂)) hd
    obtain ⟨hnext, -⟩ := hb.memItemSize_spec (by simp [hl] : b ∈ bs)
    rw [hring.link.1] at hnext
    simp only [map_cons, sum_cons]
    omega

theorem sum_le {l : List ℕ} (hl : l.Nodup) (hsub : l ⊆ bs) :
    A.startAddr + (l.map h.memItemSize).sum ≤ A.tail := by
  obtain ⟨l', hperm, hsub'⟩ := hl.subperm hsub
  have hall : A.startAddr + (bs.map h.memItemSize).sum ≤ A.tail := by
    refine hb.sum_suffix_le (nil_append bs).symm ?_
    rw [head?_append, hb.first, some_or]
  have hle : (l'.map h.memItemSize).sum ≤ (bs.map h.memItemSize).sum :=
    (hsub'.map _).sum_le_sum (fun _ _ => Nat.zero_le _)
  rw [(hperm.map _).sum_eq] at hle
  omega

theorem freeHeader_notMem : A.freeHeader ∉ bs := by
  intro hf
  have hstart := hb.start_le hf
  have htail := hb.le_tail hf
  obtain ⟨-, hend, hsize⟩ := A.tail_spec
  unfold Spaced memheapSize at *
  obtain hlow | hhigh := A.apart
  · unfold memheapSize at hlow
    omega
  · omega

theorem frame (free : Linked ℕ) (availableSize maxUsedSize : ℕ) :
    Blocks A { h with free, availableSize, maxUsedSize } bs :=
  ⟨hb.self, hb.startAddr, hb.poolSize, hb.freeList, hb.ring, hb.first, hb.spaced, hb.item, hb.tail_used⟩

variable (ha : a ∈ bs)

include ha

theorem mark {m : BitVec 32} (hm : m &&& memheapMask = h.magic a &&& memheapMask) :
    Blocks A { h with magic := update h.magic a m } bs := by
  have htail : A.tail ≠ a := fun he => hb.tail_notMem (he ▸ ha)
  refine ⟨hb.self, hb.startAddr, hb.poolSize, hb.freeList, hb.ring, hb.first, hb.spaced, fun x hx => ?_, ?_⟩
  · refine ⟨?_, (hb.item x hx).2⟩
    obtain rfl | hxa := eq_or_ne x a
    · simpa [hm] using (hb.item x hx).1
    · simpa [hxa] using (hb.item x hx).1
  · simpa [isUsed, htail] using hb.tail_used

theorem split (han : Spaced a n) (hn : Spaced n (h.block.next a)) :
    n ∉ bs ++ [A.tail] ∧ ∃ bs', Blocks A (h.splitBlock a n) bs' ∧ ∀ x, x ∈ bs' ↔ x = n ∨ x ∈ bs := by
  have hnew : n ∉ bs ++ [A.tail] := by
    intro hmem
    unfold Spaced memheapSize memheapMiniAlloc at *
    have := hb.next_le ha hmem (by omega)
    omega
  refine ⟨hnew, ?_⟩
  obtain ⟨l₁, l₂, l, rfl, hl⟩ := hb.exists_next ha
  refine ⟨l₁ ++ a :: n :: l₂, ?_, fun x => by simp only [mem_append, mem_cons]; tauto⟩
  refine ⟨hb.self, hb.startAddr, hb.poolSize, hb.freeList, ?_, ?_, ?_, fun x hx => ?_, ?_⟩
  · have hring := hb.ring
    simp only [List.append_assoc, List.cons_append] at hring hnew ⊢
    exact hring.insert hnew
  · have hfirst := hb.first
    cases l₁ with
    | nil | cons b l₁ => exact hfirst
  · have hs := hb.spaced
    rw [List.append_assoc, List.cons_append, hl] at hs
    rw [List.append_assoc, List.cons_append, List.cons_append, hl]
    obtain ⟨hfront, hback⟩ := isChain_split.mp hs
    refine isChain_split.mpr ⟨hfront, ?_⟩
    exact isChain_cons_cons.mpr ⟨han, isChain_cons_cons.mpr ⟨hn, (isChain_cons_cons.mp hback).2⟩⟩
  · obtain rfl | hxn := eq_or_ne x n
    · simp [splitBlock, setItem, memheapMagic, memheapMask]
    · have hold : x ∈ l₁ ++ a :: l₂ ++ [A.tail] := by
        simp only [mem_append, mem_cons] at hx ⊢
        tauto
      simpa [splitBlock, setItem, hxn] using hb.item x hold
  · have htail : A.tail ≠ n := fun he => hnew (he ▸ by simp)
    simpa [isUsed, splitBlock, setItem, htail] using hb.tail_used

theorem merge (hnext : h.block.next a ∈ bs) :
    Blocks A (h.joinBlocks a (h.block.next (h.block.next a))) (bs.erase (h.block.next a)) := by
  have hlt : Spaced a (h.block.next a) := hb.next_spaced ha
  have herase : (bs ++ [A.tail]).erase (h.block.next a) = bs.erase (h.block.next a) ++ [A.tail] :=
    erase_append_left _ hnext
  have hsub : List.Sublist (bs.erase (h.block.next a) ++ [A.tail]) (bs ++ [A.tail]) := (erase_sublist).append_right _
  refine ⟨hb.self, hb.startAddr, hb.poolSize, hb.freeList, ?_, ?_, ?_, fun x hx => hb.item x (hsub.subset hx),
    hb.tail_used⟩
  · have hring := hb.ring.remove (mem_append_left _ hnext) (fun he => ?_)
    · rwa [herase, hb.prev_next ha] at hring
    · have hnil : bs = [] := by simpa using congrArg List.length he
      exact absurd ha (by simp [hnil])
  · obtain ⟨rest, rfl⟩ : ∃ rest, bs = A.startAddr :: rest := head?_eq_some_iff.mp hb.first
    have hstart := hb.start_le ha
    rw [erase_cons_tail, head?_cons]
    unfold Spaced memheapSize memheapMiniAlloc at hlt
    simp only [beq_iff_eq]
    omega
  · exact isChain_iff_pairwise.mpr (hb.spaced_pairwise.sublist hsub)

end Blocks

namespace Memheap

variable (h : Memheap) (a : ℕ)

@[simp]
theorem isUsed_setAvailable : (h.setAvailable a).isUsed = h.isUsed := rfl

@[simp]
theorem isUsed_takeAvailable : (h.takeAvailable a).isUsed = h.isUsed := rfl

@[simp]
theorem isUsed_insertFree : (h.insertFree a).isUsed = h.isUsed := rfl

@[simp]
theorem availableSize_insertFree : (h.insertFree a).availableSize = h.availableSize := rfl

@[simp]
theorem availableSize_removeFree : (h.removeFree a).availableSize = h.availableSize := rfl

@[simp]
theorem availableSize_clearFree : (h.clearFree a).availableSize = h.availableSize := rfl

@[simp]
theorem availableSize_splitBlock (n : ℕ) : (h.splitBlock a n).availableSize = h.availableSize := rfl

@[simp]
theorem isUsed_mergeBehind : (h.mergeBehind a).isUsed = h.isUsed := rfl

theorem isUsed_markUsed : (h.markUsed a).isUsed = update h.isUsed a true := by
  funext x
  obtain rfl | hx := eq_or_ne x a
  · have hset : (h.magic x ||| memheapUsed) &&& memheapUsed = memheapUsed := by
      ext i hi
      simp only [BitVec.getElem_and, BitVec.getElem_or]
      cases (h.magic x)[i] <;> simp
    have hne : memheapUsed ≠ 0 := by decide
    simp only [isUsed, markUsed, update_self, hset, ne_eq, hne, not_false_eq_true, decide_true]
  · simp [isUsed, markUsed, hx]

theorem isUsed_markFreed : (h.markFreed a).isUsed = update h.isUsed a false := by
  funext x
  obtain rfl | hx := eq_or_ne x a
  · simp [isUsed, markFreed, memheapUsed, BitVec.and_assoc]
  · simp [isUsed, markFreed, hx]

theorem isUsed_splitBlock (n : ℕ) : (h.splitBlock a n).isUsed = update h.isUsed n false := by
  funext x
  obtain rfl | hx := eq_or_ne x n
  · simp [isUsed, splitBlock, setItem, memheapMagic, memheapUsed]
  · simp [isUsed, splitBlock, setItem, hx]

section

variable {a} {n : ℕ}

theorem next_splitBlock_self : (h.splitBlock a n).block.next a = n := update_self ..

theorem next_splitBlock_new (hna : n ≠ a) : (h.splitBlock a n).block.next n = h.block.next a :=
  (update_of_ne hna ..).trans (update_self ..)

theorem next_splitBlock_of_ne {x : ℕ} (hxa : x ≠ a) (hxn : x ≠ n) :
    (h.splitBlock a n).block.next x = h.block.next x :=
  (update_of_ne hxa ..).trans (update_of_ne hxn ..)

theorem prev_splitBlock_new (hn : n ≠ h.block.next a) : (h.splitBlock a n).block.prev n = a :=
  (update_of_ne hn ..).trans (update_self ..)

end

def takeBlock : Memheap := ((h.removeFree a).clearFree a).markUsed a

theorem isUsed_takeBlock : (h.takeBlock a).isUsed = update h.isUsed a true :=
  ((h.removeFree a).clearFree a).isUsed_markUsed a

theorem mask_markUsed : (h.magic a ||| memheapUsed) &&& memheapMask = h.magic a &&& memheapMask := by
  have hzero : memheapUsed &&& memheapMask = 0 := by decide
  ext i hi
  have hbit := congrArg (fun v : BitVec 32 => v[i]) hzero
  simp only [BitVec.getElem_and, BitVec.getElem_or] at hbit ⊢
  rw [Bool.and_or_distrib_right, hbit]
  simp

theorem mask_markFreed : (h.magic a &&& ~~~memheapUsed) &&& memheapMask = h.magic a &&& memheapMask := by
  rw [BitVec.and_assoc]
  congr 1

end Memheap

/-- The free list holds the unused blocks and no two of those are neighbours, except around a block `p` that a
call is about to put into the list. -/
structure Shape (A : HeapArea) (h : Memheap) (bs fs : List ℕ) (p : Option ℕ) : Prop where
  blocks : Blocks A h bs
  ring : h.free.Ring (A.freeHeader :: fs)
  mem_free : ∀ a, p ≠ some a → (a ∈ fs ↔ a ∈ bs ∧ h.isUsed a = false)
  pending : ∀ a, p = some a → a ∈ bs ∧ h.isUsed a = false
  apart : ∀ a ∈ bs, h.isUsed a = true ∨ h.isUsed (h.block.next a) = true ∨ p = some a ∨
    p = some (h.block.next a)

namespace Shape

variable {A : HeapArea} {h : Memheap} {bs fs : List ℕ} {p : Option ℕ} {a n x : ℕ}

section

variable (s : Shape A h bs fs p)

include s

theorem setAvailable (available : ℕ) : Shape A (h.setAvailable available) bs fs p :=
  ⟨s.blocks.frame h.free available h.maxUsedSize, s.ring, s.mem_free, s.pending, s.apart⟩

theorem takeAvailable (available : ℕ) : Shape A (h.takeAvailable available) bs fs p :=
  ⟨s.blocks.frame h.free available _, s.ring, s.mem_free, s.pending, s.apart⟩

theorem of_mem_free (ha : a ∈ fs) : a ∈ bs ∧ h.isUsed a = false := by
  by_cases hp : p = some a
  · exact s.pending a hp
  · exact (s.mem_free a hp).mp ha

theorem nodup : fs.Nodup := (nodup_cons.mp s.ring.nodup).2

theorem ring_remove (hx : x ∈ fs) : (h.removeFree x).free.Ring (A.freeHeader :: fs.erase x) := by
  have hne : A.freeHeader ≠ x := fun he => (nodup_cons.mp s.ring.nodup).1 (he ▸ hx)
  have hring := s.ring.remove (mem_cons_of_mem _ hx) (fun he => hne (List.cons.inj he).1)
  rwa [erase_cons_tail (by simpa using hne)] at hring

theorem ring_insert (ha : a ∈ bs) (hf : a ∉ fs) : (h.insertFree a).free.Ring (A.freeHeader :: a :: fs) := by
  have hne : a ≠ A.freeHeader := fun he => s.blocks.freeHeader_notMem (he ▸ ha)
  have hring := Linked.Ring.insertAfter_cons s.ring (not_mem_cons_of_ne_of_not_mem hne hf)
  rwa [← s.blocks.freeList] at hring ⊢

end

theorem free_notMem (s : Shape A h bs fs none) (hu : h.isUsed a = true) : a ∉ fs := by
  intro hf
  rw [(s.of_mem_free hf).2] at hu
  exact absurd hu (by simp)

theorem release (s : Shape A h bs fs none) (ha : a ∈ bs) : Shape A (h.markFreed a) bs fs (some a) := by
  have hused := h.isUsed_markFreed a
  refine ⟨s.blocks.mark ha (h.mask_markFreed a), s.ring, fun x hx => ?_, fun x hx => ?_, fun x hx => ?_⟩
  · have hxa : x ≠ a := fun he => hx (congrArg some he.symm)
    rw [hused, update_of_ne hxa]
    exact s.mem_free x (by simp)
  · obtain rfl : a = x := some.inj hx
    exact ⟨ha, by rw [hused, update_self]⟩
  · change (h.markFreed a).isUsed x = true ∨ (h.markFreed a).isUsed (h.block.next x) = true ∨ _
    by_cases hxa : a = x
    · exact .inr (.inr (.inl (congrArg some hxa)))
    · by_cases hna : a = h.block.next x
      · exact .inr (.inr (.inr (congrArg some hna)))
      · rw [hused, update_of_ne (Ne.symm hxa), update_of_ne (Ne.symm hna)]
        have hold : h.isUsed x = true ∨ h.isUsed (h.block.next x) = true := by simpa using s.apart x hx
        exact hold.imp_right .inl

theorem blocks_nodup (s : Shape A h bs fs p) : bs.Nodup := (nodup_append.mp s.blocks.ring.nodup).1

theorem next_ne (s : Shape A h bs fs p) (ha : a ∈ bs) : a ≠ h.block.next a := by
  have hs := s.blocks.next_spaced ha
  unfold Spaced memheapSize at hs
  omega

theorem mergeRight (s : Shape A h bs fs p) (ha : a ∈ bs) (hkeep : h.isUsed a = true ∨ p = some a)
    (hx : h.isUsed (h.block.next a) = false) (hp : p ≠ some (h.block.next a)) :
    h.block.next a ∈ fs ∧
      Shape A (h.mergeBehind a) (bs.erase (h.block.next a)) (fs.erase (h.block.next a)) p := by
  have hmem : h.block.next a ∈ bs := s.blocks.mem_of_unused (s.blocks.next_mem ha) hx
  have hfree : h.block.next a ∈ fs := (s.mem_free _ hp).mpr ⟨hmem, hx⟩
  refine ⟨hfree, (s.blocks.merge ha hmem).frame _ h.availableSize h.maxUsedSize, s.ring_remove hfree,
    fun x hxp => ?_, fun x hxp => ?_, fun x hxb => ?_⟩
  · rw [s.nodup.mem_erase_iff, s.blocks_nodup.mem_erase_iff, s.mem_free x hxp, and_assoc]
    rfl
  · obtain ⟨hxb, hxu⟩ := s.pending x hxp
    exact ⟨s.blocks_nodup.mem_erase_iff.mpr ⟨fun he => hp (he ▸ hxp), hxb⟩, hxu⟩
  · obtain ⟨-, hxb⟩ := s.blocks_nodup.mem_erase_iff.mp hxb
    obtain rfl | hxa := eq_or_ne x a
    · exact hkeep.imp_right (fun hk => .inr (.inl hk))
    · have hnext : (h.block.join a (h.block.next (h.block.next a))).next x = h.block.next x := update_of_ne hxa ..
      change _ ∨ h.isUsed ((h.block.join a _).next x) = true ∨ _ ∨ p = some ((h.block.join a _).next x)
      rw [hnext]
      exact s.apart x hxb

section

variable {q : ℕ} (s : Shape A h bs fs (some q)) (hq : q ∉ fs)

include s hq

theorem mergeLeft (hu : h.isUsed (h.block.prev q) = false) : h.block.prev q ∈ fs ∧
      Shape A (h.joinBlocks (h.block.prev q) (h.block.next q)) (bs.erase q) fs (some (h.block.prev q)) := by
  obtain ⟨hqb, -⟩ := s.pending q rfl
  obtain ⟨hmem, hnext⟩ := s.blocks.prev_mem hqb
  generalize h.block.prev q = a at hu hmem hnext ⊢
  have ha : a ∈ bs := s.blocks.mem_of_unused hmem hu
  have hne : a ≠ q := hnext ▸ s.next_ne ha
  have hfree : a ∈ fs := (s.mem_free a (by simpa using Ne.symm hne)).mpr ⟨ha, hu⟩
  have hblocks := s.blocks.merge ha (hnext.symm ▸ hqb)
  rw [hnext] at hblocks
  refine ⟨hfree, hblocks, s.ring, fun x hxa => ?_, fun x hxa => ?_, fun x hxb => ?_⟩
  · rw [s.blocks_nodup.mem_erase_iff]
    obtain rfl | hxq := eq_or_ne x q
    · simp [hq]
    · rw [s.mem_free x (by simpa using Ne.symm hxq)]
      simp only [hxq, ne_eq, not_false_eq_true, true_and]
      rfl
  · obtain rfl : a = x := some.inj hxa
    exact ⟨s.blocks_nodup.mem_erase_iff.mpr ⟨hne, ha⟩, hu⟩
  · obtain ⟨hxq, hxb⟩ := s.blocks_nodup.mem_erase_iff.mp hxb
    by_cases hxa : x = a
    · exact .inr (.inr (.inl (congrArg some hxa.symm)))
    · have hjoin : (h.block.join a (h.block.next q)).next x = h.block.next x := update_of_ne hxa ..
      have hnq : h.block.next x ≠ q := by
        intro he
        exact hxa (s.blocks.ring.next_inj (mem_append_left _ hxb) hmem (he.trans hnext.symm))
      change _ ∨ h.isUsed ((h.block.join a _).next x) = true ∨ _
      rw [hjoin]
      obtain hold | hold | hold | hold := s.apart x hxb
      · exact .inl hold
      · exact .inr (.inl hold)
      · exact absurd (some.inj hold).symm hxq
      · exact absurd (some.inj hold).symm hnq

theorem list : Shape A (h.insertFree q) bs (q :: fs) (some q) := by
  refine ⟨s.blocks.frame _ h.availableSize h.maxUsedSize, s.ring_insert (s.pending q rfl).1 hq, fun x hx => ?_,
    s.pending, s.apart⟩
  have hxq : x ≠ q := fun he => hx (congrArg some he.symm)
  rw [mem_cons, or_iff_right hxq]
  exact s.mem_free x hx

end

theorem settle {q : ℕ} (s : Shape A h bs fs (some q)) (hq : q ∈ fs) (hprev : h.isUsed (h.block.prev q) = true)
    (hnext : h.isUsed (h.block.next q) = true) : Shape A h bs fs none := by
  refine ⟨s.blocks, s.ring, fun x _ => ?_, fun x hx => by simp at hx, fun x hx => ?_⟩
  · obtain rfl | hxq := eq_or_ne x q
    · exact iff_of_true hq (s.pending x rfl)
    · exact s.mem_free x (by simpa using Ne.symm hxq)
  · obtain hold | hold | hold | hold := s.apart x hx
    · exact .inl hold
    · exact .inr (.inl hold)
    · exact .inr (.inl (some.inj hold ▸ hnext))
    · have hprevx := s.blocks.prev_next hx
      rw [← some.inj hold] at hprevx
      exact .inl (hprevx ▸ hprev)

theorem split (s : Shape A h bs fs none) (ha : a ∈ bs) (han : Spaced a n) (hn : Spaced n (h.block.next a)) :
    n ∉ bs ++ [A.tail] ∧ ∃ bs', Shape A (h.splitBlock a n) bs' fs (some n) ∧ ∀ x, x ∈ bs' ↔ x = n ∨
    x ∈ bs := by
  obtain ⟨hnew, bs', hblocks, hmem⟩ := s.blocks.split ha han hn
  have hnb : n ∉ bs := fun hnb => hnew (mem_append_left _ hnb)
  have hused := h.isUsed_splitBlock a n
  refine ⟨hnew, bs', ⟨hblocks, s.ring, fun x hx => ?_, fun x hx => ?_, fun x hx => ?_⟩, hmem⟩
  · have hxn : x ≠ n := fun he => hx (congrArg some he.symm)
    rw [hused, update_of_ne hxn, hmem, or_iff_right hxn]
    exact s.mem_free x (by simp)
  · obtain rfl : n = x := some.inj hx
    exact ⟨(hmem n).mpr (.inl rfl), by rw [hused, update_self]⟩
  · obtain rfl | hxb := (hmem x).mp hx
    · exact .inr (.inr (.inl rfl))
    · have hxn : x ≠ n := fun he => hnb (he ▸ hxb)
      by_cases hxa : x = a
      · rw [hxa, h.next_splitBlock_self]
        exact .inr (.inr (.inr rfl))
      · have hnext := h.next_splitBlock_of_ne hxa hxn
        have hnn : h.block.next x ≠ n := fun he => hnew (he ▸ s.blocks.next_mem hxb)
        rw [hused, hnext, update_of_ne hxn, update_of_ne hnn]
        have hold : h.isUsed x = true ∨ h.isUsed (h.block.next x) = true := by simpa using s.apart x hxb
        exact hold.imp_right .inl

theorem take (s : Shape A h bs fs p) (hx : x ∈ fs) (hp : p ≠ some x) :
    Shape A (h.takeBlock x) bs (fs.erase x) p := by
  have hused := h.isUsed_takeBlock x
  have hxb := (s.of_mem_free hx).1
  have hne : x ≠ A.freeHeader := fun he => (nodup_cons.mp s.ring.nodup).1 (he ▸ hx)
  have hout : x ∉ A.freeHeader :: fs.erase x := not_mem_cons_of_ne_of_not_mem hne s.nodup.not_mem_erase
  refine ⟨((s.blocks.frame _ h.availableSize h.maxUsedSize).mark hxb (h.mask_markUsed x)),
    (s.ring_remove hx).set_of_notMem hout null null, fun y hy => ?_, fun y hy => ?_, fun y hy => ?_⟩
  · rw [s.nodup.mem_erase_iff, s.mem_free y hy, hused]
    by_cases hyx : y = x
    · simp [hyx]
    · rw [update_of_ne hyx]
      simp only [hyx, ne_eq, not_false_eq_true, true_and]
  · have hyx : y ≠ x := fun he => hp (he ▸ hy)
    rw [hused, update_of_ne hyx]
    exact s.pending y hy
  · have hmono : ∀ z, h.isUsed z = true → (h.takeBlock x).isUsed z = true := by
      intro z hz
      rw [hused]
      by_cases hzx : z = x
      · rw [hzx, update_self]
      · rw [update_of_ne hzx]
        exact hz
    obtain hold | hold | hold := s.apart y hy
    · exact .inl (hmono y hold)
    · exact .inr (.inl (hmono _ hold))
    · exact .inr (.inr hold)

end Shape

end RtThread
