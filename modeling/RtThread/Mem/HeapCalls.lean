import RtThread.Mem.HeapShape

namespace RtThread

open Function List Memheap

structure Layout (A : HeapArea) (h : Memheap) (bs fs : List ℕ) : Prop where
  shape : Shape A h bs fs none
  available : h.availableSize = (fs.map h.memItemSize).sum

def UsedBlock (h : Memheap) (bs : List ℕ) (x : ℕ) : Prop := x ∈ bs ∧ h.isUsed x = true

variable {h' : Memheap} {bs' : List ℕ} {size newsize : ℕ} {h : Memheap}

theorem memItemSize_congr {a : ℕ} (hn : h'.block.next a = h.block.next a) : h'.memItemSize a = h.memItemSize a := by
  rw [memItemSize, hn, memItemSize]

theorem memItemSize_frame (hb : h'.block = h.block) : h'.memItemSize = h.memItemSize :=
  funext (fun _ => memItemSize_congr (by rw [hb]))

theorem sum_memItemSize_congr {l : List ℕ} (hn : ∀ a ∈ l, h'.block.next a = h.block.next a) :
    (l.map h'.memItemSize).sum = (l.map h.memItemSize).sum := by
  rw [map_congr_left (fun a ha => memItemSize_congr (hn a ha))]

def Counted (h : Memheap) (fs : List ℕ) (q : ℕ) : Prop :=
  h.availableSize = ((fs.erase q).map h.memItemSize).sum + h.memItemSize q

variable {A : HeapArea} {h : Memheap} {bs fs : List ℕ} {p : Option ℕ} {a q n : ℕ}

theorem Shape.counted_lt (s : Shape A h bs fs (some q)) :
    ((fs.erase q).map h.memItemSize).sum + h.memItemSize q < 2 ^ 32 := by
  have hnodup : (q :: fs.erase q).Nodup := nodup_cons.mpr ⟨s.nodup.not_mem_erase, s.nodup.erase q⟩
  have hsub : q :: fs.erase q ⊆ bs := by
    intro x hx
    obtain rfl | hx := mem_cons.mp hx
    · exact (s.pending x rfl).1
    · exact (s.of_mem_free (mem_of_mem_erase hx)).1
  have hsum := s.blocks.sum_le hnodup hsub
  have htail := s.blocks.tail_lt
  rw [map_cons, sum_cons] at hsum
  omega

theorem Shape.finish (s : Shape A h bs fs (some q)) (hq : q ∉ fs) (hprev : h.isUsed (h.block.prev q) = true)
    (hnext : h.isUsed (h.block.next q) = true) : Shape A (h.insertFree q) bs (q :: fs) none :=
  (s.list hq).settle mem_cons_self hprev hnext

theorem Shape.next_used (s : Shape A h bs fs p) (ha : a ∈ bs) (hu : h.isUsed a = false) (hp : p ≠ some a)
    (hpn : p ≠ some (h.block.next a)) : h.isUsed (h.block.next a) = true := by
  have hold := s.apart a ha
  simp only [hu, hp, hpn, Bool.false_eq_true, or_false, false_or] at hold
  exact hold

theorem usedBlock_congr (hu : h'.isUsed = h.isUsed) {x : ℕ} : UsedBlock h' bs x ↔ UsedBlock h bs x := by
  rw [UsedBlock, hu, UsedBlock]

theorem usedBlock_erase (s : Shape A h bs fs p) (hu : h.isUsed a = false) {x : ℕ} :
    UsedBlock h (bs.erase a) x ↔ UsedBlock h bs x := by
  unfold UsedBlock
  rw [s.blocks_nodup.mem_erase_iff, and_assoc, and_iff_right_of_imp]
  rintro ⟨-, hx⟩ rfl
  rw [hu] at hx
  exact absurd hx (by simp)

theorem size_merged (hb : Blocks A h bs) (hb' : Blocks A h' bs') (ha : a ∈ bs)
    (ha' : a ∈ bs') (hnext : h.block.next a ∈ bs) (hn : h'.block.next a = h.block.next (h.block.next a)) :
    h'.memItemSize a = h.memItemSize a + memheapSize + h.memItemSize (h.block.next a) := by
  have hold := (hb.memItemSize_spec ha).1
  have hbehind := (hb.memItemSize_spec hnext).1
  have hnew := (hb'.memItemSize_spec ha').1
  omega

theorem sum_erase_congr {c : ℕ} (hn : h'.block.next = update h.block.next q c)
    (hf : fs.Nodup) : ((fs.erase q).map h'.memItemSize).sum = ((fs.erase q).map h.memItemSize).sum := by
  refine sum_memItemSize_congr (fun a ha => ?_)
  rw [hn, update_of_ne (hf.mem_erase_iff.mp ha).1]

theorem Counted.mergeRight (s : Shape A h bs fs (some q))
    (s' : Shape A h' bs' (fs.erase (h.block.next q)) (some q)) (hfree : h.block.next q ∈ fs)
    (hn : h'.block.next = update h.block.next q (h.block.next (h.block.next q)))
    (hc : Counted h fs q) (ha : h'.availableSize = add32 h.availableSize memheapSize) :
    Counted h' (fs.erase (h.block.next q)) q := by
  have hq := (s.pending q rfl).1
  have hne : h.block.next q ≠ q := (s.next_ne hq).symm
  have hsize := size_merged s.blocks s'.blocks hq (s'.pending q rfl).1 (s.of_mem_free hfree).1
    (by rw [hn, update_self])
  have hrest := sum_map_erase h.memItemSize ((mem_erase_of_ne hne).mpr hfree : _ ∈ fs.erase q)
  rw [erase_comm] at hrest
  have hsum := sum_erase_congr hn (s.nodup.erase (h.block.next q))
  have hlt := s'.counted_lt
  unfold Counted at hc ⊢
  rw [ha, add32_eq (by omega)]
  omega

theorem Counted.mergeLeft (s : Shape A h bs fs (some q)) (hq : q ∉ fs)
    (s' : Shape A h' bs' fs (some (h.block.prev q))) (hfree : h.block.prev q ∈ fs)
    (hn : h'.block.next = update h.block.next (h.block.prev q) (h.block.next q))
    (hc : Counted h fs q) (ha : h'.availableSize = add32 h.availableSize memheapSize) :
    Counted h' fs (h.block.prev q) := by
  have hqb := (s.pending q rfl).1
  have hnext := (s.blocks.prev_mem hqb).2
  have hsize := size_merged s.blocks s'.blocks (s.of_mem_free hfree).1 (s'.pending _ rfl).1
    (hnext.symm ▸ hqb) (by rw [hn, update_self, hnext])
  rw [hnext] at hsize
  have hrest := sum_map_erase h.memItemSize hfree
  have hsum := sum_erase_congr hn s.nodup
  have hlt := s'.counted_lt
  unfold Counted at hc ⊢
  rw [erase_of_not_mem hq] at hc
  rw [ha, add32_eq (by omega)]
  omega

theorem Shape.mergeBehind_pending (s : Shape A h bs fs (some q)) (hu : h.isUsed (h.block.next q) = false) :
    h.block.next q ∈ fs ∧ q ≠ h.block.next q ∧
      Shape A (h.mergeBehind q) (bs.erase (h.block.next q)) (fs.erase (h.block.next q)) (some q) ∧
      (h.mergeBehind q).block.prev q = h.block.prev q ∧ h.isUsed ((h.mergeBehind q).block.next q) = true := by
  have hq := (s.pending q rfl).1
  have hmem : h.block.next q ∈ bs := s.blocks.mem_of_unused (s.blocks.next_mem hq) hu
  have hne : q ≠ h.block.next q := s.next_ne hq
  have hne' : q ≠ h.block.next (h.block.next q) := by
    have := s.blocks.next_spaced hq
    have := s.blocks.next_spaced hmem
    unfold Spaced memheapSize at *
    omega
  obtain ⟨hfree, hs⟩ := s.mergeRight hq (.inr rfl) hu (by simpa using hne)
  refine ⟨hfree, hne, hs, update_of_ne hne' .., ?_⟩
  have hnext : (h.mergeBehind q).block.next q = h.block.next (h.block.next q) := update_self ..
  rw [hnext]
  exact s.next_used hmem hu (by simpa using hne) (by simpa using hne')

theorem mergeNext_spec (s : Shape A h bs fs (some q)) (hc : Counted h fs q) :
    ∃ bs' fs', Shape A (mergeNext h q) bs' fs' (some q) ∧ Counted (mergeNext h q) fs' q ∧
      (q ∈ fs' ↔ q ∈ fs) ∧ (mergeNext h q).isUsed = h.isUsed ∧
      (mergeNext h q).block.prev q = h.block.prev q ∧ h.isUsed ((mergeNext h q).block.next q) = true ∧
      (∀ x, UsedBlock (mergeNext h q) bs' x ↔ UsedBlock h bs x) ∧
      (∀ x, x ≠ q → (mergeNext h q).block.next x = h.block.next x) ∧ bs' ⊆ bs := by
  unfold mergeNext
  by_cases hu : h.isUsed (h.block.next q) = true
  · rw [if_pos hu]
    exact ⟨bs, fs, s, hc, Iff.rfl, rfl, rfl, hu, fun x => Iff.rfl, fun x _ => rfl, List.Subset.refl bs⟩
  · rw [if_neg hu]
    rw [Bool.not_eq_true] at hu
    obtain ⟨hfree, hne, hs, hprev, hnext⟩ := s.mergeBehind_pending hu
    have hs' := hs.setAvailable (add32 h.availableSize memheapSize)
    have hused : ((h.setAvailable (add32 h.availableSize memheapSize)).mergeBehind q).isUsed = h.isUsed := by
      simp only [isUsed_mergeBehind, isUsed_setAvailable]
    exact ⟨_, _, hs', Counted.mergeRight s hs' hfree rfl hc rfl, by rw [mem_erase_of_ne hne], hused, hprev, hnext,
      fun x => (usedBlock_congr hused).trans (usedBlock_erase s hu), fun x hx => update_of_ne hx ..,
      erase_subset⟩

theorem Layout.of_counted (s : Shape A h bs fs none) (hq : q ∈ fs) (hc : Counted h fs q) : Layout A h bs fs := by
  refine ⟨s, ?_⟩
  rw [hc, ← sum_map_erase h.memItemSize hq, add_comm]

theorem Shape.prev_prev_used (s : Shape A h bs fs (some q)) (hu : h.isUsed (h.block.prev q) = false) :
    h.isUsed (h.block.prev (h.block.prev q)) = true := by
  have hq := (s.pending q rfl).1
  obtain ⟨hmem, hnext⟩ := s.blocks.prev_mem hq
  generalize h.block.prev q = a at hu hmem hnext ⊢
  have ha := s.blocks.mem_of_unused hmem hu
  obtain ⟨hmem', hnext'⟩ := s.blocks.prev_mem ha
  generalize h.block.prev a = b at hmem' hnext' ⊢
  by_contra hb
  rw [Bool.not_eq_true] at hb
  have hbb := s.blocks.mem_of_unused hmem' hb
  have h₁ := s.blocks.next_spaced ha
  have h₂ := s.blocks.next_spaced hbb
  unfold Spaced memheapSize at h₁ h₂
  have hused := s.next_used hbb hb (by simp; omega) (by rw [hnext']; simp; omega)
  rw [hnext', hu] at hused
  exact absurd hused (by simp)

theorem coalesce_spec (s : Shape A h bs fs (some q)) (hq : q ∉ fs) (hc : Counted h fs q) :
    ∃ bs' fs', Layout A (coalesce h q) bs' fs' ∧ (∀ x, UsedBlock (coalesce h q) bs' x ↔ UsedBlock h bs x) ∧
      ∀ x, UsedBlock h bs x → (coalesce h q).memItemSize x = h.memItemSize x := by
  have hkeep : ∀ x, UsedBlock h bs x → ∀ y, h.isUsed y = false → x ≠ y :=
    fun x hx y hy he => Bool.false_ne_true (hy.symm.trans (he ▸ hx.2))
  have hqu := (s.pending q rfl).2
  unfold coalesce
  by_cases hu : h.isUsed (h.block.prev q) = true
  · rw [if_pos hu]
    obtain ⟨bs', fs', s', hc', hfree, hused, hprev, hnext, hblocks, hlinks, -⟩ := mergeNext_spec s hc
    have hq' : q ∉ fs' := fun hq' => hq (hfree.mp hq')
    have hs := s'.finish hq' (by rw [hused, hprev, hu]) (by rw [hused, hnext])
    refine ⟨bs', q :: fs', Layout.of_counted hs mem_cons_self ?_, hblocks,
      fun x hx => memItemSize_congr (hlinks x (hkeep x hx q hqu))⟩
    unfold Counted at hc' ⊢
    rw [erase_of_not_mem hq'] at hc'
    rwa [erase_cons_head]
  · rw [if_neg hu]
    rw [Bool.not_eq_true] at hu
    -- from here on the pending block is the one on the left, which stays in the free list
    have hprev := s.prev_prev_used hu
    obtain ⟨hleft, hs⟩ := s.mergeLeft hq hu
    have hs' := hs.setAvailable (add32 h.availableSize memheapSize)
    have hc' := Counted.mergeLeft s hq hs' hleft rfl hc rfl
    obtain ⟨bs', fs', s'', hc'', hfree, hused, hprev', hnext, hblocks, hlinks, -⟩ := mergeNext_spec hs' hc'
    have hkept : (h.block.join (h.block.prev q) (h.block.next q)).prev (h.block.prev q) =
        h.block.prev (h.block.prev q) := by
      refine update_of_ne ?_ ..
      have hq := (s.pending q rfl).1
      have hleft := s.blocks.next_spaced (s.of_mem_free hleft).1
      have hright := s.blocks.next_spaced hq
      rw [(s.blocks.prev_mem hq).2] at hleft
      unfold Spaced memheapSize at hleft hright
      omega
    have hs := s''.settle (hfree.mpr hleft) (by rw [hused, hprev']; exact hkept.symm ▸ hprev) (by rw [hused, hnext])
    refine ⟨bs', fs', Layout.of_counted hs (hfree.mpr hleft) hc'',
      fun x => (hblocks x).trans (usedBlock_erase s hqu), fun x hx => memItemSize_congr ?_⟩
    have hxl := hkeep x hx _ hu
    exact (hlinks x hxl).trans (update_of_ne hxl ..)

section

variable (L : Layout A h bs fs) (ha : UsedBlock h bs a)

include L ha

theorem Layout.release :
    Shape A ((h.markFreed a).setAvailable (add32 h.availableSize (h.memItemSize a))) bs fs (some a) ∧
      Counted ((h.markFreed a).setAvailable (add32 h.availableSize (h.memItemSize a))) fs a := by
  have s := (L.shape.release ha.1).setAvailable (add32 h.availableSize (h.memItemSize a))
  refine ⟨s, ?_⟩
  have hsize : ((h.markFreed a).setAvailable (add32 h.availableSize (h.memItemSize a))).memItemSize =
      h.memItemSize := memItemSize_frame rfl
  have hlt := s.counted_lt
  have havailable : h.availableSize = ((fs.erase a).map h.memItemSize).sum := by
    rw [erase_of_not_mem (L.shape.free_notMem ha.2), L.available]
  unfold Counted
  rw [hsize, ← havailable] at hlt ⊢
  exact add32_eq hlt

theorem freeBlock_spec : ∃ bs' fs', Layout A (freeBlock h a) bs' fs' ∧
      (∀ x, UsedBlock (freeBlock h a) bs' x ↔ UsedBlock h bs x ∧ x ≠ a) ∧
      ∀ x, UsedBlock h bs x → x ≠ a → (freeBlock h a).memItemSize x = h.memItemSize x := by
  obtain ⟨s, hc⟩ := L.release ha
  obtain ⟨bs', fs', hL, hblocks, hkept⟩ := coalesce_spec s (L.shape.free_notMem ha.2) hc
  have hused : ∀ x, UsedBlock (h.markFreed a) bs x ↔ UsedBlock h bs x ∧ x ≠ a := by
    intro x
    unfold UsedBlock
    rw [h.isUsed_markFreed]
    by_cases hx : x = a <;> simp [hx]
  exact ⟨bs', fs', hL, fun x => (hblocks x).trans (hused x), fun x hx hxa => hkept x ((hused x).mpr ⟨hx, hxa⟩)⟩

theorem memheapFree_spec : ∃ h' bs' fs', memheapFree h (a + memheapSize) = some h' ∧ Layout A h' bs' fs' ∧
      (∀ x, UsedBlock h' bs' x ↔ UsedBlock h bs x ∧ x ≠ a) ∧
      ∀ x, UsedBlock h bs x → x ≠ a → h'.memItemSize x = h.memItemSize x := by
  have hb := L.shape.blocks
  have hsub : sub32 (a + memheapSize) memheapSize = a := hb.sub32_eq_header ha.1
  have hself : a ∈ bs ++ [A.tail] := mem_append_left _ ha.1
  obtain ⟨bs', fs', hL, hx, hkept⟩ := freeBlock_spec L ha
  refine ⟨freeBlock h a, bs', fs', ?_, hL, hx, hkept⟩
  rw [memheapFree, if_neg (add_memheapSize_ne_null a), hsub]
  exact if_pos ⟨(hb.item a hself).1, ha.2, (hb.item _ (hb.next_mem ha.1)).1, (hb.item a hself).2⟩

end

theorem searchFree_spec (s : Shape A h bs fs none) {l₁ l₂ : List ℕ} (hl : fs = l₁ ++ l₂)
    {c freeSize fuel : ℕ}
    (hc : (l₂ ++ [A.freeHeader]).head? = some c) (hsize : freeSize < size) (hfuel : l₂.length + 2 ≤ fuel) :
    ∃ r, searchFree h size fuel c freeSize = some r ∧
      (r.2 < size ∧ (∀ b ∈ l₂, h.memItemSize b < size) ∨
        r.1 ∈ l₂ ∧ r.2 = h.memItemSize r.1 ∧ size ≤ r.2) := by
  -- `l₂` is what is left of the list from `c` on; the round that finds a block stays at it and needs one more
  induction l₂ generalizing l₁ c freeSize fuel with
  | nil =>
    obtain ⟨fuel, rfl⟩ : ∃ n, fuel = n + 1 := ⟨fuel - 1, by omega⟩
    obtain rfl : A.freeHeader = c := by simpa using hc
    refine ⟨(A.freeHeader, freeSize), ?_, .inl ⟨hsize, by simp⟩⟩
    rw [searchFree, if_neg (by simp [s.blocks.freeList])]
  | cons b l₂ ih =>
    obtain ⟨fuel, rfl⟩ : ∃ n, fuel = n + 2 := ⟨fuel - 2, by omega⟩
    obtain rfl : b = c := by simpa using hc
    have hb : b ≠ h.freeList := by
      intro he
      exact s.blocks.freeHeader_notMem (s.blocks.freeList ▸ he ▸ (s.of_mem_free (hl ▸ by simp)).1)
    rw [searchFree, if_pos ⟨hb, hsize⟩]
    by_cases hsmall : h.memItemSize b < size
    · simp only [hsmall, if_true]
      obtain ⟨d, l, hd⟩ : ∃ d l, l₂ ++ [A.freeHeader] = d :: l := exists_cons_of_ne_nil (by simp)
      have hround : A.freeHeader :: (fs ++ [A.freeHeader]) = (A.freeHeader :: l₁) ++ b :: d :: l := by
        rw [hl, List.append_assoc, List.cons_append, hd, List.cons_append]
      have hfuel' : l₂.length + 2 ≤ fuel + 1 := by
        rw [length_cons] at hfuel
        omega
      rw [(s.ring.link_around hround).1]
      obtain ⟨r, hr, hout⟩ := ih (hl.trans (append_cons l₁ b l₂)) (by rw [hd, head?_cons]) hsmall hfuel'
      exact ⟨r, hr, hout.imp (fun hr => ⟨hr.1, forall_mem_cons.mpr ⟨hsmall, hr.2⟩⟩)
        (fun hr => ⟨mem_cons_of_mem b hr.1, hr.2⟩)⟩
    · simp only [hsmall, if_false]
      refine ⟨(b, h.memItemSize b), ?_, .inr ⟨mem_cons_self, rfl, by omega⟩⟩
      rw [searchFree, if_neg (by simp; omega)]

theorem Layout.available_erase (L : Layout A h bs fs) (ha : a ∈ fs) :
    h.memItemSize a + ((fs.erase a).map h.memItemSize).sum = h.availableSize := by
  rw [L.available, sum_map_erase h.memItemSize ha]

theorem Layout.available_lt (L : Layout A h bs fs) : h.availableSize < 2 ^ 32 := by
  have hsum := L.shape.blocks.sum_le L.shape.nodup (fun x hx => (L.shape.of_mem_free hx).1)
  have htail := L.shape.blocks.tail_lt
  rw [L.available]
  omega

structure SplitOff (A : HeapArea) (h : Memheap) (bs fs : List ℕ) (a n : ℕ) (bs' : List ℕ) : Prop where
  shape : Shape A (h.splitBlock a n) bs' fs (some n)
  new : n ∉ bs
  mem : ∀ x, x ∈ bs' ↔ x = n ∨ x ∈ bs
  next : (h.splitBlock a n).block.next n = h.block.next a
  prev : (h.splitBlock a n).block.prev n = a
  size : n + memheapSize + (h.splitBlock a n).memItemSize n = h.block.next a
  others : ∀ x ∈ bs, x ≠ a → (h.splitBlock a n).memItemSize x = h.memItemSize x
  used : (h.splitBlock a n).isUsed = update h.isUsed n false

theorem Shape.splitOff (s : Shape A h bs fs none) (ha : a ∈ bs) (han : Spaced a n) (hn : Spaced n (h.block.next a)) :
    ∃ bs', SplitOff A h bs fs a n bs' := by
  obtain ⟨hnew, bs', s', hmem⟩ := s.split ha han hn
  have hnb : n ∉ bs := fun hn => hnew (mem_append_left _ hn)
  have hnext := h.next_splitBlock_new (fun he => hnb (he ▸ ha) : n ≠ a)
  have hprev := h.prev_splitBlock_new (fun he => hnew (he ▸ s.blocks.next_mem ha) : n ≠ h.block.next a)
  refine ⟨bs', s', hnb, hmem, hnext, hprev, ?_, fun x hx hxa => ?_, h.isUsed_splitBlock a n⟩
  · rw [← (s'.blocks.memItemSize_spec (s'.pending n rfl).1).1, hnext]
  · exact memItemSize_congr (h.next_splitBlock_of_ne hxa (fun he => hnb (he ▸ hx)))

section

variable (o : SplitOff A h bs fs a n bs')

include o

theorem SplitOff.size_front (ha : a ∈ bs) : a + memheapSize + (h.splitBlock a n).memItemSize a = n := by
  rw [← (o.shape.blocks.memItemSize_spec ((o.mem a).mpr (.inr ha))).1, h.next_splitBlock_self]

theorem SplitOff.sum_free {l : List ℕ} (hl : ∀ x ∈ l, x ∈ bs ∧ x ≠ a) :
    (l.map (h.splitBlock a n).memItemSize).sum = (l.map h.memItemSize).sum := by
  rw [map_congr_left (fun x hx => o.others x (hl x hx).1 (hl x hx).2)]

theorem SplitOff.notMem (s : Shape A h bs fs none) : n ∉ fs :=
  fun hn => o.new (s.of_mem_free hn).1

theorem SplitOff.next_ne : h.block.next a ≠ n := by
  have := o.shape.next_ne (o.shape.pending n rfl).1
  rw [o.next] at this
  exact this.symm

end

theorem allocBlock_whole (L : Layout A h bs fs) (ha : a ∈ fs) :
    Layout A ((h.takeAvailable (sub32 h.availableSize (h.memItemSize a))).takeBlock a) bs (fs.erase a) := by
  have hrest := L.available_erase ha
  refine ⟨(L.shape.takeAvailable _).take ha (by simp), ?_⟩
  have hsize : ((h.takeAvailable (sub32 h.availableSize (h.memItemSize a))).takeBlock a).memItemSize =
      h.memItemSize := memItemSize_frame rfl
  change sub32 h.availableSize (h.memItemSize a) = _
  rw [hsize, sub32_eq (by omega) L.available_lt]
  omega

theorem allocBlock_split (L : Layout A h bs fs) (ha : a ∈ fs) (hmin : memheapMiniAlloc ≤ size)
    (hroom : size + memheapSize + memheapMiniAlloc ≤ h.memItemSize a) (hn : n = a + size + memheapSize) :
    ∃ bs', SplitOff A h bs fs a n bs' ∧
      Layout A ((((h.splitBlock a n).takeBlock a).insertFree n).takeAvailable
        (sub32 (sub32 h.availableSize size) memheapSize)) bs' (n :: fs.erase a) := by
  obtain ⟨hab, hau⟩ := L.shape.of_mem_free ha
  have hnext := (L.shape.blocks.memItemSize_spec hab).1
  have hrest := L.available_erase ha
  have hlt := L.available_lt
  obtain ⟨bs', o⟩ := L.shape.splitOff hab (n := n) (by unfold Spaced; omega) (by unfold Spaced; omega)
  have hna : n ≠ a := fun he => o.new (he ▸ hab)
  have hnf : n ∉ fs.erase a := fun h => o.notMem L.shape (mem_of_mem_erase h)
  have hused := (h.splitBlock a n).isUsed_takeBlock a
  rw [o.used] at hused
  have hprev : ((h.splitBlock a n).takeBlock a).block.prev n = a := o.prev
  have hbehind : ((h.splitBlock a n).takeBlock a).block.next n = h.block.next a := o.next
  have s := (o.shape.take ha (by simpa using hna)).finish hnf (by rw [hprev, hused, update_self]) (by
    rw [hbehind, hused, update_of_ne (L.shape.next_ne hab).symm, update_of_ne o.next_ne]
    exact L.shape.next_used hab hau (by simp) (by simp))
  refine ⟨bs', o, s.takeAvailable _, ?_⟩
  have hsize : ((((h.splitBlock a n).takeBlock a).insertFree n).takeAvailable
      (sub32 (sub32 h.availableSize size) memheapSize)).memItemSize = (h.splitBlock a n).memItemSize :=
    memItemSize_frame rfl
  have hsum := o.sum_free (fun x hx => ⟨(L.shape.of_mem_free (mem_of_mem_erase hx)).1,
    (L.shape.nodup.mem_erase_iff.mp hx).1⟩ : ∀ x ∈ fs.erase a, _)
  have hsplit := o.size
  change sub32 (sub32 h.availableSize size) memheapSize = _
  rw [hsize, map_cons, sum_cons, sub32_eq (by omega : size ≤ h.availableSize) hlt, sub32_eq (by omega) (by omega)]
  omega

theorem SplitOff.usedBlock (o : SplitOff A h bs fs a n bs')
    (hu : h'.isUsed = (h.splitBlock a n).isUsed) {x : ℕ} : UsedBlock h' bs' x ↔ UsedBlock h bs x := by
  unfold UsedBlock
  rw [hu, o.used, o.mem]
  obtain rfl | hx := eq_or_ne x n
  · simp [o.new]
  · rw [update_of_ne hx, or_iff_right hx]

theorem usedBlock_take (ha : a ∈ bs) (hu : h'.isUsed = update h.isUsed a true) {x : ℕ} :
    UsedBlock h' bs x ↔ UsedBlock h bs x ∨ x = a := by
  unfold UsedBlock
  rw [hu]
  obtain rfl | hx := eq_or_ne x a
  · simp [ha]
  · simp [hx]

theorem takeBlock_insertFree (h : Memheap) (a n available : ℕ) :
    ((((h.removeFree a).clearFree a).insertFree n).takeAvailable available).markUsed a =
      ((h.takeBlock a).insertFree n).takeAvailable available := rfl

theorem allocBlock_spec (L : Layout A h bs fs) (ha : a ∈ fs) (hmin : memheapMiniAlloc ≤ size)
    (hsize : size ≤ h.memItemSize a) :
    ∃ bs' fs', Layout A (allocBlock h a (h.memItemSize a) size) bs' fs' ∧
      (∀ x, UsedBlock (allocBlock h a (h.memItemSize a) size) bs' x ↔ UsedBlock h bs x ∨ x = a) ∧
      size ≤ (allocBlock h a (h.memItemSize a) size).memItemSize a ∧
      ∀ x ∈ bs, x ≠ a → (allocBlock h a (h.memItemSize a) size).memItemSize x = h.memItemSize x := by
  have hab := (L.shape.of_mem_free ha).1
  have hnext := (L.shape.blocks.memItemSize_spec hab).1
  have hbound := L.shape.blocks.add_size_le (L.shape.blocks.next_mem hab)
  have hsum : size + memheapSize + memheapMiniAlloc < 2 ^ 32 := by
    unfold memheapSize memheapMiniAlloc at *
    omega
  unfold allocBlock
  rw [add32_add32_eq hsum]
  by_cases hroom : size + memheapSize + memheapMiniAlloc ≤ h.memItemSize a
  · rw [if_pos hroom, add32_add32_eq (by unfold memheapSize memheapMiniAlloc at *; omega)]
    obtain ⟨bs', o, hL⟩ := allocBlock_split L ha hmin hroom rfl
    simp only [takeBlock_insertFree, availableSize_insertFree, availableSize_clearFree,
      availableSize_removeFree, availableSize_splitBlock]
    have hsizes : ((((h.splitBlock a (a + size + memheapSize)).takeBlock a).insertFree
        (a + size + memheapSize)).takeAvailable (sub32 (sub32 h.availableSize size) memheapSize)).memItemSize =
        (h.splitBlock a (a + size + memheapSize)).memItemSize := memItemSize_frame rfl
    have hfront := o.size_front hab
    refine ⟨bs', _, hL, fun x => (usedBlock_take ((o.mem a).mpr (.inr hab)) ?_).trans
      (or_congr_left (o.usedBlock rfl)),
      by rw [hsizes]; omega, fun x hx hxa => by rw [hsizes, o.others x hx hxa]⟩
    rw [isUsed_takeAvailable, isUsed_insertFree, isUsed_takeBlock]
  · rw [if_neg hroom]
    have hsizes : ((h.takeAvailable (sub32 h.availableSize (h.memItemSize a))).takeBlock a).memItemSize =
        h.memItemSize := memItemSize_frame rfl
    refine ⟨bs, _, allocBlock_whole L ha, fun x => usedBlock_take hab ?_, hsizes.symm ▸ hsize,
      fun x _ _ => congrFun hsizes x⟩
    exact (h.takeAvailable (sub32 h.availableSize (h.memItemSize a))).isUsed_takeBlock a

theorem requestSize_lt (size : ℕ) : requestSize size < 2 ^ 32 := by
  unfold requestSize add32 memheapMiniAlloc
  dsimp only
  split_ifs <;> omega

theorem requestSize_eq (h : size + 3 < 2 ^ 32) : requestSize size = max ((size + 3) / 4 * 4) memheapMiniAlloc := by
  unfold requestSize
  rw [add32_eq h]
  dsimp only
  split_ifs <;> omega

theorem requestSize_idem (size : ℕ) : requestSize (requestSize size) = requestSize size := by
  have hlt := requestSize_lt size
  have hfour : requestSize size % 4 = 0 ∧ memheapMiniAlloc ≤ requestSize size := by
    unfold requestSize memheapMiniAlloc
    dsimp only
    split_ifs <;> omega
  rw [requestSize_eq (by omega)]
  omega

theorem miniAlloc_le_requestSize (size : ℕ) : memheapMiniAlloc ≤ requestSize size := by
  unfold requestSize
  dsimp only
  split_ifs
  · exact le_rfl
  · omega

theorem Shape.length_free_lt (s : Shape A h bs fs none) : fs.length + 2 ≤ h.poolSize := by
  have hsum := s.blocks.sum_le s.nodup (fun x hx => (s.of_mem_free hx).1)
  have hlen : (fs.map h.memItemSize).length ≤ (fs.map h.memItemSize).sum := by
    refine length_le_sum_of_one_le _ (fun i hi => ?_)
    obtain ⟨x, hx, rfl⟩ := List.mem_map.mp hi
    have := (s.blocks.memItemSize_spec (s.of_mem_free hx).1).2
    unfold memheapMiniAlloc at this
    omega
  have htail := A.tail_spec
  rw [length_map] at hlen
  rw [s.blocks.poolSize]
  unfold memheapSize at htail
  omega

theorem Layout.search (L : Layout A h bs fs) (size : ℕ) :
    ∃ r, searchFree h (requestSize size) h.poolSize (h.free.next h.freeList) 0 = some r ∧
      (r.2 < requestSize size ∧ (∀ b ∈ fs, h.memItemSize b < requestSize size) ∨
        r.1 ∈ fs ∧ r.2 = h.memItemSize r.1 ∧ requestSize size ≤ r.2) := by
  have hmin := miniAlloc_le_requestSize size
  obtain ⟨c, l, hc⟩ : ∃ c l, fs ++ [A.freeHeader] = c :: l := exists_cons_of_ne_nil (by simp)
  have hfirst : h.free.next h.freeList = c := by
    rw [L.shape.blocks.freeList]
    exact (L.shape.ring.link_around (by rw [hc]; rfl : _ = [] ++ A.freeHeader :: c :: l)).1
  rw [hfirst]
  exact searchFree_spec L.shape (nil_append fs).symm (by rw [hc, head?_cons])
    (by unfold memheapMiniAlloc at hmin; omega) L.shape.length_free_lt

theorem Layout.payload_addr (L : Layout A h bs fs) (ha : a ∈ fs) : add32 a memheapSize = a + memheapSize := by
  have hbound := L.shape.blocks.le_tail (L.shape.of_mem_free ha).1
  have htail := L.shape.blocks.tail_lt
  unfold Spaced at hbound
  exact add32_eq (by omega)

structure Allotted (A : HeapArea) (h : Memheap) (bs fs : List ℕ) (size a : ℕ) (h' : Memheap) (bs' fs' : List ℕ) :
    Prop where
  layout : Layout A h' bs' fs'
  free : a ∈ fs
  used : ∀ x, UsedBlock h' bs' x ↔ UsedBlock h bs x ∨ x = a
  room : requestSize size ≤ h'.memItemSize a
  enough : requestSize size ≤ h.memItemSize a ∧ requestSize size < h.availableSize
  kept : ∀ x, UsedBlock h bs x → h'.memItemSize x = h.memItemSize x

theorem Allotted.unused {fs' : List ℕ} (e : Allotted A h bs fs size a h' bs' fs')
    (L : Layout A h bs fs) : ¬ UsedBlock h bs a :=
  fun hu => Bool.false_ne_true ((L.shape.of_mem_free e.free).2.symm.trans hu.2)

theorem memheapAlloc_spec (L : Layout A h bs fs) (size : ℕ) :
    memheapAlloc h size = some (h, null) ∧
        (h.availableSize ≤ requestSize size ∨ ∀ b ∈ fs, h.memItemSize b < requestSize size) ∨
      ∃ h' a bs' fs', memheapAlloc h size = some (h', a + memheapSize) ∧ Allotted A h bs fs size a h' bs' fs' := by
  unfold memheapAlloc
  dsimp only
  by_cases havailable : requestSize size < h.availableSize
  · rw [if_pos havailable]
    obtain ⟨r, hr, ⟨hsmall, hnone⟩ | ⟨hmem, hsize, hlarge⟩⟩ := L.search size
    · rw [hr, Option.map_some]
      exact .inl ⟨by rw [if_neg (by omega)], .inr hnone⟩
    · have hau := (L.shape.of_mem_free hmem).2
      obtain ⟨bs', fs', hL, hused, hroom, hkept⟩ :=
        allocBlock_spec L hmem (miniAlloc_le_requestSize size) (hsize ▸ hlarge)
      rw [hr, Option.map_some, if_pos hlarge, hsize, L.payload_addr hmem]
      refine .inr ⟨_, r.1, bs', fs', rfl, hL, hmem, hused, hroom, ⟨hsize ▸ hlarge, havailable⟩,
        fun x hx => hkept x hx.1 ?_⟩
      exact fun he => Bool.false_ne_true (hau.symm.trans (he ▸ hx.2))
  · exact .inl ⟨if_neg havailable, .inl (by omega)⟩

def Memheap.absorbNext (h : Memheap) (a available : ℕ) : Memheap :=
  (h.mergeBehind a).takeAvailable available

theorem growBlock_eq (L : Layout A h bs fs) (ha : a ∈ bs) (hn : a + memheapSize + newsize < 2 ^ 32) :
    growBlock h (a + memheapSize) a (h.block.next a) (h.memItemSize a) newsize =
      ((h.absorbNext a (sub32 h.availableSize (sub32 newsize (h.memItemSize a)))).splitBlock a
        (a + memheapSize + newsize)).insertFree (a + memheapSize + newsize) := by
  unfold growBlock
  rw [add32_eq hn]
  change ((((h.takeAvailable _).removeFree _).joinBlocks (h.block.prev (h.block.next a)) _).splitBlock a
    _).insertFree _ = _
  rw [L.shape.blocks.prev_next ha]
  rfl

theorem growBlock_spec (L : Layout A h bs fs) (ha : UsedBlock h bs a)
    (hx : h.isUsed (h.block.next a) = false) (hgrow : h.memItemSize a < newsize)
    (hroom : newsize + memheapMiniAlloc < h.memItemSize (h.block.next a) + h.memItemSize a) :
    ∃ h' bs' fs', growBlock h (a + memheapSize) a (h.block.next a) (h.memItemSize a) newsize = h' ∧
      Layout A h' bs' fs' ∧ (∀ x, UsedBlock h' bs' x ↔ UsedBlock h bs x) ∧ h'.memItemSize a = newsize ∧
      ∀ x, UsedBlock h bs x → x ≠ a → h'.memItemSize x = h.memItemSize x := by
  have hb := L.shape.blocks
  have hmem : h.block.next a ∈ bs := hb.mem_of_unused (hb.next_mem ha.1) hx
  have hnext := (hb.memItemSize_spec ha.1)
  have hbehind := (hb.memItemSize_spec hmem).1
  have hbound := hb.add_size_le (hb.next_mem hmem)
  rw [growBlock_eq L ha.1 (by omega)]
  obtain ⟨hfree, s⟩ := L.shape.mergeRight ha.1 (.inl ha.2) hx (by simp)
  -- the block takes in its neighbour and is split again further behind
  obtain ⟨v, hv⟩ : ∃ v, v = sub32 h.availableSize (sub32 newsize (h.memItemSize a)) := ⟨_, rfl⟩
  obtain ⟨n, hn⟩ : ∃ n, n = a + memheapSize + newsize := ⟨_, rfl⟩
  rw [← hv, ← hn]
  have s₁ : Shape A (h.absorbNext a v) _ _ none := s.takeAvailable v
  have hab : a ∈ bs.erase (h.block.next a) := L.shape.blocks_nodup.mem_erase_iff.mpr ⟨L.shape.next_ne ha.1, ha.1⟩
  have hmerged : (h.absorbNext a v).block.next a = h.block.next (h.block.next a) := update_self ..
  obtain ⟨bs', o⟩ := s₁.splitOff hab (n := n) (by unfold Spaced; omega) (by rw [hmerged]; unfold Spaced; omega)
  have hna : n ≠ a := fun he => o.new (he ▸ hab)
  have hend := o.next_ne
  rw [hmerged] at hend
  have s₂ := o.shape.finish (o.notMem s₁) (by
    rw [o.prev, o.used, update_of_ne hna.symm]
    exact ha.2) (by
    rw [o.next, hmerged, o.used, update_of_ne hend]
    exact L.shape.next_used hmem hx (by simp) (by simp))
  have hsize : (((h.absorbNext a v).splitBlock a n).insertFree n).memItemSize =
      ((h.absorbNext a v).splitBlock a n).memItemSize := memItemSize_frame rfl
  have hfront := o.size_front hab
  refine ⟨_, bs', _, rfl, ⟨s₂, ?_⟩, fun x => (o.usedBlock rfl).trans (usedBlock_erase L.shape hx),
    by rw [hsize]; omega, fun x hxu hxa => ?_⟩
  rotate_left
  · have hxb := ((usedBlock_erase L.shape hx).mpr hxu).1
    rw [hsize, o.others x hxb hxa]
    exact memItemSize_congr (update_of_ne hxa ..)
  have hrest := L.available_erase hfree
  have hlt := L.available_lt
  have hne : ∀ x ∈ fs.erase (h.block.next a), x ≠ a :=
    fun x hx he => L.shape.free_notMem ha.2 (he ▸ mem_of_mem_erase hx)
  have hsum := o.sum_free (fun x hx => ⟨(s₁.of_mem_free hx).1, hne x hx⟩)
  have hsum' : ((fs.erase (h.block.next a)).map (h.absorbNext a v).memItemSize).sum =
      ((fs.erase (h.block.next a)).map h.memItemSize).sum :=
    sum_memItemSize_congr (fun x hx => update_of_ne (hne x hx) ..)
  have hsplit := o.size
  rw [sub32_eq (by omega : h.memItemSize a ≤ newsize) (by omega), sub32_eq (by omega) hlt] at hv
  change v = _
  rw [hsize, map_cons, sum_cons, hsum]
  omega

theorem memItemSize_insertFree (h : Memheap) (a : ℕ) : (h.insertFree a).memItemSize = h.memItemSize :=
  memItemSize_frame rfl

section

variable (s : Shape A h bs fs (some q)) (hq : q ∉ fs) (hprev : h.isUsed (h.block.prev q) = true)

include s hq hprev

theorem Layout.of_finish
    (hnext : h.isUsed (h.block.next q) = true) (havailable : h.availableSize = (fs.map h.memItemSize).sum) :
    Layout A ((h.insertFree q).setAvailable (add32 (h.insertFree q).availableSize ((h.insertFree q).memItemSize q)))
      bs (q :: fs) := by
  have hlt := s.counted_lt
  rw [erase_of_not_mem hq, ← havailable] at hlt
  refine ⟨(s.finish hq hprev hnext).setAvailable _, ?_⟩
  have hsize : ((h.insertFree q).setAvailable (add32 (h.insertFree q).availableSize
      ((h.insertFree q).memItemSize q))).memItemSize = h.memItemSize := memItemSize_frame rfl
  rw [hsize, map_cons, sum_cons, ← havailable]
  change add32 (h.insertFree q).availableSize ((h.insertFree q).memItemSize q) = _
  rw [availableSize_insertFree, memItemSize_insertFree, add32_eq hlt, add_comm]

theorem Layout.of_mergeBehind (hu : h.isUsed (h.block.next q) = false)
    (havailable : h.availableSize = (fs.map h.memItemSize).sum)
    (hh : h' = (h.setAvailable (sub32 h.availableSize (h.memItemSize (h.block.next q)))).mergeBehind q) :
    Layout A ((h'.insertFree q).setAvailable (add32 (h'.insertFree q).availableSize ((h'.insertFree q).memItemSize q)))
      (bs.erase (h.block.next q)) (q :: fs.erase (h.block.next q)) := by
  obtain ⟨hfree, -, hs, hprev', hnext'⟩ := s.mergeBehind_pending hu
  have hs' : Shape A h' (bs.erase (h.block.next q)) (fs.erase (h.block.next q)) (some q) := by
    rw [hh]
    exact hs.setAvailable _
  have hblock : h'.block = (h.mergeBehind q).block := hh ▸ rfl
  have hused : h'.isUsed = h.isUsed := hh ▸ rfl
  have hav : h'.availableSize = sub32 h.availableSize (h.memItemSize (h.block.next q)) := hh ▸ rfl
  have hq' : q ∉ fs.erase (h.block.next q) := fun hq' => hq (mem_of_mem_erase hq')
  refine Layout.of_finish hs' hq' (by rw [hblock, hprev', hused, hprev]) (by rw [hblock, hused, hnext']) ?_
  have hlt : h.availableSize < 2 ^ 32 := by
    have := s.counted_lt
    rw [erase_of_not_mem hq] at this
    omega
  have hrest := sum_map_erase h.memItemSize hfree
  have hsum : ((fs.erase (h.block.next q)).map h'.memItemSize).sum =
      ((fs.erase (h.block.next q)).map h.memItemSize).sum := by
    refine sum_memItemSize_congr (fun x hx => ?_)
    rw [hblock]
    have hxq : x ≠ q := fun he => hq' (he ▸ hx)
    exact update_of_ne hxq ..
  rw [hav, sub32_eq (by omega) hlt]
  omega

end

theorem shrinkBlock_spec (L : Layout A h bs fs) (ha : UsedBlock h bs a)
    (hmin : memheapMiniAlloc ≤ newsize) (hroom : newsize + memheapSize + memheapMiniAlloc < h.memItemSize a) :
    ∃ h' bs' fs', shrinkBlock h a newsize = h' ∧ Layout A h' bs' fs' ∧
      (∀ x, UsedBlock h' bs' x ↔ UsedBlock h bs x) ∧ h'.memItemSize a = newsize ∧
      ∀ x, UsedBlock h bs x → x ≠ a → h'.memItemSize x = h.memItemSize x := by
  have hb := L.shape.blocks
  have hnext := (hb.memItemSize_spec ha.1).1
  have hbound := hb.add_size_le (hb.next_mem ha.1)
  obtain ⟨n, hn⟩ : ∃ n, n = a + newsize + memheapSize := ⟨_, rfl⟩
  have hnew : add32 (add32 a newsize) memheapSize = n := by
    rw [add32_add32_eq (by omega), hn]
  obtain ⟨bs', o⟩ := L.shape.splitOff ha.1 (n := n) (by unfold Spaced; omega) (by unfold Spaced; omega)
  have hna : n ≠ a := fun he => o.new (he ▸ ha.1)
  have haf := L.shape.free_notMem ha.2
  have hfront : (h.splitBlock a n).memItemSize a = newsize := by
    have := o.size_front ha.1
    omega
  have hsum : (h.splitBlock a n).availableSize = (fs.map (h.splitBlock a n).memItemSize).sum := by
    rw [availableSize_splitBlock, L.available,
      o.sum_free (fun x hx => ⟨(L.shape.of_mem_free hx).1, fun he => haf (he ▸ hx)⟩)]
  have hprev : (h.splitBlock a n).isUsed ((h.splitBlock a n).block.prev n) = true := by
    rw [o.prev, o.used, update_of_ne hna.symm]
    exact ha.2
  unfold shrinkBlock
  rw [hnew]
  dsimp only
  by_cases hu : (h.splitBlock a n).isUsed ((h.splitBlock a n).block.next n) = true
  · rw [if_pos hu]
    refine ⟨_, bs', n :: fs, rfl, Layout.of_finish o.shape (o.notMem L.shape) hprev hu hsum, fun x => o.usedBlock ?_,
      (memItemSize_congr rfl).trans hfront, fun x hx hxa => (memItemSize_congr rfl).trans (o.others x hx.1 hxa)⟩
    simp only [isUsed_setAvailable, isUsed_insertFree]
  · rw [if_neg hu]
    rw [Bool.not_eq_true] at hu
    have hL := Layout.of_mergeBehind o.shape (o.notMem L.shape) hprev hu hsum rfl
    have hbehind : ∀ x, x ≠ n →
        ((h.splitBlock a n).mergeBehind n).block.next x = (h.splitBlock a n).block.next x :=
      fun x hx => update_of_ne hx ..
    refine ⟨_, _, _, rfl, hL, fun x => (usedBlock_congr ?_).trans
      ((usedBlock_erase o.shape hu).trans (o.usedBlock rfl)),
      (memItemSize_congr (hbehind a hna.symm)).trans hfront, fun x hx hxa =>
        (memItemSize_congr (hbehind x (fun he => o.new (he ▸ hx.1)))).trans (o.others x hx.1 hxa)⟩
    simp only [isUsed_setAvailable, isUsed_insertFree, isUsed_mergeBehind]

def GrowFits (h : Memheap) (a newsize : ℕ) : Prop :=
  h.isUsed (h.block.next a) = false → requestSize newsize + memheapMiniAlloc < 2 ^ 32

def Replaces (h h' : Memheap) (bs bs' : List ℕ) (a p : ℕ) : Prop :=
  p = null ∧ (∀ x, UsedBlock h' bs' x ↔ UsedBlock h bs x) ∨
    ∃ b, p = b + memheapSize ∧ (b = a ∨ ¬ UsedBlock h bs b) ∧
      ∀ x, UsedBlock h' bs' x ↔ UsedBlock h bs x ∧ x ≠ a ∨ x = b

theorem replaces_self (ha : UsedBlock h bs a)
    (hu : ∀ x, UsedBlock h' bs' x ↔ UsedBlock h bs x) : Replaces h h' bs bs' a (a + memheapSize) := by
  refine .inr ⟨a, rfl, .inl rfl, fun x => (hu x).trans ⟨fun hx => ?_, ?_⟩⟩
  · by_cases hxa : x = a
    · exact .inr hxa
    · exact .inl ⟨hx, hxa⟩
  · rintro (hx | rfl)
    · exact hx.1
    · exact ha

structure Resized (h h' : Memheap) (bs : List ℕ) (a p size : ℕ) : Prop where
  failed : p = null → h' = h
  room : p ≠ null → size ≤ h'.memItemSize (p - memheapSize)
  kept : ∀ x, UsedBlock h bs x → x ≠ a → h'.memItemSize x = h.memItemSize x

theorem resized_self (hroom : size ≤ h'.memItemSize a)
    (hkept : ∀ x, UsedBlock h bs x → x ≠ a → h'.memItemSize x = h.memItemSize x) :
    Resized h h' bs a (a + memheapSize) size :=
  ⟨fun hp => absurd hp (add_memheapSize_ne_null a), fun _ => by rwa [Nat.add_sub_cancel], hkept⟩

section

variable (L : Layout A h bs fs) (ha : UsedBlock h bs a)

include L ha

theorem moveBlock_spec (newsize : ℕ) :
    ∃ h' p bs' fs', moveBlock h (a + memheapSize) newsize = some (h', p) ∧ Layout A h' bs' fs' ∧
      Replaces h h' bs bs' a p ∧ Resized h h' bs a p (requestSize newsize) := by
  obtain ⟨halloc, -⟩ | ⟨h₁, b, bs₁, fs₁, halloc, e⟩ := memheapAlloc_spec L newsize
  · refine ⟨h, null, bs, fs, ?_, L, .inl ⟨rfl, fun x => Iff.rfl⟩, fun _ => rfl, fun hp => absurd rfl hp,
      fun x _ _ => rfl⟩
    simp [moveBlock, halloc]
  · have hb := e.unused L
    have hba : b ≠ a := fun he => hb (he ▸ ha)
    obtain ⟨h₂, bs₂, fs₂, hfree, L₂, hused₂, hkept₂⟩ :=
      memheapFree_spec e.layout ((e.used a).mpr (.inl ha))
    refine ⟨h₂, b + memheapSize, bs₂, fs₂, ?_, L₂, .inr ⟨b, rfl, .inr hb, fun x => ?_⟩,
      fun hp => absurd hp (add_memheapSize_ne_null b), fun _ => ?_, fun x hx hxa => ?_⟩
    · simp [moveBlock, halloc, add_memheapSize_ne_null b, hfree]
    · rw [hused₂, e.used, or_and_right]
      exact or_congr_right ⟨And.left, fun hx => ⟨hx, hx ▸ hba⟩⟩
    · rw [Nat.add_sub_cancel, hkept₂ b ((e.used b).mpr (.inr rfl)) hba]
      exact e.room
    · rw [hkept₂ x ((e.used x).mpr (.inl hx)) hxa, e.kept x hx]

theorem memheapRealloc_spec (hz : newsize ≠ 0) (hfits : GrowFits h a newsize) :
    ∃ h' p bs' fs', memheapRealloc h (a + memheapSize) newsize = some (h', p) ∧ Layout A h' bs' fs' ∧
      Replaces h h' bs bs' a p ∧ Resized h h' bs a p (requestSize newsize) := by
  have hb := L.shape.blocks
  have hmin := miniAlloc_le_requestSize newsize
  have hsub : sub32 (a + memheapSize) memheapSize = a := hb.sub32_eq_header ha.1
  have hlt : a < h.block.next a := by
    have hs := hb.next_spaced ha.1
    unfold Spaced memheapSize at hs
    omega
  have hnext := (hb.memItemSize_spec ha.1).1
  have hbound := hb.add_size_le (hb.next_mem ha.1)
  unfold memheapRealloc
  rw [if_neg hz, if_neg (add_memheapSize_ne_null a), hsub]
  by_cases hgrow : h.memItemSize a < requestSize newsize
  · rw [if_pos hgrow, if_pos hlt]
    by_cases hroom : h.isUsed (h.block.next a) = false ∧
        add32 (requestSize newsize) memheapMiniAlloc < add32 (h.memItemSize (h.block.next a)) (h.memItemSize a)
    · rw [if_pos hroom]
      obtain ⟨hu, hroom⟩ := hroom
      have hmem := hb.mem_of_unused (hb.next_mem ha.1) hu
      have hbehind := (hb.memItemSize_spec hmem).1
      have hbound' := hb.add_size_le (hb.next_mem hmem)
      have hsum : h.memItemSize (h.block.next a) + h.memItemSize a < 2 ^ 32 := by
        unfold memheapSize at *
        omega
      rw [add32_eq (hfits hu), add32_eq hsum] at hroom
      obtain ⟨h', bs', fs', hgrown, L', hused, hsize, hkept⟩ := growBlock_spec L ha hu hgrow hroom
      exact ⟨_, _, bs', fs', by rw [hgrown], L', replaces_self ha hused, resized_self hsize.ge hkept⟩
    · rw [if_neg hroom]
      have hmove := moveBlock_spec L ha (requestSize newsize)
      rwa [requestSize_idem] at hmove
  · rw [if_neg hgrow]
    have hsum : requestSize newsize + memheapSize + memheapMiniAlloc < 2 ^ 32 := by
      unfold memheapSize memheapMiniAlloc at *
      omega
    rw [add32_add32_eq hsum]
    by_cases hkeep : h.memItemSize a ≤ requestSize newsize + memheapSize + memheapMiniAlloc
    · rw [if_pos hkeep]
      exact ⟨h, _, bs, fs, rfl, L, replaces_self ha (fun x => Iff.rfl), resized_self (by omega) (fun x _ _ => rfl)⟩
    · rw [if_neg hkeep]
      obtain ⟨h', bs', fs', hshrunk, L', hused, hsize, hkept⟩ := shrinkBlock_spec L ha hmin (by omega)
      exact ⟨_, _, bs', fs', by rw [hshrunk], L', replaces_self ha hused, resized_self hsize.ge hkept⟩

theorem memheapRealloc_wraps (hz : newsize ≠ 0) (hfits : ¬ GrowFits h a newsize) :
    ∃ h', memheapRealloc h (a + memheapSize) newsize = some (h', a + memheapSize) ∧
      h'.block.next a < a + memheapSize := by
  have hb := L.shape.blocks
  obtain ⟨hu, hwrap⟩ : h.isUsed (h.block.next a) = false ∧ 2 ^ 32 ≤ requestSize newsize + memheapMiniAlloc := by
    simpa [GrowFits] using hfits
  have hmem := hb.mem_of_unused (hb.next_mem ha.1) hu
  have hlt := requestSize_lt newsize
  obtain ⟨hnext, -⟩ := hb.memItemSize_spec ha.1
  obtain ⟨hbehind, hsize'⟩ := hb.memItemSize_spec hmem
  have hbound := hb.add_size_le (hb.next_mem hmem)
  have hroom : add32 (requestSize newsize) memheapMiniAlloc < add32 (h.memItemSize (h.block.next a))
    (h.memItemSize a) := by
    unfold add32 memheapSize memheapMiniAlloc at *
    omega
  have hnew : add32 (a + memheapSize) (requestSize newsize) < a + memheapSize := by
    unfold add32 memheapSize memheapMiniAlloc at *
    omega
  refine ⟨growBlock h (a + memheapSize) a (h.block.next a) (h.memItemSize a) (requestSize newsize), ?_, ?_⟩
  · unfold memheapRealloc
    rw [if_neg hz, if_neg (add_memheapSize_ne_null a), hb.sub32_eq_header ha.1]
    rw [if_pos (by unfold memheapSize memheapMiniAlloc at *; omega), if_pos (by unfold memheapSize at *; omega),
      if_pos ⟨hu, hroom⟩]
  · have hself : (growBlock h (a + memheapSize) a (h.block.next a) (h.memItemSize a)
      (requestSize newsize)).block.next a =
        add32 (a + memheapSize) (requestSize newsize) := update_self ..
    rwa [hself]

end

section Init

variable (A : HeapArea)

theorem HeapArea.available_eq : sub32 A.poolSize (2 * memheapSize) = A.poolSize - 2 * memheapSize := by
  obtain ⟨hroom, hend, hsize⟩ := A.tail_spec
  have hlt := A.size_lt
  exact sub32_eq (by omega) (by omega)

theorem HeapArea.tail_eq : add32 (add32 A.startAddr (sub32 A.poolSize (2 * memheapSize))) memheapSize = A.tail := by
  obtain ⟨hroom, hend, hsize⟩ := A.tail_spec
  have hbound := A.bound
  rw [A.available_eq]
  unfold memheapSize memheapMiniAlloc at *
  rw [add32_add32_eq (by omega)]
  omega

theorem HeapArea.distinct : A.tail ≠ A.startAddr ∧ A.tail ≠ A.freeHeader ∧ A.startAddr ≠ A.freeHeader := by
  obtain ⟨hroom, hend, hsize⟩ := A.tail_spec
  have hapart := A.apart
  unfold memheapSize memheapMiniAlloc at *
  omega

variable {h : Memheap} (hheader : h.freeHeader = A.freeHeader)

include hheader

theorem memheapInit_block : (memheapInit h A.startAddr A.size).block =
    ((h.block.set A.freeHeader null null).set A.startAddr A.tail A.tail).set A.tail A.startAddr A.startAddr := by
  rw [← hheader, ← A.tail_eq]
  rfl

theorem memheapInit_free : (memheapInit h A.startAddr A.size).free =
    (((h.free.set A.freeHeader A.freeHeader A.freeHeader).set A.startAddr A.startAddr A.startAddr).insertAfter
      A.freeHeader A.startAddr).set A.tail null null := by
  rw [← hheader, ← A.tail_eq]
  rfl

theorem memheapInit_magic : (memheapInit h A.startAddr A.size).magic =
    update (update (update h.magic A.freeHeader memheapMagic) A.startAddr memheapMagic)
      A.tail (memheapMagic ||| memheapUsed) := by
  rw [← hheader, ← A.tail_eq]
  rfl

theorem memheapInit_poolPtr : (memheapInit h A.startAddr A.size).poolPtr =
    update (update (update h.poolPtr A.freeHeader h.self) A.startAddr h.self) A.tail h.self := by
  rw [← hheader, ← A.tail_eq]
  rfl

theorem memheapInit_unused : (memheapInit h A.startAddr A.size).isUsed A.startAddr = false := by
  rw [isUsed, memheapInit_magic A hheader, update_of_ne A.distinct.1.symm, update_self]
  decide

theorem memheapInit_blocks (hself : h.self = A.self) : Blocks A (memheapInit h A.startAddr A.size) [A.startAddr] := by
  have hne := A.distinct.1
  refine ⟨hself, rfl, rfl, hheader, Linked.ring_cons.mpr ⟨?_, by simp [hne.symm]⟩, rfl, ?_, fun a ha => ?_, ?_⟩
  · rw [memheapInit_block A hheader]
    simp [Linked.Link, Linked.set, hne.symm]
  · exact isChain_cons_cons.mpr ⟨A.tail_spec.1, isChain_singleton _⟩
  · rw [memheapInit_magic A hheader, memheapInit_poolPtr A hheader]
    obtain rfl | rfl : a = A.startAddr ∨ a = A.tail := by simpa using ha
    · rw [update_of_ne hne.symm, update_self, update_of_ne hne.symm, update_self]
      exact ⟨by decide, rfl⟩
    · rw [update_self, update_self]
      exact ⟨by decide, rfl⟩
  · rw [isUsed, memheapInit_magic A hheader, update_self]
    decide

theorem memheapInit_layout (hself : h.self = A.self) :
    Layout A (memheapInit h A.startAddr A.size) [A.startAddr] [A.startAddr] := by
  have hb := memheapInit_blocks A hheader hself
  have hunused := memheapInit_unused A hheader
  obtain ⟨hts, htf, hsf⟩ := A.distinct
  have hnext : (memheapInit h A.startAddr A.size).block.next A.startAddr = A.tail := (Linked.ring_head_link hb.ring).1
  have hring : (memheapInit h A.startAddr A.size).free.Ring [A.freeHeader, A.startAddr] := by
    rw [memheapInit_free A hheader]
    have hheader : (h.free.set A.freeHeader A.freeHeader A.freeHeader).Ring [A.freeHeader] :=
      Linked.ring_cons.mpr ⟨by simp [Linked.Link, Linked.set], by simp⟩
    have hinsert := (hheader.set_of_notMem (by simpa using hsf) A.startAddr A.startAddr).insertAfter_cons
      (by simpa using hsf)
    exact hinsert.set_of_notMem (by simp [htf, hts]) null null
  refine ⟨⟨hb, hring, fun a _ => ?_, fun a ha => by simp at ha, fun a ha => ?_⟩, ?_⟩
  · rw [mem_singleton]
    exact ⟨fun he => ⟨he, he ▸ hunused⟩, And.left⟩
  · rw [mem_singleton.mp ha, hnext]
    exact .inr (.inl hb.tail_used)
  · have hsize := (hb.memItemSize_spec (mem_singleton_self A.startAddr)).1
    have hend := A.tail_spec.2.1
    have havailable : (memheapInit h A.startAddr A.size).availableSize = A.poolSize - 2 * memheapSize := A.available_eq
    rw [map_singleton, sum_singleton]
    omega

end Init

end RtThread
