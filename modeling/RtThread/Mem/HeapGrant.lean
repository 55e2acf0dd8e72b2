import RtThread.Mem.HeapRun

namespace RtThread

open Transition List Option

namespace Memheap

def items (h : Memheap) : Set ℕ := {a | ∃ k, a = h.block.next^[k] h.startAddr}

def freeItems (h : Memheap) : Set ℕ := {a | a ≠ h.freeList ∧ ∃ k, a = h.free.next^[k] h.freeList}

structure Grants (A : HeapArea) (h : Memheap) (q n : ℕ) : Prop where
  item : ∃ a ∈ h.items, q = a + memheapSize ∧ n ≤ h.memItemSize a
  inside : A.startAddr ≤ q ∧ q + n ≤ A.startAddr + A.poolSize
  headers : ∀ b ∈ insert h.freeList h.items, q + n ≤ b ∨ b + memheapSize ≤ q
  others : ∀ b ∈ h.items, q ≠ b + memheapSize → q + n ≤ b ∨ b + memheapSize + h.memItemSize b ≤ q

end Memheap

variable {A : HeapArea} {h : Memheap} {bs fs : List ℕ} {a q n : ℕ}

theorem Blocks.mem_items (hb : Blocks A h bs) : a ∈ h.items ↔ a ∈ bs ++ [A.tail] := by
  obtain ⟨rest, rfl⟩ : ∃ rest, bs = A.startAddr :: rest := head?_eq_some_iff.mp hb.first
  have hring := hb.ring
  rw [← hb.startAddr] at hring ⊢
  exact hring.mem_iff_iterate.symm

theorem Shape.mem_freeItems (s : Shape A h bs fs none) : a ∈ h.freeItems ↔ a ∈ fs := by
  have hring := s.ring
  rw [← s.blocks.freeList] at hring
  have hmem : a ∈ h.freeItems ↔ a ≠ h.freeList ∧ a ∈ h.freeList :: fs := and_congr_right fun _ =>
    hring.mem_iff_iterate.symm
  rw [hmem, mem_cons]
  constructor
  · rintro ⟨hne, ha⟩
    exact ha.resolve_left hne
  · exact fun ha => ⟨fun he => (nodup_cons.mp hring.nodup).1 (he ▸ ha), .inr ha⟩

theorem Shape.freeItems_eq_singleton (s : Shape A h bs fs none) : h.freeItems = {a} ↔ fs = [a] := by
  constructor
  · intro hone
    refine perm_singleton.mp ((perm_ext_iff_of_nodup s.nodup (nodup_singleton a)).mpr (fun x => ?_))
    rw [← s.mem_freeItems, hone, mem_singleton, Set.mem_singleton_iff]
  · rintro rfl
    ext x
    rw [s.mem_freeItems, mem_singleton, Set.mem_singleton_iff]

theorem Blocks.grants (hb : Blocks A h bs) (ha : a ∈ bs) (hn : n ≤ h.memItemSize a) :
    h.Grants A (a + memheapSize) n := by
  obtain ⟨-, htail, -⟩ := A.tail_spec
  have hstart := hb.start_le ha
  have hend := hb.le_tail ha
  have hnext := (hb.memItemSize_spec ha).1
  have hlast := hb.next_le ha (mem_append_right bs (mem_singleton_self A.tail))
    (by unfold Spaced memheapSize at hend; omega)
  have hbehind : ∀ b ∈ bs ++ [A.tail], a < b → a + memheapSize + n ≤ b := by
    intro b hbmem hab
    have := hb.next_le ha hbmem hab
    omega
  refine ⟨⟨a, hb.mem_items.mpr (mem_append_left _ ha), rfl, hn⟩,
    by omega, fun b hbmem => ?_, fun b hbmem hne => ?_⟩
  · obtain rfl | hbmem := Set.mem_insert_iff.mp hbmem
    · rw [hb.freeList]
      have hsize := A.tail_spec.2.2
      have hapart := A.apart
      omega
    · by_cases hab : a < b
      · exact .inl (hbehind b (hb.mem_items.mp hbmem) hab)
      · exact .inr (by omega)
  · have hmem := hb.mem_items.mp hbmem
    obtain hlt | rfl | hgt := lt_trichotomy a b
    · exact .inl (hbehind b hmem hlt)
    · exact absurd rfl hne
    · have hbs : b ∈ bs := by
        obtain hbs | hbt := mem_append.mp hmem
        · exact hbs
        · rw [mem_singleton.mp hbt] at hgt
          omega
      have hle := hb.next_le hbs (mem_append_left _ ha) hgt
      rw [(hb.memItemSize_spec hbs).1] at hle
      exact .inr (by omega)

theorem Memheap.Grants.le (hg : h.Grants A q n) : n + memheapSize ≤ 2 ^ 32 := by
  obtain ⟨a, -, rfl, -⟩ := hg.item
  have hinside := hg.inside.2
  have hbound := A.bound
  have hsize := A.tail_spec.2.2
  omega

theorem le_requestSize (hn : n ≤ 0xfffffffc) : n ≤ requestSize n := by
  rw [requestSize_eq (by omega)]
  omega

namespace HeapState

variable {contents : Memheap} {s : HeapState}

theorem sound_of_reachable (hs : Reachable step Fits (· = start A contents) s) : ∃ bs fs, s.Sound A bs fs := by
  refine hs.invariant (I := fun s => ∃ bs fs, s.Sound A bs fs) ?_ ?_
  · rintro s rfl
    exact ⟨_, _, start_sound A contents⟩
  · rintro s c t ⟨bs, fs, hs⟩ hfits hstep
    by_cases hc : s.Enabled c
    · obtain ⟨t', ht, hiff⟩ := step_sound_iff hs hc
      obtain rfl : t' = t := some.inj (ht.symm.trans hstep)
      exact hiff.mpr hfits
    · rw [step, if_neg hc] at hstep
      exact absurd hstep (by simp)

theorem alloc_grants_iff (hs : s.Sound A bs fs) {size : ℕ} (hle : requestSize size = requestSize n) {h' : Memheap}
    (hcall : memheapAlloc s.heap size = some (h', q)) (hq : q ≠ null) : h'.Grants A q n ↔ n ≤ 0xfffffffc := by
  constructor
  · intro hg
    have := hg.le
    unfold memheapSize at this
    omega
  · intro hn
    obtain ⟨halloc, -⟩ | ⟨h'', a, bs', fs', halloc, e⟩ := memheapAlloc_spec hs.layout size
    · exact absurd (congrArg Prod.snd (some.inj (hcall.symm.trans halloc))) hq
    · obtain ⟨rfl, rfl⟩ := Prod.mk.inj (some.inj (hcall.symm.trans halloc))
      have hroom := e.room
      rw [hle] at hroom
      exact e.layout.shape.blocks.grants ((e.used a).mpr (.inr rfl)).1 ((le_requestSize hn).trans hroom)

theorem realloc_grants (hs : s.Sound A bs fs) (ha : UsedBlock s.heap bs a) (hz : n ≠ 0) (hfits : GrowFits s.heap a n)
    {h' : Memheap} (hcall : memheapRealloc s.heap (a + memheapSize) n = some (h', q)) (hq : q ≠ null)
    (hn : n ≤ 0xfffffffc) : h'.Grants A q n := by
  obtain ⟨h'', p, bs', fs', hcall', L, hrep, hsize⟩ := memheapRealloc_spec hs.layout ha hz hfits
  obtain ⟨rfl, rfl⟩ := Prod.mk.inj (some.inj (hcall.symm.trans hcall'))
  obtain ⟨rfl, -⟩ | ⟨b, rfl, -, hused⟩ := hrep
  · exact absurd rfl hq
  · have hroom := hsize.room hq
    exact L.shape.blocks.grants ((hused b).mpr (.inr rfl)).1 ((le_requestSize hn).trans hroom)

theorem heap_grants_iff (hs : Reachable step Fits (· = start A contents) s) :
    (∀ (n : BitVec 32) h' q, memheapAlloc s.heap n.toNat = some (h', q) → q ≠ null →
      (h'.Grants A q n.toNat ↔ n.toNat ≤ 0xfffffffc)) ∧
    ∀ p (n : BitVec 32) h' q, p = null ∨ p ∈ s.live → n ≠ 0 →
    memheapRealloc s.heap p n.toNat = some (h', q) →
      q ≠ null → (h'.Grants A q n.toNat ↔ n.toNat ≤ 0xfffffffc ∧ s.Fits (.realloc p n)) := by
  obtain ⟨bs, fs, hs⟩ := sound_of_reachable hs
  refine ⟨fun n h' q hcall hq => alloc_grants_iff hs rfl hcall hq, fun p n h' q hp hz hcall hq => ?_⟩
  have hz' : n.toNat ≠ 0 := fun he => hz (BitVec.eq_of_toNat_eq he)
  obtain rfl | hmem := hp
  · -- without a block the call is an allocation of the rounded size
    rw [memheapRealloc, if_neg hz'] at hcall
    rw [alloc_grants_iff hs (requestSize_idem n.toNat) hcall hq]
    exact (and_iff_left (absurd rfl)).symm
  · obtain ⟨a, rfl, ha⟩ := (hs.live.mem p).mp hmem
    constructor
    · intro hg
      have hle := hg.le
      have hsize : requestSize n.toNat = max ((n.toNat + 3) / 4 * 4) memheapMiniAlloc :=
        requestSize_eq (by unfold memheapSize at hle; omega)
      unfold memheapSize memheapMiniAlloc at *
      refine ⟨by omega, fun _ _ _ => ?_⟩
      unfold memheapMiniAlloc
      omega
    · rintro ⟨hn, hfits⟩
      have hfits' := hfits (add_memheapSize_ne_null a) hz
      exact realloc_grants hs ha hz' hfits' hcall hq hn

theorem heap_grants_after_alloc : ∃ s, run step (start smallArea clearedMemory) [.alloc 64] = some s ∧
    (∃ h' q, memheapAlloc s.heap 16 = some (h', q) ∧ h'.Grants smallArea q 16) ∧
      ∃ h' q, memheapRealloc s.heap 4120 100 = some (h', q) ∧ h'.Grants smallArea q 100 := by
  obtain ⟨s, hs, hlive, hfits, ⟨⟨h₁, q₁⟩, halloc, hq₁⟩, ⟨h₂, q₂⟩, hrealloc, hq₂⟩ :
      ∃ s, run step (start smallArea clearedMemory) [.alloc 64] = some s ∧ 4120 ∈ s.live ∧
        (s.heap.isUsed (s.heap.block.next 4096) = false → requestSize 100 + memheapMiniAlloc < 2 ^ 32) ∧
        (∃ r, memheapAlloc s.heap 16 = some r ∧ r.2 ≠ null) ∧
        ∃ r, memheapRealloc s.heap 4120 100 = some r ∧ r.2 ≠ null := by decide +kernel
  have hreach : Reachable step Fits (· = start smallArea clearedMemory) s :=
    Reachable.of_run (.start rfl) (by exact fun t _ => ⟨trivial, trivial⟩) hs
  obtain ⟨hall, hre⟩ := heap_grants_iff hreach
  exact ⟨s, hs, ⟨h₁, q₁, halloc, (hall 16 h₁ q₁ halloc hq₁).mpr (by decide)⟩, h₂, q₂, hrealloc,
    (hre 4120 100 h₂ q₂ (.inr hlive) (by decide) hrealloc hq₂).mpr ⟨by decide, fun _ _ => hfits⟩⟩

theorem heap_grants_twelve_bytes : ∃ h', memheapAlloc
    (start smallArea clearedMemory).heap 0xfffffffd = some (h', 4120) ∧
    h'.memItemSize 4096 = 12 ∧ ¬ h'.Grants smallArea 4120 0xfffffffd := by
  obtain ⟨⟨h', q⟩, halloc, rfl, hsize⟩ :
    ∃ r, memheapAlloc (start smallArea clearedMemory).heap 0xfffffffd = some r ∧
      r.2 = 4120 ∧ r.1.memItemSize 4096 = 12 := by decide +kernel
  exact ⟨h', halloc, hsize, fun hg => absurd hg.le (by decide)⟩

def alignedSize (n : ℕ) : ℕ := max ((n + 3) / 4 * 4) memheapMiniAlloc

def AllocComplete (h : Memheap) (n : ℕ) : Prop :=
  ∀ h', memheapAlloc h n = some (h', null) → ∀ a ∈ h.freeItems, h.memItemSize a < alignedSize n

theorem eq_singleton_of_available (L : Layout A h bs fs) (ha : a ∈ fs) (hle : h.availableSize ≤ h.memItemSize a) :
    fs = [a] := by
  have hsum := L.available_erase ha
  have hnil : fs.erase a = [] := by
    refine eq_nil_iff_forall_not_mem.mpr (fun b hb => ?_)
    have hsize := (L.shape.blocks.memItemSize_spec (L.shape.of_mem_free (mem_of_mem_erase hb)).1).2
    have hmem := single_le_sum (fun _ _ => Nat.zero_le _) _ (mem_map_of_mem hb : h.memItemSize b ∈ _)
    unfold memheapMiniAlloc at hsize
    omega
  exact perm_singleton.mp ((perm_cons_erase ha).trans (by rw [hnil]))

theorem heap_alloc_complete_iff (hs : Reachable step Fits (· = start A contents) s) (hn : n ≤ s.heap.poolSize) :
    AllocComplete s.heap n ↔ ¬ ∃ a, s.heap.freeItems = {a} ∧ s.heap.memItemSize a = alignedSize n := by
  obtain ⟨bs, fs, hs⟩ := sound_of_reachable hs
  have L := hs.layout
  have hsize : requestSize n = alignedSize n := by
    rw [L.shape.blocks.poolSize] at hn
    have hlt := A.size_lt
    unfold HeapArea.poolSize at hn
    exact requestSize_eq (by omega)
  simp only [AllocComplete, L.shape.mem_freeItems, L.shape.freeItems_eq_singleton]
  have hspec := memheapAlloc_spec L n
  by_cases hsmall : ∀ b ∈ fs, s.heap.memItemSize b < alignedSize n
  · refine iff_of_true (fun h' _ => hsmall) ?_
    rintro ⟨a, rfl, ha⟩
    exact absurd (hsmall a (mem_singleton_self a)) (by omega)
  · obtain ⟨a, ha, hlarge⟩ : ∃ a ∈ fs, alignedSize n ≤ s.heap.memItemSize a := by simpa using hsmall
    obtain ⟨hnull, hfew | hnone⟩ | ⟨h', b, bs', fs', hcall, e⟩ := hspec
    · have hle := L.available_erase ha
      refine iff_of_false (fun hc => ?_) (not_not_intro ⟨a, eq_singleton_of_available L ha (by omega), by omega⟩)
      exact absurd (hc _ hnull a ha) (by omega)
    · exact absurd (hnone a ha) (by omega)
    · refine iff_of_true (fun h'' hc => ?_) ?_
      · exact absurd (congrArg Prod.snd (some.inj (hcall.symm.trans hc))) (add_memheapSize_ne_null b)
      · rintro ⟨c, rfl, hc⟩
        have hmore := e.enough.2
        rw [hsize, L.available, map_singleton, hc] at hmore
        exact absurd hmore (lt_irrefl _)

theorem heap_alloc_complete_sixteen :
    16 ≤ (start smallArea clearedMemory).heap.poolSize ∧ AllocComplete (start smallArea clearedMemory).heap 16 := by
  refine ⟨by decide, (heap_alloc_complete_iff (.start rfl) (by decide)).mpr ?_⟩
  rintro ⟨a, hone, ha⟩
  have hfs := (start_sound smallArea clearedMemory).layout.shape.freeItems_eq_singleton.mp hone
  obtain rfl : smallArea.startAddr = a := head_eq_of_cons_eq hfs
  exact absurd ha (by decide +kernel)

theorem heap_alloc_refuses_only_block :
    (∃ h', memheapAlloc (start smallArea clearedMemory).heap 208 = some (h', null)) ∧
      4096 ∈ (start smallArea clearedMemory).heap.freeItems ∧
      (start smallArea clearedMemory).heap.memItemSize 4096 = alignedSize 208 ∧
      ¬ AllocComplete (start smallArea clearedMemory).heap 208 := by
  have hsize : (start smallArea clearedMemory).heap.memItemSize 4096 = alignedSize 208 := by decide +kernel
  have hmem : 4096 ∈ (start smallArea clearedMemory).heap.freeItems := ⟨by decide, 1, by decide +kernel⟩
  obtain ⟨⟨h', q⟩, hcall, rfl⟩ :
      ∃ r, memheapAlloc (start smallArea clearedMemory).heap 208 = some r ∧ r.2 = null := by decide +kernel
  refine ⟨⟨h', hcall⟩, hmem, hsize, fun hc => ?_⟩
  exact absurd (hc h' hcall 4096 hmem) (by omega)

end HeapState

end RtThread
