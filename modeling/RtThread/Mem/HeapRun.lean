import RtThread.Lib.Transition
import RtThread.Mem.HeapCalls

namespace RtThread

open Transition List Option

inductive HeapCall
  | alloc (size : BitVec 32)
  | realloc (ptr : ℕ) (newsize : BitVec 32)
  | free (ptr : ℕ)
  deriving DecidableEq

structure HeapState where
  heap : Memheap
  live : List ℕ

namespace HeapState

def start (A : HeapArea) (contents : Memheap) : HeapState where
  heap := memheapInit { contents with self := A.self, freeHeader := A.freeHeader } A.startAddr A.size
  live := []

def Enabled (s : HeapState) : HeapCall → Prop
  | .alloc _ => True
  | .realloc ptr _ => ptr = null ∨ ptr ∈ s.live
  | .free ptr => ptr = null ∨ ptr ∈ s.live

instance (s : HeapState) : ∀ c, Decidable (s.Enabled c)
  | .alloc _ => isTrue trivial
  | .realloc _ _ | .free _ => instDecidableOr

def exec (s : HeapState) : HeapCall → Option HeapState
  | .alloc size => (memheapAlloc s.heap size.toNat).map
      (fun (h, p) => ⟨h, if p = null then s.live else p :: s.live⟩)
  | .realloc ptr newsize => (memheapRealloc s.heap ptr newsize.toNat).map (fun (h, p) =>
      ⟨h, if newsize = 0 then s.live.erase ptr else if p = null then s.live else p :: s.live.erase ptr⟩)
  | .free ptr => (memheapFree s.heap ptr).map (fun h => ⟨h, s.live.erase ptr⟩)

def step (s : HeapState) (c : HeapCall) : Option HeapState := if s.Enabled c then s.exec c else none

def Fits (s : HeapState) : HeapCall → Prop
  | .realloc ptr newsize => ptr ≠ null → newsize ≠ 0 → GrowFits s.heap (ptr - memheapSize) newsize.toNat
  | .alloc _ => True
  | .free _ => True

structure LivePointers (live : List ℕ) (U : ℕ → Prop) : Prop where
  nodup : live.Nodup
  mem : ∀ p, p ∈ live ↔ ∃ a, p = a + memheapSize ∧ U a

structure Sound (A : HeapArea) (s : HeapState) (bs fs : List ℕ) : Prop where
  layout : Layout A s.heap bs fs
  reached : bs ++ [A.tail] = List.iterate s.heap.block.next s.heap.startAddr (bs.length + 1)
  ends : A.tail + memheapSize = s.heap.startAddr + s.heap.poolSize ∧ s.heap.isUsed A.tail = true
  sized : ∀ a ∈ bs, s.heap.block.next a = a + memheapSize + s.heap.memItemSize a ∧
    memheapMiniAlloc ≤ s.heap.memItemSize a
  inverse : ∀ a ∈ bs ++ [A.tail], s.heap.block.prev (s.heap.block.next a) = a ∧
    s.heap.block.next (s.heap.block.prev a) = a
  listed : s.heap.freeList :: fs = List.iterate s.heap.free.next s.heap.freeList (fs.length + 1)
  unused : fs.Nodup ∧ ∀ a, a ∈ fs ↔ a ∈ bs ∧ s.heap.isUsed a = false
  apart : ∀ a ∈ bs, s.heap.isUsed a = false → s.heap.isUsed (s.heap.block.next a) = true
  available : s.heap.availableSize = (fs.map s.heap.memItemSize).sum
  live : LivePointers s.live (UsedBlock s.heap bs)
  disjoint : ∀ a b, a + memheapSize ∈ s.live → b + memheapSize ∈ s.live → a ≠ b →
    s.heap.block.next a ≤ b ∨ s.heap.block.next b ≤ a

variable {A : HeapArea} {s t : HeapState} {bs fs : List ℕ}

namespace LivePointers

variable {live : List ℕ} {U V : ℕ → Prop} {a : ℕ}

variable (h : LivePointers live U)

include h

theorem congr (hv : ∀ x, V x ↔ U x) : LivePointers live V :=
  ⟨h.nodup, fun p => (h.mem p).trans (exists_congr (fun x => and_congr_right (fun _ => (hv x).symm)))⟩

theorem mem_iff : a + memheapSize ∈ live ↔ U a := by
  rw [h.mem]
  constructor
  · rintro ⟨b, he, hb⟩
    rwa [Nat.add_right_cancel he]
  · exact fun ha => ⟨a, rfl, ha⟩

theorem null_notMem : null ∉ live := by
  intro hn
  obtain ⟨a, he, -⟩ := (h.mem null).mp hn
  exact add_memheapSize_ne_null a he.symm

theorem erase (a : ℕ) : LivePointers (live.erase (a + memheapSize)) (fun x => U x ∧ x ≠ a) := by
  refine ⟨h.nodup.erase _, fun p => ?_⟩
  rw [h.nodup.mem_erase_iff, h.mem]
  constructor
  · rintro ⟨hne, b, rfl, hb⟩
    exact ⟨b, rfl, hb, fun he => hne (he ▸ rfl)⟩
  · rintro ⟨b, rfl, hb, hne⟩
    exact ⟨fun he => hne (Nat.add_right_cancel he), b, rfl, hb⟩

theorem cons (ha : ¬ U a) : LivePointers ((a + memheapSize) :: live) (fun x => U x ∨ x = a) := by
  refine ⟨nodup_cons.mpr ⟨fun hm => ha (h.mem_iff.mp hm), h.nodup⟩, fun p => ?_⟩
  rw [mem_cons, h.mem]
  constructor
  · rintro (rfl | ⟨b, rfl, hb⟩)
    · exact ⟨a, rfl, .inr rfl⟩
    · exact ⟨b, rfl, .inl hb⟩
  · rintro ⟨b, rfl, hb | rfl⟩
    · exact .inr ⟨b, rfl, hb⟩
    · exact .inl rfl

end LivePointers

theorem sound_of_layout (L : Layout A s.heap bs fs) (hlive : LivePointers s.live (UsedBlock s.heap bs)) :
    s.Sound A bs fs := by
  have hb := L.shape.blocks
  refine ⟨L, ?_, ?_, fun a ha => hb.memItemSize_spec ha, fun a ha => ?_, ?_, ⟨L.shape.nodup, fun a => ?_⟩,
    fun a ha hu => L.shape.next_used ha hu (by simp) (by simp), L.available, hlive, fun a b ha hb' hne => ?_⟩
  · obtain ⟨rest, rfl⟩ : ∃ rest, bs = A.startAddr :: rest := head?_eq_some_iff.mp hb.first
    have hring := hb.ring
    rw [List.cons_append] at hring ⊢
    rw [hb.startAddr, hring.iterate]
    simp
  · rw [hb.startAddr, hb.poolSize]
    exact ⟨A.tail_spec.2.1, hb.tail_used⟩
  · exact ⟨(hb.ring.next_mem ha).2, (hb.ring.prev_mem ha).2⟩
  · rw [hb.freeList]
    exact L.shape.ring.iterate
  · exact L.shape.mem_free a (by simp)
  · have hamem := (hlive.mem_iff.mp ha).1
    have hbmem := (hlive.mem_iff.mp hb').1
    obtain hlt | hlt := Nat.lt_or_gt_of_ne hne
    · exact .inl (hb.next_le hamem (mem_append_left _ hbmem) hlt)
    · exact .inr (hb.next_le hbmem (mem_append_left _ hamem) hlt)

section

variable (hs : s.Sound A bs fs)

include hs

theorem sound_of_alloc (size : ℕ) : ∃ r bs' fs', memheapAlloc s.heap size = some r ∧
      Sound A ⟨r.1, if r.2 = null then s.live else r.2 :: s.live⟩ bs' fs' := by
  obtain ⟨halloc, -⟩ | ⟨h', a, bs', fs', halloc, e⟩ := memheapAlloc_spec hs.layout size
  · refine ⟨_, bs, fs, halloc, ?_⟩
    exact hs
  · refine ⟨_, bs', fs', halloc, ?_⟩
    exact sound_of_layout e.layout ((hs.live.cons (e.unused hs.layout)).congr e.used)

theorem exec_alloc (size : BitVec 32) : ∃ t bs' fs', s.exec (.alloc size) = some t ∧ t.Sound A bs' fs' := by
  obtain ⟨r, bs', fs', halloc, ht⟩ := sound_of_alloc hs size.toNat
  refine ⟨_, bs', fs', ?_, ht⟩
  rw [exec, halloc]
  rfl

theorem exec_free {ptr : ℕ} (hptr : ptr = null ∨ ptr ∈ s.live) :
    ∃ t bs' fs', s.exec (.free ptr) = some t ∧ t.live = s.live.erase ptr ∧ t.Sound A bs' fs' := by
  obtain rfl | hmem := hptr
  · have herase := erase_of_not_mem hs.live.null_notMem
    refine ⟨s, bs, fs, ?_, herase.symm, hs⟩
    rw [exec, memheapFree, herase]
    rfl
  · obtain ⟨a, rfl, ha⟩ := (hs.live.mem ptr).mp hmem
    obtain ⟨h', bs', fs', hfree, L, hused, -⟩ := memheapFree_spec hs.layout ha
    refine ⟨⟨h', s.live.erase (a + memheapSize)⟩, bs', fs', ?_, rfl,
      sound_of_layout L ((hs.live.erase a).congr hused)⟩
    rw [exec, hfree]
    rfl

theorem exec_realloc {ptr : ℕ} {newsize : BitVec 32} (hptr : ptr = null ∨ ptr ∈ s.live)
    (hfits : s.Fits (.realloc ptr newsize)) :
    ∃ t bs' fs', s.exec (.realloc ptr newsize) = some t ∧ t.Sound A bs' fs' := by
  by_cases hz : newsize = 0
  · -- a call for no bytes gives the block back
    obtain ⟨t, bs', fs', hfree, -, ht⟩ := exec_free hs hptr
    refine ⟨t, bs', fs', ?_, ht⟩
    rw [← hfree, exec, memheapRealloc, if_pos (by simp [hz]), exec]
    simp [hz, Function.comp_def]
  · have hz' : newsize.toNat ≠ 0 := fun he => hz (BitVec.eq_of_toNat_eq he)
    obtain rfl | hmem := hptr
    · obtain ⟨r, bs', fs', halloc, ht⟩ := sound_of_alloc hs (requestSize newsize.toNat)
      refine ⟨_, bs', fs', ?_, ht⟩
      rw [exec, memheapRealloc, if_neg hz', if_pos rfl, halloc, map_some]
      dsimp only
      rw [if_neg hz, erase_of_not_mem hs.live.null_notMem]
    · obtain ⟨a, rfl, ha⟩ := (hs.live.mem ptr).mp hmem
      have hfits' := hfits (add_memheapSize_ne_null a) hz
      obtain ⟨h', p, bs', fs', hcall, L, hrep, -⟩ := memheapRealloc_spec hs.layout ha hz' hfits'
      refine ⟨_, bs', fs', by rw [exec, hcall, map_some], ?_⟩
      dsimp only
      rw [if_neg hz]
      obtain ⟨rfl, hused⟩ | ⟨b, rfl, hb, hused⟩ := hrep
      · exact sound_of_layout L (hs.live.congr hused)
      · refine sound_of_layout L (((hs.live.erase a).cons ?_).congr hused)
        rintro ⟨hu, hne⟩
        exact hb.elim hne (fun hnot => hnot hu)

theorem exec_sound {c : HeapCall} (hc : s.Enabled c) (hfits : s.Fits c) :
    ∃ t bs' fs', s.exec c = some t ∧ t.Sound A bs' fs' := by
  cases c with
  | alloc size => exact exec_alloc hs size
  | realloc ptr newsize => exact exec_realloc hs hc hfits
  | free ptr =>
    obtain ⟨t, bs', fs', hfree, -, ht⟩ := exec_free hs hc
    exact ⟨t, bs', fs', hfree, ht⟩

theorem exec_realloc_wraps {a : ℕ} {newsize : BitVec 32} (ha : UsedBlock s.heap bs a)
    (hz : newsize ≠ 0) (hfits : ¬ GrowFits s.heap a newsize.toNat) :
    ∃ t, s.exec (.realloc (a + memheapSize) newsize) = some t ∧ a + memheapSize ∈ t.live ∧
      t.heap.block.next a < a + memheapSize := by
  have hz' : newsize.toNat ≠ 0 := fun he => hz (BitVec.eq_of_toNat_eq he)
  obtain ⟨h', hcall, hnext⟩ := memheapRealloc_wraps hs.layout ha hz' hfits
  refine ⟨_, by rw [exec, hcall, map_some], ?_, hnext⟩
  dsimp only
  rw [if_neg hz]
  exact mem_cons_self

theorem step_sound_iff {c : HeapCall} (hc : s.Enabled c) :
    ∃ t, s.step c = some t ∧ ((∃ bs' fs', t.Sound A bs' fs') ↔ s.Fits c) := by
  by_cases hfits : s.Fits c
  · obtain ⟨t, bs', fs', ht, hsound⟩ := exec_sound hs hc hfits
    exact ⟨t, by rw [step, if_pos hc, ht], iff_of_true ⟨bs', fs', hsound⟩ hfits⟩
  · cases c with
    | alloc size | free ptr => exact absurd trivial hfits
    | realloc ptr newsize =>
      simp only [Fits, Classical.not_imp] at hfits
      obtain ⟨hne, hz, hwraps⟩ := hfits
      obtain ⟨a, rfl, ha⟩ := (hs.live.mem ptr).mp (hc.resolve_left hne)
      obtain ⟨t, ht, hlive, hnext⟩ := exec_realloc_wraps hs ha hz hwraps
      refine ⟨t, by rw [step, if_pos hc, ht], iff_of_false ?_ ?_⟩
      · -- the block of a live pointer would end inside its own header
        rintro ⟨bs', fs', hsound⟩
        have hsize := (hsound.sized a (hsound.live.mem_iff.mp hlive).1).1
        omega
      · intro hfits
        exact hwraps (by simpa using hfits hne hz)

end

def Restorable (A : HeapArea) (s : HeapState) : Prop :=
  ∀ order : List ℕ, order.Perm s.live → ∃ t, run step s (order.map .free) = some t ∧ t.live = [] ∧
    t.Sound A [A.startAddr] [A.startAddr] ∧ t.heap.availableSize = A.poolSize - 2 * memheapSize

section

variable (hs : s.Sound A bs fs)

include hs

theorem run_free {order : List ℕ} (ho : order.Perm s.live) :
    ∃ t bs' fs', run step s (order.map .free) = some t ∧ t.live = [] ∧ t.Sound A bs' fs' := by
  induction order generalizing s bs fs with
  | nil => exact ⟨s, bs, fs, rfl, nil_perm.mp ho, hs⟩
  | cons p order ih =>
    have hp : p ∈ s.live := ho.mem_iff.mp mem_cons_self
    obtain ⟨t, bs', fs', hfree, hlive, ht⟩ := exec_free hs (.inr hp)
    have hrest : order.Perm t.live := by
      rw [hlive]
      have := ho.erase p
      rwa [erase_cons_head] at this
    obtain ⟨u, bs'', fs'', hrun, hnil, hu⟩ := ih ht hrest
    refine ⟨u, bs'', fs'', ?_, hnil, hu⟩
    rw [map_cons, run, step, if_pos (.inr hp), hfree, bind_some, hrun]

theorem sound_empty (hlive : s.live = []) :
    bs = [A.startAddr] ∧ fs = [A.startAddr] ∧ s.heap.availableSize = A.poolSize - 2 * memheapSize := by
  have hb := hs.layout.shape.blocks
  have hunused : ∀ a ∈ bs, s.heap.isUsed a = false := by
    intro a ha
    by_contra hu
    have hmem := hs.live.mem_iff.mpr ⟨ha, by simpa using hu⟩
    simp [hlive] at hmem
  have hbs : bs = [A.startAddr] := by
    obtain ⟨rest, rfl⟩ : ∃ rest, bs = A.startAddr :: rest := head?_eq_some_iff.mp hb.first
    cases rest with
    | nil => rfl
    | cons b rest =>
      -- two blocks that are not in use would be neighbours
      have hlink : s.heap.block.Link A.startAddr b := Linked.ring_head_link hb.ring
      have hused := hs.apart A.startAddr (by simp) (hunused _ (by simp))
      rw [hlink.1, hunused b (by simp)] at hused
      exact absurd hused (by simp)
  subst hbs
  have hfs : fs = [A.startAddr] := by
    refine perm_singleton.mp ((perm_ext_iff_of_nodup hs.unused.1 (nodup_singleton _)).mpr (fun a => ?_))
    rw [hs.unused.2]
    exact and_iff_left_of_imp (hunused a)
  subst hfs
  refine ⟨rfl, rfl, ?_⟩
  have hlink : s.heap.block.Link A.startAddr A.tail := Linked.ring_head_link hb.ring
  have hsize := (hs.sized A.startAddr (by simp)).1
  have htail := A.tail_spec.2.1
  rw [hlink.1] at hsize
  rw [hs.available, map_singleton, sum_singleton]
  omega

theorem restorable : s.Restorable A := by
  intro order ho
  obtain ⟨t, bs', fs', hrun, hnil, ht⟩ := run_free hs ho
  obtain ⟨rfl, rfl, havailable⟩ := sound_empty ht hnil
  exact ⟨t, hrun, hnil, ht, havailable⟩

end

theorem start_sound (A : HeapArea) (contents : Memheap) : (start A contents).Sound A [A.startAddr] [A.startAddr] := by
  refine sound_of_layout (memheapInit_layout A rfl rfl) ⟨nodup_nil, fun p => ?_⟩
  constructor
  · intro hp
    exact absurd hp not_mem_nil
  · rintro ⟨a, rfl, ha, hu⟩
    rw [mem_singleton.mp ha] at hu
    exact absurd ((memheapInit_unused A rfl).symm.trans hu) (by simp)

def WellFormed (A : HeapArea) (s : HeapState) : Prop :=
  (∃ bs fs, s.Sound A bs fs) ∧ (∀ c, s.Enabled c → (s.step c).isSome) ∧ s.Restorable A

theorem wellFormed_iff : s.WellFormed A ↔ ∃ bs fs, s.Sound A bs fs := by
  refine ⟨And.left, fun ⟨bs, fs, hs⟩ => ⟨⟨bs, fs, hs⟩, fun c hc => ?_, restorable hs⟩⟩
  obtain ⟨t, ht, -⟩ := step_sound_iff hs hc
  rw [ht, isSome_some]

theorem heap_structure_iff (A : HeapArea) (contents : Memheap) (calls : List HeapCall) :
    StatesAlong step (WellFormed A) (start A contents) calls ↔ StepsAlong step Fits (start A contents) calls := by
  refine statesAlong_iff_stepsAlong (fun _ _ _ _ _ => trivial) (fun s c t _ hs hstep => ?_) calls
    trivial (wellFormed_iff.mpr ⟨_, _, start_sound A contents⟩)
  obtain ⟨bs, fs, hs⟩ := wellFormed_iff.mp hs
  have hc : s.Enabled c := by
    by_contra hc
    rw [step, if_neg hc] at hstep
    exact absurd hstep (by simp)
  obtain ⟨t', ht, hiff⟩ := step_sound_iff hs hc
  obtain rfl : t' = t := Option.some.inj (ht.symm.trans hstep)
  exact wellFormed_iff.trans hiff

def smallArea : HeapArea where
  self := 32
  freeHeader := 64
  startAddr := 4096
  size := 256
  room := by decide
  size_lt := by decide
  bound := by decide
  apart := by decide

def clearedMemory : Memheap where
  self := 0
  freeHeader := 0
  startAddr := 0
  poolSize := 0
  availableSize := 0
  maxUsedSize := 0
  freeList := 0
  magic _ := 0
  poolPtr _ := 0
  block := ⟨fun _ => 0, fun _ => 0⟩
  free := ⟨fun _ => 0, fun _ => 0⟩

theorem heap_realloc_breaks_structure : ∃ t,
    run step (start smallArea clearedMemory) [.alloc 16, .realloc 4120 0xfffffff8] = some t ∧
      t.live = [4120] ∧ t.heap.block.next 4096 = 4112 ∧ ¬ WellFormed smallArea t := by
  refine exists_some_and_and (by decide +kernel) (fun t _ hlive hnext hw => ?_)
  obtain ⟨bs, fs, hs⟩ := hw.1
  have hused : UsedBlock t.heap bs 4096 := hs.live.mem_iff.mp (by rw [hlive]; decide)
  have hsize := (hs.sized 4096 hused.1).1
  unfold memheapSize at hsize
  omega

end HeapState

end RtThread
