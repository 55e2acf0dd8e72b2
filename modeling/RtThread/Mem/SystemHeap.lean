import RtThread.Mem.HeapGrant

namespace RtThread

open Transition Function List Option HeapState

structure SystemHeaps (H : Type*) where
  area : H → HeapArea
  systemHeap : H
  self_injective : Injective (fun i => (area i).self)
  disjoint : ∀ i j, i ≠ j → (area i).startAddr + (area i).size ≤ (area j).startAddr ∨
    (area j).startAddr + (area j).size ≤ (area i).startAddr

structure SystemState (H : Type*) where
  registered : List H
  heap : H → HeapState

inductive SystemCall (H : Type*)
  | init (i : H) (contents : Memheap)
  | malloc (size : BitVec 32)
  | realloc (ptr : ℕ) (newsize : BitVec 32)
  | free (ptr : ℕ)
  | memheap (i : H) (c : HeapCall)

def HeapState.result (s : HeapState) : HeapCall → Option ℕ
  | .alloc size => (memheapAlloc s.heap size.toNat).map Prod.snd
  | .realloc ptr newsize => (memheapRealloc s.heap ptr newsize.toNat).map Prod.snd
  | .free _ => some null

namespace Memheap

/-- The request is below the available size and a free item is large enough for it. -/
def Serves (h : Memheap) (size : ℕ) : Prop :=
  requestSize size < h.availableSize ∧ ∃ a ∈ h.freeItems, requestSize size ≤ h.memItemSize a

/-- The item behind `a` is free and large enough for `a` to grow into it. -/
def Grows (h : Memheap) (a newsize : ℕ) : Prop :=
  h.isUsed (h.block.next a) = false ∧
    add32 newsize memheapMiniAlloc < add32 (h.memItemSize (h.block.next a)) (h.memItemSize a)

instance (h : Memheap) (a newsize : ℕ) : Decidable (h.Grows a newsize) := instDecidableAnd

def Refuses (h : Memheap) (a newsize : ℕ) : Prop :=
  h.memItemSize a < newsize ∧ ¬ h.Grows a newsize ∧ ¬ h.Serves newsize

end Memheap

section

variable {A : HeapArea} {h : Memheap} {bs fs : List ℕ} {a n : ℕ} (L : Layout A h bs fs)

include L

theorem alloc_null_iff (size : ℕ) : (memheapAlloc h size).map Prod.snd = some null ↔ ¬ h.Serves size := by
  unfold Memheap.Serves
  simp only [L.shape.mem_freeItems]
  obtain ⟨halloc, hno⟩ | ⟨h', a, bs', fs', halloc, e⟩ := memheapAlloc_spec L size
  · rw [halloc]
    refine iff_of_true rfl ?_
    rintro ⟨hsize, b, hb, hle⟩
    obtain hno | hno := hno
    · omega
    · exact absurd hle (hno b hb).not_ge
  · rw [halloc]
    refine iff_of_false ?_ (fun hno => hno ⟨e.enough.2, a, e.free, e.enough.1⟩)
    simpa using add_memheapSize_ne_null a

theorem realloc_null_iff (ha : UsedBlock h bs a) (hz : n ≠ 0) :
    (memheapRealloc h (a + memheapSize) n).map Prod.snd = some null ↔ h.Refuses a (requestSize n) := by
  have hb := L.shape.blocks
  have hnull : ¬ some (a + memheapSize) = some null := by simpa using add_memheapSize_ne_null a
  have hlt : a < h.block.next a := by
    have hs := hb.next_spaced ha.1
    unfold Spaced memheapSize at hs
    omega
  unfold memheapRealloc Memheap.Refuses Memheap.Grows
  rw [if_neg hz, if_neg (add_memheapSize_ne_null a), hb.sub32_eq_header ha.1]
  dsimp only
  by_cases hgrow : h.memItemSize a < requestSize n
  · rw [if_pos hgrow, if_pos hlt, and_iff_right hgrow]
    split_ifs with hroom
    · exact iff_of_false hnull (fun hr => hr.1 hroom)
    · rw [and_iff_right hroom, ← alloc_null_iff L, moveBlock]
      obtain ⟨halloc, -⟩ | ⟨h', b, -, -, halloc, -⟩ := memheapAlloc_spec L (requestSize n)
      · simp [halloc]
      · simp [halloc, add_memheapSize_ne_null b]
  · rw [if_neg hgrow]
    split_ifs <;> exact iff_of_false hnull (fun hr => hgrow hr.1)

end

namespace SystemState

variable {H : Type*}

def Live (s : SystemState H) (p : ℕ) : Prop := ∃ i ∈ s.registered, p ∈ (s.heap i).live

instance (s : SystemState H) (p : ℕ) : Decidable (s.Live p) :=
  inferInstanceAs (Decidable (∃ i ∈ s.registered, p ∈ (s.heap i).live))

def OneBlock (s : SystemState H) (p q : ℕ) : Prop :=
  if q = null then s.Live p else s.Live q ∧ (q = p ∨ ¬ s.Live p)

def Serves (s : SystemState H) (i : H) (size : BitVec 32) : Prop := (s.heap i).heap.Serves size.toNat

def Fits (s : SystemState H) : SystemCall H → Prop
  | .realloc ptr newsize => ∀ i ∈ s.registered, ptr ∈ (s.heap i).live → (s.heap i).Fits (.realloc ptr newsize)
  | .memheap i c => (s.heap i).Fits c
  | .init .. | .malloc _ | .free _ => True

/-- The heap of `p` has no room for the new size, but a registered heap has: `rt_realloc` then copies the block to the
other heap and leaves it in its own. -/
def MovesAcross (s : SystemState H) (p : ℕ) (n : BitVec 32) : Prop :=
  (∃ i ∈ s.registered, p ∈ (s.heap i).live ∧ (s.heap i).heap.Refuses (p - memheapSize)
    (requestSize n.toNat)) ∧
    ∃ j ∈ s.registered, s.Serves j n

variable [DecidableEq H]

def Enabled (s : SystemState H) : SystemCall H → Prop
  | .init i _ => i ∉ s.registered
  | .malloc _ => True
  | .realloc ptr _ => ptr = null ∨ s.Live ptr
  | .free ptr => ptr = null ∨ s.Live ptr
  | .memheap i c => i ∈ s.registered ∧ (s.heap i).Enabled c

instance (s : SystemState H) : ∀ c, Decidable (s.Enabled c)
  | .init _ _ => instDecidableNot
  | .malloc _ => isTrue trivial
  | .realloc _ _ | .free _ => instDecidableOr
  | .memheap _ _ => instDecidableAnd

def setHeap (s : SystemState H) (i : H) (x : HeapState) : SystemState H :=
  { s with heap := update s.heap i x }

def onHeap (s : SystemState H) (i : H) (c : HeapCall) : Option (SystemState H × ℕ) :=
  ((s.heap i).exec c).bind (fun x => ((s.heap i).result c).map (fun p => (s.setHeap i x, p)))

end SystemState

namespace SystemHeaps

open SystemState

variable {H : Type*} [DecidableEq H] (S : SystemHeaps H)

def mallocFrom (size : BitVec 32) : List H → SystemState H → Option (SystemState H × ℕ)
  | [], s => some (s, null)
  | i :: l, s =>
    if i = S.systemHeap then mallocFrom size l s
    else (s.onHeap i (.alloc size)).bind (fun (s, p) => if p = null then mallocFrom size l s else some (s, p))

def rtMalloc (s : SystemState H) (size : BitVec 32) : Option (SystemState H × ℕ) :=
  (s.onHeap S.systemHeap (.alloc size)).bind (fun (s, p) =>
    if p = null then S.mallocFrom size s.registered s else some (s, p))

def memoryAt (s : SystemState H) (a : ℕ) : Option H :=
  s.registered.find? (fun i => (S.area i).startAddr ≤ a ∧ a < (S.area i).startAddr + (S.area i).size)

def poolPtr (s : SystemState H) (ptr : ℕ) : Option H :=
  let header := sub32 ptr memheapSize
  (S.memoryAt s header).bind (fun i =>
    s.registered.find? (fun j => (S.area j).self = (s.heap i).heap.poolPtr header))

def rtFree (s : SystemState H) (ptr : ℕ) : Option (SystemState H) :=
  if ptr = null then some s
  else (S.poolPtr s ptr).bind (fun i => (s.onHeap i (.free ptr)).map Prod.fst)

def rtRealloc (s : SystemState H) (ptr : ℕ) (newsize : BitVec 32) : Option (SystemState H × ℕ) :=
  if ptr = null then S.rtMalloc s newsize
  else (S.poolPtr s ptr).bind (fun i => (s.onHeap i (.realloc ptr newsize)).bind (fun (s, new) =>
    if new = null ∧ newsize ≠ 0 then S.rtMalloc s newsize else some (s, new)))

def start (contents : H → Memheap) : SystemState H where
  registered := [S.systemHeap]
  heap i := if i = S.systemHeap then .start (S.area i) (contents i) else ⟨contents i, []⟩

def exec (s : SystemState H) : SystemCall H → Option (SystemState H)
  | .init i contents => some { s.setHeap i (.start (S.area i) contents) with registered := i :: s.registered }
  | .malloc size => (S.rtMalloc s size).map Prod.fst
  | .realloc ptr newsize => (S.rtRealloc s ptr newsize).map Prod.fst
  | .free ptr => S.rtFree s ptr
  | .memheap i c => (s.onHeap i c).map Prod.fst

def step (s : SystemState H) (c : SystemCall H) : Option (SystemState H) := if s.Enabled c then S.exec s c else none

structure Inv (s : SystemState H) : Prop where
  registered : S.systemHeap ∈ s.registered
  sound : ∀ i ∈ s.registered, ∃ bs fs, (s.heap i).Sound (S.area i) bs fs

variable {S} {s t : SystemState H} {i : H} {p q : ℕ}

theorem Inv.setHeap (hs : S.Inv s) {x : HeapState} (hx : ∃ bs fs, x.Sound (S.area i) bs fs) :
    S.Inv (s.setHeap i x) := by
  refine ⟨hs.registered, fun j hj => ?_⟩
  obtain rfl | hne := eq_or_ne j i
  · simpa [SystemState.setHeap] using hx
  · simpa [SystemState.setHeap, hne] using hs.sound j hj

omit [DecidableEq H] in
theorem Inv.header (hs : S.Inv s) (hi : i ∈ s.registered) (hp : p ∈ (s.heap i).live) :
    ∃ a, p = a + memheapSize ∧ sub32 p memheapSize = a ∧ (S.area i).startAddr ≤ a ∧
      a < (S.area i).startAddr + (S.area i).size ∧ (s.heap i).heap.poolPtr a = (S.area i).self := by
  obtain ⟨bs, fs, hsound⟩ := hs.sound i hi
  obtain ⟨a, rfl, ha, -⟩ := (hsound.live.mem p).mp hp
  have hb := hsound.layout.shape.blocks
  have htail := hb.le_tail ha
  obtain ⟨-, hend, hsize⟩ := (S.area i).tail_spec
  unfold Spaced memheapMiniAlloc at htail
  refine ⟨a, rfl, hb.sub32_eq_header ha, hb.start_le ha, by omega, ?_⟩
  rw [(hb.item a (mem_append_left _ ha)).2, hb.self]

omit [DecidableEq H] in
theorem find_registered {P : H → Bool} (hi : i ∈ s.registered) (hP : P i = true)
    (hother : ∀ j, P j = true → j = i) :
    s.registered.find? P = some i := by
  obtain ⟨j, hj⟩ := isSome_iff_exists.mp (find?_isSome.mpr ⟨i, hi, hP⟩)
  rw [hj, hother j (find?_some hj)]

theorem area_unique {a : ℕ} {j : H} (hi : (S.area i).startAddr ≤ a ∧ a < (S.area i).startAddr + (S.area i).size)
    (hj : (S.area j).startAddr ≤ a ∧ a < (S.area j).startAddr + (S.area j).size) : j = i := by
  by_contra hne
  have := S.disjoint j i hne
  omega

theorem Inv.poolPtr (hs : S.Inv s) (hi : i ∈ s.registered) (hp : p ∈ (s.heap i).live) : S.poolPtr s p = some i := by
  obtain ⟨a, -, hsub, hlo, hhi, hself⟩ := hs.header hi hp
  have hmemory : S.memoryAt s a = some i := by
    apply find_registered hi
    · simpa using ⟨hlo, hhi⟩
    · intro j hj
      exact area_unique ⟨hlo, hhi⟩ (by simpa using hj)
  rw [SystemHeaps.poolPtr, hsub, hmemory, bind_some, hself]
  apply find_registered hi
  · simp
  · intro j hj
    exact S.self_injective (by simpa using hj)

theorem Inv.live_unique (hs : S.Inv s) {j : H} (hi : i ∈ s.registered) (hp : p ∈ (s.heap i).live)
    (hj : j ∈ s.registered) (hp' : p ∈ (s.heap j).live) : j = i :=
  Option.some.inj ((hs.poolPtr hj hp').symm.trans (hs.poolPtr hi hp))

structure Extends (S : SystemHeaps H) (s t : SystemState H) (q : ℕ) : Prop where
  inv : S.Inv t
  notNull : q ≠ null
  fresh : ¬ s.Live q
  registered : t.registered = s.registered
  live : ∀ r, t.Live r ↔ s.Live r ∨ r = q

theorem setHeap_self : s.setHeap i (s.heap i) = s := by
  unfold SystemState.setHeap
  rw [update_eq_self]

theorem live_setHeap (hi : i ∈ s.registered) {x : HeapState}
    (hx : ∀ r, r ∈ x.live ↔ r ∈ (s.heap i).live ∨ r = q)
    (r : ℕ) : (s.setHeap i x).Live r ↔ s.Live r ∨ r = q := by
  unfold Live SystemState.setHeap
  dsimp only
  constructor
  · rintro ⟨j, hj, hr⟩
    obtain rfl | hne := eq_or_ne j i
    · rw [update_self, hx] at hr
      exact hr.imp_left (fun hr => ⟨j, hj, hr⟩)
    · rw [update_of_ne hne] at hr
      exact .inl ⟨j, hj, hr⟩
  · rintro (⟨j, hj, hr⟩ | rfl)
    · refine ⟨j, hj, ?_⟩
      obtain rfl | hne := eq_or_ne j i
      · rw [update_self, hx]
        exact .inl hr
      · rwa [update_of_ne hne]
    · refine ⟨i, hi, ?_⟩
      rw [update_self, hx]
      exact .inr rfl

theorem Inv.alloc (hs : S.Inv s) (hi : i ∈ s.registered) (size : BitVec 32) :
    ¬ s.Serves i size ∧ s.onHeap i (.alloc size) = some (s, null) ∨
      s.Serves i size ∧ ∃ t q, s.onHeap i (.alloc size) = some (t, q) ∧ Extends S s t q := by
  obtain ⟨bs, fs, hsound⟩ := hs.sound i hi
  obtain ⟨x, bs', fs', hexec, hx⟩ := HeapState.exec_alloc hsound size
  have hserves := alloc_null_iff hsound.layout size.toNat
  unfold Serves onHeap
  obtain ⟨halloc, -⟩ | ⟨h, a, bs₁, fs₁, halloc, -⟩ := memheapAlloc_spec hsound.layout size.toNat
  · rw [← hserves, HeapState.exec, HeapState.result, halloc]
    refine .inl ⟨rfl, ?_⟩
    simpa using setHeap_self
  · have hne := add_memheapSize_ne_null a
    have hresult : (s.heap i).result (.alloc size) = some (a + memheapSize) := by
      rw [HeapState.result, halloc, map_some]
    have hlive : x.live = (a + memheapSize) :: (s.heap i).live := by
      rw [HeapState.exec, halloc, map_some, some_inj] at hexec
      rw [← hexec]
      dsimp only
      rw [if_neg hne]
    have hinv := hs.setHeap ⟨bs', fs', hx⟩
    rw [halloc, map_some, some_inj, iff_not_comm] at hserves
    rw [hresult, hexec, bind_some]
    refine .inr ⟨hserves.mpr hne, _, _, rfl, hinv, hne, ?_, rfl, live_setHeap hi (fun r => ?_)⟩
    · -- the block is in use in the heap that has handed it out, and in no other one
      rintro ⟨j, hj, hq⟩
      have hnodup := hx.live.nodup
      rw [hlive, nodup_cons] at hnodup
      by_cases hji : j = i
      · exact hnodup.1 (hji ▸ hq)
      · apply hji
        apply hinv.live_unique hi _ hj
        · simpa [SystemState.setHeap, hji] using hq
        · simp [SystemState.setHeap, hlive]
    · rw [hlive, mem_cons, or_comm]

theorem Inv.mallocFrom (hs : S.Inv s) (size : BitVec 32) {l : List H} (hl : ∀ i ∈ l, i ∈ s.registered) :
    (∀ i ∈ l, i ≠ S.systemHeap → ¬ s.Serves i size) ∧ S.mallocFrom size l s = some (s, null) ∨
      (∃ i ∈ l, s.Serves i size) ∧ ∃ t q, S.mallocFrom size l s = some (t, q) ∧ Extends S s t q := by
  induction l with
  | nil => exact .inl ⟨by simp, rfl⟩
  | cons i l ih =>
    have ih := ih (fun j hj => hl j (mem_cons_of_mem i hj))
    rw [SystemHeaps.mallocFrom]
    by_cases hsystem : i = S.systemHeap
    · rw [if_pos hsystem]
      refine ih.imp (fun h => ⟨fun j hj hne => ?_, h.2⟩) (fun h => ⟨?_, h.2⟩)
      · exact h.1 j ((mem_cons.mp hj).resolve_left (fun he => hne (he ▸ hsystem))) hne
      · obtain ⟨j, hj, hserves⟩ := h.1
        exact ⟨j, mem_cons_of_mem i hj, hserves⟩
    · rw [if_neg hsystem]
      obtain ⟨hno, halloc⟩ | ⟨hyes, t, q, halloc, he⟩ := hs.alloc (hl i mem_cons_self) size
      · rw [halloc]
        dsimp only
        refine ih.imp (fun h => ⟨fun j hj hne => ?_, h.2⟩) (fun h => ⟨?_, h.2⟩)
        · obtain rfl | hj := mem_cons.mp hj
          · exact hno
          · exact h.1 j hj hne
        · obtain ⟨j, hj, hserves⟩ := h.1
          exact ⟨j, mem_cons_of_mem i hj, hserves⟩
      · refine .inr ⟨⟨i, mem_cons_self, hyes⟩, t, q, ?_, he⟩
        rw [halloc]
        exact if_neg he.notNull

theorem Inv.rtMalloc (hs : S.Inv s) (size : BitVec 32) :
    (∀ i ∈ s.registered, ¬ s.Serves i size) ∧ S.rtMalloc s size = some (s, null) ∨
      (∃ i ∈ s.registered, s.Serves i size) ∧ ∃ t q, S.rtMalloc s size = some (t, q) ∧ Extends S s t q := by
  rw [SystemHeaps.rtMalloc]
  obtain ⟨hno, halloc⟩ | ⟨hyes, t, q, halloc, he⟩ := hs.alloc hs.registered size
  · rw [halloc]
    dsimp only
    refine (hs.mallocFrom size (fun i hi => hi)).imp_left (fun h => ⟨fun i hi => ?_, h.2⟩)
    by_cases hsystem : i = S.systemHeap
    · rwa [hsystem]
    · exact h.1 i hi hsystem
  · refine .inr ⟨⟨_, hs.registered, hyes⟩, t, q, ?_, he⟩
    rw [halloc]
    exact if_neg he.notNull

theorem Inv.free (hs : S.Inv s) {ptr : ℕ} (hptr : ptr = null ∨ s.Live ptr) :
    ∃ t, S.rtFree s ptr = some t ∧ S.Inv t := by
  unfold rtFree
  by_cases hnull : ptr = null
  · exact ⟨s, if_pos hnull, hs⟩
  · obtain ⟨i, hi, hp⟩ := hptr.resolve_left hnull
    obtain ⟨bs, fs, hsound⟩ := hs.sound i hi
    obtain ⟨x, bs', fs', hexec, -, hx⟩ := exec_free hsound (.inr hp)
    refine ⟨s.setHeap i x, ?_, hs.setHeap ⟨bs', fs', hx⟩⟩
    simp [hnull, hs.poolPtr hi hp, onHeap, hexec, result]

omit [DecidableEq H] in
variable {n : BitVec 32}

omit [DecidableEq H] in
theorem Inv.reallocIn (hs : S.Inv s) (hi : i ∈ s.registered) (hp : p ∈ (s.heap i).live) (hn : n ≠ 0) :
    (s.heap i).result (.realloc p n) = some null ∧ (s.heap i).exec (.realloc p n) = some (s.heap i) ∨
      ∃ x q, (s.heap i).result (.realloc p n) = some q ∧ (s.heap i).exec (.realloc p n) = some x ∧ q ≠ null ∧
        x.live = q :: (s.heap i).live.erase p := by
  obtain ⟨bs, fs, hsound⟩ := hs.sound i hi
  obtain ⟨a, rfl, ha⟩ := (hsound.live.mem p).mp hp
  have hz : n.toNat ≠ 0 := fun he => hn (BitVec.eq_of_toNat_eq he)
  have hne := add_memheapSize_ne_null a
  rw [HeapState.result, HeapState.exec]
  by_cases hfits : GrowFits (s.heap i).heap a n.toNat
  · obtain ⟨h, q, -, -, hcall, -, -, hresized⟩ := memheapRealloc_spec hsound.layout ha hz hfits
    simp only [hcall, map_some, if_neg hn]
    by_cases hq : q = null
    · rw [hresized.failed hq, hq]
      exact .inl ⟨rfl, rfl⟩
    · rw [if_neg hq]
      exact .inr ⟨_, q, rfl, rfl, hq, rfl⟩
  · obtain ⟨h, hcall, -⟩ := memheapRealloc_wraps hsound.layout ha hz hfits
    simp only [hcall, map_some, if_neg hn, if_neg hne]
    exact .inr ⟨_, _, rfl, rfl, hne, rfl⟩

omit [DecidableEq H] in
theorem Inv.refuses_iff (hs : S.Inv s) (hi : i ∈ s.registered) (hp : p ∈ (s.heap i).live) (hn : n ≠ 0) :
    (s.heap i).result (.realloc p n) = some null ↔
      (s.heap i).heap.Refuses (p - memheapSize) (requestSize n.toNat) := by
  obtain ⟨bs, fs, hsound⟩ := hs.sound i hi
  obtain ⟨a, rfl, ha⟩ := (hsound.live.mem p).mp hp
  rw [Nat.add_sub_cancel]
  exact realloc_null_iff hsound.layout ha (fun he => hn (BitVec.eq_of_toNat_eq he))

theorem Inv.rtRealloc (hs : S.Inv s) (hi : i ∈ s.registered) (hp : p ∈ (s.heap i).live) (hn : n ≠ 0) :
    (∃ x q, (s.heap i).result (.realloc p n) = some q ∧ (s.heap i).exec (.realloc p n) = some x ∧ q ≠ null ∧
        x.live = q :: (s.heap i).live.erase p ∧ S.rtRealloc s p n = some (s.setHeap i x, q)) ∨
      (s.heap i).result (.realloc p n) = some null ∧ S.rtRealloc s p n = S.rtMalloc s n := by
  have hnull : p ≠ null := by
    obtain ⟨a, rfl, -⟩ := hs.header hi hp
    exact add_memheapSize_ne_null a
  rw [SystemHeaps.rtRealloc, if_neg hnull, hs.poolPtr hi hp, bind_some, onHeap]
  obtain ⟨hresult, hexec⟩ | ⟨x, q, hresult, hexec, hq, hlive⟩ := hs.reallocIn hi hp hn
  · rw [hresult, hexec, bind_some, map_some, bind_some]
    dsimp only
    rw [if_pos ⟨rfl, hn⟩, setHeap_self]
    exact .inr ⟨rfl, rfl⟩
  · refine .inl ⟨x, q, hresult, hexec, hq, hlive, ?_⟩
    rw [hresult, hexec, bind_some, map_some]
    exact if_neg (fun h => hq h.1)

theorem Inv.realloc (hs : S.Inv s) {ptr : ℕ} (hptr : ptr = null ∨ s.Live ptr)
    (hfits : s.Fits (.realloc ptr n)) : ∃ r, S.rtRealloc s ptr n = some r ∧ S.Inv r.1 := by
  have hmalloc : ∃ r, S.rtMalloc s n = some r ∧ S.Inv r.1 := by
    obtain ⟨-, h⟩ | ⟨-, t, q, h, he⟩ := hs.rtMalloc n
    · exact ⟨_, h, hs⟩
    · exact ⟨_, h, he.inv⟩
  by_cases hnull : ptr = null
  · rwa [SystemHeaps.rtRealloc, if_pos hnull]
  · obtain ⟨i, hi, hp⟩ := hptr.resolve_left hnull
    obtain ⟨bs, fs, hsound⟩ := hs.sound i hi
    obtain ⟨y, bs', fs', hy, hsound'⟩ := exec_realloc hsound (.inr hp) (hfits i hi hp)
    by_cases hn : n = 0
    · obtain ⟨q, hq⟩ : ∃ q, (s.heap i).result (.realloc ptr n) = some q := by
        obtain ⟨r, hr, -⟩ := map_eq_some_iff.mp hy
        exact ⟨r.2, by rw [result, hr, map_some]⟩
      refine ⟨(s.setHeap i y, q), ?_, hs.setHeap ⟨bs', fs', hsound'⟩⟩
      rw [SystemHeaps.rtRealloc, if_neg hnull, hs.poolPtr hi hp, bind_some, onHeap, hy, hq]
      simp [hn]
    · obtain ⟨x, q, -, hx, -, -, hcall⟩ | ⟨-, hcall⟩ := hs.rtRealloc hi hp hn
      · obtain rfl : x = y := Option.some.inj (hx.symm.trans hy)
        exact ⟨_, hcall, hs.setHeap ⟨bs', fs', hsound'⟩⟩
      · rwa [hcall]

theorem start_inv (contents : H → Memheap) : S.Inv (S.start contents) := by
  refine ⟨mem_singleton.mpr rfl, fun i hi => ?_⟩
  obtain rfl := mem_singleton.mp hi
  refine ⟨[(S.area S.systemHeap).startAddr], [(S.area S.systemHeap).startAddr], ?_⟩
  simp only [start, if_true]
  exact start_sound ..

theorem Inv.step (hs : S.Inv s) {c : SystemCall H} (hfits : s.Fits c) (hstep : S.step s c = some t) : S.Inv t := by
  rw [SystemHeaps.step] at hstep
  split at hstep
  case isFalse => cases hstep
  case isTrue hc =>
    cases c with
    | init i contents =>
      cases hstep
      refine ⟨mem_cons_of_mem i hs.registered, fun j hj => ?_⟩
      obtain rfl | hj := mem_cons.mp hj
      · simp only [SystemState.setHeap, update_self]
        exact ⟨_, _, start_sound ..⟩
      · have hji : j ≠ i := fun he => hc (he ▸ hj)
        simpa [SystemState.setHeap, hji] using hs.sound j hj
    | malloc size =>
      obtain ⟨r, hr, rfl⟩ := map_eq_some_iff.mp hstep
      obtain ⟨-, h⟩ | ⟨-, t, q, h, he⟩ := hs.rtMalloc size
      · obtain rfl := Option.some.inj (h.symm.trans hr)
        exact hs
      · obtain rfl := Option.some.inj (h.symm.trans hr)
        exact he.inv
    | realloc ptr newsize =>
      obtain ⟨r, hr, rfl⟩ := map_eq_some_iff.mp hstep
      obtain ⟨r', hr', hinv⟩ := hs.realloc hc hfits
      rwa [Option.some.inj (hr.symm.trans hr')]
    | free ptr =>
      obtain ⟨t', ht', hinv⟩ := hs.free hc
      rwa [Option.some.inj (hstep.symm.trans ht')]
    | memheap i c =>
      obtain ⟨hi, hc⟩ := hc
      obtain ⟨r, hr, rfl⟩ := map_eq_some_iff.mp hstep
      obtain ⟨x, hx, hr⟩ := bind_eq_some_iff.mp hr
      obtain ⟨q, -, rfl⟩ := map_eq_some_iff.mp hr
      obtain ⟨bs, fs, hsound⟩ := hs.sound i hi
      obtain ⟨x', bs', fs', hx', hsound'⟩ := exec_sound hsound hc hfits
      obtain rfl : x = x' := Option.some.inj (hx.symm.trans hx')
      exact hs.setHeap ⟨bs', fs', hsound'⟩

theorem realloc_one_block_iff {contents : H → Memheap} (hs : Reachable S.step Fits (· = S.start contents) s)
    {n : BitVec 32} (hp : s.Live p) (hn : n ≠ 0) :
    ∃ t q, S.rtRealloc s p n = some (t, q) ∧ (t.OneBlock p q ↔ ¬ s.MovesAcross p n) := by
  have hinv : S.Inv s := by
    apply hs.invariant
    · rintro _ rfl
      exact start_inv contents
    · exact fun _ _ _ hI hfits hstep => hI.step hfits hstep
  obtain ⟨i, hi, hlive⟩ := hp
  obtain ⟨x, q, hresult, -, hq, hx, hcall⟩ | ⟨hresult, hcall⟩ := hinv.rtRealloc hi hlive hn
  · refine ⟨_, q, hcall, iff_of_true ?_ ?_⟩
    · rw [OneBlock, if_neg hq]
      refine ⟨⟨i, hi, by simp [SystemState.setHeap, hx]⟩, or_iff_not_imp_left.mpr (fun hqp => ?_)⟩
      rintro ⟨j, hj, hpj⟩
      obtain rfl | hji := eq_or_ne j i
      · obtain ⟨bs, fs, hsound⟩ := hinv.sound j hi
        simp [SystemState.setHeap, hx, hsound.live.nodup.mem_erase_iff, Ne.symm hqp] at hpj
      · exact hji (hinv.live_unique hi hlive hj (by simpa [SystemState.setHeap, hji] using hpj))
    · rintro ⟨⟨j, hj, hpj, hrefuses⟩, -⟩
      obtain rfl := hinv.live_unique hi hlive hj hpj
      have hnull := (hinv.refuses_iff hi hlive hn).mpr hrefuses
      exact hq (Option.some.inj (hresult.symm.trans hnull))
  · rw [hcall]
    obtain ⟨hnone, hmalloc⟩ | ⟨hserves, t, q, hmalloc, he⟩ := hinv.rtMalloc n
    · refine ⟨s, null, hmalloc, iff_of_true ?_ ?_⟩
      · exact ⟨i, hi, hlive⟩
      · rintro ⟨-, j, hj, hserves⟩
        exact hnone j hj hserves
    · refine ⟨t, q, hmalloc, iff_of_false ?_ (fun h => h ⟨⟨i, hi, hlive, ?_⟩, hserves⟩)⟩
      swap
      · exact (hinv.refuses_iff hi hlive hn).mp hresult
      rw [OneBlock, if_neg he.notNull]
      rintro ⟨-, rfl | hnot⟩
      · exact he.fresh ⟨i, hi, hlive⟩
      · exact hnot ((he.live p).mpr (.inl ⟨i, hi, hlive⟩))

end SystemHeaps

def otherArea : HeapArea where
  self := 96
  freeHeader := 128
  startAddr := 8192
  size := 256
  room := HeapState.smallArea.room
  size_lt := HeapState.smallArea.size_lt
  bound := by decide
  apart := by decide

def twoHeaps : SystemHeaps Bool where
  area other := if other then otherArea else HeapState.smallArea
  systemHeap := false
  self_injective := by decide
  disjoint := by decide

namespace SystemHeaps

open SystemState

def filled : List (SystemCall Bool) := [.init true HeapState.clearedMemory, .malloc 64]

def filledStart : SystemState Bool := twoHeaps.start fun _ => HeapState.clearedMemory

theorem realloc_one_block_hundred : ∃ s t q, run twoHeaps.step filledStart filled = some s ∧ s.Live 4120 ∧
    twoHeaps.rtRealloc s 4120 100 = some (t, q) ∧ t.OneBlock 4120 q := by
  obtain ⟨s, hs, hlive, hgrows⟩ : ∃ s, run twoHeaps.step filledStart filled = some s ∧ s.Live 4120 ∧
      ∀ i ∈ s.registered, 4120 ∈ (s.heap i).live →
      (s.heap i).heap.Grows 4096 (requestSize 100) := by decide +kernel
  have hreach : Reachable twoHeaps.step Fits (· = filledStart) s :=
    .of_run (.start rfl) (by exact fun _ _ => ⟨trivial, fun _ _ => ⟨trivial, trivial⟩⟩) hs
  obtain ⟨t, q, hcall, hiff⟩ := realloc_one_block_iff hreach hlive (n := 100) (by decide)
  refine ⟨s, t, q, hs, hlive, hcall, hiff.mpr ?_⟩
  rintro ⟨⟨i, hi, hp, -, hnot, -⟩, -⟩
  exact hnot (hgrows i hi hp)

theorem realloc_leaves_two_blocks : ∃ s t, run twoHeaps.step filledStart filled = some s ∧ s.Live 4120 ∧
    twoHeaps.rtRealloc s 4120 200 = some (t, 8216) ∧ t.Live 8216 ∧ t.Live 4120 ∧ ¬ t.OneBlock 4120 8216 := by
  obtain ⟨s, hs, hlive, ⟨t, q⟩, hcall, rfl, hnew, hold⟩ :
      ∃ s, run twoHeaps.step filledStart filled = some s ∧ s.Live 4120 ∧
        ∃ r, twoHeaps.rtRealloc s 4120 200 = some r ∧ r.2 = 8216 ∧ r.1.Live 8216 ∧
        r.1.Live 4120 := by decide +kernel
  refine ⟨s, t, hs, hlive, hcall, hnew, hold, ?_⟩
  rintro ⟨-, he | hnot⟩
  · exact absurd he (by decide)
  · exact hnot hold

end SystemHeaps

end RtThread
