import RtThread.Lib.ByteStore
import RtThread.Lib.Pool
import RtThread.Mem.HeapShape

namespace RtThread

open ByteStore Pool List Nat

structure Mempool where
  self : BitVec 32
  startAddress : ℕ
  size : ℕ
  blockSize : ℕ
  blockList : BitVec 32
  blockTotalCount : ℕ
  blockFreeCount : ℕ

structure PoolState where
  mp : Mempool
  bytes : ℕ → BitVec 8
  live : List ℕ

structure MpMemory where
  start : ℕ
  size : ℕ
  pos : 0 < start
  bound : start + size < 2 ^ 32

def mul32 (a b : ℕ) : ℕ := a * b % 2 ^ 32

def alignUp (n : ℕ) : ℕ := add32 n 3 / 4 * 4

def blockAddr (start stride offset : ℕ) : ℕ := add32 start (mul32 offset stride)

def linkBlocks (bytes : ℕ → BitVec 8) (start stride total : ℕ) : ℕ → BitVec 8 :=
  let bytes := (List.range total).foldl (fun bytes offset =>
    store bytes (blockAddr start stride offset) (BitVec.ofNat 32 (blockAddr start stride (offset + 1)))) bytes
  store bytes (blockAddr start stride (sub32 total 1)) 0

def mpInit (self : BitVec 32) (memory : MpMemory) (blockSize : BitVec 32) (bytes : ℕ → BitVec 8) :
    Option PoolState :=
  let size := memory.size / 4 * 4
  let blockSize := alignUp blockSize.toNat
  let stride := add32 blockSize 4
  if stride = 0 then none
  else
    let total := size / stride
    some {
      mp := {
        self, size, blockSize
        startAddress := memory.start
        blockList := BitVec.ofNat 32 memory.start
        blockTotalCount := total
        blockFreeCount := total }
      bytes := linkBlocks bytes memory.start stride total
      live := [] }

def mpCreateSize (blockCount blockSize : BitVec 32) : ℕ :=
  mul32 (add32 (alignUp blockSize.toNat) 4) blockCount.toNat

def mpCreate (self : BitVec 32) (memory : MpMemory) (blockCount blockSize : BitVec 32) (bytes : ℕ → BitVec 8) :
    PoolState where
  mp := {
    self
    startAddress := memory.start
    size := mpCreateSize blockCount blockSize
    blockSize := alignUp blockSize.toNat
    blockList := BitVec.ofNat 32 memory.start
    blockTotalCount := blockCount.toNat
    blockFreeCount := blockCount.toNat }
  bytes := linkBlocks bytes memory.start (add32 (alignUp blockSize.toNat) 4) blockCount.toNat
  live := []

inductive MpOrigin
  | init (memory : MpMemory) (blockSize : BitVec 32)
  | create (memory : MpMemory) (blockCount blockSize : BitVec 32)
      (hsize : memory.size = mpCreateSize blockCount blockSize)

namespace MpOrigin

def make (self : BitVec 32) (bytes : ℕ → BitVec 8) : MpOrigin → Option PoolState
  | init memory blockSize => mpInit self memory blockSize bytes
  | create memory blockCount blockSize _ => some (mpCreate self memory blockCount blockSize bytes)

def blockSize : MpOrigin → BitVec 32
  | init _ blockSize => blockSize
  | create _ _ blockSize _ => blockSize

def Fits : MpOrigin → Prop
  | init memory blockSize => (blockSize.toNat + 3) / 4 * 4 + 4 ≤ memory.size / 4 * 4
  | create _ blockCount blockSize _ =>
    0 < blockCount.toNat ∧ ((blockSize.toNat + 3) / 4 * 4 + 4) * blockCount.toNat < 2 ^ 32

end MpOrigin

namespace PoolState

def pointer (v : BitVec 32) : Option ℕ := if v = 0 then none else some v.toNat

def next (s : PoolState) (block : ℕ) : Option ℕ := pointer (load s.bytes block)

def takeBlock (s : PoolState) : Option (PoolState × ℕ) :=
  if s.mp.blockList = 0 then none
  else
    let block := s.mp.blockList.toNat
    some ({
      mp := { s.mp with
        blockFreeCount := sub32 s.mp.blockFreeCount 1
        blockList := load s.bytes block }
      bytes := store s.bytes block s.mp.self
      live := add32 block 4 :: s.live }, add32 block 4)

def giveBlock (s : PoolState) (ptr : ℕ) : Option PoolState :=
  let block := sub32 ptr 4
  if load s.bytes block = s.mp.self then
    some {
      mp := { s.mp with
        blockFreeCount := add32 s.mp.blockFreeCount 1
        blockList := BitVec.ofNat 32 block }
      bytes := store s.bytes block s.mp.blockList
      live := s.live.erase ptr }
  else none

def MayWrite (s : PoolState) (a : ℕ) : Prop :=
  (a < s.mp.startAddress ∨ s.mp.startAddress + s.mp.size ≤ a) ∨ ∃ p ∈ s.live, p ≤ a ∧
  a < p + s.mp.blockSize

instance (s : PoolState) (a : ℕ) : Decidable (s.MayWrite a) := instDecidableOr

def write (s : PoolState) (a : ℕ) (b : BitVec 8) : PoolState := { s with bytes := Function.update s.bytes a b }

def IsBlock (s : PoolState) (a : ℕ) : Prop :=
  ∃ k < s.mp.blockTotalCount, a = s.mp.startAddress + k * (s.mp.blockSize + 4)

structure Sited (s : PoolState) : Prop where
  pos : 0 < s.mp.startAddress
  bound : s.mp.startAddress + s.mp.size < 2 ^ 32

structure Chain (s : PoolState) (l : List ℕ) : Prop where
  links : Links s.next (pointer s.mp.blockList) l
  nodup : l.Nodup
  length : l.length = s.mp.blockFreeCount
  block : ∀ a ∈ l, s.IsBlock a
  free_iff : ∀ a, s.IsBlock a → (a ∈ l ↔ a + 4 ∉ s.live)

structure Partition (blockSize : ℕ) (s : PoolState) : Prop where
  sited : s.Sited
  room : blockSize ≤ s.mp.blockSize
  inside : ∀ a, s.IsBlock a → s.mp.startAddress ≤ a ∧ a + 4 + s.mp.blockSize ≤ s.mp.startAddress + s.mp.size
  apart : ∀ a b, s.IsBlock a → s.IsBlock b → a ≠ b → a + 4 + s.mp.blockSize ≤ b ∨
    b + 4 + s.mp.blockSize ≤ a
  chain : ∃ l, s.Chain l
  live_nodup : s.live.Nodup
  live_block : ∀ p ∈ s.live, ∃ a, p = a + 4 ∧ s.IsBlock a
  header : ∀ a, a + 4 ∈ s.live → load s.bytes a = s.mp.self

variable {s : PoolState} {n a p : ℕ} {l : List ℕ}

theorem pointer_ofNat (hpos : 0 < a) (hlt : a < 2 ^ 32) : pointer (BitVec.ofNat 32 a) = some a := by
  have hnat : (BitVec.ofNat 32 a).toNat = a := mod_eq_of_lt hlt
  rw [pointer, if_neg, hnat]
  intro he
  rw [he] at hnat
  exact ne_of_gt hpos hnat.symm

theorem pointer_eq_some {v : BitVec 32} (h : pointer v = some a) : v ≠ 0 ∧ v.toNat = a := by
  unfold pointer at h
  split_ifs at h with hz
  exact ⟨hz, Option.some.inj h⟩

section

variable (h : s.Partition n)

include h

theorem Partition.ne_apart {b : ℕ} (ha : s.IsBlock a) (hb : s.IsBlock b) (hne : a ≠ b) :
    a + 4 ≤ b ∨ b + 4 ≤ a := by
  have := h.apart a b ha hb hne
  omega

theorem Partition.block_lt (ha : s.IsBlock a) : 0 < a ∧ a + 4 < 2 ^ 32 := by
  obtain ⟨hlo, hhi⟩ := h.inside a ha
  have hpos := h.sited.pos
  have hbound := h.sited.bound
  omega

theorem Partition.length_lt (hl : ∀ a ∈ l, s.IsBlock a) (hnodup : l.Nodup) : l.length < 2 ^ 32 - 3 := by
  have hsub : l ⊆ List.range (2 ^ 32 - 4) := by
    intro a ha
    have := h.block_lt (hl a ha)
    rw [mem_range]
    omega
  have hle := (subperm_of_subset hnodup hsub).length_le
  rw [length_range] at hle
  omega

theorem Partition.of_chain {t : PoolState} (hsite : ∀ b, t.IsBlock b ↔ s.IsBlock b)
    (hsize : t.mp.blockSize = s.mp.blockSize ∧ t.mp.startAddress = s.mp.startAddress ∧ t.mp.size = s.mp.size)
    (hchain : t.Chain l) (hnodup : t.live.Nodup) (hlive : ∀ p ∈ t.live, ∃ a, p = a + 4 ∧ s.IsBlock a)
    (hheader : ∀ a, a + 4 ∈ t.live → load t.bytes a = t.mp.self) : t.Partition n := by
  obtain ⟨hblock, hstart, hsize⟩ := hsize
  refine ⟨⟨?_, ?_⟩, ?_, ?_, ?_, ⟨l, hchain⟩, hnodup, ?_, hheader⟩
  · rw [hstart]
    exact h.sited.pos
  · rw [hstart, hsize]
    exact h.sited.bound
  · rw [hblock]
    exact h.room
  · intro a ha
    rw [hblock, hstart, hsize]
    exact h.inside a ((hsite a).mp ha)
  · intro a b ha hb hne
    rw [hblock]
    exact h.apart a b ((hsite a).mp ha) ((hsite b).mp hb) hne
  · intro p hp
    obtain ⟨a, rfl, ha⟩ := hlive p hp
    exact ⟨a, rfl, (hsite a).mpr ha⟩

theorem Partition.take (hfree : s.mp.blockFreeCount ≠ 0) : ∃ t p, s.takeBlock = some (t, p) ∧ t.Partition n := by
  obtain ⟨l, hc⟩ := h.chain
  obtain ⟨a, rest, rfl⟩ : ∃ a rest, l = a :: rest := by
    apply exists_cons_of_ne_nil
    rintro rfl
    exact hfree hc.length.symm
  have hlinks := hc.links
  obtain ⟨hhead, hrest⟩ := hlinks
  obtain ⟨hne, hnat⟩ := pointer_eq_some hhead
  have ha := hc.block a mem_cons_self
  obtain ⟨-, hlt⟩ := h.block_lt ha
  have hadd : add32 a 4 = a + 4 := add32_eq hlt
  obtain ⟨hnot, hnodup⟩ := nodup_cons.mp hc.nodup
  have hout : a + 4 ∉ s.live := (hc.free_iff a ha).mp mem_cons_self
  have hlength := hc.length
  rw [length_cons] at hlength
  rw [takeBlock, if_neg hne, hnat]
  dsimp only
  rw [hadd]
  refine ⟨_, a + 4, rfl, h.of_chain (l := rest) (fun b => Iff.rfl) ⟨rfl, rfl, rfl⟩ ?_ ?_ ?_ ?_⟩
  · refine ⟨?_, hnodup, ?_, fun b hb => hc.block b (mem_cons_of_mem a hb), fun b hb => ?_⟩
    · -- the header that is written is the one of the block that leaves the chain
      refine hrest.congr (fun b hb => congrArg pointer (load_store_of_apart ?_))
      exact h.ne_apart (hc.block b (mem_cons_of_mem a hb)) ha (fun he => hnot (he ▸ hb))
    · dsimp only
      unfold sub32
      have hcount := h.length_lt hc.block hc.nodup
      rw [length_cons] at hcount
      omega
    · have hiff := hc.free_iff b hb
      obtain rfl | hba := eq_or_ne b a
      · exact iff_of_false hnot (by simp)
      · simpa [hba] using hiff
  · exact nodup_cons.mpr ⟨hout, h.live_nodup⟩
  · intro p hp
    obtain rfl | hp := mem_cons.mp hp
    · exact ⟨a, rfl, ha⟩
    · exact h.live_block p hp
  · intro b hb
    obtain he | hb := mem_cons.mp hb
    · rw [add_right_cancel he]
      exact load_store_self
    · obtain ⟨c, he, hblock⟩ := h.live_block _ hb
      obtain rfl := add_right_cancel he
      rw [← h.header b hb]
      exact load_store_of_apart (h.ne_apart hblock ha (fun he => hout (he ▸ hb)))

theorem Partition.give (hp : p ∈ s.live) : ∃ t, s.giveBlock p = some t ∧ t.Partition n := by
  obtain ⟨l, hc⟩ := h.chain
  obtain ⟨a, rfl, ha⟩ := h.live_block p hp
  obtain ⟨hpos, hlt⟩ := h.block_lt ha
  have hsub : sub32 (a + 4) 4 = a := by
    unfold sub32
    omega
  have hnot : a ∉ l := fun hm => (hc.free_iff a ha).mp hm hp
  have hblock : ∀ b ∈ a :: l, s.IsBlock b := by
    intro b hb
    obtain rfl | hb := mem_cons.mp hb
    · exact ha
    · exact hc.block b hb
  have hnodup : (a :: l).Nodup := nodup_cons.mpr ⟨hnot, hc.nodup⟩
  rw [giveBlock, hsub]
  rw [if_pos (h.header a hp)]
  refine ⟨_, rfl, h.of_chain (fun b => Iff.rfl) ⟨rfl, rfl, rfl⟩ ⟨?_, hnodup, ?_, hblock, ?_⟩ ?_ ?_ ?_⟩
  · refine ⟨pointer_ofNat hpos (by omega), ?_⟩
    dsimp only [next]
    rw [load_store_self]
    refine hc.links.congr (fun b hb => congrArg pointer (load_store_of_apart ?_))
    exact h.ne_apart (hc.block b hb) ha (fun he => hnot (he ▸ hb))
  · have hcount := h.length_lt hblock hnodup
    have hlength := hc.length
    rw [length_cons] at hcount ⊢
    rw [hlength] at hcount ⊢
    rw [add32_eq (by omega)]
  · intro b hb
    have hiff := hc.free_iff b hb
    rw [h.live_nodup.mem_erase_iff]
    by_cases hba : b = a
    · simp [hba]
    · simpa [hba] using hiff
  · exact h.live_nodup.erase _
  · exact fun p hp => h.live_block p (mem_of_mem_erase hp)
  · intro b hb
    obtain ⟨hne, hb⟩ := h.live_nodup.mem_erase_iff.mp hb
    obtain ⟨c, he, hcblock⟩ := h.live_block _ hb
    obtain rfl := add_right_cancel he
    rw [← h.header b hb]
    exact load_store_of_apart (h.ne_apart hcblock ha (fun he => hne (he ▸ rfl)))

theorem Partition.write (ha : s.MayWrite a) (b : BitVec 8) : (s.write a b).Partition n := by
  have hload : ∀ c, s.IsBlock c → load (s.write a b).bytes c = load s.bytes c := by
    intro c hc
    refine load_congr (fun i hi => Function.update_of_ne ?_ _ _)
    obtain ⟨hlo, hhi⟩ := h.inside c hc
    obtain hout | ⟨p, hp, hle, hlt⟩ := ha
    · omega
    · obtain ⟨d, rfl, hd⟩ := h.live_block p hp
      by_cases hcd : c = d
      · omega
      · have := h.apart c d hc hd hcd
        omega
  obtain ⟨l, hc⟩ := h.chain
  refine h.of_chain (l := l) (fun c => Iff.rfl) ⟨rfl, rfl, rfl⟩ ?_ h.live_nodup h.live_block ?_
  · exact ⟨hc.links.congr (fun c hcl => congrArg pointer (hload c (hc.block c hcl))), hc.nodup, hc.length, hc.block,
      hc.free_iff⟩
  · intro c hlive
    obtain ⟨d, he, hd⟩ := h.live_block _ hlive
    obtain rfl := add_right_cancel he
    rw [hload c hd]
    exact h.header c hlive

end

section Made

variable {start stride total : ℕ} {bytes : ℕ → BitVec 8}

theorem blockAddr_eq (hbound : start + total * stride < 2 ^ 32) {k : ℕ} (hk : k ≤ total) :
    blockAddr start stride k = start + k * stride := by
  have hmul : k * stride ≤ total * stride := mul_le_mul_right stride hk
  rw [blockAddr, mul32, mod_eq_of_lt (by omega), add32_eq (by omega)]

theorem block_add_le (start stride : ℕ) {i j : ℕ} (hij : i < j) :
    start + i * stride + stride ≤ start + j * stride := by
  have hmul := mul_le_mul_right stride (succ_le_of_lt hij)
  rw [succ_mul] at hmul
  omega

section

variable (hbound : start + (total + 1) * stride < 2 ^ 32)

include hbound

theorem lastBlock_eq (hcount : total + 1 < 2 ^ 32) :
    blockAddr start stride (sub32 (total + 1) 1) = start + total * stride := by
  rw [show sub32 (total + 1) 1 = total by unfold sub32; omega]
  exact blockAddr_eq hbound (le_succ total)

theorem load_linkBlocks (hstride : 4 ≤ stride) (hcount : total + 1 < 2 ^ 32) {k : ℕ} (hk : k < total) :
    load (linkBlocks bytes start stride (total + 1)) (start + k * stride) =
      BitVec.ofNat 32 (start + (k + 1) * stride) := by
  have hapart := block_add_le start stride hk
  rw [linkBlocks, lastBlock_eq hbound hcount, load_store_of_apart (.inl (by omega)),
    ← blockAddr_eq hbound (show k ≤ total + 1 by omega), ← blockAddr_eq hbound
    (show k + 1 ≤ total + 1 by omega)]
  apply load_foldl_store
  · intro i j hij hj
    rw [blockAddr_eq hbound (by omega), blockAddr_eq hbound (by omega)]
    have := block_add_le start stride hij
    omega
  · omega

theorem links_linkBlocks (hpos : 0 < start) (hstride : 4 ≤ stride) :
    Links (fun a => pointer (load (linkBlocks bytes start stride (total + 1)) a)) (some start)
      ((List.range (total + 1)).map (fun k => start + k * stride)) := by
  have hmul := mul_le_mul_left (total + 1) hstride
  have hcount : total + 1 < 2 ^ 32 := by omega
  have hchain : Links (fun a => pointer (load (linkBlocks bytes start stride (total + 1)) a)) _ _ :=
    links_range (f := fun k => start + k * stride) (j := 0) (n := total) ?_ ?_
  · simpa [range_eq_range'] using hchain
  · intro k hk
    simp only [zero_add]
    rw [load_linkBlocks hbound hstride hcount hk]
    apply pointer_ofNat (by omega)
    have := mul_le_mul_right stride (show k + 1 ≤ total + 1 by omega)
    omega
  · rw [zero_add, linkBlocks, lastBlock_eq hbound hcount, load_store_self]
    rfl

end

structure Fresh (s : PoolState) (bytes : ℕ → BitVec 8) : Prop where
  sited : s.Sited
  live : s.live = []
  list : s.mp.blockList = BitVec.ofNat 32 s.mp.startAddress
  count : s.mp.blockFreeCount = s.mp.blockTotalCount
  bytes : s.bytes = linkBlocks bytes s.mp.startAddress (add32 s.mp.blockSize 4) s.mp.blockTotalCount

variable (h : s.Fresh bytes)

include h

theorem Fresh.pointer_list : pointer s.mp.blockList = some s.mp.startAddress := by
  have hbound := h.sited.bound
  rw [h.list]
  exact pointer_ofNat h.sited.pos (by omega)

theorem Fresh.total_pos (hp : s.Partition n) : 0 < s.mp.blockTotalCount := by
  obtain ⟨l, hc⟩ := hp.chain
  have hhead := hc.links.head
  rw [h.pointer_list] at hhead
  rw [← h.count, ← hc.length]
  apply length_pos_of_ne_nil
  rintro rfl
  exact absurd hhead (by simp)

theorem Fresh.partition (hn : n ≤ s.mp.blockSize) (htotal : 0 < s.mp.blockTotalCount)
    (hsize : s.mp.blockTotalCount * (s.mp.blockSize + 4) ≤ s.mp.size) : s.Partition n := by
  have hbound := h.sited.bound
  obtain ⟨m, hm⟩ : ∃ m, s.mp.blockTotalCount = m + 1 := ⟨s.mp.blockTotalCount - 1, by omega⟩
  rw [hm] at hsize
  have hone : s.mp.blockSize + 4 ≤ (m + 1) * (s.mp.blockSize + 4) := Nat.le_mul_of_pos_left _ (Nat.succ_pos m)
  have hblock : ∀ a, a ∈ (List.range (m + 1)).map (fun k => s.mp.startAddress + k * (s.mp.blockSize + 4)) ↔
      s.IsBlock a := by
    intro a
    simp [IsBlock, hm, eq_comm]
  refine ⟨h.sited, hn, ?_, ?_, ⟨_, ?_, ?_, ?_, fun a ha => (hblock a).mp ha, ?_⟩, ?_, ?_, ?_⟩
  · rintro a ⟨k, hk, rfl⟩
    rw [hm] at hk
    have := block_add_le s.mp.startAddress (s.mp.blockSize + 4) hk
    omega
  · rintro a b ⟨j, -, rfl⟩ ⟨k, -, rfl⟩ hne
    obtain hlt | hlt := Nat.lt_or_gt_of_ne (show j ≠ k from fun he => hne (he ▸ rfl))
    · have := block_add_le s.mp.startAddress (s.mp.blockSize + 4) hlt
      omega
    · have := block_add_le s.mp.startAddress (s.mp.blockSize + 4) hlt
      omega
  · unfold next
    rw [h.pointer_list, h.bytes, hm, add32_eq (by omega)]
    exact links_linkBlocks (by omega) h.sited.pos (by omega)
  · refine nodup_range.map (fun j k he => ?_)
    exact Nat.eq_of_mul_eq_mul_right (Nat.succ_pos (s.mp.blockSize + 3)) (Nat.add_left_cancel he)
  · rw [length_map, length_range, h.count, hm]
  · intro a ha
    rw [hblock, h.live]
    simp [ha]
  · simp [h.live]
  · simp [h.live]
  · simp [h.live]

end Made

end PoolState

namespace MpOrigin

open PoolState

variable {self : BitVec 32} {bytes : ℕ → BitVec 8} {s : PoolState}

theorem make_fresh {o : MpOrigin} (h : o.make self bytes = some s) : s.Fresh bytes := by
  cases o with
  | init memory blockSize =>
    have hpos := memory.pos
    have hbound := memory.bound
    simp only [make, mpInit] at h
    split_ifs at h
    cases h
    exact ⟨⟨hpos, by dsimp only; omega⟩, rfl, rfl, rfl, rfl⟩
  | create memory blockCount blockSize hsize =>
    cases h
    have hbound := memory.bound
    rw [hsize] at hbound
    exact ⟨⟨memory.pos, hbound⟩, rfl, rfl, rfl, rfl⟩

theorem alignUp_eq {n : ℕ} (hn : n ≤ alignUp n) : alignUp n = (n + 3) / 4 * 4 ∧ alignUp n ≤ 0xfffffffc := by
  unfold alignUp add32 at *
  omega

theorem le_alignUp {n : ℕ} (hn : (n + 3) / 4 * 4 < 2 ^ 32) : n ≤ alignUp n := by
  unfold alignUp add32
  omega

theorem init_partition_iff (memory : MpMemory) (blockSize : BitVec 32) :
    (∃ s, mpInit self memory blockSize bytes = some s ∧ s.Partition blockSize.toNat) ↔
      (init memory blockSize).Fits := by
  have hbound := memory.bound
  rw [Fits]
  constructor
  · rintro ⟨s, hmake, hp⟩
    have htotal := (make_fresh (o := .init memory blockSize) hmake).total_pos hp
    have hroom := hp.room
    unfold mpInit at hmake
    dsimp only at hmake
    split_ifs at hmake with hzero
    cases hmake
    obtain ⟨-, hstride⟩ := Nat.div_pos_iff.mp htotal
    obtain ⟨halign, hle⟩ := alignUp_eq hroom
    unfold add32 at hstride hzero
    omega
  · intro hfits
    have hroom : blockSize.toNat ≤ alignUp blockSize.toNat := le_alignUp (by omega)
    have hstride : add32 (alignUp blockSize.toNat) 4 = alignUp blockSize.toNat + 4 := by
      rw [(alignUp_eq hroom).1]
      exact add32_eq (by omega)
    rw [← (alignUp_eq hroom).1, ← hstride] at hfits
    have hpos : add32 (alignUp blockSize.toNat) 4 ≠ 0 := by omega
    have hmake : ∃ s, mpInit self memory blockSize bytes = some s := ⟨_, if_neg hpos⟩
    obtain ⟨s, hmake⟩ := hmake
    refine ⟨s, hmake, ?_⟩
    have hfresh := make_fresh (o := .init memory blockSize) hmake
    obtain rfl := Option.some.inj ((if_neg hpos).symm.trans hmake)
    apply hfresh.partition hroom
    · exact Nat.div_pos hfits (Nat.pos_of_ne_zero hpos)
    · rw [← hstride]
      exact Nat.div_mul_le_self _ _

theorem create_partition_iff (memory : MpMemory) (blockCount blockSize : BitVec 32)
    (hsize : memory.size = mpCreateSize blockCount blockSize) :
    (mpCreate self memory blockCount blockSize bytes).Partition blockSize.toNat ↔
      (create memory blockCount blockSize hsize).Fits := by
  have hfresh : (mpCreate self memory blockCount blockSize bytes).Fresh bytes :=
    make_fresh (o := .create memory blockCount blockSize hsize) rfl
  constructor
  · intro hp
    have htotal := hfresh.total_pos hp
    refine ⟨htotal, ?_⟩
    -- the last block ends inside of the pool
    obtain ⟨m, hm⟩ : ∃ m, blockCount.toNat = m + 1 :=
      ⟨blockCount.toNat - 1, (Nat.succ_pred_eq_of_pos htotal).symm⟩
    have hlast := (hp.inside _ ⟨m, by simp [mpCreate, hm], rfl⟩).2
    have hbound := hfresh.sited.bound
    rw [← (alignUp_eq hp.room).1, hm, Nat.mul_succ, Nat.mul_comm]
    simp only [mpCreate] at hlast hbound
    omega
  · rintro ⟨hpos, hlt⟩
    have hone := Nat.le_mul_of_pos_right ((blockSize.toNat + 3) / 4 * 4 + 4) hpos
    have hroom : blockSize.toNat ≤ alignUp blockSize.toNat := le_alignUp (by omega)
    rw [← (alignUp_eq hroom).1] at hlt hone
    apply hfresh.partition hroom hpos
    simp only [mpCreate, mpCreateSize]
    rw [add32_eq (by omega), mul32, Nat.mod_eq_of_lt hlt, Nat.mul_comm]

theorem make_partition_iff (o : MpOrigin) (self : BitVec 32) (bytes : ℕ → BitVec 8) :
    (∃ s, o.make self bytes = some s ∧ s.Partition o.blockSize.toNat) ↔ o.Fits := by
  cases o with
  | init memory blockSize => exact init_partition_iff memory blockSize
  | create memory blockCount blockSize hsize =>
    have hiff : (mpCreate self memory blockCount blockSize bytes).Partition blockSize.toNat ↔ _ :=
      create_partition_iff memory blockCount blockSize hsize
    rw [← hiff]
    simp [make, MpOrigin.blockSize]

end MpOrigin

end RtThread
