import RtThread.Lib.ByteStore
import Mathlib.Algebra.GroupWithZero.Nat

namespace RtThread

open ByteStore BitVec

/-- What `rt_malloc` may return for a request. -/
structure HeapBlock (request : BitVec 32) where
  ptr : BitVec 32
  length : ℕ
  ne_zero : ptr ≠ 0
  dvd_ptr : 4 ∣ ptr.toNat
  request_le : request.toNat ≤ length
  end_lt : ptr.toNat + length < 2 ^ 32

def alignWord (x : BitVec 32) : BitVec 32 := (x + 0x03) &&& ~~~0x03

def alignSize (size align : BitVec 32) : BitVec 32 := alignWord size + alignWord align

def alignPtr (ptr align : BitVec 32) : BitVec 32 :=
  if ptr &&& (align - 1) = 0 then ptr + align else (ptr + (align - 1)) &&& ~~~(align - 1)

def rtMallocAlign (rtMalloc : (n : BitVec 32) → Option (HeapBlock n)) (m : ℕ → BitVec 8)
    (size align : BitVec 32) :
    (ℕ → BitVec 8) × BitVec 32 :=
  match rtMalloc (alignSize size align) with
  | none => (m, 0)
  | some block =>
    let ptr := alignPtr block.ptr (alignWord align)
    (store m (ptr - 4).toNat block.ptr, ptr)

/-- The argument of `rt_free`. -/
def rtFreeAlign (m : ℕ → BitVec 8) (ptr : BitVec 32) : BitVec 32 := load m (ptr - 4).toNat

variable {a : BitVec 32}

theorem and_mask (x : BitVec 32) {n : ℕ} (ha : a.toNat = 2 ^ n) : (x &&& (a - 1)).toNat = x.toNat % a.toNat := by
  have hpos := Nat.two_pow_pos n
  have hmask : (a - 1).toNat = 2 ^ n - 1 := by
    rw [toNat_sub_of_le (by rw [le_def, ha]; exact hpos), ha]
    rfl
  rw [toNat_and, hmask, Nat.and_two_pow_sub_one_eq_mod, ha]

theorem and_not_mask (x : BitVec 32) {n : ℕ} (ha : a.toNat = 2 ^ n) :
    (x &&& ~~~(a - 1)).toNat = x.toNat - x.toNat % a.toNat := by
  have hsplit : x = (x &&& ~~~(a - 1)) + (x &&& (a - 1)) := by
    rw [add_eq_or_of_and_eq_zero _ _ (by ext; simp; grind)]
    ext
    simp
    grind
  have hsum := congrArg BitVec.toNat hsplit
  have hle : (x &&& ~~~(a - 1)).toNat ≤ x.toNat := by
    rw [toNat_and]
    exact Nat.and_le_left
  rw [toNat_add, and_mask x ha] at hsum
  have := x.isLt
  have := Nat.mod_le x.toNat a.toNat
  omega

theorem toNat_alignWord {x : BitVec 32} (h : x.toNat + 3 < 2 ^ 32) :
    (alignWord x).toNat = x.toNat + 3 - (x.toNat + 3) % 4 := by
  have hsum : (x + 0x03).toNat = x.toNat + 3 := by
    rw [toNat_add]
    exact Nat.mod_eq_of_lt h
  rw [alignWord, show (0x03 : BitVec 32) = 4 - 1 from rfl, and_not_mask _ (n := 2) rfl, ← hsum]
  rfl

theorem toNat_alignWord_two_pow {n : ℕ} (ha : a.toNat = 2 ^ n) :
    (alignWord a).toNat = max a.toNat 4 ∧ ∃ k, 2 ≤ k ∧ n ≤ k ∧ (alignWord a).toNat = 2 ^ k := by
  have hn : n < 32 := (Nat.pow_lt_pow_iff_right Nat.one_lt_two).mp (ha ▸ a.isLt)
  have hle : 2 ^ n ≤ 2 ^ 31 := Nat.pow_le_pow_right Nat.two_pos (by omega)
  rw [toNat_alignWord (by omega), ha]
  by_cases hn : 2 ≤ n
  · obtain ⟨j, rfl⟩ := Nat.exists_eq_add_of_le hn
    have hpos := Nat.two_pow_pos j
    rw [Nat.pow_add]
    exact ⟨by omega, 2 + j, hn, Nat.le_refl _, by rw [Nat.pow_add]; omega⟩
  · obtain rfl | rfl : n = 0 ∨ n = 1 := by omega
    · exact ⟨rfl, 2, Nat.le_refl _, by omega, rfl⟩
    · exact ⟨rfl, 2, Nat.le_refl _, by omega, rfl⟩

theorem alignPtr_spec {ptr a : BitVec 32} {k : ℕ} (ha : a.toNat = 2 ^ k) (hk : 2 ≤ k) (hptr : 4 ∣ ptr.toNat)
    (hend : ptr.toNat + a.toNat < 2 ^ 32) : a.toNat ∣ (alignPtr ptr a).toNat ∧
      ptr.toNat + 4 ≤ (alignPtr ptr a).toNat ∧ (alignPtr ptr a).toNat ≤ ptr.toNat + a.toNat := by
  have hfour : 4 ∣ a.toNat := ha ▸ Nat.pow_dvd_pow 2 hk
  have hpos : 0 < a.toNat := ha ▸ Nat.two_pow_pos k
  have hmask := and_mask ptr ha
  unfold alignPtr
  split
  · next hzero =>
    rw [hzero] at hmask
    have hdvd : a.toNat ∣ ptr.toNat := Nat.dvd_of_mod_eq_zero hmask.symm
    rw [toNat_add, Nat.mod_eq_of_lt hend]
    have hle := Nat.le_of_dvd hpos hfour
    exact ⟨Nat.dvd_add hdvd (Nat.dvd_refl _), by omega, Nat.le_refl _⟩
  · next hne =>
    have hrest : ptr.toNat % a.toNat ≠ 0 := by
      rw [← hmask]
      exact fun h => hne (eq_of_toNat_eq h)
    have hsum : (ptr + (a - 1)).toNat = ptr.toNat + (a.toNat - 1) := by
      rw [toNat_add, toNat_sub_of_le (by rw [le_def]; exact hpos)]
      exact Nat.mod_eq_of_lt (by omega)
    rw [and_not_mask _ ha, hsum]
    have hmod : (ptr.toNat + (a.toNat - 1)) % a.toNat = ptr.toNat % a.toNat - 1 := by
      have hdiv := Nat.div_add_mod ptr.toNat a.toNat
      have hlt := Nat.mod_lt ptr.toNat hpos
      rw [show ptr.toNat + (a.toNat - 1) = a.toNat * (ptr.toNat / a.toNat) +
        (ptr.toNat % a.toNat - 1) + a.toNat by omega,
        Nat.add_mod_right, Nat.mul_add_mod, Nat.mod_eq_of_lt (by omega)]
    have hlt := Nat.mod_lt ptr.toNat hpos
    have hle := Nat.mod_le ptr.toNat a.toNat
    have hrest4 : 4 ∣ ptr.toNat % a.toNat := (Nat.dvd_mod_iff hfour).mpr hptr
    rw [hmod, show ptr.toNat + (a.toNat - 1) -
      (ptr.toNat % a.toNat - 1) = ptr.toNat - ptr.toNat % a.toNat + a.toNat by omega]
    exact ⟨Nat.dvd_add (Nat.dvd_sub_mod _) (Nat.dvd_refl _), by omega, by omega⟩

theorem malloc_align_inside (rtMalloc : (n : BitVec 32) → Option (HeapBlock n)) (m : ℕ → BitVec 8)
    (size align : BitVec 32) (hpow : ∃ n, align.toNat = 2 ^ n)
    (htotal : (size.toNat + 3) / 4 * 4 + max align.toNat 4 < 2 ^ 32) {block : HeapBlock (alignSize size align)}
    (hblock : rtMalloc (alignSize size align) = some block) :
    ∃ m' p, rtMallocAlign rtMalloc m size align = (m', p) ∧ align.toNat ∣ p.toNat ∧
      block.ptr.toNat + 4 ≤ p.toNat ∧ p.toNat + size.toNat ≤ block.ptr.toNat + block.length ∧
      ∀ m'', (∀ x, p.toNat - 4 ≤ x → x < p.toNat → m'' x = m' x) → rtFreeAlign m'' p = block.ptr := by
  obtain ⟨n, hn⟩ := hpow
  obtain ⟨hmax, k, hk, hnk, ha⟩ := toNat_alignWord_two_pow hn
  have hdvd : align.toNat ∣ (alignWord align).toNat := by
    rw [hn, ha]
    exact Nat.pow_dvd_pow 2 hnk
  have hsize := toNat_alignWord (x := size) (by omega)
  have htoNat : (alignSize size align).toNat = (alignWord size).toNat + (alignWord align).toNat := by
    rw [alignSize, toNat_add]
    exact Nat.mod_eq_of_lt (by omega)
  have hrequest := block.request_le
  have hend := block.end_lt
  obtain ⟨hmul, hlow, hhigh⟩ := alignPtr_spec ha hk block.dvd_ptr (by omega)
  simp only [rtMallocAlign, hblock]
  refine ⟨_, _, rfl, Nat.dvd_trans hdvd hmul, hlow, by omega, fun m'' hm => ?_⟩
  have hword : (alignPtr block.ptr (alignWord align) - 4).toNat = _ - 4 :=
    toNat_sub_of_le (le_def.mpr (Nat.le_trans (Nat.le_add_left 4 _) hlow))
  rw [rtFreeAlign, load_congr (m := store m _ block.ptr), load_store_self]
  intro i hi
  refine hm _ ?_ ?_
  · omega
  · omega

theorem malloc_align_inside_sixteen : ∃ rtMalloc block m' p, rtMalloc (alignSize 10 16) = some block ∧
    rtMallocAlign rtMalloc (fun _ => 0) 10 16 = (m', p) ∧ 16 ∣ p.toNat ∧ rtFreeAlign m' p = block.ptr := by
  let rtMalloc (n : BitVec 32) : Option (HeapBlock n) :=
    if h : n.toNat ≤ 64 then some ⟨0x1004, 64, by decide, by decide, h, by decide⟩ else none
  have hblock : rtMalloc (alignSize 10 16) = some _ := dif_pos (by decide)
  obtain ⟨m', p, hcall, hdvd, -, -, hfree⟩ :=
    malloc_align_inside rtMalloc (fun _ => 0) 10 16 ⟨4, rfl⟩ (by decide) hblock
  exact ⟨rtMalloc, _, m', p, hblock, hcall, hdvd, hfree m' (fun _ _ _ => rfl)⟩

end RtThread
