import RtThread.Lib.LevelSet
import RtThread.Kernel.Scheduler

namespace RtThread

open Function

theorem lowestBitBitmap_spec : ∀ n < 256, n ≠ 0 → n.testBit (lowestBitBitmap.getD n 0) = true ∧
    ∀ q < lowestBitBitmap.getD n 0, n.testBit q = false := by
  decide +kernel

def LowestBit (value : BitVec 32) (p : ℕ) : Prop :=
  value.getLsbD p = true ∧ ∀ q < p, value.getLsbD q = false

variable {value : BitVec 32}

theorem lowestBit_of_byte {byte : BitVec 32} {i : ℕ} (hne : byte ≠ 0)
    (hbyte : ∀ q, byte.getLsbD q = (decide (q < 8) && value.getLsbD (i + q)))
    (hlow : ∀ q < i, value.getLsbD q = false) : LowestBit value (lowestBitBitmap.getD byte.toNat 0 + i) := by
  have hlt : byte.toNat < 256 := by
    apply Nat.lt_pow_two_of_testBit (n := 8)
    intro q hq
    rw [BitVec.testBit_toNat, hbyte, decide_eq_false (by omega), Bool.false_and]
  obtain ⟨hbit, hmin⟩ := lowestBitBitmap_spec byte.toNat hlt (fun h => hne (BitVec.eq_of_toNat_eq h))
  rw [BitVec.testBit_toNat, hbyte, Bool.and_eq_true, decide_eq_true_eq] at hbit
  refine ⟨by rw [Nat.add_comm]; exact hbit.2, fun q hq => ?_⟩
  by_cases hqi : q < i
  · exact hlow q hqi
  · have h := hmin (q - i) (by omega)
    rw [BitVec.testBit_toNat, hbyte, decide_eq_true (by omega), Bool.true_and] at h
    rwa [Nat.add_sub_cancel' (by omega)] at h

theorem byte_getLsbD (value : BitVec 32) {i : ℕ} (hi : i ≤ 24) (q : ℕ) :
    ((value &&& 0xff#32 <<< i) >>> i).getLsbD q = (decide (q < 8) && value.getLsbD (i + q)) := by
  have hff : (0xff#32).getLsbD q = decide (q < 8) := Nat.testBit_two_pow_sub_one 8 q
  rw [BitVec.getLsbD_ushiftRight, BitVec.getLsbD_and, BitVec.getLsbD_shiftLeft, Nat.add_sub_cancel_left, hff]
  by_cases hq : q < 8
  · have hlt : i + q < 32 := by omega
    simp [hq, hlt]
  · simp [hq]

theorem bits_false_of_byte {i : ℕ} (hi : i ≤ 24) (h : value &&& 0xff#32 <<< i = 0)
    (hlow : ∀ q < i, value.getLsbD q = false) : ∀ q < i + 8, value.getLsbD q = false := by
  intro q hq
  by_cases hqi : q < i
  · exact hlow q hqi
  · have hbit := byte_getLsbD value hi (q - i)
    rw [h, Nat.add_sub_cancel' (by omega), decide_eq_true (by omega)] at hbit
    simpa using hbit.symm

theorem ffs_lowest (hne : value ≠ 0) : LowestBit value (ffs value - 1) := by
  have hbyte : ∀ {i : ℕ}, i ≤ 24 → value &&& 0xff#32 <<< i ≠ 0 → (∀ q < i, value.getLsbD q = false) →
      LowestBit value (lowestBitBitmap.getD ((value &&& 0xff#32 <<< i) >>> i).toNat 0 + i) := by
    intro i hi h hlow
    refine lowestBit_of_byte (fun hz => h ?_) (byte_getLsbD value hi) hlow
    apply BitVec.eq_of_getLsbD_eq
    intro q hq
    by_cases hqi : q < i
    · simp [hqi]
    · have hbit := congrArg (·.getLsbD (q - i)) hz
      simpa [Nat.add_sub_cancel' (Nat.le_of_not_lt hqi)] using hbit
  have hlow₀ : ∀ q < 0, value.getLsbD q = false := fun q hq => absurd hq (Nat.not_lt_zero q)
  unfold ffs
  rw [if_neg hne]
  split_ifs with h₀ h₁ h₂
  · exact hbyte (by decide) h₀ hlow₀
  · have hlow₁ := bits_false_of_byte (by decide) (not_not.mp h₀) hlow₀
    exact hbyte (i := 8) (by decide) h₁ hlow₁
  · have hlow₁ := bits_false_of_byte (i := 0) (by decide) (not_not.mp h₀) hlow₀
    have hlow₂ := bits_false_of_byte (i := 8) (by decide) (not_not.mp h₁) hlow₁
    exact hbyte (i := 16) (by decide) h₂ hlow₂
  · have hlow₁ := bits_false_of_byte (i := 0) (by decide) (not_not.mp h₀) hlow₀
    have hlow₂ := bits_false_of_byte (i := 8) (by decide) (not_not.mp h₁) hlow₁
    have hlow₃ := bits_false_of_byte (i := 16) (by decide) (not_not.mp h₂) hlow₂
    refine hbyte (i := 24) (by decide) (fun h₃ => hne ?_) hlow₃
    have hlow₄ := bits_false_of_byte (i := 24) (by decide) h₃ hlow₃
    exact BitVec.eq_of_getLsbD_eq (fun q hq => (hlow₄ q hq).trans BitVec.getLsbD_zero.symm)

theorem ffs_pos (hne : value ≠ 0) : 0 < ffs value := by
  unfold ffs
  rw [if_neg hne]
  split_ifs <;> omega

theorem ne_zero_of_getLsbD {w p : ℕ} {value : BitVec w} (h : value.getLsbD p = true) : value ≠ 0 := by
  rintro rfl
  simp at h

theorem LowestBit.isLeast {p : ℕ} (h : LowestBit value p) : IsLeast {q | value.getLsbD q = true} p := by
  refine ⟨h.1, fun q hq => ?_⟩
  by_contra hlt
  rw [Set.mem_ofPred_eq, h.2 q (Nat.lt_of_not_le hlt)] at hq
  cases hq

theorem priorityMask_not_getLsbD {p q : ℕ} (hp : p < 32) (hq : q < 32) :
    (~~~priorityMask p).getLsbD q = true ↔ q ≠ p := by
  rw [BitVec.getLsbD_not, decide_eq_true hq, Bool.true_and, Bool.not_eq_true', ← Bool.not_eq_true,
    priorityMask_getLsbD hp]

def wordLevels : LevelSet 32 (BitVec 32) where
  empty := 0
  add group p := group ||| priorityMask p
  remove group p := group &&& ~~~priorityMask p
  least group := ffs group - 1
  Has group p := group.getLsbD p = true
  Valid _ := True
  valid_empty := trivial
  valid_add _ _ := trivial
  valid_remove _ _ := trivial
  not_has_empty p := by simp
  has_add hp := by
    rw [BitVec.getLsbD_or, Bool.or_eq_true, priorityMask_getLsbD hp, or_comm]
  has_remove hp := by
    rw [BitVec.getLsbD_and, Bool.and_eq_true, and_comm, and_congr_left_iff]
    exact fun hbit => priorityMask_not_getLsbD hp (BitVec.lt_of_getLsbD hbit)
  isLeast _ h := (ffs_lowest (ne_zero_of_getLsbD h)).isLeast

def number (priority : ℕ) : ℕ := priority >>> 3

def numberMask (priority : ℕ) : BitVec 32 := 1#32 <<< number priority

def highMask (priority : ℕ) : BitVec 8 := 1#8 <<< (priority &&& 7)

theorem number_eq (p : ℕ) : number p = p / 8 := Nat.shiftRight_eq_div_pow p 3

theorem low_eq (p : ℕ) : p &&& 7 = p % 8 := Nat.and_two_pow_sub_one_eq_mod p 3

theorem highMask_getLsbD {p q : ℕ} : (highMask p).getLsbD q = true ↔ q = p % 8 := by
  rw [highMask, low_eq, BitVec.getLsbD_shiftLeft, BitVec.getLsbD_one]
  simp only [Bool.and_eq_true, decide_eq_true_eq, Bool.not_eq_true', decide_eq_false_iff_not]
  omega

structure ReadyBits where
  group : BitVec 32
  table : ℕ → BitVec 8

namespace ReadyBits

def insert (b : ReadyBits) (priority : ℕ) : ReadyBits where
  table := update b.table (number priority) (b.table (number priority) ||| highMask priority)
  group := b.group ||| numberMask priority

def remove (b : ReadyBits) (priority : ℕ) : ReadyBits :=
  let table := update b.table (number priority) (b.table (number priority) &&& ~~~highMask priority)
  { table, group := if table (number priority) = 0 then b.group &&& ~~~numberMask priority else b.group }

def highestReadyPriority (b : ReadyBits) : ℕ :=
  let number := ffs b.group - 1
  (number <<< 3) + ffs ((b.table number).setWidth 32) - 1

def Has (b : ReadyBits) (p : ℕ) : Prop := (b.table (p / 8)).getLsbD (p % 8) = true

def Valid (b : ReadyBits) : Prop := ∀ n, b.group.getLsbD n = true ↔ b.table n ≠ 0

variable {b : ReadyBits} {p q : ℕ}

theorem insert_table (n : ℕ) : (b.insert p).table n = if n = p / 8 then b.table n ||| highMask p else b.table n := by
  simp only [insert, number_eq, update_apply]
  split_ifs with hn
  · rw [hn]
  · rfl

theorem remove_table (n : ℕ) :
    (b.remove p).table n = if n = p / 8 then b.table n &&& ~~~highMask p else b.table n := by
  simp only [remove, number_eq, update_apply]
  split_ifs with hn
  · rw [hn]
  · rfl

theorem remove_group : (b.remove p).group =
    if (b.remove p).table (p / 8) = 0 then b.group &&& ~~~priorityMask (p / 8) else b.group := by
  rw [← number_eq]
  rfl

theorem has_insert : (b.insert p).Has q ↔ q = p ∨ b.Has q := by
  unfold Has
  rw [insert_table]
  split_ifs with hn
  · have hlow : q % 8 = p % 8 ↔ q = p := by omega
    rw [BitVec.getLsbD_or, Bool.or_eq_true, highMask_getLsbD, hlow, or_comm]
  · have hne : q ≠ p := fun h => hn (congrArg (· / 8) h)
    simp [hne]

theorem has_remove : (b.remove p).Has q ↔ q ≠ p ∧ b.Has q := by
  unfold Has
  rw [remove_table]
  split_ifs with hn
  · have hlow : q % 8 = p % 8 ↔ q = p := by omega
    rw [BitVec.getLsbD_and, BitVec.getLsbD_not, Bool.and_eq_true, decide_eq_true (Nat.mod_lt q (by decide)),
      Bool.true_and, Bool.not_eq_true', ← Bool.not_eq_true, highMask_getLsbD, hlow, and_comm]
  · have hne : q ≠ p := fun h => hn (congrArg (· / 8) h)
    simp [hne]

theorem Valid.insert (h : b.Valid) (hp : p < 256) : (b.insert p).Valid := by
  intro n
  have hgroup : (b.insert p).group = b.group ||| priorityMask (p / 8) := by
    rw [← number_eq]
    rfl
  rw [hgroup, BitVec.getLsbD_or, Bool.or_eq_true, priorityMask_getLsbD (by omega), insert_table]
  split_ifs with hn
  · have hbit : (b.table n ||| highMask p).getLsbD (p % 8) = true := by
      rw [BitVec.getLsbD_or, highMask_getLsbD.mpr rfl, Bool.or_true]
    exact iff_of_true (.inr hn) (ne_zero_of_getLsbD hbit)
  · rw [h n]
    simp [hn]

theorem Valid.remove (h : b.Valid) (hp : p < 256) : (b.remove p).Valid := by
  intro n
  rw [remove_group]
  by_cases hn : n = p / 8
  · subst hn
    split_ifs with hzero
    -- the last bit of the byte went, and so does the byte's bit of the group
    · rw [BitVec.getLsbD_and, Bool.and_eq_true, priorityMask_not_getLsbD (by omega) (by omega)]
      simp [hzero]
    · refine iff_of_true ((h _).mpr (fun hz => hzero ?_)) hzero
      rw [remove_table, if_pos rfl, hz]
      exact BitVec.zero_and
  · have htable : (b.remove p).table n = b.table n := by rw [remove_table, if_neg hn]
    rw [htable, ← h n]
    split_ifs
    · rw [BitVec.getLsbD_and, Bool.and_eq_true, and_iff_left_iff_imp]
      exact fun hbit => (priorityMask_not_getLsbD (by omega) (BitVec.lt_of_getLsbD hbit)).mpr hn
    · rfl

theorem Valid.isLeast (h : b.Valid) (hp : b.Has p) : IsLeast {q | b.Has q} b.highestReadyPriority := by
  have hbyte : ∀ {q}, b.Has q → b.group.getLsbD (q / 8) = true := fun hq => (h _).mpr (ne_zero_of_getLsbD hq)
  obtain ⟨hgroup, hfirst⟩ := ffs_lowest (ne_zero_of_getLsbD (hbyte hp))
  generalize hn : ffs b.group - 1 = n at hgroup hfirst
  have hwide : ∀ i, ((b.table n).setWidth 32).getLsbD i = (b.table n).getLsbD i := by
    intro i
    rw [BitVec.getLsbD_setWidth]
    by_cases hi : i < 32
    · rw [decide_eq_true hi, Bool.true_and]
    · rw [BitVec.getLsbD_of_ge _ _ (by omega), Bool.and_false]
  have hne : (b.table n).setWidth 32 ≠ 0 := by
    intro hz
    refine (h n).mp hgroup (BitVec.eq_of_getLsbD_eq (fun i _ => ?_))
    rw [← hwide, hz]
    exact BitVec.getLsbD_zero.trans BitVec.getLsbD_zero.symm
  obtain ⟨hbit, hlow⟩ := ffs_lowest hne
  obtain ⟨m, hm⟩ : ∃ m, ffs ((b.table n).setWidth 32) = m + 1 := ⟨_, (Nat.sub_add_cancel (ffs_pos hne)).symm⟩
  rw [hm, Nat.add_sub_cancel, hwide] at hbit
  have hm8 : m < 8 := BitVec.lt_of_getLsbD hbit
  have heq : b.highestReadyPriority = n * 8 + m := by
    simp only [highestReadyPriority, hn, hm, Nat.shiftLeft_eq]
    omega
  rw [heq]
  constructor
  · have hdiv : (n * 8 + m) / 8 = n := by omega
    have hmod : (n * 8 + m) % 8 = m := by omega
    rw [Set.mem_ofPred_eq, Has, hdiv, hmod]
    exact hbit
  · intro q hq
    by_contra hlt
    by_cases hsame : q / 8 = n
    · have hz := hlow (q % 8) (by omega)
      rw [hwide, ← hsame, hq] at hz
      cases hz
    · have hz := hfirst (q / 8) (by omega)
      rw [hbyte hq] at hz
      cases hz

end ReadyBits

def tableLevels : LevelSet 256 ReadyBits where
  empty := ⟨0, fun _ => 0⟩
  add := ReadyBits.insert
  remove := ReadyBits.remove
  least := ReadyBits.highestReadyPriority
  Has := ReadyBits.Has
  Valid := ReadyBits.Valid
  valid_empty n := by simp
  valid_add := ReadyBits.Valid.insert
  valid_remove := ReadyBits.Valid.remove
  not_has_empty p := by simp [ReadyBits.Has]
  has_add _ := ReadyBits.has_insert
  has_remove _ := ReadyBits.has_remove
  isLeast := ReadyBits.Valid.isLeast

end RtThread
