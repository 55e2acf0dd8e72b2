import Mathlib.Algebra.GroupWithZero.Nat
import Mathlib.Algebra.Ring.Int.Defs
import RtThread.Pthreads.Spin

/-!
`clock_time.c`: the clock is a `struct timeval` that is added to the tick counter, at 1000 ticks a second
(`CONFIG_FREERTOS_HZ`). `time_t` and
`long` are 32 bits wide.
-/

namespace RtThread

open Transition BitVec Nat

inductive ClockId
  | realtime
  | other
  deriving DecidableEq

structure Timespec where
  tvSec : BitVec 32
  tvNsec : BitVec 32
  deriving DecidableEq

structure Timeval where
  tvSec : BitVec 32
  tvUsec : BitVec 32
  deriving DecidableEq

def clockTimeSystemInit (time tick : BitVec 32) : Timeval where
  tvUsec := tick % 1000 * 1000
  tvSec := time - tick / 1000 - 1

def clockGettime (clockid : ClockId) (timevalue : Timeval) (tick : BitVec 32) : Except Errno Timespec :=
  if clockid ≠ .realtime then .error .einval
  else .ok {
    tvSec := timevalue.tvSec + tick / 1000
    tvNsec := (timevalue.tvUsec + tick % 1000 * 1000) * 1000 }

def clockSettime (clockid : ClockId) (tp : Timespec) (tick : BitVec 32) : Except Errno Timeval :=
  if clockid ≠ .realtime then .error .einval
  else .ok {
    tvUsec := 1000000 - tick % 1000 * 1000
    tvSec := tp.tvSec - tick / 1000 - 1 }

def clockTimeToTick (now time : Timespec) : BitVec 32 :=
  let (nsecond, second) :=
    if (time.tvNsec - now.tvNsec).slt 0 then
      (1000000000 - (now.tvNsec - time.tvNsec), time.tvSec - now.tvSec - 1)
    else (time.tvNsec - now.tvNsec, time.tvSec - now.tvSec)
  let tick := second * 1000 + nsecond * 1000 / 1000000000
  if tick.slt 0 then 0 else tick

namespace Timespec

def Valid (tp : Timespec) : Prop := 0 ≤ tp.tvNsec.toInt ∧ tp.tvNsec.toInt < 1000000000

instance (tp : Timespec) : Decidable tp.Valid := instDecidableAnd

def ns (tp : Timespec) : ℤ := tp.tvSec.toInt * 1000000000 + tp.tvNsec.toInt

def floorTick (tp : Timespec) : Timespec := { tp with tvNsec := tp.tvNsec - tp.tvNsec % 1000000 }

end Timespec

structure ClockOrigin where
  tick : BitVec 32
  sec : BitVec 32
  set : Option Timespec

structure ClockState where
  timevalue : Timeval
  tick : BitVec 32
  origin : ClockOrigin

inductive ClockStep
  | tick
  | settime (clockid : ClockId) (tp : Timespec)

namespace ClockState

def start (time tick : BitVec 32) : ClockState where
  timevalue := clockTimeSystemInit time tick
  tick := tick
  origin := ⟨tick, time, none⟩

/-- The tick counter does not wrap. -/
def step (s : ClockState) : ClockStep → Option ClockState
  | .tick => if s.tick.toNat + 1 < 2 ^ 32 then some { s with tick := s.tick + 1 } else none
  | .settime clockid tp =>
    if tp.Valid then
      match clockSettime clockid tp s.tick with
      | .error _ => some s
      | .ok timevalue => some { s with timevalue := timevalue, origin := ⟨s.tick, tp.tvSec, some tp⟩ }
    else none

def readingAt (s : ClockState) (tick : BitVec 32) : Timespec :=
  (clockGettime .realtime s.timevalue tick).toOption.get rfl

theorem readingAt_eq (s : ClockState) (tick : BitVec 32) : s.readingAt tick =
    ⟨s.timevalue.tvSec + tick / 1000, (s.timevalue.tvUsec + tick % 1000 * 1000) * 1000⟩ := rfl

def reading (s : ClockState) : Timespec := s.readingAt s.tick

def ClockOrigin.timevalue (o : ClockOrigin) : Timeval :=
  match o.set with
  | none => clockTimeSystemInit o.sec o.tick
  | some _ => ⟨o.sec - o.tick / 1000 - 1, 1000000 - o.tick % 1000 * 1000⟩

structure Inv (s : ClockState) : Prop where
  timevalue : s.timevalue = ClockOrigin.timevalue s.origin
  sec : ∀ tp, s.origin.set = some tp → tp.tvSec = s.origin.sec
  tick : s.origin.tick.toNat ≤ s.tick.toNat

def Initial (s : ClockState) : Prop := ∃ time tick, s = start time tick

theorem Inv.start (time tick : BitVec 32) : (start time tick).Inv := by
  constructor
  · rfl
  · intro tp h
    cases h
  · exact le_refl _

theorem Inv.step {s s' : ClockState} {a : ClockStep} (h : s.Inv) (hs : s.step a = some s') : s'.Inv := by
  cases a with
  | tick =>
    simp only [ClockState.step] at hs
    split_ifs at hs with hlt
    cases hs
    refine ⟨h.timevalue, h.sec, ?_⟩
    have htick := h.tick
    simp only [toNat_add, reduceToNat, reducePow]
    omega
  | settime clockid tp =>
    simp only [ClockState.step, clockSettime] at hs
    split_ifs at hs with hvalid hid
    · cases hs
      exact h
    · cases hs
      refine ⟨rfl, ?_, le_refl _⟩
      intro tp' htp
      rw [Option.some.inj htp]

theorem inv_of_reachable {s : ClockState} (h : Reachable step (fun _ _ => True) Initial s) : s.Inv := by
  apply h.invariant
  · rintro s ⟨time, tick, rfl⟩
    exact Inv.start time tick
  · intro s a t hs _ ht
    exact hs.step ht

theorem toInt_cases (x : BitVec 32) :
    (x.toInt = x.toNat ∧ x.toNat < 2147483648) ∨ (x.toInt = x.toNat - 4294967296 ∧ 2147483648 ≤ x.toNat) := by
  rw [toInt_eq_toNat_cond]
  split_ifs
  · exact .inl ⟨rfl, by omega⟩
  · exact .inr ⟨rfl, by omega⟩

section Reading

variable {s : ClockState} {t : BitVec 32}

theorem toNat_phase (t : BitVec 32) : (t % 1000 * 1000).toNat = t.toNat % 1000 * 1000 := by
  simp only [toNat_mul, toNat_umod, reduceToNat, reducePow]
  omega

theorem toNat_rest (t : BitVec 32) : (1000000 - t % 1000 * 1000).toNat = 1000000 - t.toNat % 1000 * 1000 := by
  rw [toNat_sub, toNat_phase]
  simp only [reduceToNat, reducePow]
  omega

section

variable (h : s.Inv)

include h

theorem Inv.usec : s.timevalue.tvUsec.toNat =
    if s.origin.set = none then s.origin.tick.toNat % 1000 * 1000 else 1000000 - s.origin.tick.toNat % 1000 * 1000 := by
  rw [h.timevalue, ClockOrigin.timevalue]
  cases s.origin.set with
  | none =>
    exact toNat_phase _
  | some tp =>
    exact toNat_rest _

theorem Inv.usec_le : s.timevalue.tvUsec.toNat ≤ 1000000 := by
  rw [h.usec]
  split_ifs
  · omega
  · omega

theorem Inv.nsec (t : BitVec 32) :
    (s.readingAt t).tvNsec.toNat = s.timevalue.tvUsec.toNat * 1000 + t.toNat % 1000 * 1000000 := by
  have hle := h.usec_le
  simp only [readingAt_eq, toNat_mul, toNat_add, toNat_umod, reduceToNat, reducePow]
  omega

theorem Inv.nsec_toInt (t : BitVec 32) :
    (s.readingAt t).tvNsec.toInt = s.timevalue.tvUsec.toNat * 1000 + t.toNat % 1000 * 1000000 := by
  have hle := h.usec_le
  have hnsec := h.nsec t
  have hcases := toInt_cases (s.readingAt t).tvNsec
  omega

theorem Inv.sec_toNat (ht : s.origin.tick.toNat ≤ t.toNat) : (s.readingAt t).tvSec.toNat =
    ((s.origin.sec - 1).toNat + (t.toNat / 1000 - s.origin.tick.toNat / 1000)) % 4294967296 := by
  have hsec : s.timevalue.tvSec = s.origin.sec - s.origin.tick / 1000 - 1 := by
    rw [h.timevalue, ClockOrigin.timevalue]
    cases s.origin.set with
    | none | some tp => rfl
  simp only [readingAt_eq, hsec, toNat_add, toNat_sub, toNat_udiv, reduceToNat, reducePow]
  omega

end

def InRange (s : ClockState) : Prop :=
  (s.origin.sec - 1).toInt + (s.tick.toNat / 1000 - s.origin.tick.toNat / 1000 : ℕ) < 2 ^ 31

section

variable (h : s.Inv) (hr : s.InRange) (h0 : s.origin.tick.toNat ≤ t.toNat) (ht : t.toNat ≤ s.tick.toNat)

include h hr h0 ht

theorem Inv.sec_of_inRange : (s.readingAt t).tvSec.toInt =
      (s.origin.sec - 1).toInt + (t.toNat / 1000 - s.origin.tick.toNat / 1000 : ℕ) := by
  have hsec := h.sec_toNat h0
  have hc := toInt_cases (s.origin.sec - 1)
  have hcr := toInt_cases (s.readingAt t).tvSec
  simp only [InRange, Int.reducePow] at hr
  omega

theorem Inv.linear_of_inRange : s.reading.ns - (s.readingAt t).ns = (s.tick.toNat - t.toNat) * 1000000 := by
  have hsec := h.sec_of_inRange hr h0 ht
  have hsec' := h.sec_of_inRange hr h.tick (le_refl _)
  have hnsec := h.nsec_toInt t
  have hnsec' := h.nsec_toInt s.tick
  simp only [reading, Timespec.ns, hsec, hsec', hnsec, hnsec']
  omega

end

theorem Inv.inRange_of_linear (h : s.Inv)
    (hlin : s.reading.ns - (s.readingAt s.origin.tick).ns = (s.tick.toNat - s.origin.tick.toNat) * 1000000) :
    s.InRange := by
  have hsec' := h.sec_toNat h.tick
  have hnsec := h.nsec_toInt s.origin.tick
  have hnsec' := h.nsec_toInt s.tick
  have hc := toInt_cases (s.origin.sec - 1)
  have hcr := toInt_cases (s.readingAt s.origin.tick).tvSec
  have hcr' := toInt_cases (s.readingAt s.tick).tvSec
  simp only [reading, Timespec.ns, hnsec, hnsec'] at hlin
  simp only [InRange, Int.reducePow]
  omega

theorem Inv.valid_iff (h : s.Inv) : s.reading.Valid ↔
    if s.origin.set = none then s.origin.tick.toNat % 1000 + s.tick.toNat % 1000 < 1000
    else s.tick.toNat % 1000 < s.origin.tick.toNat % 1000 := by
  have hnsec : s.reading.tvNsec.toInt = _ := h.nsec_toInt s.tick
  have husec := h.usec
  rw [Timespec.Valid]
  split_ifs at husec ⊢
  · omega
  · omega

end Reading

structure Lawful (s : ClockState) : Prop where
  normalised : s.reading.Valid
  forward : ∀ t : BitVec 32, s.origin.tick.toNat ≤ t.toNat → t.toNat ≤ s.tick.toNat →
    (s.readingAt t).ns ≤ s.reading.ns
  linear : ∀ t : BitVec 32, s.origin.tick.toNat ≤ t.toNat → t.toNat ≤ s.tick.toNat →
    s.reading.ns - (s.readingAt t).ns = (s.tick.toNat - t.toNat) * (1000000000 / 1000)
  same : ∀ tp, s.origin.set = some tp → s.origin.tick = s.tick → s.reading = tp.floorTick

def Steady (s : ClockState) : Prop :=
  (if s.origin.set = none then s.origin.tick.toNat % 1000 + s.tick.toNat % 1000 < 1000
    else s.tick.toNat % 1000 < s.origin.tick.toNat % 1000) ∧ s.InRange

instance (s : ClockState) : Decidable s.InRange := Int.decLt _ _

instance (s : ClockState) : Decidable s.Steady := instDecidableAnd

theorem clock_lawful_iff {s : ClockState} (h : Reachable step (fun _ _ => True) Initial s) : s.Lawful ↔ s.Steady := by
  have hinv := inv_of_reachable h
  constructor
  · intro hlaw
    refine ⟨hinv.valid_iff.mp hlaw.normalised, ?_⟩
    apply hinv.inRange_of_linear
    exact hlaw.linear s.origin.tick (le_refl _) hinv.tick
  · rintro ⟨hphase, hrange⟩
    have hlinear := fun t => hinv.linear_of_inRange (t := t) hrange
    constructor
    · exact hinv.valid_iff.mpr hphase
    · intro t h0 ht
      have := hlinear t h0 ht
      omega
    · exact hlinear
    · -- in the tick of a `clock_settime` the reading is never normalised
      intro tp hset htick
      rw [if_neg (by simp [hset]), htick] at hphase
      exact absurd hphase (lt_irrefl _)

theorem clock_lawful_iff_next_second :
    ∃ s, run step (start 0 2999) [.settime .realtime ⟨1000, 5⟩, .tick] = some s ∧
    s.reading = ⟨1000, 1000000⟩ ∧ s.Lawful := by
  exact exists_some_imp (P := fun s => _ ∧ s.Steady) (by decide +kernel)
    (fun s hs h => ⟨h.1, (clock_lawful_iff (.of_free_run ⟨0, 2999, rfl⟩ hs)).mpr h.2⟩)

theorem clock_set_not_lawful : ∃ s, run step (start 0 0) [.settime .realtime ⟨1000, 25000000⟩] = some s ∧
    s.reading = ⟨999, 1000000000⟩ ∧ s.reading ≠ Timespec.floorTick ⟨1000, 25000000⟩ ∧ ¬ s.Lawful := by
  exact exists_some_imp (P := fun s => _ ∧ _ ∧ ¬ s.reading.Valid) (by decide +kernel)
    (fun s _ h => ⟨h.1, h.2.1, fun hl => h.2.2 hl.normalised⟩)

def secondsTo (now time : Timespec) : ℤ :=
  if time.tvNsec.toInt < now.tvNsec.toInt then time.tvSec.toInt - now.tvSec.toInt - 1
  else time.tvSec.toInt - now.tvSec.toInt

def nsecondsTo (now time : Timespec) : ℤ :=
  if time.tvNsec.toInt < now.tvNsec.toInt then 1000000000 - (now.tvNsec.toInt - time.tvNsec.toInt)
  else time.tvNsec.toInt - now.tvNsec.toInt

theorem ns_sub_ns (now time : Timespec) :
    time.ns - now.ns = secondsTo now time * 1000000000 + nsecondsTo now time := by
  unfold secondsTo nsecondsTo Timespec.ns
  split_ifs
  · omega
  · omega

def tickSum (now time : Timespec) : ℤ :=
  1000 * secondsTo now time + 1000 * nsecondsTo now time % 4294967296 / 1000000000

theorem tick_toNat (second nsecond : BitVec 32) : (second * 1000 + nsecond * 1000 / 1000000000).toNat =
    (second.toNat * 1000 + nsecond.toNat * 1000 % 4294967296 / 1000000000) % 4294967296 := by
  simp only [toNat_add, toNat_mul, toNat_udiv, reduceToNat, reducePow]
  omega

theorem toNat_emod (x : BitVec 32) : (x.toNat : ℤ) = x.toInt % 4294967296 := by
  have hc := toInt_cases x
  omega

theorem toNat_sub_emod {x y : BitVec 32} {a b : ℤ} (hx : (x.toNat : ℤ) = a % 4294967296)
    (hy : (y.toNat : ℤ) = b % 4294967296) : ((x - y).toNat : ℤ) = (a - b) % 4294967296 := by
  simp only [toNat_sub, reducePow]
  omega

theorem tick_toInt {second nsecond : BitVec 32} {s n : ℤ} (hs : (second.toNat : ℤ) = s % 4294967296)
    (hn : (nsecond.toNat : ℤ) = n % 4294967296) : (second * 1000 + nsecond * 1000 / 1000000000).toInt =
      (1000 * s + 1000 * n % 4294967296 / 1000000000).bmod 4294967296 := by
  have htick := tick_toNat second nsecond
  have hmod : ((nsecond.toNat * 1000 % 4294967296 : ℕ) : ℤ) = 1000 * n % 4294967296 := by omega
  have hdiv : ((nsecond.toNat * 1000 % 4294967296 / 1000000000 : ℕ) : ℤ) = 1000 * n % 4294967296 / 1000000000 := by
    rw [Int.natCast_ediv, hmod]
    rfl
  rw [← hdiv, Int.bmod_def]
  generalize nsecond.toNat * 1000 % 4294967296 / 1000000000 = f at htick
  have hc := toInt_cases (second * 1000 + nsecond * 1000 / 1000000000)
  split_ifs
  · omega
  · omega

theorem clamp_toInt (x : BitVec 32) : (if x.slt 0 then 0 else x).toInt = max 0 x.toInt := by
  have hzero : (0 : BitVec 32).toInt = 0 := rfl
  rw [slt_eq_decide, hzero]
  by_cases hneg : x.toInt < 0
  · rw [decide_eq_true hneg, if_pos rfl, hzero, max_eq_left hneg.le]
  · rw [decide_eq_false hneg, if_neg Bool.false_ne_true, max_eq_right (not_lt.mp hneg)]

theorem clockTimeToTick_toInt {now time : Timespec} (hnow : 0 ≤ now.tvNsec.toInt ∧ now.tvNsec.toInt < 2000000000)
    (htime : time.Valid) : (clockTimeToTick now time).toInt = max 0 ((tickSum now time).bmod 4294967296) := by
  obtain ⟨htime0, htime⟩ := htime
  have hzero : (0 : BitVec 32).toInt = 0 := rfl
  have hdiff : (time.tvNsec - now.tvNsec).toInt = time.tvNsec.toInt - now.tvNsec.toInt := by
    rw [toInt_sub, Int.bmod_eq_of_le (by omega) (by omega)]
  unfold clockTimeToTick tickSum secondsTo nsecondsTo
  rw [slt_eq_decide]
  by_cases hlt : time.tvNsec.toInt < now.tvNsec.toInt
  · rw [if_pos hlt, if_pos hlt, decide_eq_true (by omega)]
    rw [clamp_toInt]
    congr 1
    apply tick_toInt
    · exact toNat_sub_emod (toNat_sub_emod (toNat_emod _) (toNat_emod _)) rfl
    · exact toNat_sub_emod rfl (toNat_sub_emod (toNat_emod _) (toNat_emod _))
  · rw [if_neg hlt, if_neg hlt, decide_eq_false (by omega)]
    rw [clamp_toInt]
    congr 1
    apply tick_toInt
    · exact toNat_sub_emod (toNat_emod _) (toNat_emod _)
    · exact toNat_sub_emod (toNat_emod _) (toNat_emod _)

def Converted (now time : Timespec) : Prop :=
  if time.ns ≤ now.ns then (clockTimeToTick now time).toInt = 0
  else (clockTimeToTick now time).toInt * 1000000 ≤ time.ns - now.ns ∧
    time.ns - now.ns < ((clockTimeToTick now time).toInt + 1) * 1000000

def Convertible (now time : Timespec) : Prop :=
  if time.ns ≤ now.ns then (tickSum now time).bmod 4294967296 ≤ 0
  else 0 ≤ nsecondsTo now time ∧ 1000 * nsecondsTo now time < 4294967296

instance (now time : Timespec) : Decidable (Converted now time) :=
  inferInstanceAs (Decidable (if time.ns ≤ now.ns then _ else _))

instance (now time : Timespec) : Decidable (Convertible now time) :=
  inferInstanceAs (Decidable (if time.ns ≤ now.ns then _ else _))

theorem nsecondsTo_bounds {now time : Timespec} (hnow : 0 ≤ now.tvNsec.toInt ∧ now.tvNsec.toInt < 2000000000)
    (htime : time.Valid) : -1000000000 < nsecondsTo now time ∧ nsecondsTo now time < 1000000000 := by
  obtain ⟨htime0, htime⟩ := htime
  unfold nsecondsTo
  split_ifs
  · omega
  · omega

theorem fraction_iff {n : ℤ} (h0 : 0 ≤ n) :
    (1000 * n % 4294967296 / 1000000000 * 1000000 ≤ n ∧
      n < (1000 * n % 4294967296 / 1000000000 + 1) * 1000000) ↔ 1000 * n < 4294967296 := by
  constructor
  · rintro ⟨-, hn⟩
    by_contra hge
    have hzero : 1000 * n % 4294967296 = 1000 * n - 4294967296 := by omega
    omega
  · intro hlt
    omega

section

variable {s n : ℤ} (h0 : 0 < s * 1000000000 + n) (hlt : s * 1000000000 + n < 2147483648 * 1000000)

include h0 hlt

theorem ticks_iff_of_nonneg (hn : 0 ≤ n) (hn' : n < 1000000000) :
    (max 0 ((1000 * s + 1000 * n % 4294967296 / 1000000000).bmod 4294967296) * 1000000 ≤ s * 1000000000 + n ∧
      s * 1000000000 + n <
        (max 0 ((1000 * s + 1000 * n % 4294967296 / 1000000000).bmod 4294967296) + 1) * 1000000) ↔
      1000 * n < 4294967296 := by
  rw [← fraction_iff hn]
  have hf : 0 ≤ 1000 * n % 4294967296 / 1000000000 ∧ 1000 * n % 4294967296 / 1000000000 ≤ 4 := by omega
  have hmod : 1000 * n % 4294967296 ≤ 1000 * n := by omega
  generalize 1000 * n % 4294967296 / 1000000000 = f at *
  rw [Int.bmod_eq_of_le (by omega) (by omega)]
  constructor
  · intro h
    omega
  · intro h
    omega

theorem not_ticks_of_neg (hn : n < 0) (hn' : -1000000000 < n) :
    ¬ s * 1000000000 + n <
        (max 0 ((1000 * s + 1000 * n % 4294967296 / 1000000000).bmod 4294967296) + 1) * 1000000 ∨
    ¬ max 0 ((1000 * s + 1000 * n % 4294967296 / 1000000000).bmod 4294967296) * 1000000 ≤ s * 1000000000 + n := by
  have hf : 0 ≤ 1000 * n % 4294967296 / 1000000000 ∧ 1000 * n % 4294967296 / 1000000000 ≤ 4 := by omega
  generalize 1000 * n % 4294967296 / 1000000000 = f at *
  by_cases hbig : 1000 * s + f < 2147483648
  · right
    rw [Int.bmod_eq_of_le (by omega) (by omega)]
    omega
  · left
    have hneg : (1000 * s + f).bmod 4294967296 < 0 := by
      rw [Int.bmod_def]
      split_ifs
      · omega
      · omega
    omega

end

end ClockState

end RtThread
