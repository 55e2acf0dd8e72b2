import RtThread.Lib.KeyOrder
import RtThread.Lib.Serial
import RtThread.Kernel.State

/-! The timers of `timer.c`, with the one-level lists that `RT_TIMER_SKIP_LIST_LEVEL = 1` gives. -/

namespace RtThread

open Function

structure Timer where
  activated : Bool
  periodic : Bool
  soft : Bool
  initTick : BitVec 32
  timeoutTick : BitVec 32
  deriving DecidableEq

def tickHalf : BitVec 32 := tickMax / 2

theorem tickHalf_toNat : tickHalf.toNat = 2 ^ 31 - 1 := by decide

namespace Timer

def init (time : BitVec 32) (periodic soft : Bool) : Timer :=
  { activated := false, periodic, soft, initTick := time, timeoutTick := 0 }

def deactivate (tm : Timer) : Timer := { tm with activated := false }

def activate (tm : Timer) (now : BitVec 32) : Timer :=
  { tm with activated := true, timeoutTick := now + tm.initTick }

end Timer

inductive TimerCtrl
  | getTime
  | setTime (tick : BitVec 32)
  | setOneshot
  | setPeriodic
  deriving DecidableEq

def Timer.control (tm : Timer) : TimerCtrl → Timer
  | .getTime => tm
  | .setTime tick => { tm with initTick := tick }
  | .setOneshot => { tm with periodic := false }
  | .setPeriodic => { tm with periodic := true }

structure Timers (τ : Type) where
  tick : BitVec 32
  timer : τ → Timer
  lists : Bool → List τ

inductive TimerEvent (τ : Type)
  | started (x : τ)
  | stopped (x : τ)
  | fired (x : τ)
  deriving DecidableEq

inductive TimerOp (τ : Type)
  | start (x : τ)
  | stop (x : τ)
  | control (x : τ) (cmd : TimerCtrl)
  deriving DecidableEq

namespace Timers

variable {τ : Type}

variable {s : Timers τ}

def Later (s : Timers τ) (x t : τ) : Prop :=
  (s.timer t).timeoutTick - (s.timer x).timeoutTick ≠ 0 ∧
    ((s.timer t).timeoutTick - (s.timer x).timeoutTick).ult tickHalf

def ahead (s : Timers τ) (x : τ) : ℕ := Serial.ahead s.tick (s.timer x).timeoutTick

theorem ult_tickHalf (v : BitVec 32) : v.ult tickHalf = true ↔ v.toNat < tickHalf.toNat := by
  simp [BitVec.ult]

/-- Near `base` the test of `rt_timer_start` agrees with the order of the ticks counted from there. -/
theorem tick_later_iff {base a b : BitVec 32} (hb : Serial.ahead base b < Serial.ahead base a + tickHalf.toNat)
    (ha : Serial.ahead base a ≤ Serial.ahead base b + tickHalf.toNat + 2) :
    b - a ≠ 0 ∧ (b - a).ult tickHalf ↔ Serial.ahead base a < Serial.ahead base b := by
  rw [tickHalf_toNat] at ha hb
  have hzero : b - a = 0 ↔ (b - a).toNat = 0 := by
    rw [← BitVec.toNat_inj]
    rfl
  rw [ult_tickHalf, tickHalf_toNat, ne_eq, hzero]
  rcases le_or_gt (Serial.ahead base a) (Serial.ahead base b) with hle | hlt
  · have hsub := Serial.sub_toNat_of_le hle
    omega
  · have hsub := Serial.sub_toNat_of_lt hlt
    omega

theorem later_iff {x t : τ} (hx : s.ahead x < tickHalf.toNat)
    (ht : s.ahead t < tickHalf.toNat) : s.Later x t ↔ s.ahead x < s.ahead t :=
  tick_later_iff (Nat.lt_add_left _ ht) (Nat.le_add_right_of_le (Nat.le_add_left_of_le hx.le))

def Due (s : Timers τ) (x : τ) : Prop := (s.tick - (s.timer x).timeoutTick).ult tickHalf

theorem due_iff {x : τ} (hx : s.ahead x < tickHalf.toNat) : s.Due x ↔ s.ahead x = 0 := by
  rw [tickHalf_toNat] at hx
  rw [Due, ult_tickHalf, tickHalf_toNat]
  rcases Nat.eq_zero_or_pos (s.ahead x) with h0 | hpos
  · have hsub : (s.tick - (s.timer x).timeoutTick).toNat = _ :=
      Serial.sub_toNat_of_le (h0.le.trans (Nat.zero_le (Serial.ahead s.tick s.tick)))
    rw [Serial.ahead_self] at hsub
    omega
  · have hsub : (s.tick - (s.timer x).timeoutTick).toNat = _ :=
      Serial.sub_toNat_of_lt ((Serial.ahead_self s.tick).trans_lt hpos)
    change _ = 2 ^ 32 - (s.ahead x - Serial.ahead s.tick s.tick) at hsub
    omega

variable [DecidableEq τ]

def setTimer (s : Timers τ) (x : τ) (f : Timer → Timer) : Timers τ :=
  { s with timer := update s.timer x (f (s.timer x)) }

def setList (s : Timers τ) (b : Bool) (l : List τ) : Timers τ :=
  { s with lists := update s.lists b l }

def timerRemove (s : Timers τ) (x : τ) : Timers τ :=
  { s with lists := fun b => (s.lists b).erase x }

def Linked (s : Timers τ) (x : τ) : Prop := ∃ b, x ∈ s.lists b

instance (s : Timers τ) (x : τ) : Decidable (s.Linked x) :=
  inferInstanceAs (Decidable (∃ b, x ∈ s.lists b))

instance (s : Timers τ) : DecidableRel s.Later :=
  fun _ _ => instDecidableAnd

def timerInsert (s : Timers τ) (x : τ) : Timers τ :=
  s.setList (s.timer x).soft ((s.lists (s.timer x).soft).orderedInsert s.Later x)

def timerStart (s : Timers τ) (x : τ) : Option (Timers τ) :=
  let s := (s.timerRemove x).setTimer x Timer.deactivate
  if (s.timer x).initTick.ult tickHalf then
    let s := s.setTimer x (fun tm => { tm with timeoutTick := s.tick + tm.initTick })
    some ((s.timerInsert x).setTimer x (fun tm => { tm with activated := true }))
  else
    none

def timerStop (s : Timers τ) (x : τ) : Timers τ × Err :=
  if (s.timer x).activated then
    ((s.timerRemove x).setTimer x Timer.deactivate, .eok)
  else
    (s, .error)

def timerControl (s : Timers τ) (x : τ) (cmd : TimerCtrl) : Timers τ :=
  s.setTimer x (fun tm => tm.control cmd)

def apply (s : Timers τ) : TimerOp τ → Option (Timers τ × List (TimerEvent τ))
  | .start x => (s.timerStart x).map (fun s => (s, [.started x]))
  | .stop x => some ((s.timerStop x).1, if (s.timerStop x).2 = .eok then [.stopped x] else [])
  | .control x cmd => some (s.timerControl x cmd, [])

def applyAll (s : Timers τ) : List (TimerOp τ) → List (TimerEvent τ) × Option (Timers τ)
  | [] => ([], some s)
  | op :: ops =>
    match s.apply op with
    | none => ([], none)
    | some (t, ev) => (ev ++ (t.applyAll ops).1, (t.applyAll ops).2)

def Callback (τ : Type) : Type := τ → List (TimerEvent τ) → Timers τ → List (TimerOp τ)

def Callback.idle : Callback τ := fun _ _ _ => []

instance (s : Timers τ) (x : τ) : Decidable (s.Due x) := decEq _ _

def settle (s : Timers τ) (x : τ) : List (TimerEvent τ) × Option (Timers τ) :=
  if (s.timer x).periodic ∧ (s.timer x).activated then
    match (s.setTimer x Timer.deactivate).timerStart x with
    | none => ([], none)
    | some t => ([.started x], some t)
  else
    ([], some (s.setTimer x Timer.deactivate))

def fire (s : Timers τ) (cb : Callback τ) (log : List (TimerEvent τ)) (x : τ) :
    List (TimerEvent τ) × Option (Timers τ) :=
  let s := s.timerRemove x
  match s.applyAll (cb x (log ++ [.fired x]) s) with
  | (ev, none) => (.fired x :: ev, none)
  | (ev, some t) => (.fired x :: ev ++ (t.settle x).1, (t.settle x).2)

/-- The result of a check that has taken some rounds: its events, and, unless an assertion has failed,
the state and whether the loop has been left. -/
abbrev Pass (τ : Type) : Type := List (TimerEvent τ) × Option (Timers τ × Bool)

def checkLoop (cb : Callback τ) (b : Bool) : ℕ → List (TimerEvent τ) → Timers τ → Pass τ
  | 0, log, s => (log, some (s, false))
  | fuel + 1, log, s =>
    match s.lists b with
    | [] => (log, some (s, true))
    | x :: _ =>
      if s.Due x then
        match s.fire cb log x with
        | (ev, none) => (log ++ ev, none)
        | (ev, some t) => checkLoop cb b fuel (log ++ ev) t
      else
        (log, some (s, true))

def timerCheck (cb : Callback τ) (fuel : ℕ) (s : Timers τ) : Pass τ := checkLoop cb false fuel [] s

def tickIncrease (cb : Callback τ) (fuel : ℕ) (s : Timers τ) : Pass τ :=
  timerCheck cb fuel { s with tick := s.tick + 1 }

def next (s : Timers τ) (x : τ) : Option τ :=
  if x ∈ s.lists true then ((s.lists true).dropWhile (· ≠ x)).tail.head? else some x

def softCheckLoop (cb : Callback τ) : ℕ → Option τ → List (TimerEvent τ) → Timers τ → Pass τ
  | 0, _, log, s => (log, some (s, false))
  | _ + 1, none, log, s => (log, some (s, true))
  | fuel + 1, some x, log, s =>
    if s.Due x then
      match s.fire cb log x with
      | (ev, none) => (log ++ ev, none)
      | (ev, some t) => softCheckLoop cb fuel (s.next x) (log ++ ev) t
    else
      (log, some (s, true))

def softTimerCheck (cb : Callback τ) (fuel : ℕ) (s : Timers τ) : Pass τ :=
  softCheckLoop cb fuel (s.lists true).head? [] s

theorem timer_setTimer (s : Timers τ) (x y : τ) (f : Timer → Timer) :
    (s.setTimer x f).timer y = if y = x then f (s.timer x) else s.timer y := by
  simp only [setTimer, update_apply]

theorem setTimer_setTimer (s : Timers τ) (x : τ) (f g : Timer → Timer) :
    (s.setTimer x f).setTimer x g = s.setTimer x (fun tm => g (f tm)) := by
  simp [setTimer]

def restarted (s : Timers τ) (x : τ) : Timers τ :=
  let s' := s.setTimer x (fun tm => tm.activate s.tick)
  { s' with
    lists := fun b =>
      if b = (s.timer x).soft then ((s.lists b).erase x).orderedInsert s'.Later x else (s.lists b).erase x }

theorem timerStart_eq (s : Timers τ) (x : τ) :
    s.timerStart x = if (s.timer x).initTick.ult tickHalf then some (s.restarted x) else none := by
  simp only [timerStart, setTimer_setTimer, timer_setTimer, if_true, Timer.deactivate, timerRemove]
  split_ifs with h
  · simp only [Option.some.injEq, restarted, setTimer, timerInsert, setList, Timers.mk.injEq, true_and]
    refine ⟨by simp [Timer.activate], ?_⟩
    funext b
    simp only [update_self, update_apply]
    split_ifs with hb
    · subst hb
      -- the walk compares timeouts only, and the flag is set after it
      refine KeyOrder.orderedInsert_congr (fun t _ => ?_)
      by_cases ht : t = x
      · simp [Later, ht]
      · simp [Later, ht, Timer.activate]
    · rfl
  · rfl

theorem apply_tick {op : TimerOp τ} {r : Timers τ × List (TimerEvent τ)}
    (h : s.apply op = some r) : r.1.tick = s.tick := by
  cases op with
  | start x =>
    obtain ⟨t, ht, rfl⟩ := Option.map_eq_some_iff.mp h
    rw [timerStart_eq] at ht
    split_ifs at ht
    rw [← Option.some.inj ht]
    rfl
  | stop x =>
    cases h
    simp only [timerStop]
    split_ifs <;> rfl
  | control x cmd =>
    cases h
    rfl

theorem restarted_timer (s : Timers τ) (x y : τ) :
    (s.restarted x).timer y = if y = x then (s.timer x).activate s.tick else s.timer y :=
  timer_setTimer s x y (fun tm => tm.activate s.tick)

def dropped (s : Timers τ) (x : τ) : Timers τ := (s.timerRemove x).setTimer x Timer.deactivate

theorem dropped_timer (s : Timers τ) (x y : τ) :
    (s.dropped x).timer y = if y = x then (s.timer x).deactivate else s.timer y :=
  timer_setTimer _ x y _

end Timers

end RtThread
