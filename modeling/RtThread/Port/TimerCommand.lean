import RtThread.Timer.OnTime

/-! The FreeRTOS timer commands of `libcpu.c`, with the command numbers of `timers.h`. -/

namespace RtThread

open Transition Option Timers

variable {τ : Type} [DecidableEq τ]

inductive TimerCommand
  | start | reset | stop | changePeriod | delete
  | startFromISR | resetFromISR | stopFromISR | changePeriodFromISR
  deriving DecidableEq

def xTimerCreate (period : BitVec 32) (autoReload : Bool) : Option Timer :=
  if 0 < period then some (Timer.init period autoReload false) else none

/-- The state after the command, and whether it returns `pdPASS`. The commands that have no `case` in the
`switch` do nothing. -/
def xTimerGenericCommand (s : TimerRun τ) (x : τ) (cmd : TimerCommand) (value : BitVec 32) :
    Option (TimerRun τ × Bool) :=
  match cmd with
  | .start => (s.step (.call (.start x))).map (fun t => (t, true))
  | .stop => (s.step (.call (.stop x))).map (fun t => (t, (s.timers.timerStop x).2 = .eok))
  | .changePeriod => (s.step (.call (.control x (.setTime value)))).map (fun t => (t, true))
  | .delete => some (⟨s.timers.dropped x, s.log⟩, true)
  | .reset | .startFromISR | .resetFromISR | .stopFromISR | .changePeriodFromISR => some (s, true)

structure PortTimers (τ : Type) where
  run : TimerRun τ
  deleted : τ → Bool

inductive PortTimerAction (τ : Type)
  | command (x : τ) (cmd : TimerCommand) (value : BitVec 32)
  | tick

namespace PortTimers

def step (s : PortTimers τ) : PortTimerAction τ → Option (PortTimers τ)
  | .command x cmd value =>
    if s.deleted x then none else
      (xTimerGenericCommand s.run x cmd value).map (fun r =>
        { run := r.1, deleted := if cmd = .delete then Function.update s.deleted x true else s.deleted })
  | .tick => (s.run.step .tick).map (fun t => { s with run := t })

def Valid (s : PortTimers τ) : PortTimerAction τ → Prop
  | .command x .start _ => s.run.timers.Startable x
  | .command _ _ _ => True
  | .tick => s.run.Valid .tick

def Created (s : PortTimers τ) : Prop :=
  s.run.timers.lists false = [] ∧ s.run.log = [] ∧ (∀ x, s.deleted x = false) ∧
    ∀ x, ∃ period autoReload, xTimerCreate period autoReload = some (s.run.timers.timer x)

end PortTimers

namespace TimerRun

def Active (s : TimerRun τ) (x : τ) (now d : BitVec 32) : Prop :=
  (s.timers.timer x).activated = true ∧ (s.timers.timer x).initTick = d ∧
    (s.timers.timer x).timeoutTick = now + d

def Runs (s : TimerRun τ) (x : τ) (now d : BitVec 32) : Prop :=
  s.Active x now d ∧ 0 < d.toNat ∧ s.FiresAfter x d.toNat

def Rests (s : TimerRun τ) (x : τ) : Prop :=
  (s.timers.timer x).activated = false ∧ s.NeverFires x

def Effect (s : TimerRun τ) (x : τ) (value : BitVec 32) : TimerCommand → TimerRun τ → Prop
  | .start, t | .startFromISR, t | .reset, t | .resetFromISR, t =>
    t.Runs x s.timers.tick (s.timers.timer x).initTick
  | .changePeriod, t | .changePeriodFromISR, t => value ≠ 0 → t.Runs x s.timers.tick value
  | .stop, t | .stopFromISR, t => t.Rests x
  | .delete, _ => True

def Served (s : TimerRun τ) (x : τ) (value : BitVec 32) : TimerCommand → Prop
  | .start => (s.timers.timer x).initTick ≠ 0
  | .stop | .delete => True
  | .reset | .startFromISR | .resetFromISR => s.Active x s.timers.tick (s.timers.timer x).initTick
  | .stopFromISR => (s.timers.timer x).activated = false
  | .changePeriod => value = 0 ∨
      (s.timers.timer x).activated = true ∧ (s.timers.timer x).timeoutTick = s.timers.tick + value
  | .changePeriodFromISR => value = 0 ∨ s.Active x s.timers.tick value

variable {s t : TimerRun τ}

theorem Inv.runs (h : s.Inv) {x : τ} {d : BitVec 32} (hx : s.Active x s.timers.tick d) :
    s.Runs x s.timers.tick d := by
  obtain ⟨hact, hinit, htimeout⟩ := hx
  have hahead : s.timers.ahead x = d.toNat := by
    rw [ahead, htimeout]
    exact Serial.ahead_add _ _
  have hpos : 0 < d.toNat := by
    rw [← hahead]
    exact h.pos x ((h.onTime.activated x).mp hact)
  exact ⟨⟨hact, hinit, htimeout⟩, hpos, h.firesAfter ⟨hact, hahead⟩⟩

theorem Inv.rests (h : s.Inv) {x : τ} (hx : (s.timers.timer x).activated = false) : s.Rests x :=
  ⟨hx, h.neverFires hx⟩

theorem Inv.runs_iff (h : s.Inv) (x : τ) (d : BitVec 32) : s.Runs x s.timers.tick d ↔ s.Active x s.timers.tick d :=
  ⟨fun hr => hr.1, h.runs⟩

theorem step_start (s : TimerRun τ) (x : τ) :
    s.step (.call (.start x)) =
      if (s.timers.timer x).initTick.ult tickHalf then some ⟨s.timers.restarted x, s.log ++ [.started x]⟩
      else none := by
  simp only [step, apply, timerStart_eq]
  split_ifs <;> rfl

variable (h : s.Inv)

include h

theorem Inv.start_effect_iff (x : τ) (value : BitVec 32) :
    (∀ t, xTimerGenericCommand s x .start value = some (t, true) → s.Effect x value .start t) ↔
      s.Served x value .start := by
  constructor
  · intro heffect hzero
    -- a period of 0 passes the assertion, but no tick is 0 ticks away
    have hcmd : xTimerGenericCommand s x .start value =
        some (⟨s.timers.restarted x, s.log ++ [.started x]⟩, true) := by
      rw [xTimerGenericCommand, step_start, if_pos (by rw [hzero]; decide)]
      rfl
    have hpos := (heffect _ hcmd).2.1
    rw [hzero] at hpos
    exact absurd hpos (by decide)
  · intro hne t ht
    obtain ⟨u, hu, hut⟩ := map_eq_some_iff.mp ht
    obtain rfl : u = t := (Prod.mk.inj hut).1
    have hstart : s.timers.Startable x := by
      rw [step_start] at hu
      split_ifs at hu with hult
      refine ⟨Nat.pos_of_ne_zero (fun hz => hne ?_), hult⟩
      exact BitVec.eq_of_toNat_eq hz
    obtain ⟨hinv, htimers, -⟩ := h.start_pending hstart hu
    have htick : u.timers.tick = s.timers.tick := by
      rw [htimers]
      rfl
    have hactive : u.Active x s.timers.tick (s.timers.timer x).initTick := by
      rw [Active, htimers, restarted_timer, if_pos rfl]
      exact ⟨rfl, rfl, rfl⟩
    change u.Runs x s.timers.tick (s.timers.timer x).initTick
    rw [← htick] at hactive ⊢
    exact hinv.runs hactive

theorem Inv.stop_effect {x : τ} {value : BitVec 32}
    (ht : xTimerGenericCommand s x .stop value = some (t, true)) : t.Rests x := by
  rw [xTimerGenericCommand] at ht
  obtain ⟨u, hu, hut⟩ := map_eq_some_iff.mp ht
  obtain rfl : u = t := (Prod.mk.inj hut).1
  obtain ⟨v, hv, hinv, -, htimer⟩ := h.stop x
  obtain rfl := Option.some.inj (hu.symm.trans hv)
  refine hinv.rests ?_
  rw [htimer, if_pos rfl]
  rfl

theorem Inv.changePeriod_effect_iff (x : τ) (value : BitVec 32) :
    (∀ t, xTimerGenericCommand s x .changePeriod value = some (t, true) → s.Effect x value .changePeriod t) ↔
      s.Served x value .changePeriod := by
  obtain ⟨u, hu, hinv, htick, htimer⟩ := h.control x (.setTime value)
  have hcmd : xTimerGenericCommand s x .changePeriod value = some (u, true) := by
    rw [xTimerGenericCommand, hu]
    rfl
  have hactive : u.Active x s.timers.tick value ↔
      (s.timers.timer x).activated = true ∧ (s.timers.timer x).timeoutTick = s.timers.tick + value := by
    rw [Active, htimer, if_pos rfl]
    exact and_congr_right (fun _ => and_iff_right rfl)
  have hruns : u.Runs x s.timers.tick value ↔ u.Active x s.timers.tick value := htick ▸ hinv.runs_iff x value
  simp only [hcmd, Effect, Served, Option.some.injEq, Prod.mk.injEq, and_true, forall_eq', hruns, hactive]
  exact or_iff_not_imp_left.symm

theorem Inv.effect_iff (x : τ) (value : BitVec 32) (cmd : TimerCommand) :
    (∀ t, xTimerGenericCommand s x cmd value = some (t, true) → s.Effect x value cmd t) ↔
      s.Served x value cmd := by
  cases cmd with
  | start => exact h.start_effect_iff x value
  | stop => exact iff_of_true (fun t ht => h.stop_effect ht) trivial
  | changePeriod => exact h.changePeriod_effect_iff x value
  | delete => exact iff_of_true (fun _ _ => trivial) trivial
  | reset | startFromISR | resetFromISR =>
    simp only [xTimerGenericCommand, Effect, Served, Option.some.injEq, Prod.mk.injEq, and_true, forall_eq']
    exact h.runs_iff x _
  | stopFromISR =>
    simp only [xTimerGenericCommand, Effect, Served, Option.some.injEq, Prod.mk.injEq, and_true, forall_eq']
    exact ⟨fun hr => hr.1, h.rests⟩
  | changePeriodFromISR =>
    simp only [xTimerGenericCommand, Effect, Served, Option.some.injEq, Prod.mk.injEq, and_true, forall_eq',
      h.runs_iff]
    exact or_iff_not_imp_left.symm

end TimerRun

namespace PortTimers

variable {s t : PortTimers τ}

omit [DecidableEq τ] in
theorem Created.inv (h : s.Created) : s.run.Inv := by
  obtain ⟨hlist, hlog, -, htimer⟩ := h
  refine TimerRun.Initial.inv ⟨hlist, hlog, fun x => ?_⟩
  obtain ⟨period, autoReload, hx⟩ := htimer x
  rw [xTimerCreate] at hx
  split_ifs at hx
  rw [← Option.some.inj hx]
  exact ⟨rfl, rfl⟩

theorem inv_command (h : s.run.Inv) {x : τ} {cmd : TimerCommand} {value : BitVec 32} {r : TimerRun τ × Bool}
    (hv : s.Valid (.command x cmd value)) (hr : xTimerGenericCommand s.run x cmd value = some r) : r.1.Inv := by
  cases cmd with
  | start =>
    obtain ⟨u, hu, rfl⟩ := map_eq_some_iff.mp hr
    exact h.of_step (a := .call (.start x)) hv hu
  | stop =>
    rw [xTimerGenericCommand] at hr
    obtain ⟨u, hu, rfl⟩ := map_eq_some_iff.mp hr
    exact h.of_step (a := .call (.stop x)) trivial hu
  | changePeriod =>
    rw [xTimerGenericCommand] at hr
    obtain ⟨u, hu, rfl⟩ := map_eq_some_iff.mp hr
    exact h.of_step (a := .call (.control x (.setTime value))) trivial hu
  | delete =>
    cases hr
    refine ⟨h.onTime.dropped x, fun y hy => ?_⟩
    rw [dropped_ahead]
    exact h.pos y (List.erase_sublist.subset hy)
  | reset | startFromISR | resetFromISR | stopFromISR | changePeriodFromISR =>
    exact Option.some.inj hr ▸ h

theorem reachable_inv (h : Reachable step Valid Created s) : s.run.Inv := by
  refine h.invariant (fun _ hinit => hinit.inv) (fun u a v hu hv hs => ?_)
  cases a with
  | command x cmd value =>
    by_cases hdel : u.deleted x = true
    · simp [step, hdel] at hs
    · rw [step, if_neg hdel] at hs
      obtain ⟨r, hr, rfl⟩ := map_eq_some_iff.mp hs
      exact inv_command hu hv hr
  | tick =>
    obtain ⟨w, hw, rfl⟩ := map_eq_some_iff.mp hs
    exact hu.of_step (a := .tick) hv hw

def fresh : PortTimers Unit :=
  ⟨⟨{ tick := 0, timer := fun _ => Timer.init 10 false false, lists := fun _ => [] }, []⟩, fun _ => false⟩

theorem fresh_created : fresh.Created :=
  ⟨rfl, rfl, fun _ => rfl, fun _ => ⟨10, false, rfl⟩⟩

end PortTimers

end RtThread
