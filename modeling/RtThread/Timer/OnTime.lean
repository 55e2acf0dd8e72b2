import RtThread.Lib.Transition
import RtThread.Timer.Timer

namespace RtThread

open Transition List Timers Option Nat

variable {τ : Type}

namespace TimerEvent

def StartedBefore (log : List (TimerEvent τ)) (x y : τ) : Prop :=
  ∃ l₁ l₂, log = l₁ ++ started y :: l₂ ∧ started x ∈ l₁ ∧ started x ∉ l₂ ∧ started y ∉ l₂

def firings (log : List (TimerEvent τ)) : List τ :=
  log.filterMap (fun e => match e with | fired x => some x | _ => none)

variable {log : List (TimerEvent τ)}

theorem StartedBefore.append {x y : τ} (h : StartedBefore log x y)
    {ev : List (TimerEvent τ)} (hx : started x ∉ ev) (hy : started y ∉ ev) : StartedBefore (log ++ ev) x y := by
  obtain ⟨l₁, l₂, rfl, hmem, hx₂, hy₂⟩ := h
  refine ⟨l₁, l₂ ++ ev, by simp, hmem, ?_, ?_⟩
  · simp [hx₂, hx]
  · simp [hy₂, hy]

theorem startedBefore_concat {x : τ} (hx : started x ∈ log) (y : τ) : StartedBefore (log ++ [started y]) x y :=
  ⟨log, [], rfl, hx, not_mem_nil, not_mem_nil⟩

@[simp] theorem firings_append (l l' : List (TimerEvent τ)) :
    firings (l ++ l') = firings l ++ firings l' := filterMap_append

@[simp] theorem firings_fired (x : τ) (l : List (TimerEvent τ)) :
    firings (fired x :: l) = x :: firings l := rfl

@[simp] theorem firings_nil : firings ([] : List (TimerEvent τ)) = [] := rfl

end TimerEvent

open TimerEvent

variable [DecidableEq τ]

namespace Timers

def Before (s : Timers τ) (log : List (TimerEvent τ)) (x y : τ) : Prop :=
  s.ahead x < s.ahead y ∨ s.ahead x = s.ahead y ∧ StartedBefore log x y

structure OnTime (s : Timers τ) (log : List (TimerEvent τ)) : Prop where
  nodup : (s.lists false).Nodup
  hard : ∀ x, (s.timer x).soft = false
  activated : ∀ x, (s.timer x).activated = true ↔ x ∈ s.lists false
  window : ∀ x ∈ s.lists false, s.ahead x < tickHalf.toNat
  ordered : (s.lists false).Pairwise (s.Before log)
  started : ∀ x ∈ s.lists false, .started x ∈ log

def Startable (s : Timers τ) (x : τ) : Prop :=
  0 < (s.timer x).initTick.toNat ∧ (s.timer x).initTick.ult tickHalf

variable {s : Timers τ} {log : List (TimerEvent τ)}

variable {x : τ}

section

omit [DecidableEq τ]

theorem OnTime.append (h : s.OnTime log) {ev : List (TimerEvent τ)}
    (hev : ∀ x ∈ s.lists false, TimerEvent.started x ∉ ev) : s.OnTime (log ++ ev) :=
  { h with
    ordered := h.ordered.imp_of_mem (fun hx hy hb =>
      hb.imp_right (fun hlast => ⟨hlast.1, hlast.2.append (hev _ hx) (hev _ hy)⟩))
    started := fun x hx => mem_append_left ev (h.started x hx) }

theorem ahead_of_timer_eq {t : Timers τ} (htick : t.tick = s.tick)
    (htimer : t.timer x = s.timer x) : t.ahead x = s.ahead x := by
  rw [ahead, ahead, htick, htimer]

def due (s : Timers τ) : List τ := (s.lists false).filter (fun x => s.ahead x = 0)

theorem mem_due : x ∈ s.due ↔ x ∈ s.lists false ∧ s.ahead x = 0 := by
  simp [due]

theorem OnTime.due_of_head (h : s.OnTime log) {l : List τ} (hl : s.lists false = x :: l)
    (hx : s.ahead x ≠ 0) : s.due = [] := by
  apply filter_eq_nil_iff.mpr
  intro y hy
  have hord := h.ordered
  rw [hl] at hy hord
  simp only [decide_eq_true_eq]
  rcases mem_cons.mp hy with rfl | hy
  · exact hx
  · have : s.Before log x y := (pairwise_cons.mp hord).1 y hy
    unfold Before at this
    omega

theorem ahead_pos_of_due_nil (hnone : s.due = []) : ∀ x ∈ s.lists false, 0 < s.ahead x := by
  intro x hx
  have := filter_eq_nil_iff.mp hnone x hx
  simp only [decide_eq_true_eq] at this
  omega

theorem OnTime.tick (h : s.OnTime log) (hpos : ∀ x ∈ s.lists false, 0 < s.ahead x) :
    Timers.OnTime { s with tick := s.tick + 1 } log := by
  have hahead : ∀ x ∈ s.lists false, ahead { s with tick := s.tick + 1 } x = s.ahead x - 1 :=
    fun x hx => Serial.ahead_succ (hpos x hx).ne'
  constructor
  · exact h.nodup
  · exact h.hard
  · exact h.activated
  · intro x hx
    rw [hahead x hx]
    exact (sub_le _ _).trans_lt (h.window x hx)
  · refine h.ordered.imp_of_mem ?_
    intro x y hx hy hxy
    have hx' := hpos x hx
    rw [Before, hahead x hx, hahead y hy]
    refine hxy.imp ?_ (fun hlast => ⟨by rw [hlast.1], hlast.2⟩)
    omega
  · exact h.started

end

theorem dropped_ahead (s : Timers τ) (x y : τ) : (s.dropped x).ahead y = s.ahead y := by
  rw [ahead, dropped_timer]
  split_ifs with hy
  · rw [hy]
    rfl
  · rfl

theorem control_ahead (s : Timers τ) (x y : τ) (cmd : TimerCtrl) : (s.timerControl x cmd).ahead y = s.ahead y := by
  rw [ahead, timerControl, timer_setTimer]
  split_ifs with hy
  · rw [hy]
    cases cmd <;> rfl
  · rfl

theorem OnTime.dropped (h : s.OnTime log) (x : τ) : (s.dropped x).OnTime log := by
  have hsub : ((s.lists false).erase x).Sublist (s.lists false) := erase_sublist
  constructor
  · exact h.nodup.sublist hsub
  · intro y
    rw [dropped_timer]
    split_ifs
    · exact h.hard x
    · exact h.hard y
  · intro y
    change _ ↔ y ∈ (s.lists false).erase x
    rw [dropped_timer, h.nodup.mem_erase_iff]
    split_ifs with hy
    · simp [Timer.deactivate, hy]
    · simp [h.activated y, hy]
  · intro y hy
    rw [dropped_ahead]
    exact h.window y (hsub.subset hy)
  · refine (h.ordered.sublist hsub).imp ?_
    intro y z hyz
    rwa [Before, dropped_ahead, dropped_ahead]
  · exact fun y hy => h.started y (hsub.subset hy)

theorem restarted_ahead_self (s : Timers τ) (x : τ) : (s.restarted x).ahead x = (s.timer x).initTick.toNat := by
  rw [ahead, restarted_timer, if_pos rfl]
  exact Serial.ahead_add s.tick _

theorem restarted_ahead_of_ne (s : Timers τ) {y : τ} (hy : y ≠ x) : (s.restarted x).ahead y = s.ahead y :=
  ahead_of_timer_eq rfl (by rw [restarted_timer, if_neg hy])

section

variable (h : s.OnTime log) (hx : s.Startable x)

include h hx

theorem OnTime.restarted_list : (s.restarted x).lists false = ((s.lists false).erase x).orderedInsert
        (fun y z => (s.restarted x).ahead y < (s.restarted x).ahead z) x := by
  have hlist : (s.restarted x).lists false = ((s.lists false).erase x).orderedInsert (s.restarted x).Later x := by
    simp only [restarted, h.hard x, if_true]
    rfl
  rw [hlist]
  refine KeyOrder.orderedInsert_congr (fun y hy => later_iff ?_ ?_)
  · rw [restarted_ahead_self]
    exact (ult_tickHalf _).mp hx.2
  · obtain ⟨hne, hmem⟩ := h.nodup.mem_erase_iff.mp hy
    rw [restarted_ahead_of_ne s hne]
    exact h.window y hmem

theorem OnTime.mem_restarted (y : τ) : y ∈ (s.restarted x).lists false ↔ y = x ∨ y ∈ s.lists false := by
  rw [h.restarted_list hx, mem_orderedInsert, h.nodup.mem_erase_iff]
  tauto

theorem OnTime.restarted : (s.restarted x).OnTime (log ++ [.started x]) := by
  have hother : ∀ y ∈ (s.lists false).erase x, y ≠ x ∧ y ∈ s.lists false := fun y hy =>
    h.nodup.mem_erase_iff.mp hy
  have herase : ((s.lists false).erase x).Pairwise ((s.restarted x).Before (log ++ [.started x])) := by
    refine (h.ordered.sublist erase_sublist).imp_of_mem ?_
    intro y z hy hz hyz
    rw [Before, restarted_ahead_of_ne s (hother y hy).1, restarted_ahead_of_ne s (hother z hz).1]
    refine hyz.imp_right (fun hlast => ⟨hlast.1, hlast.2.append ?_ ?_⟩)
    · simpa using (hother y hy).1
    · simpa using (hother z hz).1
  constructor
  · rw [h.restarted_list hx]
    have hperm := perm_orderedInsert
      (fun y z => (s.restarted x).ahead y < (s.restarted x).ahead z) x ((s.lists false).erase x)
    exact hperm.nodup_iff.mpr (nodup_cons.mpr ⟨h.nodup.not_mem_erase, h.nodup.erase x⟩)
  · intro y
    rw [restarted_timer]
    split_ifs
    · exact h.hard x
    · exact h.hard y
  · intro y
    rw [h.mem_restarted hx, restarted_timer]
    split_ifs with hy
    · simp [Timer.activate, hy]
    · simp [h.activated y, hy]
  · intro y hy
    by_cases hyx : y = x
    · rw [hyx, restarted_ahead_self]
      exact (ult_tickHalf _).mp hx.2
    · rw [restarted_ahead_of_ne s hyx]
      exact h.window y (((h.mem_restarted hx y).mp hy).resolve_left hyx)
  · rw [h.restarted_list hx]
    refine KeyOrder.pairwise_orderedInsert herase ?_
    -- the new start is the last event, so every other pending timer was started before it
    intro y hy
    exact startedBefore_concat (h.started y (hother y hy).2) x
  · intro y hy
    rcases (h.mem_restarted hx y).mp hy with rfl | hy
    · simp
    · exact mem_append_left _ (h.started y hy)

end

def expired (s : Timers τ) (x : τ) : Timer :=
  if (s.timer x).periodic then (s.timer x).activate s.tick else (s.timer x).deactivate

theorem applyAll_idle (x : τ) (l : List (TimerEvent τ)) : s.applyAll (Callback.idle x l s) = ([], some s) := rfl

theorem OnTime.fire (h : s.OnTime log) {l : List τ} (hl : s.lists false = x :: l)
    (hx : s.ahead x = 0) (hstart : (s.timer x).periodic = true → s.Startable x) (ev : List (TimerEvent τ)) :
    ∃ ev' t, s.fire Callback.idle ev x = (ev', some t) ∧ t.OnTime (log ++ ev') ∧ firings ev' = [x] ∧
      s.due = x :: t.due ∧ t.tick = s.tick ∧
      ∀ y, t.timer y = if y = x then s.expired x else s.timer y := by
  have hact : (s.timer x).activated = true := (h.activated x).mpr (hl ▸ mem_cons_self)
  have hdrop : (s.dropped x).lists false = l := by
    change (s.lists false).erase x = l
    rw [hl, erase_cons_head]
  have hxl : x ∉ l := by
    have := h.nodup
    rw [hl] at this
    exact (nodup_cons.mp this).1
  have hdue : s.due = x :: l.filter (fun y => s.ahead y = 0) := by
    rw [due, hl, filter_cons_of_pos (by simpa using hx)]
  have hkeep : ∀ t : Timers τ, t.tick = s.tick → (∀ y, t.timer y = if y = x then s.expired x else s.timer y) →
      l.filter (fun y => t.ahead y = 0) = l.filter (fun y => s.ahead y = 0) := by
    intro t htick htimer
    refine filter_congr (fun y hy => ?_)
    rw [ahead_of_timer_eq htick (by rw [htimer, if_neg (ne_of_mem_of_not_mem hy hxl)])]
  have hgone : (s.dropped x).OnTime (log ++ [.fired x]) := (h.dropped x).append (by simp)
  cases hper : (s.timer x).periodic with
  | true =>
    have hstart' : (s.dropped x).Startable x := by
      have := hstart hper
      rwa [Startable, dropped_timer, if_pos rfl]
    have htimer (y : τ) : ((s.dropped x).restarted x).timer y = if y = x then s.expired x else s.timer y := by
      rw [restarted_timer, dropped_timer, dropped_timer, expired]
      split_ifs <;> rfl
    refine ⟨[.fired x, .started x], (s.dropped x).restarted x, ?_, ?_, rfl, ?_, rfl, htimer⟩
    · simp only [Timers.fire, applyAll_idle, settle]
      have hsettle : ((s.timerRemove x).setTimer x Timer.deactivate).timerStart x =
          some ((s.dropped x).restarted x) := by
        rw [timerStart_eq, if_pos]
        · rfl
        · exact hstart'.2
      rw [if_pos ⟨hper, hact⟩, hsettle]
      rfl
    · simpa using hgone.restarted hstart'
    · rw [hdue, due, hgone.restarted_list hstart', KeyOrder.filter_orderedInsert_of_neg]
      · rw [← hkeep ((s.dropped x).restarted x) rfl htimer, hdrop, erase_of_not_mem hxl]
      · have := hstart'.1
        simp only [restarted_ahead_self, decide_eq_false_iff_not]
        omega
  | false =>
    have htimer (y : τ) : (s.dropped x).timer y = if y = x then s.expired x else s.timer y := by
      rw [dropped_timer, expired, hper]
      rfl
    refine ⟨[.fired x], s.dropped x, ?_, hgone, rfl, ?_, rfl, htimer⟩
    · simp only [Timers.fire, applyAll_idle, settle]
      rw [if_neg (fun hc => by simp [timerRemove, hper] at hc)]
      rfl
    · rw [hdue, due, hdrop, ← hkeep (s.dropped x) rfl htimer]

theorem OnTime.checkLoop {s : Timers τ} {log ev : List (TimerEvent τ)} (h : s.OnTime (log ++ ev))
    (hstart : ∀ x ∈ s.due, (s.timer x).periodic = true → s.Startable x) {fuel : ℕ}
    (hfuel : s.due.length < fuel) :
    ∃ ev' t, Timers.checkLoop Callback.idle false fuel ev s = (ev ++ ev', some (t, true)) ∧
      t.OnTime (log ++ (ev ++ ev')) ∧ firings ev' = s.due ∧ t.due = [] ∧ t.tick = s.tick ∧
      ∀ y, t.timer y = if y ∈ s.due then s.expired y else s.timer y := by
  -- each round takes the head off `due`, so that one round more than timers are due ends the loop
  induction fuel generalizing s ev with
  | zero => exact absurd hfuel (not_lt_zero _)
  | succ fuel ih =>
    cases hl : s.lists false with
    | nil =>
      have hnone : s.due = [] := by rw [due, hl, filter_nil]
      refine ⟨[], s, ?_, by simpa using h, by simp [hnone], hnone, rfl, by simp [hnone]⟩
      simp [Timers.checkLoop, hl]
    | cons x l =>
      have hwin := h.window x (hl ▸ mem_cons_self)
      by_cases hx : s.ahead x = 0
      · have hxdue : x ∈ s.due := mem_due.mpr ⟨hl ▸ mem_cons_self, hx⟩
        obtain ⟨ev₁, u, hfire, hu, hfired, hdue, htick, htimer⟩ := h.fire hl hx (hstart x hxdue) ev
        have hxu : x ∉ u.due := by
          have := (h.nodup.filter (fun x => s.ahead x = 0))
          change s.due.Nodup at this
          rw [hdue] at this
          exact (nodup_cons.mp this).1
        have hsame (y : τ) (hy : y ∈ u.due) : u.timer y = s.timer y := by
          rw [htimer, if_neg (ne_of_mem_of_not_mem hy hxu)]
        have hstart' : ∀ y ∈ u.due, (u.timer y).periodic = true → u.Startable y := by
          intro y hy hper
          have hys : y ∈ s.due := hdue ▸ mem_cons_of_mem x hy
          rw [Startable, hsame y hy]
          exact hstart y hys (hsame y hy ▸ hper)
        have hu' : u.OnTime (log ++ (ev ++ ev₁)) := by rwa [← List.append_assoc]
        obtain ⟨ev₂, t, hloop, ht, hfired', hnone, htick', htimer'⟩ :=
          ih hu' hstart' (by rw [hdue] at hfuel; simpa using hfuel)
        refine ⟨ev₁ ++ ev₂, t, ?_, ?_, ?_, hnone, htick'.trans htick, ?_⟩
        · simp only [Timers.checkLoop, hl, if_pos ((due_iff hwin).mpr hx), hfire, hloop]
          simp
        · simpa using ht
        · rw [firings_append, hfired, hfired', hdue, singleton_append]
        · intro y
          rw [htimer', hdue]
          obtain rfl | hy := eq_or_ne y x
          · rw [if_neg hxu, if_pos mem_cons_self, htimer, if_pos rfl]
          · by_cases hyu : y ∈ u.due
            · rw [if_pos hyu, if_pos (mem_cons_of_mem x hyu), expired, expired, hsame y hyu, htick]
            · rw [if_neg hyu, if_neg (by simp [hy, hyu]), htimer, if_neg hy]
      · have hnone := h.due_of_head hl hx
        refine ⟨[], s, ?_, by simpa using h, by simp [hnone], hnone, rfl, by simp [hnone]⟩
        simp [Timers.checkLoop, hl, due_iff hwin, hx]

theorem OnTime.control (h : s.OnTime log) (x : τ) (cmd : TimerCtrl) : (s.timerControl x cmd).OnTime log := by
  have htimer (y : τ) : ((s.timerControl x cmd).timer y).soft = (s.timer y).soft ∧
      ((s.timerControl x cmd).timer y).activated = (s.timer y).activated := by
    rw [timerControl, timer_setTimer]
    split_ifs with hy
    · subst hy
      cases cmd <;> exact ⟨rfl, rfl⟩
    · exact ⟨rfl, rfl⟩
  constructor
  · exact h.nodup
  · exact fun y => (htimer y).1.trans (h.hard y)
  · exact fun y => (htimer y).2 ▸ h.activated y
  · intro y hy
    rw [control_ahead]
    exact h.window y hy
  · refine h.ordered.imp ?_
    intro y z hyz
    rwa [Before, control_ahead, control_ahead]
  · exact h.started

end Timers

structure TimerRun (τ : Type) where
  timers : Timers τ
  log : List (TimerEvent τ)

inductive TimerAction (τ : Type)
  | call (op : TimerOp τ)
  | tick
  deriving DecidableEq

namespace TimerRun

def check (s : TimerRun τ) : Timers.Pass τ :=
  s.timers.tickIncrease Timers.Callback.idle ((s.timers.lists false).length + 1)

def firing (s : TimerRun τ) : List τ := firings s.check.1

def step (s : TimerRun τ) : TimerAction τ → Option (TimerRun τ)
  | .call op => (s.timers.apply op).map (fun r => ⟨r.1, s.log ++ r.2⟩)
  | .tick =>
    match s.check with
    | (ev, some (t, true)) => some ⟨t, s.log ++ ev⟩
    | _ => none

def Valid (s : TimerRun τ) : TimerAction τ → Prop
  | .call (.start x) => s.timers.Startable x
  | .call _ => True
  | .tick => ∀ x ∈ s.timers.lists false, (s.timers.timer x).timeoutTick = s.timers.tick + 1 →
      (s.timers.timer x).periodic = true → s.timers.Startable x

def Initial (s : TimerRun τ) : Prop :=
  s.timers.lists false = [] ∧ s.log = [] ∧
    ∀ x, (s.timers.timer x).soft = false ∧ (s.timers.timer x).activated = false

structure Inv (s : TimerRun τ) : Prop where
  onTime : s.timers.OnTime s.log
  pos : ∀ x ∈ s.timers.lists false, 0 < s.timers.ahead x

variable {s t : TimerRun τ}

variable {x : τ} {n : ℕ} {P : TimerAction τ → Prop}

section

omit [DecidableEq τ]

theorem Initial.inv {s : TimerRun τ} (h : s.Initial) : s.Inv := by
  obtain ⟨hlist, -, htimer⟩ := h
  refine ⟨⟨by simp [hlist], fun x => (htimer x).1, ?_, by simp [hlist], by simp [hlist], by simp [hlist]⟩,
    by simp [hlist]⟩
  intro x
  simp [hlist, (htimer x).2]

def ticked (s : TimerRun τ) : Timers τ := { s.timers with tick := s.timers.tick + 1 }

theorem Inv.mem_due (h : s.Inv) (x : τ) :
    x ∈ s.ticked.due ↔ (s.timers.timer x).activated = true ∧ s.timers.ahead x = 1 := by
  rw [Timers.mem_due, h.onTime.activated]
  refine and_congr_right (fun hx => ?_)
  have hpos := h.pos x hx
  have hsucc : s.ticked.ahead x = s.timers.ahead x - 1 := Serial.ahead_succ hpos.ne'
  omega

end

theorem Inv.start (h : s.Inv) (hx : s.timers.Startable x) :
    ∃ t, s.step (.call (.start x)) = some t ∧ t.Inv ∧ t.timers = s.timers.restarted x := by
  refine ⟨⟨s.timers.restarted x, s.log ++ [.started x]⟩, ?_, ⟨h.onTime.restarted hx, ?_⟩, rfl⟩
  · simp [step, apply, timerStart_eq, hx.2]
  · intro y hy
    by_cases hyx : y = x
    · rw [hyx, restarted_ahead_self]
      exact hx.1
    · rw [restarted_ahead_of_ne _ hyx]
      exact h.pos y (((h.onTime.mem_restarted hx y).mp hy).resolve_left hyx)

theorem Inv.stop (h : s.Inv) (x : τ) :
    ∃ t, s.step (.call (.stop x)) = some t ∧ t.Inv ∧ t.timers.tick = s.timers.tick ∧
      ∀ y, t.timers.timer y = if y = x then (s.timers.timer x).deactivate else s.timers.timer y := by
  cases hact : (s.timers.timer x).activated with
  | true =>
    refine ⟨⟨s.timers.dropped x, s.log ++ [.stopped x]⟩, ?_, ⟨(h.onTime.dropped x).append (by simp), ?_⟩,
      rfl, s.timers.dropped_timer x⟩
    · simp [step, apply, timerStop, hact, dropped]
    · intro y hy
      rw [dropped_ahead]
      exact h.pos y (erase_sublist.subset hy)
  | false =>
    refine ⟨s, ?_, h, rfl, ?_⟩
    · simp [step, apply, timerStop, hact]
    · intro y
      split_ifs with hy
      · rw [hy, Timer.deactivate, ← hact]
      · rfl

theorem Inv.control (h : s.Inv) (x : τ) (cmd : TimerCtrl) :
    ∃ t, s.step (.call (.control x cmd)) = some t ∧ t.Inv ∧ t.timers.tick = s.timers.tick ∧
      ∀ y, t.timers.timer y = if y = x then (s.timers.timer x).control cmd else s.timers.timer y := by
  refine ⟨⟨s.timers.timerControl x cmd, s.log⟩, ?_, ⟨h.onTime.control x cmd, ?_⟩, rfl,
    fun y => timer_setTimer _ x y (fun tm => tm.control cmd)⟩
  · simp [step, apply]
  · intro y hy
    rw [control_ahead]
    exact h.pos y hy

theorem Inv.tick (h : s.Inv) (hv : s.Valid .tick) :
    s.firing = s.ticked.due ∧ ∃ t, s.step .tick = some t ∧ t.Inv ∧ t.timers.tick = s.timers.tick + 1 ∧
      ∀ y, t.timers.timer y = if y ∈ s.ticked.due then s.ticked.expired y else s.timers.timer y := by
  have hon : s.ticked.OnTime (s.log ++ []) := by
    rw [append_nil]
    exact h.onTime.tick h.pos
  have hstart : ∀ x ∈ s.ticked.due, (s.ticked.timer x).periodic = true → s.ticked.Startable x := by
    intro x hx hper
    obtain ⟨hmem, hzero⟩ := Timers.mem_due.mp hx
    refine hv x hmem ?_ hper
    exact Serial.eq_of_ahead (hzero.trans (Serial.ahead_self s.ticked.tick).symm)
  have hfuel : s.ticked.due.length < (s.timers.lists false).length + 1 := lt_succ_of_le (length_filter_le _ _)
  obtain ⟨ev, t, hloop, ht, hfired, hnone, htick, htimer⟩ := hon.checkLoop hstart hfuel
  have hcheck : s.check = (ev, some (t, true)) := hloop
  refine ⟨by rw [firing, hcheck, hfired], ⟨t, s.log ++ ev⟩, ?_, ⟨ht, ?_⟩, htick, htimer⟩
  · simp only [step, hcheck]
  · exact Timers.ahead_pos_of_due_nil hnone

section

variable (h : s.Inv) {a : TimerAction τ} (hv : s.Valid a)

include h hv

theorem Inv.step : ∃ t, s.step a = some t ∧ t.Inv := by
  match a, hv with
  | .call (.start x), hv =>
    obtain ⟨t, ht, hinv, -⟩ := h.start hv
    exact ⟨t, ht, hinv⟩
  | .call (.stop x), _ =>
    obtain ⟨t, ht, hinv, -⟩ := h.stop x
    exact ⟨t, ht, hinv⟩
  | .call (.control x cmd), _ =>
    obtain ⟨t, ht, hinv, -⟩ := h.control x cmd
    exact ⟨t, ht, hinv⟩
  | .tick, hv =>
    obtain ⟨-, t, ht, hinv, -⟩ := h.tick hv
    exact ⟨t, ht, hinv⟩

theorem Inv.of_step (hs : s.step a = some t) : t.Inv := by
  obtain ⟨u, hu, hinv⟩ := h.step hv
  rwa [some.inj (hs.symm.trans hu)]

end

theorem reachable_inv (h : Reachable step Valid Initial s) : s.Inv :=
  h.invariant (fun _ h => h.inv) (fun _ _ _ h hv hs => h.of_step hv hs)

theorem Inv.mem_firing (h : s.Inv) (hv : s.Valid .tick) (x : τ) :
    x ∈ s.firing ↔ (s.timers.timer x).activated = true ∧ s.timers.ahead x = 1 := by
  rw [(h.tick hv).1, h.mem_due]

def NoStart (x : τ) (a : TimerAction τ) : Prop := a ≠ .call (.start x)

def NoRestart (x : τ) (a : TimerAction τ) : Prop := a ≠ .call (.start x) ∧ a ≠ .call (.stop x)

def NoCall (x : τ) (a : TimerAction τ) : Prop := NoRestart x a ∧ ∀ cmd, a ≠ .call (.control x cmd)

inductive Leads (P : TimerAction τ → Prop) : TimerRun τ → ℕ → TimerRun τ → Prop
  | refl (s : TimerRun τ) : Leads P s 0 s
  | step {s t u : TimerRun τ} {n : ℕ} {a : TimerAction τ} (h : Leads P s n t) (hP : P a) (hv : t.Valid a)
      (hs : t.step a = some u) : Leads P s (if a = .tick then n + 1 else n) u

theorem Inv.leads (h : s.Inv) (hl : Leads P s n t) : t.Inv := by
  induction hl with
  | refl => exact h
  | step _ _ hv hs ih => exact ih.of_step hv hs

theorem Inv.call_timer (h : s.Inv) {op : TimerOp τ} (hv : s.Valid (.call op)) (hs : s.step (.call op) = some t)
    (x : τ) (hx : NoStart x (.call op)) :
    t.timers.tick = s.timers.tick ∧ (t.timers.timer x).timeoutTick = (s.timers.timer x).timeoutTick ∧
      ((t.timers.timer x).activated = true → (s.timers.timer x).activated = true) ∧
      (NoRestart x (.call op) → (t.timers.timer x).activated = (s.timers.timer x).activated) ∧
      (NoCall x (.call op) → t.timers.timer x = s.timers.timer x) := by
  cases op with
  | start y =>
    obtain ⟨u, hu, -, htimers⟩ := h.start hv
    obtain rfl := some.inj (hs.symm.trans hu)
    have hxy : x ≠ y := fun he => hx (by rw [he])
    have htimer : t.timers.timer x = s.timers.timer x := by
      rw [htimers, restarted_timer, if_neg hxy]
    rw [htimer, htimers]
    exact ⟨rfl, rfl, id, fun _ => rfl, fun _ => rfl⟩
  | stop y =>
    obtain ⟨u, hu, -, htick, htimer⟩ := h.stop y
    obtain rfl := some.inj (hs.symm.trans hu)
    rw [htimer]
    split_ifs with hxy
    · subst hxy
      exact ⟨htick, rfl, by simp [Timer.deactivate], fun hn => absurd rfl hn.2, fun hn => absurd rfl hn.1.2⟩
    · exact ⟨htick, rfl, id, fun _ => rfl, fun _ => rfl⟩
  | control y cmd =>
    obtain ⟨u, hu, -, htick, htimer⟩ := h.control y cmd
    obtain rfl := some.inj (hs.symm.trans hu)
    rw [htimer]
    split_ifs with hxy
    · subst hxy
      refine ⟨htick, ?_, ?_, fun _ => ?_, fun hn => absurd rfl (hn.2 cmd)⟩
      · cases cmd <;> rfl
      · cases cmd <;> exact id
      · cases cmd <;> rfl
    · exact ⟨htick, rfl, id, fun _ => rfl, fun _ => rfl⟩

def Pending (s : TimerRun τ) (x : τ) (n : ℕ) : Prop :=
  (s.timers.timer x).activated = true ∧ s.timers.ahead x = n

section

variable (h : s.Inv) (hv : s.Valid .tick) (hs : s.step .tick = some t)

include h hv hs

theorem Inv.tick_timer (x : τ) : t.timers.tick = s.timers.tick + 1 ∧
      t.timers.timer x = if x ∈ s.ticked.due then s.ticked.expired x else s.timers.timer x := by
  obtain ⟨-, u, hu, -, htick, htimer⟩ := h.tick hv
  obtain rfl := some.inj (hs.symm.trans hu)
  exact ⟨htick, htimer x⟩

theorem Inv.pending_tick (hx : s.Pending x n) (hn : 1 < n) : t.Pending x (n - 1) := by
  obtain ⟨htick, htimer⟩ := h.tick_timer hv hs x
  have hdue : x ∉ s.ticked.due := by
    rw [h.mem_due, hx.2]
    omega
  rw [if_neg hdue] at htimer
  refine ⟨htimer ▸ hx.1, ?_⟩
  have hne : s.timers.ahead x ≠ 0 := by
    rw [hx.2]
    omega
  rw [ahead, htick, htimer, ← hx.2]
  exact Serial.ahead_succ hne

theorem Inv.expired_tick (hx : s.Pending x 1) :
    ((s.timers.timer x).periodic = true → t.Pending x (s.timers.timer x).initTick.toNat ∧
        (t.timers.timer x).periodic = true ∧ (t.timers.timer x).initTick = (s.timers.timer x).initTick) ∧
      ((s.timers.timer x).periodic = false → (t.timers.timer x).activated = false) := by
  obtain ⟨htick, htimer⟩ := h.tick_timer hv hs x
  rw [if_pos ((h.mem_due x).mpr hx)] at htimer
  change _ = if (s.timers.timer x).periodic = true then (s.timers.timer x).activate (s.timers.tick + 1)
    else (s.timers.timer x).deactivate at htimer
  constructor
  · intro hper
    rw [if_pos hper] at htimer
    refine ⟨⟨by rw [htimer]; rfl, ?_⟩, htimer ▸ hper, by rw [htimer]; rfl⟩
    rw [ahead, htick, htimer]
    exact Serial.ahead_add _ _
  · intro hper
    rw [if_neg (by simp [hper])] at htimer
    rw [htimer]
    rfl

end

theorem Inv.leads_tick (h : s.Inv) (hl : Leads P s n t) : t.timers.tick = s.timers.tick + BitVec.ofNat 32 n := by
  induction hl with
  | refl => simp
  | @step t u n a hl hP hv hs ih =>
    have ht := h.leads hl
    cases a with
    | call op =>
      obtain ⟨r, hr, rfl⟩ := map_eq_some_iff.mp hs
      rw [if_neg (by simp), ← ih]
      exact apply_tick hr
    | tick =>
      obtain ⟨-, v, hv', -, htick, -⟩ := ht.tick hv
      obtain rfl := some.inj (hs.symm.trans hv')
      rw [if_pos rfl, htick, ih, BitVec.add_assoc, BitVec.ofNat_add]
      rfl

theorem Inv.pending_leads {d : ℕ} (h : s.Inv) (hx : s.Pending x d)
    (hl : Leads (NoRestart x) s n t) (hn : n < d) : t.Pending x (d - n) := by
  induction hl with
  | refl => exact hx
  | @step t u n a hl hP hv hs ih =>
    have ht := h.leads hl
    cases a with
    | call op =>
      obtain ⟨htick, htimeout, -, hact, -⟩ := ht.call_timer hv hs x hP.1
      obtain ⟨hact', hahead⟩ := ih hn
      refine ⟨(hact hP).trans hact', ?_⟩
      rw [ahead, htick, htimeout]
      exact hahead
    | tick =>
      rw [if_pos rfl] at hn ⊢
      exact ht.pending_tick hv hs (ih (by omega)) (lt_sub_of_add_lt (by omega))

theorem Inv.idle_leads (h : s.Inv) (hx : (s.timers.timer x).activated = false)
    (hl : Leads (NoStart x) s n t) : (t.timers.timer x).activated = false := by
  induction hl with
  | refl => exact hx
  | @step t u n a hl hP hv hs ih =>
    have ht := h.leads hl
    cases a with
    | call op =>
      obtain ⟨-, -, hact, -⟩ := ht.call_timer hv hs x hP
      rw [Bool.eq_false_iff]
      exact fun hu => by simp [ih] at hact; simp [hact] at hu
    | tick =>
      have hdue : x ∉ t.ticked.due := by
        rw [ht.mem_due, ih]
        simp
      rw [(ht.tick_timer hv hs x).2, if_neg hdue]
      exact ih

theorem Inv.periodic_leads {d : ℕ} (h : s.Inv) (hd : 0 < d) (hx : s.Pending x d)
    (hper : (s.timers.timer x).periodic = true) (hinit : (s.timers.timer x).initTick.toNat = d)
    (hl : Leads (NoCall x) s n t) :
    t.Pending x (d - n % d) ∧ (t.timers.timer x).periodic = true ∧
      (t.timers.timer x).initTick.toNat = d := by
  induction hl with
  | refl => exact ⟨by simpa using hx, hper, hinit⟩
  | @step t u n a hl hP hv hs ih =>
    have ht := h.leads hl
    obtain ⟨hpend, hper', hinit'⟩ := ih
    cases a with
    | call op =>
      obtain ⟨htick, -, -, -, htimer⟩ := ht.call_timer hv hs x hP.1.1
      rw [Pending, ahead, htick, htimer hP]
      exact ⟨hpend, hper', hinit'⟩
    | tick =>
      rw [if_pos rfl]
      have hmod := Nat.mod_lt n hd
      by_cases hlast : n % d + 1 = d
      · have hone : d - n % d = 1 := by omega
        have hzero : (n + 1) % d = 0 := by
          rw [← Nat.mod_add_mod, hlast, Nat.mod_self]
        obtain ⟨hagain, hper'', hinit''⟩ := (ht.expired_tick hv hs (hone ▸ hpend)).1 hper'
        rw [hzero, hinit'', hinit']
        exact ⟨hinit' ▸ hagain, hper'', rfl⟩
      · have hnext : (n + 1) % d = n % d + 1 := by
          rw [← Nat.mod_add_mod, Nat.mod_eq_of_lt (by omega)]
        have hdue : x ∉ t.ticked.due := by
          rw [ht.mem_due, hpend.2]
          omega
        rw [(ht.tick_timer hv hs x).2, if_neg hdue, hnext, ← Nat.sub_sub]
        exact ⟨ht.pending_tick hv hs hpend (by omega), hper', hinit'⟩

def FiresAfter (s : TimerRun τ) (x : τ) (d : ℕ) : Prop :=
  ∀ n t, Leads (NoRestart x) s n t → t.Valid .tick → n < d →
    t.timers.tick + 1 = s.timers.tick + BitVec.ofNat 32 (n + 1) ∧ (x ∈ t.firing ↔ n + 1 = d)

def NeverFires (s : TimerRun τ) (x : τ) : Prop :=
  ∀ n t, Leads (NoStart x) s n t → t.Valid .tick → x ∉ t.firing

theorem Inv.firesAfter (h : s.Inv) {d : ℕ} (hx : s.Pending x d) : s.FiresAfter x d := by
  intro n t hl hv hn
  constructor
  · rw [h.leads_tick hl, BitVec.add_assoc, BitVec.ofNat_add]
    rfl
  · obtain ⟨hact, hahead⟩ := h.pending_leads hx hl hn
    rw [(h.leads hl).mem_firing hv]
    simp only [hact, true_and]
    omega

theorem Inv.neverFires (h : s.Inv) (hx : (s.timers.timer x).activated = false) : s.NeverFires x := by
  intro n t hl hv
  rw [(h.leads hl).mem_firing hv, h.idle_leads hx hl]
  simp

theorem Inv.start_pending (h : s.Inv) (hv : s.Valid (.call (.start x))) (hs : s.step (.call (.start x)) = some t) :
    t.Inv ∧ t.timers = s.timers.restarted x ∧ t.Pending x (s.timers.timer x).initTick.toNat := by
  obtain ⟨u, hu, hinv, htimers⟩ := h.start hv
  obtain rfl := some.inj (hs.symm.trans hu)
  refine ⟨hinv, htimers, ?_⟩
  rw [Pending, htimers, restarted_ahead_self, restarted_timer, if_pos rfl]
  exact ⟨rfl, rfl⟩

theorem Inv.firing_ordered (h : s.Inv) (hv : s.Valid .tick) :
    s.firing.Nodup ∧ s.firing.Pairwise (StartedBefore s.log) := by
  rw [(h.tick hv).1]
  have hon := h.onTime.tick h.pos
  refine ⟨hon.nodup.filter _, (hon.ordered.sublist filter_sublist).imp_of_mem ?_⟩
  intro x y hx hy hxy
  -- both expire in this tick, so the list has them in the order of their starts
  have hy' := (Timers.mem_due.mp hy).2
  rcases hxy with hlt | ⟨-, hlast⟩
  · change s.ticked.ahead x < s.ticked.ahead y at hlt
    omega
  · exact hlast

theorem timers_fire_on_time (h : Reachable step Valid Initial s) :
    (∀ a, s.Valid a → ∃ t, s.step a = some t) ∧
    (∀ x t, s.Valid (.call (.start x)) → s.step (.call (.start x)) = some t →
      t.timers.tick = s.timers.tick ∧ t.FiresAfter x (s.timers.timer x).initTick.toNat) ∧
    (s.Valid .tick → s.firing.Nodup ∧ s.firing.Pairwise (StartedBefore s.log)) ∧
    (∀ x t, s.Valid .tick → s.step .tick = some t → x ∈ s.firing →
      ((s.timers.timer x).periodic = true → t.FiresAfter x (s.timers.timer x).initTick.toNat) ∧
      ((s.timers.timer x).periodic = false → t.NeverFires x)) ∧
    (∀ x t n u, s.Valid (.call (.start x)) → s.step (.call (.start x)) = some t →
      (s.timers.timer x).periodic = true → Leads (NoCall x) t n u → u.Valid .tick →
      (x ∈ u.firing ↔ (s.timers.timer x).initTick.toNat ∣ n + 1)) ∧
    (∀ x t, s.step (.call (.stop x)) = some t → t.NeverFires x) := by
  have hinv := reachable_inv h
  refine ⟨fun a hv => ?_, fun x t hv hs => ?_, hinv.firing_ordered, fun x t hv hs hx => ?_,
    fun x t n u hv hs hper hl hu => ?_, fun x t hs => ?_⟩
  · obtain ⟨t, ht, -⟩ := hinv.step hv
    exact ⟨t, ht⟩
  · obtain ⟨ht, htimers, hpend⟩ := hinv.start_pending hv hs
    exact ⟨by rw [htimers]; rfl, ht.firesAfter hpend⟩
  · have ht := hinv.of_step hv hs
    obtain ⟨hagain, honce⟩ := hinv.expired_tick hv hs ((hinv.mem_firing hv x).mp hx)
    exact ⟨fun hper => ht.firesAfter (hagain hper).1, fun hper => ht.neverFires (honce hper)⟩
  · obtain ⟨ht, htimers, hpend⟩ := hinv.start_pending hv hs
    have htimer : t.timers.timer x = (s.timers.timer x).activate s.timers.tick := by
      rw [htimers, restarted_timer, if_pos rfl]
    obtain ⟨⟨hact, hahead⟩, -⟩ := ht.periodic_leads hv.1 hpend (htimer ▸ hper) (by rw [htimer]; rfl) hl
    have hmod := mod_lt n hv.1
    rw [(ht.leads hl).mem_firing hu, dvd_iff_mod_eq_zero, ← mod_add_mod]
    simp only [hact, true_and]
    constructor
    · intro hone
      rw [show n % (s.timers.timer x).initTick.toNat + 1 = (s.timers.timer x).initTick.toNat by omega, mod_self]
    · intro hzero
      by_contra hne
      rw [mod_eq_of_lt (by omega)] at hzero
      omega
  · obtain ⟨u, hu, hinv', -, htimer⟩ := hinv.stop x
    obtain rfl := some.inj (hs.symm.trans hu)
    refine hinv'.neverFires ?_
    rw [htimer, if_pos rfl]
    rfl

def wrapTimer : TimerRun Unit :=
  ⟨{ tick := 0xfffffffe, timer := fun _ => Timer.init 3 false false, lists := fun _ => [] }, []⟩

theorem timers_fire_on_time_at_wrap :
    ∃ t u, wrapTimer.step (.call (.start ())) = some t ∧ Leads (NoRestart ()) t 2 u ∧
      u.timers.tick + 1 = 1 ∧ () ∈ u.firing := by
  have hinit : wrapTimer.Initial := ⟨rfl, rfl, fun _ => ⟨rfl, rfl⟩⟩
  have hvalid : wrapTimer.Valid (.call (.start ())) := ⟨by decide, by decide⟩
  obtain ⟨-, hstart, -⟩ := timers_fire_on_time (.start hinit)
  have hquiet : NoRestart () TimerAction.tick := ⟨by simp, by simp⟩
  -- the timer is not periodic, so the ticks restart nothing
  have hone (t : TimerRun Unit) (ht : (t.timers.timer ()).periodic = false) : t.Valid .tick := by
    rintro ⟨⟩ - - hper
    simp [ht] at hper
  obtain ⟨t, ht, hinv, htimers⟩ := hinit.inv.start hvalid
  have hper : (t.timers.timer ()).periodic = false := by
    rw [htimers, restarted_timer]
    rfl
  have hkeep {s u : TimerRun Unit} (hs : s.Inv) (hs' : (s.timers.timer ()).periodic = false)
      (hu : s.step .tick = some u) : (u.timers.timer ()).periodic = false := by
    rw [(hs.tick_timer (hone s hs') hu ()).2]
    split_ifs
    · rw [expired, if_neg (by simpa [ticked] using hs')]
      exact hs'
    · exact hs'
  obtain ⟨-, t', ht', hinv', -⟩ := hinv.tick (hone t hper)
  have hper' := hkeep hinv hper ht'
  obtain ⟨-, u, hu, -⟩ := hinv'.tick (hone t' hper')
  have hleads : Leads (NoRestart ()) t 2 u := by
    have hfirst : Leads (NoRestart ()) t 1 t' := .step (.refl t) hquiet (hone t hper) ht'
    exact .step hfirst hquiet (hone t' hper') hu
  obtain ⟨htick, hfires⟩ := hstart () t hvalid ht
  obtain ⟨hwrap, hfire⟩ := hfires 2 u hleads (hone u (hkeep hinv' hper' hu)) (by decide)
  exact ⟨t, u, ht, hleads, by rw [hwrap, htick]; rfl, hfire.mpr rfl⟩

end TimerRun

end RtThread
