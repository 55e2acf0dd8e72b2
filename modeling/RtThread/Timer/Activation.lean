import RtThread.Lib.Transition
import RtThread.Timer.Timer

namespace RtThread

open Transition List Option

variable {τ : Type} [DecidableEq τ]

namespace Timers

def CheckAlong (cb : Callback τ) (b : Bool) (P : List (TimerEvent τ) → Timers τ → τ → Prop) :
    ℕ → List (TimerEvent τ) → Timers τ → Prop
  | 0, _, _ => True
  | fuel + 1, log, s =>
    match s.lists b with
    | [] => True
    | x :: _ => s.Due x → P log s x ∧
        ∀ t, (s.fire cb log x).2 = some t → CheckAlong cb b P fuel (log ++ (s.fire cb log x).1) t

def SoftCheckAlong (cb : Callback τ) (P : List (TimerEvent τ) → Timers τ → τ → Prop) :
    ℕ → Option τ → List (TimerEvent τ) → Timers τ → Prop
  | 0, _, _, _ => True
  | _ + 1, none, _, _ => True
  | fuel + 1, some x, log, s => s.Due x → P log s x ∧
      ∀ t, (s.fire cb log x).2 = some t →
        SoftCheckAlong cb P fuel (s.next x) (log ++ (s.fire cb log x).1) t

variable {cb : Callback τ} {P : List (TimerEvent τ) → Timers τ → τ → Prop} {I : Timers τ → Prop}
  {log log' : List (TimerEvent τ)}

theorem checkLoop_keeps {b : Bool}
    (hfire : ∀ log s x t, I s → P log s x → (s.fire cb log x).2 = some t → I t) {fuel : ℕ}
    {s t : Timers τ} {d : Bool} (hs : I s)
    (halong : CheckAlong cb b P fuel log s) (hloop : checkLoop cb b fuel log s = (log', some (t, d))) : I t := by
  fun_induction checkLoop cb b fuel log s with
  | case3 fuel log s x l hl hx ev hf => cases hloop
  | case4 fuel log s x l hl hx ev u hf ih =>
    simp only [CheckAlong, hl, hf] at halong
    obtain ⟨hP, hrest⟩ := halong hx
    exact ih (hfire log s x u hs hP (by rw [hf])) (hrest u rfl) hloop
  | _ =>
    cases hloop
    exact hs

theorem softCheckLoop_keeps
    (hfire : ∀ log s x t, I s → P log s x → (s.fire cb log x).2 = some t → I t) {fuel : ℕ} {n : Option τ}
    {s t : Timers τ} {d : Bool} (hs : I s) (halong : SoftCheckAlong cb P fuel n log s)
    (hloop : softCheckLoop cb fuel n log s = (log', some (t, d))) : I t := by
  fun_induction softCheckLoop cb fuel n log s with
  | case3 fuel x log s hx ev hf => cases hloop
  | case4 fuel x log s hx ev u hf ih =>
    obtain ⟨hP, hrest⟩ := halong hx
    rw [hf] at hrest
    exact ih (hfire log s x u hs hP (by rw [hf])) (hrest u rfl) hloop
  | _ =>
    cases hloop
    exact hs

/-- No row is linked twice, and the flag says of every timer whether it is linked; only the one whose timeout
function runs, `busy`, may be activated and not linked. -/
structure Flagged (s : Timers τ) (busy : Option τ) : Prop where
  nodup : ∀ b, (s.lists b).Nodup
  linked : ∀ y, s.Linked y → (s.timer y).activated = true
  activated : ∀ y, busy ≠ some y → (s.timer y).activated = true → s.Linked y

section

variable (s : Timers τ) (hnd : ∀ b, (s.lists b).Nodup) (x y : τ)

include s hnd x y

theorem mem_lists_restarted (b : Bool) :
    y ∈ (s.restarted x).lists b ↔ (y = x ∧ b = (s.timer x).soft) ∨ (y ≠ x ∧ y ∈ s.lists b) := by
  simp only [restarted]
  split_ifs with hb
  · rw [mem_orderedInsert, (hnd b).mem_erase_iff]
    tauto
  · rw [(hnd b).mem_erase_iff]
    tauto

theorem linked_restarted : (s.restarted x).Linked y ↔ y = x ∨ s.Linked y := by
  simp only [Linked, mem_lists_restarted s hnd]
  by_cases hy : y = x
  · simp [hy]
  · simp [hy]

theorem linked_timerRemove : (s.timerRemove x).Linked y ↔ y ≠ x ∧ s.Linked y := by
  simp only [Linked, timerRemove, (hnd _).mem_erase_iff, exists_and_left]

end

theorem nodup_restarted {s : Timers τ} (hnd : ∀ b, (s.lists b).Nodup) (x : τ) (b : Bool) :
    ((s.restarted x).lists b).Nodup := by
  simp only [restarted]
  split_ifs
  · refine (perm_orderedInsert _ x _).nodup_iff.mpr (nodup_cons.mpr ⟨(hnd b).not_mem_erase, ?_⟩)
    exact (hnd b).erase x
  · exact (hnd b).erase x

variable {s t : Timers τ} {x : τ} {busy : Option τ} {log : List (TimerEvent τ)}

section

variable (h : s.Flagged busy)

include h

theorem Flagged.restarted (y : τ) : (s.restarted y).Flagged busy := by
  refine ⟨nodup_restarted h.nodup y, fun z hz => ?_, fun z hzx hz => ?_⟩
  · rw [restarted_timer]
    split_ifs with hzy
    · rfl
    · exact h.linked z (((linked_restarted s h.nodup y z).mp hz).resolve_left hzy)
  · rw [linked_restarted s h.nodup]
    rw [restarted_timer] at hz
    split_ifs at hz with hzy
    · exact Or.inl hzy
    · exact Or.inr (h.activated z hzx hz)

theorem Flagged.dropped (y : τ) : (s.dropped y).Flagged busy := by
  refine ⟨fun b => (h.nodup b).erase y, fun z hz => ?_, fun z hzx hz => ?_⟩
  · obtain ⟨hzy, hz⟩ := (linked_timerRemove s h.nodup y z).mp hz
    rw [dropped_timer, if_neg hzy]
    exact h.linked z hz
  · rw [dropped_timer] at hz
    split_ifs at hz with hzy
    · simp [Timer.deactivate] at hz
    · exact (linked_timerRemove s h.nodup y z).mpr ⟨hzy, h.activated z hzx hz⟩

theorem Flagged.control (y : τ) (cmd : TimerCtrl) : (s.timerControl y cmd).Flagged busy := by
  have hact (z : τ) : ((s.timerControl y cmd).timer z).activated = (s.timer z).activated := by
    rw [timerControl, timer_setTimer]
    split_ifs with hz
    · rw [hz]
      cases cmd <;> rfl
    · rfl
  refine ⟨h.nodup, fun z hz => ?_, fun z hzx hz => ?_⟩
  · rw [hact]
    exact h.linked z hz
  · rw [hact] at hz
    exact h.activated z hzx hz

theorem Flagged.apply {op : TimerOp τ} {r : Timers τ × List (TimerEvent τ)}
    (hr : s.apply op = some r) : r.1.Flagged busy := by
  cases op with
  | start y =>
    obtain ⟨u, hu, rfl⟩ := map_eq_some_iff.mp hr
    rw [timerStart_eq] at hu
    split_ifs at hu
    exact some.inj hu ▸ h.restarted y
  | stop y =>
    cases hr
    simp only [timerStop]
    split_ifs
    · exact h.dropped y
    · exact h
  | control y cmd =>
    cases hr
    exact h.control y cmd

theorem Flagged.applyAll {ops : List (TimerOp τ)} (ht : (s.applyAll ops).2 = some t) : t.Flagged busy := by
  induction ops generalizing s with
  | nil => exact some.inj ht ▸ h
  | cons op ops ih =>
    simp only [Timers.applyAll] at ht
    cases hr : s.apply op with
    | none => simp [hr] at ht
    | some r =>
      simp only [hr] at ht
      exact ih (h.apply hr) ht

end

def returned (s : Timers τ) (cb : Callback τ) (log : List (TimerEvent τ)) (x : τ) : Option (Timers τ) :=
  ((s.timerRemove x).applyAll (cb x (log ++ [.fired x]) (s.timerRemove x))).2

def NotRestarted (cb : Callback τ) (log : List (TimerEvent τ)) (s : Timers τ) (x : τ) : Prop :=
  ∀ t, s.returned cb log x = some t → (t.timer x).periodic = true ∨ ¬t.Linked x

theorem fire_eq_some (h : (s.fire cb log x).2 = some t) :
    ∃ u, s.returned cb log x = some u ∧ (u.settle x).2 = some t := by
  simp only [fire] at h
  cases hr : (s.timerRemove x).applyAll (cb x (log ++ [.fired x]) (s.timerRemove x)) with
  | mk ev r =>
    cases r with
    | none => simp [hr] at h
    | some u =>
      simp only [hr] at h
      exact ⟨u, by rw [returned, hr], h⟩

theorem Flagged.settle (h : s.Flagged (some x)) (hx : (s.timer x).periodic = true ∨ ¬s.Linked x)
    (ht : (s.settle x).2 = some t) : t.Flagged none := by
  simp only [Timers.settle] at ht
  split_ifs at ht with hper
  · cases hstart : (s.setTimer x Timer.deactivate).timerStart x with
    | none => simp [hstart] at ht
    | some u =>
      simp only [hstart, some.injEq] at ht
      subst ht
      rw [timerStart_eq] at hstart
      split_ifs at hstart
      cases hstart
      have hnd : ∀ b, ((s.setTimer x Timer.deactivate).lists b).Nodup := h.nodup
      refine ⟨nodup_restarted hnd x, fun y hy => ?_, fun y _ hact => ?_⟩
      · rw [restarted_timer]
        split_ifs with hyx
        · rfl
        · rw [timer_setTimer, if_neg hyx]
          exact h.linked y (((linked_restarted _ hnd x y).mp hy).resolve_left hyx)
      · rw [linked_restarted _ hnd]
        by_cases hyx : y = x
        · exact Or.inl hyx
        · rw [restarted_timer, if_neg hyx, timer_setTimer, if_neg hyx] at hact
          exact Or.inr (h.activated y (by simpa using Ne.symm hyx) hact)
  · cases ht
    -- the flag is cleared, so the timer must not be linked
    have hgone : ¬s.Linked x := by
      intro hlink
      exact hper ⟨hx.resolve_right (not_not_intro hlink), h.linked x hlink⟩
    refine ⟨h.nodup, fun y hy => ?_, fun y _ hact => ?_⟩
    · have hyx : y ≠ x := by
        rintro rfl
        exact hgone hy
      rw [timer_setTimer, if_neg hyx]
      exact h.linked y hy
    · rw [timer_setTimer] at hact
      split_ifs at hact with hyx
      · simp [Timer.deactivate] at hact
      · exact h.activated y (by simpa using Ne.symm hyx) hact

theorem Flagged.fire (h : s.Flagged none) (hx : NotRestarted cb log s x)
    (ht : (s.fire cb log x).2 = some t) : t.Flagged none := by
  obtain ⟨u, hu, hsettle⟩ := fire_eq_some ht
  have hremoved : (s.timerRemove x).Flagged (some x) := by
    refine ⟨fun b => (h.nodup b).erase x, fun y hy => ?_, fun y hyx hy => ?_⟩
    · exact h.linked y ((linked_timerRemove s h.nodup x y).mp hy).2
    · refine (linked_timerRemove s h.nodup x y).mpr ⟨fun he => hyx (by rw [he]), ?_⟩
      exact h.activated y (by simp) hy
  exact (hremoved.applyAll hu).settle (hx u hu) hsettle

end Timers

inductive CheckAction (τ : Type)
  | call (op : TimerOp τ)
  | advance (tick : BitVec 32)
  | check (cb : Timers.Callback τ) (fuel : ℕ)
  | softCheck (cb : Timers.Callback τ) (fuel : ℕ)

namespace Timers

def finished : Pass τ → Option (Timers τ)
  | (_, some (t, true)) => some t
  | _ => none

def step (s : Timers τ) : CheckAction τ → Option (Timers τ)
  | .call op => (s.apply op).map Prod.fst
  | .advance tick => some { s with tick }
  | .check cb fuel => finished (s.timerCheck cb fuel)
  | .softCheck cb fuel => finished (s.softTimerCheck cb fuel)

def Settles (s : Timers τ) : CheckAction τ → Prop
  | .check cb fuel => CheckAlong cb false (NotRestarted cb) fuel [] s
  | .softCheck cb fuel => SoftCheckAlong cb (NotRestarted cb) fuel (s.lists true).head? [] s
  | _ => True

section

variable {cb : Callback τ} {b : Bool} {P : List (TimerEvent τ) → Timers τ → τ → Prop}
  [∀ log s x, Decidable (P log s x)]

instance CheckAlong.decidable : ∀ fuel log s, Decidable (CheckAlong cb b P fuel log s)
  | 0, _, _ => isTrue trivial
  | fuel + 1, log, s =>
    match h : s.lists b with
    | [] => isTrue (by simp [CheckAlong, h])
    | x :: _ =>
      have := CheckAlong.decidable fuel
      decidable_of_iff (s.Due x → P log s x ∧
        ∀ t ∈ (s.fire cb log x).2, CheckAlong cb b P fuel (log ++ (s.fire cb log x).1) t) (by simp [CheckAlong, h])

instance SoftCheckAlong.decidable : ∀ fuel n log s, Decidable (SoftCheckAlong cb P fuel n log s)
  | 0, _, _, _ | _ + 1, none, _, _ => isTrue trivial
  | fuel + 1, some _, _, _ =>
    have := SoftCheckAlong.decidable fuel
    instDecidableForall

end

instance (cb : Callback τ) (log : List (TimerEvent τ)) (s : Timers τ) (x : τ) :
    Decidable (NotRestarted cb log s x) :=
  inferInstanceAs (Decidable (∀ t ∈ s.returned cb log x, (t.timer x).periodic = true ∨ ¬t.Linked x))

instance (s : Timers τ) : ∀ a, Decidable (s.Settles a)
  | .check _ fuel => CheckAlong.decidable fuel [] s
  | .softCheck _ fuel => SoftCheckAlong.decidable fuel (s.lists true).head? [] s
  | .call _ | .advance _ => isTrue trivial

def AllStopped (s : Timers τ) : Prop := (∀ b, s.lists b = []) ∧ ∀ x, (s.timer x).activated = false

variable {s t : Timers τ}

section

omit [DecidableEq τ]

theorem AllStopped.flagged (h : s.AllStopped) : s.Flagged none :=
  ⟨fun b => by simp [h.1 b], fun x hx => by simp [Linked, h.1] at hx, fun x _ hx => by simp [h.2 x] at hx⟩

theorem finished_eq_some {p : Pass τ} (h : finished p = some t) : ∃ log, p = (log, some (t, true)) := by
  match p, h with
  | (log, some (u, true)), h => exact ⟨log, by rw [some.inj h]⟩

end

theorem Flagged.step (h : s.Flagged none) {a : CheckAction τ} (ha : s.Settles a) (ht : s.step a = some t) :
    t.Flagged none := by
  cases a with
  | call op =>
    obtain ⟨r, hr, rfl⟩ := map_eq_some_iff.mp ht
    exact h.apply hr
  | advance tick => exact some.inj ht ▸ ⟨h.nodup, h.linked, h.activated⟩
  | check cb fuel =>
    obtain ⟨log, hlog⟩ := finished_eq_some ht
    exact checkLoop_keeps (I := fun u => u.Flagged none) (fun _ _ _ _ hu hP hfire => hu.fire hP hfire) h ha hlog
  | softCheck cb fuel =>
    obtain ⟨log, hlog⟩ := finished_eq_some ht
    exact softCheckLoop_keeps (I := fun u => u.Flagged none) (fun _ _ _ _ hu hP hfire => hu.fire hP hfire) h ha hlog

theorem activated_iff_linked (h : Reachable step Settles AllStopped s) :
    (∀ x, (s.timer x).activated = true ↔ s.Linked x) ∧
      ∀ x, s.Linked x → (s.timerStop x).2 = .eok ∧ ¬(s.timerStop x).1.Linked x := by
  have hflag : s.Flagged none := h.invariant (fun _ hinit => hinit.flagged) (fun _ _ _ hs ha ht => hs.step ha ht)
  refine ⟨fun x => ⟨hflag.activated x (by simp), hflag.linked x⟩, fun x hx => ?_⟩
  rw [timerStop, if_pos (hflag.linked x hx)]
  exact ⟨rfl, fun hlink => ((linked_timerRemove s hflag.nodup x x).mp hlink).1 rfl⟩

/-- A periodic hard timer whose callback starts a one-shot soft timer, which changes the period of the first. -/
def relay : Timers Bool := { tick := 0, timer := fun x => Timer.init 1 (!x) x, lists := fun _ => [] }

def relaying : Callback Bool := fun x _ _ => if x then [.control false (.setTime 3), .start false] else [.start true]

theorem activated_iff_linked_relay :
    ∃ s, run step relay [.call (.start false), .advance 1, .check relaying 3, .advance 2,
      .softCheck relaying 3] = some s ∧
      (s.Linked false ∧ ¬s.Linked true) ∧
      (s.timer false).activated = true ∧ (s.timer true).activated = false ∧ (s.timerStop false).2 = .eok := by
  refine exists_some_and (by decide +kernel) (fun s hs hlink => ?_)
  have hreach : Reachable step Settles AllStopped s :=
    .of_run (.start ⟨fun _ => rfl, fun _ => rfl⟩) (by decide +kernel) hs
  obtain ⟨hflag, hstop⟩ := activated_iff_linked hreach
  exact ⟨(hflag false).mpr hlink.1, Bool.eq_false_iff.mpr (fun ha => hlink.2 ((hflag true).mp ha)),
    (hstop false hlink.1).1⟩

def oneShot : Timers Unit := { tick := 0, timer := fun _ => Timer.init 1 false false, lists := fun _ => [] }

def again : Callback Unit := fun x _ _ => [.start x]

theorem restarted_timer_not_activated :
    ∃ s, run step oneShot [.call (.start ()), .advance 1, .check again 2] = some s ∧
      s.Linked () ∧ (s.timer ()).activated = false ∧ (s.timerStop ()).2 = .error := by
  decide +kernel

end Timers

end RtThread
