import RtThread.Timer.Activation

namespace RtThread

variable {τ : Type}

namespace TimerEvent

def Gone (log : List (TimerEvent τ)) (x : τ) : Prop :=
  ∃ l₁ e l₂, log = l₁ ++ e :: l₂ ∧ (e = stopped x ∨ e = fired x) ∧ started x ∉ l₂

def FiresPending (log : List (TimerEvent τ)) : Prop :=
  ∀ l₁ x l₂, log = l₁ ++ fired x :: l₂ → ¬Gone l₁ x

variable {log : List (TimerEvent τ)}

theorem gone_concat {e : TimerEvent τ} {x : τ} (h : Gone (log ++ [e]) x) :
    (e = stopped x ∨ e = fired x) ∨ e ≠ started x ∧ Gone log x := by
  obtain ⟨l₁, e', l₂, heq, he', hstart⟩ := h
  rcases List.eq_nil_or_concat' l₂ with rfl | ⟨l₂, e'', rfl⟩
  · obtain ⟨rfl, hlast⟩ := List.append_inj' heq rfl
    exact Or.inl (List.cons.inj hlast |>.1 ▸ he')
  · rw [← List.cons_append, ← List.append_assoc] at heq
    obtain ⟨hlog, hlast⟩ := List.append_inj' heq rfl
    obtain rfl : e = e'' := (List.cons.inj hlast).1
    simp only [List.mem_append, List.mem_singleton, not_or] at hstart
    exact Or.inr ⟨Ne.symm hstart.2, l₁, e', l₂, hlog, he', hstart.1⟩

theorem FiresPending.concat (h : FiresPending log) {e : TimerEvent τ}
    (he : ∀ x, e = fired x → ¬Gone log x) : FiresPending (log ++ [e]) := by
  intro l₁ x l₂ heq
  rcases List.eq_nil_or_concat' l₂ with rfl | ⟨l₂, e', rfl⟩
  · obtain ⟨rfl, hlast⟩ := List.append_inj' heq rfl
    exact he x (List.cons.inj hlast).1
  · rw [← List.cons_append, ← List.append_assoc] at heq
    exact h l₁ x l₂ (List.append_inj' heq rfl).1

end TimerEvent

open TimerEvent List Option

variable [DecidableEq τ]

namespace Timers

structure Logged (log : List (TimerEvent τ)) (s : Timers τ) : Prop where
  nodup : ∀ b, (s.lists b).Nodup
  gone : ∀ x, Gone log x → ¬s.Linked x
  pending : FiresPending log

variable {s t : Timers τ} {log : List (TimerEvent τ)} {cb : Callback τ}

section

variable (h : Logged log s)

include h

theorem Logged.restarted (x : τ) : Logged (log ++ [started x]) (s.restarted x) := by
  refine ⟨nodup_restarted h.nodup x, fun y hy => ?_, h.pending.concat (by simp)⟩
  obtain hy | ⟨hne, hy⟩ := gone_concat hy
  · simp at hy
  · rw [linked_restarted s h.nodup, not_or]
    exact ⟨fun he => hne (by rw [he]), h.gone y hy⟩

theorem Logged.stopped (x : τ) : Logged (log ++ [stopped x]) (s.dropped x) := by
  refine ⟨fun b => (h.nodup b).erase x, fun y hy hlink => ?_, h.pending.concat (by simp)⟩
  obtain ⟨hne, hlink⟩ := (linked_timerRemove s h.nodup x y).mp hlink
  obtain hy | ⟨-, hy⟩ := gone_concat hy
  · simp only [TimerEvent.stopped.injEq, reduceCtorEq, or_false] at hy
    exact hne hy.symm
  · exact h.gone y hy hlink

theorem Logged.fired {x : τ} (hx : s.Linked x) : Logged (log ++ [fired x]) (s.timerRemove x) := by
  refine ⟨fun b => (h.nodup b).erase x, fun y hy hlink => ?_, h.pending.concat ?_⟩
  · obtain ⟨hne, hlink⟩ := (linked_timerRemove s h.nodup x y).mp hlink
    obtain hy | ⟨-, hy⟩ := gone_concat hy
    · simp only [reduceCtorEq, TimerEvent.fired.injEq, false_or] at hy
      exact hne hy.symm
    · exact h.gone y hy hlink
  · rintro y he hgone
    obtain rfl : x = y := TimerEvent.fired.inj he
    exact h.gone x hgone hx

theorem Logged.setTimer (x : τ) (f : Timer → Timer) : Logged log (s.setTimer x f) :=
  ⟨h.nodup, h.gone, h.pending⟩

theorem Logged.apply {op : TimerOp τ} {r : Timers τ × List (TimerEvent τ)}
    (hr : s.apply op = some r) : Logged (log ++ r.2) r.1 := by
  cases op with
  | start x =>
    obtain ⟨u, hu, rfl⟩ := map_eq_some_iff.mp hr
    rw [timerStart_eq] at hu
    split_ifs at hu
    exact some.inj hu ▸ h.restarted x
  | stop x =>
    cases hr
    simp only [timerStop]
    split_ifs
    · exact h.stopped x
    · simp at *
    · simp at *
    · simpa using h
  | control x cmd =>
    cases hr
    rw [append_nil]
    exact h.setTimer x (fun tm => tm.control cmd)

theorem Logged.applyAll (ops : List (TimerOp τ)) : FiresPending (log ++ (s.applyAll ops).1) ∧
      ∀ t, (s.applyAll ops).2 = some t → Logged (log ++ (s.applyAll ops).1) t := by
  induction ops generalizing s log with
  | nil =>
    simp only [Timers.applyAll, append_nil]
    exact ⟨h.pending, fun t ht => some.inj ht ▸ h⟩
  | cons op ops ih =>
    simp only [Timers.applyAll]
    cases hr : s.apply op with
    | none =>
      simp only [append_nil]
      exact ⟨h.pending, by simp⟩
    | some r =>
      simp only [← append_assoc]
      exact ih (h.apply hr)

theorem Logged.settle (x : τ) :
    FiresPending (log ++ (s.settle x).1) ∧ ∀ t, (s.settle x).2 = some t → Logged (log ++ (s.settle x).1) t := by
  simp only [Timers.settle]
  split_ifs
  · rw [timerStart_eq]
    split_ifs
    · have hstart := (h.setTimer x Timer.deactivate).restarted x
      exact ⟨hstart.pending, fun t ht => some.inj ht ▸ hstart⟩
    · simp only [append_nil]
      exact ⟨h.pending, by simp⟩
  · simp only [append_nil]
    exact ⟨h.pending, fun t ht => some.inj ht ▸ h.setTimer x Timer.deactivate⟩

theorem Logged.fire (cb : Callback τ) {x : τ} (hx : s.Linked x) : FiresPending (log ++ (s.fire cb log x).1) ∧
      ∀ t, (s.fire cb log x).2 = some t → Logged (log ++ (s.fire cb log x).1) t := by
  obtain ⟨hpend, hret⟩ := (h.fired hx).applyAll (cb x (log ++ [.fired x]) (s.timerRemove x))
  simp only [Timers.fire]
  cases hr : (s.timerRemove x).applyAll (cb x (log ++ [.fired x]) (s.timerRemove x)) with
  | mk ev r =>
    simp only [hr, append_assoc, singleton_append] at hpend hret
    cases r with
    | none => exact ⟨hpend, by simp⟩
    | some u =>
      have hsettle := (hret u rfl).settle x
      simpa only [append_assoc, cons_append] using hsettle

theorem Logged.checkLoop (b : Bool) (fuel : ℕ) : FiresPending (checkLoop cb b fuel log s).1 := by
  fun_induction Timers.checkLoop cb b fuel log s with
  | case3 fuel log s x l hl hx ev hf =>
    have hpend := (h.fire cb ⟨b, hl ▸ mem_cons_self⟩).1
    rwa [hf] at hpend
  | case4 fuel log s x l hl hx ev t hf ih =>
    have hlogged := (h.fire cb ⟨b, hl ▸ mem_cons_self⟩).2
    rw [hf] at hlogged
    exact ih (hlogged t rfl)
  | _ => exact h.pending

end

theorem fire_log (s : Timers τ) (cb : Callback τ) (log : List (TimerEvent τ)) (x : τ) :
    ∃ ev, (s.fire cb log x).1 = .fired x :: ev := by
  simp only [fire]
  cases (s.timerRemove x).applyAll (cb x (log ++ [.fired x]) (s.timerRemove x)) with
  | mk ev r =>
    cases r with
    | none => exact ⟨ev, rfl⟩
    | some t => exact ⟨ev ++ (t.settle x).1, rfl⟩

def NoneDue (s : Timers τ) (n : Option τ) : Prop := ∀ x, n = some x → ¬s.Due x

def KeepsNext (cb : Callback τ) (log : List (TimerEvent τ)) (s : Timers τ) (x : τ) : Prop :=
  ∀ t, (s.fire cb log x).2 = some t →
    (t.lists true).head? = s.next x ∨ t.NoneDue (t.lists true).head? ∧ t.NoneDue (s.next x)

theorem NoneDue.checkLoop (h : s.NoneDue (s.lists true).head?) (fuel : ℕ) :
    checkLoop cb true fuel log s = (log, some (s, fuel != 0)) := by
  cases fuel with
  | zero => rfl
  | succ fuel =>
    simp only [Timers.checkLoop]
    cases hl : s.lists true with
    | nil => rfl
    | cons x l => simp [h x (by rw [hl]; rfl)]

theorem NoneDue.softCheckLoop {n : Option τ} (h : s.NoneDue n) (fuel : ℕ) :
    softCheckLoop cb fuel n log s = (log, some (s, fuel != 0)) := by
  cases fuel with
  | zero => rfl
  | succ fuel =>
    cases n with
    | none => rfl
    | some x => simp [Timers.softCheckLoop, h x rfl]

theorem softCheckLoop_eq_of_along {fuel : ℕ} (h : CheckAlong cb true (KeepsNext cb) fuel log s) :
    softCheckLoop cb fuel (s.lists true).head? log s = checkLoop cb true fuel log s := by
  induction fuel generalizing s log with
  | zero => rfl
  | succ fuel ih =>
    simp only [CheckAlong] at h
    cases hl : s.lists true with
    | nil => simp [softCheckLoop, checkLoop, hl]
    | cons x l =>
      simp only [hl] at h
      simp only [softCheckLoop, checkLoop, hl, head?_cons]
      split_ifs with hx
      · obtain ⟨hkeep, hrest⟩ := h hx
        cases hf : s.fire cb log x with
        | mk ev r =>
          cases r with
          | none => rfl
          | some t =>
            rw [hf] at hrest
            simp only
            rcases hkeep t (by rw [hf]) with hsame | ⟨hhead, hnext⟩
            · rw [← hsame]
              exact ih (hrest t rfl)
            · rw [hhead.checkLoop, hnext.softCheckLoop]
      · rfl

theorem softCheckLoop_one (s : Timers τ) (cb : Callback τ) (log : List (TimerEvent τ)) (n : Option τ) :
    s.NoneDue n ∧ (softCheckLoop cb 1 n log s).1 = log ∨
      ∃ x ev, n = some x ∧ (softCheckLoop cb 1 n log s).1 = log ++ .fired x :: ev := by
  by_cases hdue : s.NoneDue n
  · exact Or.inl ⟨hdue, by rw [hdue.softCheckLoop]⟩
  · right
    simp only [NoneDue, not_forall, not_not] at hdue
    obtain ⟨x, rfl, hx⟩ := hdue
    obtain ⟨ev, hev⟩ := s.fire_log cb log x
    refine ⟨x, ev, rfl, ?_⟩
    rw [← hev]
    simp only [softCheckLoop, if_pos hx]
    cases s.fire cb log x with
    | mk ev r => cases r <;> rfl

theorem checkLoop_one (s : Timers τ) (cb : Callback τ) (log : List (TimerEvent τ)) :
    s.NoneDue (s.lists true).head? ∧ (checkLoop cb true 1 log s).1 = log ∨
      ∃ x ev, (s.lists true).head? = some x ∧ (checkLoop cb true 1 log s).1 = log ++ .fired x :: ev := by
  have hsame : (checkLoop cb true 1 log s).1 = (softCheckLoop cb 1 (s.lists true).head? log s).1 := by
    cases hl : s.lists true with
    | nil => simp [checkLoop, softCheckLoop, hl]
    | cons x l =>
      simp only [checkLoop, softCheckLoop, hl, head?_cons]
  rw [hsame]
  exact softCheckLoop_one s cb log _

theorem head_eq_of_loops_eq {n : Option τ} (h : (softCheckLoop cb 1 n log s).1 = (checkLoop cb true 1 log s).1) :
    (s.lists true).head? = n ∨ s.NoneDue (s.lists true).head? ∧ s.NoneDue n := by
  rcases softCheckLoop_one s cb log n with ⟨hn, hsoft⟩ | ⟨x, ev, rfl, hsoft⟩ <;>
    rcases checkLoop_one s cb log with ⟨hhead, hhard⟩ | ⟨y, ev', hy, hhard⟩ <;>
    rw [hsoft, hhard] at h
  · exact Or.inr ⟨hhead, hn⟩
  · simp at h
  · simp at h
  · obtain ⟨hxy, -⟩ := cons.inj (append_cancel_left h)
    rw [hy, TimerEvent.fired.inj hxy]
    exact Or.inl rfl

theorem along_of_softCheckLoop_eq {fuel : ℕ}
    (h : ∀ fuel, softCheckLoop cb fuel (s.lists true).head? log s = checkLoop cb true fuel log s) :
    CheckAlong cb true (KeepsNext cb) fuel log s := by
  induction fuel generalizing s log with
  | zero => trivial
  | succ fuel ih =>
    simp only [CheckAlong]
    cases hl : s.lists true with
    | nil => trivial
    | cons x l =>
      intro hx
      -- one round of both loops, which fire the same timer, leads to equal loops again
      have hround : ∀ t, (s.fire cb log x).2 = some t → ∀ k,
          softCheckLoop cb k (s.next x) (log ++ (s.fire cb log x).1) t =
            checkLoop cb true k (log ++ (s.fire cb log x).1) t := by
        intro t ht k
        have hk := h (k + 1)
        simp only [softCheckLoop, checkLoop, hl, head?_cons, if_pos hx] at hk
        cases hf : s.fire cb log x with
        | mk ev r =>
          rw [hf] at ht hk
          obtain rfl : r = some t := ht
          exact hk
      refine ⟨fun t ht => head_eq_of_loops_eq (by rw [hround t ht 1]), fun t ht => ?_⟩
      rcases head_eq_of_loops_eq (by rw [hround t ht 1]) with hsame | ⟨hhead, -⟩
      · exact ih (fun k => hsame ▸ hround t ht k)
      · cases fuel with
        | zero => trivial
        | succ fuel =>
          simp only [CheckAlong]
          cases hl' : t.lists true with
          | nil => trivial
          | cons y l' => exact fun hy => absurd hy (hhead y (by rw [hl']; rfl))

def ChecksAgree (cb : Callback τ) (s : Timers τ) : Prop :=
  ∀ fuel, s.softTimerCheck cb fuel = s.checkLoop cb true fuel [] ∧
    FiresPending (s.softTimerCheck cb fuel).1 ∧ FiresPending (s.checkLoop cb true fuel []).1

theorem checksAgree_iff (cb : Callback τ) (s : Timers τ) (hnd : ∀ b, (s.lists b).Nodup) :
    ChecksAgree cb s ↔ ∀ fuel, CheckAlong cb true (KeepsNext cb) fuel [] s := by
  have hlogged : Logged [] s :=
    ⟨hnd, fun x ⟨l₁, e, l₂, hnil, _⟩ => by simp at hnil, fun l₁ x l₂ hnil => by simp at hnil⟩
  constructor
  · intro h fuel
    exact along_of_softCheckLoop_eq (fun fuel => (h fuel).1)
  · intro h fuel
    have heq : s.softTimerCheck cb fuel = s.checkLoop cb true fuel [] := softCheckLoop_eq_of_along (h fuel)
    have hpend : FiresPending (s.checkLoop cb true fuel []).1 := hlogged.checkLoop true fuel
    exact ⟨heq, heq ▸ hpend, hpend⟩

def twoDue : Timers Bool :=
  { tick := 1
    timer := fun _ => { Timer.init 1 false true with activated := true, timeoutTick := 1 }
    lists := fun b => if b then [false, true] else [] }

def stopOther : Callback Bool := fun x _ _ => if x then [] else [.stop true]

theorem twoDue_logs_differ :
    (twoDue.checkLoop stopOther true 2 []).1 = [.fired false, .stopped true] ∧
      (twoDue.softTimerCheck stopOther 2).1 = [.fired false, .stopped true, .fired true] := by
  decide +kernel

theorem checksAgree_iff_twoDue : ¬∀ fuel, CheckAlong stopOther true (KeepsNext stopOther) fuel [] twoDue := by
  have hnd : ∀ b, (twoDue.lists b).Nodup := by decide
  intro h
  have heq := ((checksAgree_iff stopOther twoDue hnd).mpr h 2).1
  rw [Prod.ext_iff, twoDue_logs_differ.1, twoDue_logs_differ.2] at heq
  simp at heq

theorem checks_disagree : ¬ChecksAgree stopOther twoDue ∧ ¬FiresPending (twoDue.softTimerCheck stopOther 2).1 := by
  constructor
  · intro h
    have heq := (h 2).1
    rw [Prod.ext_iff, twoDue_logs_differ.1, twoDue_logs_differ.2] at heq
    simp at heq
  · intro h
    exact h [.fired false, .stopped true] true [] rfl ⟨[.fired false], .stopped true, [], rfl, Or.inl rfl, by simp⟩

end Timers

end RtThread
