import RtThread.Timer.CheckBound

/-!
The timer thread of `timer.c` with other threads and interrupts that start and stop timers. `rt_timer_start`,
`rt_timer_stop` and `rt_thread_resume` are taken in the pieces between which interrupts are enabled.
-/

namespace RtThread

open Transition Option Timers Serial Function

variable {τ C : Type} [DecidableEq τ] [DecidableEq C]

inductive TimerPc (τ : Type)
  | fetch
  | suspending
  /-- it has read the next timeout -/
  | reading (next : BitVec 32)
  /-- it is about to call `rt_thread_delay` -/
  | delaying (delta : BitVec 32)
  /-- it is suspended, with the timeout of its thread timer if that is started -/
  | blocked (wake : Option (BitVec 32))
  | entering
  /-- it looks at a node in `rt_soft_timer_check`, with the `current_tick` it has read -/
  | checking (current : BitVec 32) (n : Option τ)
  /-- it runs the timeout function of `x`; the successor is saved -/
  | calling (x : τ) (n : Option τ)
  /-- it starts the periodic timer `x` again, in the pieces of `rt_timer_start` -/
  | stamping (x : τ) (current : BitVec 32) (n : Option τ)
  | linking (x : τ) (current : BitVec 32) (n : Option τ)
  deriving DecidableEq

/-- Where a caller of `rt_timer_start` or `rt_timer_stop` stands. -/
inductive CallPc (τ : Type)
  | idle
  /-- the timer is removed -/
  | stamping (x : τ)
  /-- its timeout is set -/
  | linking (x : τ)
  /-- the soft timer is linked; the last of the two tests of `timer_thread.stat` is to come -/
  | testing (x : τ)
  /-- the timer thread was found suspended -/
  | unlinking (x : τ)
  /-- it is off its list, with its timer stopped; `rt_schedule_insert_thread` is to come -/
  | inserting (x : τ)
  /-- `rt_timer_stop` has found the timer activated -/
  | removing (x : τ)
  | clearing (x : τ)
  deriving DecidableEq

structure TimerThread (τ C : Type) where
  timers : Timers τ
  pc : TimerPc τ
  caller : C → CallPc τ

inductive TimerThreadAction (τ C : Type)
  | thread
  | call (c : C) (op : TimerOp τ)
  | goOn (c : C)
  | tick
  deriving DecidableEq

namespace Timers

def timerListNextTimeout (s : Timers τ) (b : Bool) : BitVec 32 :=
  match s.lists b with
  | [] => tickMax
  | x :: _ => (s.timer x).timeoutTick

def stamp (s : Timers τ) (x : τ) : Option (Timers τ) :=
  if (s.timer x).initTick.ult tickHalf then
    some (s.setTimer x (fun tm => { tm with timeoutTick := s.tick + tm.initTick }))
  else none

def link (s : Timers τ) (x : τ) : Timers τ := (s.timerInsert x).setTimer x (fun tm => { tm with activated := true })

theorem timerStart_eq_pieces (s : Timers τ) (x : τ) :
    s.timerStart x = ((s.dropped x).stamp x).map (fun t => t.link x) := by
  unfold timerStart stamp dropped
  dsimp only
  split_ifs <;> rfl

variable {s t : Timers τ} {x : τ}

/-- The soft list is in the order of the timeouts. -/
structure SoftSorted (s : Timers τ) : Prop where
  nodup : (s.lists true).Nodup
  sorted : KeyOrder.Sorted s.place (s.lists true)

section

omit [DecidableEq τ]

theorem place_of_timer_eq (htick : t.tick = s.tick)
    (htimer : (t.timer x).timeoutTick = (s.timer x).timeoutTick) : t.place x = s.place x := by
  rw [place, place, htick, htimer]

variable (h : s.SoftSorted)

include h

theorem SoftSorted.of_sublist (hsub : (t.lists true).Sublist (s.lists true))
    (hplace : ∀ y ∈ t.lists true, t.place y = s.place y) : t.SoftSorted :=
  ⟨h.nodup.sublist hsub, (h.sorted.sublist hsub).congr hplace⟩

theorem SoftSorted.tick (hstale : ∀ x ∈ s.lists true, s.place x ≠ 0) :
    SoftSorted { s with tick := s.tick + 1 } := by
  have hplace : ∀ x ∈ s.lists true, place { s with tick := s.tick + 1 } x = s.place x - 1 :=
    fun x hx => place_succ (hstale x hx)
  refine ⟨h.nodup, h.sorted.imp_of_mem (fun hy hz hle => ?_)⟩
  rw [hplace _ hy, hplace _ hz]
  exact Nat.sub_le_sub_right hle 1

theorem SoftSorted.next_le (hx : x ∈ s.lists true) :
    Serial.place s.tick (s.timerListNextTimeout true) ≤ s.place x := by
  have hsorted := h.sorted
  cases hl : s.lists true with
  | nil => simp [hl] at hx
  | cons y l =>
    rw [hl] at hx hsorted
    simp only [timerListNextTimeout, hl]
    exact hsorted.head_le x hx

end

theorem setTimer_place (s : Timers τ) (x y : τ) {f : Timer → Timer}
    (hf : ∀ tm, (f tm).timeoutTick = tm.timeoutTick) : (s.setTimer x f).place y = s.place y := by
  refine place_of_timer_eq rfl ?_
  rw [timer_setTimer]
  split_ifs with hy
  · rw [hy, hf]
  · rfl

theorem link_place (s : Timers τ) (x y : τ) : (s.link x).place y = s.place y :=
  setTimer_place (s.timerInsert x) x y (fun _ => rfl)

theorem link_lists (s : Timers τ) (x : τ) : (s.link x).lists true =
    if (s.timer x).soft = true then (s.lists true).orderedInsert s.Later x else s.lists true := by
  simp only [link, timerInsert, setTimer, setList, update_apply]
  cases (s.timer x).soft <;> rfl

theorem SoftSorted.link (h : s.SoftSorted)
    (hx : (s.timer x).soft = true → x ∉ s.lists true ∧ s.InOrder (s.lists true) x) :
    (s.link x).SoftSorted := by
  have hplace : ∀ y ∈ (s.link x).lists true, (s.link x).place y = s.place y := fun y _ => s.link_place x y
  rw [link_lists] at hplace
  refine ⟨?_, ?_⟩
  all_goals rw [link_lists]; split_ifs at hplace ⊢ with hsoft
  · exact (List.perm_orderedInsert _ x _).nodup_iff.mpr (List.nodup_cons.mpr ⟨(hx hsoft).1, h.nodup⟩)
  · exact h.nodup
  · exact (sorted_orderedInsert h.sorted (hx hsoft).2).congr hplace
  · exact h.sorted.congr hplace

end Timers

namespace TimerThread

def threadStep (s : TimerThread τ C) : Option (TimerThread τ C) :=
  match s.pc with
  | .fetch =>
    let next := s.timers.timerListNextTimeout true
    some { s with pc := if next = tickMax then .suspending else .reading next }
  | .suspending => some { s with pc := .blocked none }
  | .reading next =>
    let delta := next - s.timers.tick
    some { s with pc := if delta.ult tickHalf then .delaying delta else .entering }
  | .delaying delta => some { s with pc := .blocked (some (s.timers.tick + delta)) }
  | .blocked _ => none
  | .entering => some { s with pc := .checking s.timers.tick (s.timers.lists true).head? }
  | .checking _ none => some { s with pc := .fetch }
  | .checking current (some x) =>
    if (current - (s.timers.timer x).timeoutTick).ult tickHalf then
      some { s with timers := s.timers.timerRemove x, pc := .calling x (s.timers.next x) }
    else
      some { s with pc := .fetch }
  | .calling x n =>
    if (s.timers.timer x).periodic ∧ (s.timers.timer x).activated then
      some { s with timers := s.timers.dropped x, pc := .stamping x s.timers.tick n }
    else
      some { s with timers := s.timers.setTimer x Timer.deactivate, pc := .checking s.timers.tick n }
  | .stamping x current n => (s.timers.stamp x).map (fun t => { s with timers := t, pc := .linking x current n })
  -- the timer thread finds itself ready
  | .linking x current n => some { s with timers := s.timers.link x, pc := .checking current n }

def Blocked : TimerPc τ → Prop
  | .blocked _ => True
  | _ => False

instance : DecidablePred (Blocked : TimerPc τ → Prop)
  | .blocked _ => isTrue trivial
  | .fetch | .suspending | .reading _ | .delaying _ | .entering | .checking _ _ | .calling _ _ | .stamping _ _ _
  | .linking _ _ _ => isFalse id

def put (s : TimerThread τ C) (c : C) (p : CallPc τ) : TimerThread τ C := { s with caller := update s.caller c p }

def call (s : TimerThread τ C) (c : C) : TimerOp τ → TimerThread τ C
  | .start x => { s with timers := s.timers.dropped x }.put c (.stamping x)
  | .stop x => if (s.timers.timer x).activated then s.put c (.removing x) else s
  | .control x cmd => { s with timers := s.timers.timerControl x cmd }

def goOn (s : TimerThread τ C) (c : C) : Option (TimerThread τ C) :=
  match s.caller c with
  | .idle => none
  | .stamping x => (s.timers.stamp x).map (fun t => { s with timers := t }.put c (.linking x))
  | .linking x =>
    some ({ s with timers := s.timers.link x }.put c (if (s.timers.timer x).soft then .testing x else .idle))
  | .testing x => some (s.put c (if Blocked s.pc then .unlinking x else .idle))
  | .unlinking x => some ({ s with pc := if Blocked s.pc then .blocked none else s.pc }.put c (.inserting x))
  | .inserting _ => some ({ s with pc := if Blocked s.pc then .entering else s.pc }.put c .idle)
  | .removing x => some ({ s with timers := s.timers.timerRemove x }.put c (.clearing x))
  | .clearing x => some ({ s with timers := s.timers.setTimer x Timer.deactivate }.put c .idle)

def timedOut (pc : TimerPc τ) (tick : BitVec 32) : TimerPc τ :=
  match pc with
  | .blocked (some wake) => if (tick - wake).ult tickHalf then .entering else .blocked (some wake)
  | pc => pc

def step (s : TimerThread τ C) : TimerThreadAction τ C → Option (TimerThread τ C)
  | .thread => s.threadStep
  | .call c op => if s.caller c = .idle then some (s.call c op) else none
  | .goOn c => s.goOn c
  | .tick => some { s with
      timers := { s.timers with tick := s.timers.tick + 1 }
      pc := timedOut s.pc (s.timers.tick + 1) }

end TimerThread

/-- A caller here still comes to look at the timer thread, or wakes it for certain. -/
def CallPc.Resumes (x : τ) : CallPc τ → Prop
  | .testing y | .unlinking y => y = x
  | .inserting _ => True
  | _ => False

namespace TimerThread

def Resuming (s : TimerThread τ C) (x : τ) : Prop := ∃ c, (s.caller c).Resumes x

def WakesInTime (s : TimerThread τ C) : Prop :=
  ∀ wake, s.pc = .blocked wake → ∀ x ∈ s.timers.lists true,
    (∃ v, wake = some v ∧ Serial.place s.timers.tick v ≤ s.timers.place x) ∨ s.Resuming x

def Covered (m : Timers τ) (x : τ) : TimerPc τ → Prop
  | .suspending | .blocked none => False
  | .reading next => Serial.place m.tick next ≤ m.place x
  | .delaying delta => Serial.place m.tick (m.tick + delta) ≤ m.place x
  | .blocked (some v) => Serial.place m.tick v ≤ m.place x
  | _ => True

def Ahead (tick : BitVec 32) : TimerPc τ → Prop
  | .delaying delta => delta.ult tickHalf
  | .blocked (some v) => 2 ^ 31 ≤ Serial.place tick v
  | _ => True

structure Inv (s : TimerThread τ C) : Prop where
  sorted : s.timers.SoftSorted
  ahead : Ahead s.timers.tick s.pc
  covers : ∀ x ∈ s.timers.lists true, Covered s.timers x s.pc ∨ s.Resuming x

/-- The timeout that the thread reads is not the value that stands for an empty list, and no other call has linked the
periodic timer that it starts again. -/
def ReadsTimeout (s : Timers τ) : TimerPc τ → Prop
  | .fetch => ∀ x ∈ (s.lists true).head?, (s.timer x).timeoutTick ≠ tickMax
  | .stamping x _ _ => x ∉ s.lists true
  | .linking x _ _ => (s.timer x).soft = true → x ∉ s.lists true ∧ s.InOrder (s.lists true) x
  | _ => True

/-- The timeout that the thread has read is not half the range behind, and no tick passes between its reading of the
tick and its delay while that timer is pending. -/
def KeepsDelay (s : Timers τ) : TimerPc τ → Prop
  | .reading next => Serial.place s.tick next ≠ 0
  | .delaying delta => ∀ x ∈ s.lists true, (s.timer x).timeoutTick ≠ s.tick + delta
  | _ => True

/-- A caller that finds the timer thread awake has started a timer that the thread knows of, and a resume is not
overtaken. -/
def Noticed (s : Timers τ) (pc : TimerPc τ) : CallPc τ → Prop
  | .stamping x => x ∉ s.lists true
  | .linking x => (s.timer x).soft = true → x ∉ s.lists true ∧ s.InOrder (s.lists true) x
  | .testing x => Blocked pc ∨ x ∉ s.lists true ∨ Covered s x pc
  | .unlinking _ | .inserting _ => Blocked pc
  | _ => True

def Timely (s : TimerThread τ C) : TimerThreadAction τ C → Prop
  | .thread => ReadsTimeout s.timers s.pc
  | .call _ _ => True
  | .goOn c => Noticed s.timers s.pc (s.caller c)
  | .tick => (∀ x ∈ s.timers.lists true, s.timers.place x ≠ 0) ∧ KeepsDelay s.timers s.pc

section

variable {s t : TimerThread τ C} {m m' : Timers τ} {pc : TimerPc τ} {x : τ} {c : C} (h : s.Inv)

section

omit [DecidableEq C] [DecidableEq τ]

theorem Covered.congr (h : Covered m x pc) (htick : m'.tick = m.tick) (hplace : m'.place x = m.place x) :
    Covered m' x pc := by
  match pc, h with
  | .reading next, h | .delaying delta, h | .blocked (some v), h =>
    simp only [Covered, htick, hplace] at h ⊢
    exact h
  | .fetch, _ | .entering, _ | .checking _ _, _ | .calling _ _, _ | .stamping _ _ _, _ | .linking _ _ _, _ => trivial

theorem place_tick (hx : m.place x ≠ 0) : place { m with tick := m.tick + 1 } x = m.place x - 1 := place_succ hx

/-- A thread that sleeps on has its timeout still ahead. -/
theorem timedOut_ahead {v : BitVec 32} (hv : 2 ^ 31 ≤ Serial.place m.tick v) :
    timedOut (.blocked (some v)) (m.tick + 1) = (.entering : TimerPc τ) ∨
      timedOut (.blocked (some v)) (m.tick + 1) = (.blocked (some v) : TimerPc τ) ∧
      2 ^ 31 < Serial.place m.tick v := by
  simp only [timedOut]
  split_ifs with hwake
  · exact .inl rfl
  · refine .inr ⟨rfl, lt_of_le_of_ne hv (fun heq => hwake ?_)⟩
    have hnow : Serial.place m.tick (m.tick + 0) = 2 ^ 31 := place_delay m.tick (by decide)
    obtain rfl : m.tick + 0 = v := eq_of_place (hnow.trans heq)
    rw [add_sub_add_left_eq_sub]
    decide

structure AtRest (s : TimerThread τ C) : Prop where
  pc : s.pc = .fetch
  empty : s.timers.lists true = []
  idle : ∀ c, s.caller c = .idle

theorem AtRest.inv (h : s.AtRest) : s.Inv := by
  refine ⟨⟨by simp [h.empty], by simp [h.empty, KeyOrder.Sorted]⟩, ?_, by simp [h.empty]⟩
  rw [h.pc]
  trivial

include h

theorem Inv.of_sublist (htick : m.tick = s.timers.tick) (hsub : (m.lists true).Sublist (s.timers.lists true))
    (hplace : ∀ y ∈ m.lists true, m.place y = s.timers.place y) : Inv { s with timers := m } := by
  refine ⟨h.sorted.of_sublist hsub hplace, ?_, fun y hy => ?_⟩
  · show Ahead m.tick s.pc
    rw [htick]
    exact h.ahead
  · exact (h.covers y (hsub.subset hy)).imp_left (fun hc => hc.congr htick (hplace y hy))

/-- The thread is woken up, or stands where it reads the list again. -/
theorem Inv.awake {p : TimerPc τ} (hcov : ∀ x, Covered s.timers x p) (hahead : Ahead s.timers.tick p) :
    Inv { s with pc := p } :=
  ⟨h.sorted, hahead, fun x _ => .inl (hcov x)⟩

end

section

include h

section

omit [DecidableEq C]

theorem Inv.setTimer {f : Timer → Timer} (hf : ∀ tm, (f tm).timeoutTick = tm.timeoutTick) :
    Inv { s with timers := s.timers.setTimer x f } :=
  h.of_sublist rfl (List.Sublist.refl _) (fun y _ => s.timers.setTimer_place x y hf)

theorem Inv.dropped : Inv { s with timers := s.timers.dropped x } :=
  h.of_sublist rfl List.erase_sublist (fun y _ => setTimer_place (s.timers.timerRemove x) x y (fun _ => rfl))

theorem Inv.timerRemove : Inv { s with timers := s.timers.timerRemove x } :=
  h.of_sublist rfl List.erase_sublist (fun _ _ => rfl)

theorem Inv.stamp (hx : x ∉ s.timers.lists true) (hm : s.timers.stamp x = some m) : Inv { s with timers := m } := by
  unfold Timers.stamp at hm
  split_ifs at hm
  cases hm
  refine h.of_sublist rfl (List.Sublist.refl _) (fun y hy => place_of_timer_eq rfl ?_)
  have hne : y ≠ x := fun he => hx (he ▸ hy)
  rw [timer_setTimer, if_neg hne]

end

section

omit [DecidableEq τ]

/-- A caller moves on; what it leaves uncovered must be covered. -/
theorem Inv.put {p : CallPc τ}
    (hp : ∀ x ∈ s.timers.lists true, (s.caller c).Resumes x → Covered s.timers x s.pc ∨ p.Resumes x) :
    (s.put c p).Inv := by
  refine ⟨h.sorted, h.ahead, fun x hx => ?_⟩
  obtain hcov | ⟨c', hc'⟩ := h.covers x hx
  · exact .inl hcov
  · obtain rfl | hne := eq_or_ne c' c
    · exact (hp x hx hc').imp_right (fun hr => ⟨c', by simpa [TimerThread.put] using hr⟩)
    · exact .inr ⟨c', by simpa [TimerThread.put, hne] using hc'⟩

theorem Inv.put_of_not {q : CallPc τ} (hq : s.caller c = q) (hn : ∀ x, ¬ q.Resumes x) (p : CallPc τ) :
    (s.put c p).Inv :=
  h.put (fun x _ hx => absurd (hq ▸ hx) (hn x))

end

theorem Inv.call (op : TimerOp τ) (hc : s.caller c = .idle) : (s.call c op).Inv := by
  cases op with
  | start x => exact h.dropped.put_of_not hc (fun _ => id) _
  | stop x =>
    simp only [TimerThread.call]
    split_ifs
    · exact h.put_of_not hc (fun _ => id) _
    · exact h
  | control x cmd =>
    refine h.setTimer (fun tm => ?_)
    cases cmd <;> rfl

theorem Inv.link (hp : s.caller c = .linking x) (hx : Noticed s.timers s.pc (.linking x)) :
    Inv ({ s with timers := s.timers.link x }.put c (if (s.timers.timer x).soft then .testing x else .idle)) := by
  refine ⟨h.sorted.link hx, h.ahead, fun y hy => ?_⟩
  have hold (hy : y ∈ s.timers.lists true) : Covered (s.timers.link x) y s.pc ∨
      Resuming ({ s with timers := s.timers.link x }.put c
        (if (s.timers.timer x).soft then .testing x else .idle)) y := by
    refine (h.covers y hy).imp (fun hcov => hcov.congr rfl (s.timers.link_place x y))
      (fun ⟨c', hc'⟩ => ⟨c', ?_⟩)
    have hne : c' ≠ c := by
      rintro rfl
      rw [hp] at hc'
      exact hc'
    simpa [TimerThread.put, hne] using hc'
  change y ∈ (s.timers.link x).lists true at hy
  rw [link_lists] at hy
  split_ifs at hy with hsoft
  · obtain rfl | hy := (List.mem_orderedInsert _).mp hy
    · exact .inr ⟨c, by simp [TimerThread.put, hsoft, CallPc.Resumes]⟩
    · exact hold hy
  · exact hold hy

theorem Inv.goOn (hc : Noticed s.timers s.pc (s.caller c)) (ht : s.goOn c = some t) : t.Inv := by
  unfold TimerThread.goOn at ht
  cases hp : s.caller c with
  | idle => simp [hp] at ht
  | stamping x =>
    rw [hp] at ht hc
    obtain ⟨m, hm, rfl⟩ := map_eq_some_iff.mp ht
    exact (h.stamp hc hm).put_of_not hp (fun _ => id) _
  | linking x =>
    rw [hp] at ht hc
    cases ht
    exact h.link hp hc
  | testing x =>
    rw [hp] at ht hc
    cases ht
    refine h.put (fun y hy hr => ?_)
    obtain rfl : x = y := by simpa [hp, CallPc.Resumes] using hr
    split_ifs with hb
    · exact .inr rfl
    · exact .inl ((hc.resolve_left hb).resolve_left (not_not_intro hy))
  | unlinking x =>
    rw [hp] at ht hc
    change Blocked s.pc at hc
    simp only [if_pos hc] at ht
    cases ht
    exact ⟨h.sorted, trivial, fun y _ => .inr ⟨c, by simp [TimerThread.put, CallPc.Resumes]⟩⟩
  | inserting x =>
    rw [hp] at ht hc
    change Blocked s.pc at hc
    simp only [if_pos hc] at ht
    cases ht
    exact (h.awake (p := .entering) (fun _ => trivial) trivial).put (fun y _ _ => .inl trivial)
  | removing x =>
    rw [hp] at ht
    cases ht
    exact (h.timerRemove (x := x)).put_of_not hp (fun _ => id) _
  | clearing x =>
    rw [hp] at ht
    cases ht
    exact (h.setTimer (x := x) (f := Timer.deactivate) (fun _ => rfl)).put_of_not hp (fun _ => id) _

theorem Inv.tick (hc : s.Timely .tick) (ht : s.step .tick = some t) : t.Inv := by
  obtain ⟨hstale, hpc'⟩ := hc
  cases ht
  have hsorted := h.sorted.tick hstale
  have hahead := h.ahead
  suffices hnext : Ahead (s.timers.tick + 1) (timedOut s.pc (s.timers.tick + 1)) ∧ ∀ x ∈ s.timers.lists true,
      Covered s.timers x s.pc →
        Covered { s.timers with tick := s.timers.tick + 1 } x (timedOut s.pc (s.timers.tick + 1)) from
    ⟨hsorted, hnext.1, fun x hx => (h.covers x hx).imp_left (hnext.2 x hx)⟩
  cases hpc : s.pc with
  | reading next =>
    rw [hpc] at hpc'
    refine ⟨trivial, fun x hx hcov => ?_⟩
    change Serial.place (s.timers.tick + 1) next ≤ _
    rw [place_tick (hstale x hx), place_succ hpc']
    exact Nat.sub_le_sub_right hcov 1
  | delaying delta =>
    rw [hpc] at hpc' hahead
    refine ⟨hahead, fun x hx hcov => ?_⟩
    -- the delay is counted from the new tick, so no pending timer may expire with the old one
    have hle : Serial.place s.timers.tick (s.timers.tick + delta) ≤ s.timers.place x := hcov
    have hne : s.timers.place x ≠ Serial.place s.timers.tick (s.timers.tick + delta) :=
      fun heq => hpc' x hx (eq_of_place heq)
    change Serial.place (s.timers.tick + 1) (s.timers.tick + 1 + delta) ≤ _
    rw [place_tick (hstale x hx), place_delay _ hahead]
    rw [place_delay _ hahead] at hle hne
    omega
  | blocked wake =>
    rw [hpc] at hahead
    cases wake with
    | none => exact ⟨trivial, fun _ _ => id⟩
    | some v =>
      obtain he | ⟨he, hlt⟩ := timedOut_ahead (m := s.timers) hahead
      · rw [he]
        exact ⟨trivial, fun _ _ _ => trivial⟩
      · have hv := place_succ (show Serial.place s.timers.tick v ≠ 0 by omega)
        rw [he]
        refine ⟨?_, fun x hx hcov => ?_⟩
        · change 2 ^ 31 ≤ Serial.place (s.timers.tick + 1) v
          omega
        · change Serial.place (s.timers.tick + 1) v ≤ _
          rw [place_tick (hstale x hx), hv]
          exact Nat.sub_le_sub_right hcov 1
  | suspending => exact ⟨trivial, fun _ _ => id⟩
  | _ => exact ⟨trivial, fun _ _ _ => trivial⟩

theorem Inv.thread (hc : s.Timely .thread) (ht : s.step .thread = some t) : t.Inv := by
  have hahead := h.ahead
  have hcov := h.covers
  simp only [step, threadStep] at ht
  change ReadsTimeout s.timers s.pc at hc
  cases hpc : s.pc with
  | fetch =>
    rw [hpc] at ht hc
    cases ht
    refine ⟨h.sorted, ?_, fun x hx => .inl ?_⟩
    · dsimp only
      split_ifs <;> trivial
    · dsimp only at hx ⊢
      split_ifs with hmax
      · -- `RT_TICK_MAX` stands for an empty list
        obtain ⟨y, l, hl⟩ := List.exists_cons_of_ne_nil (List.ne_nil_of_mem hx)
        simp only [timerListNextTimeout, hl] at hmax
        exact absurd hmax (hc y (by rw [hl]; rfl))
      · exact h.sorted.next_le hx
  | suspending =>
    rw [hpc] at ht hcov
    cases ht
    exact ⟨h.sorted, trivial, hcov⟩
  | reading next =>
    rw [hpc] at ht hcov
    cases ht
    refine ⟨h.sorted, ?_, fun x hx => (hcov x hx).imp_left (fun hle => ?_)⟩
    · dsimp only
      split_ifs with hdelta
      · exact hdelta
      · trivial
    · dsimp only
      split_ifs with hdelta
      · change Serial.place s.timers.tick (s.timers.tick + (next - s.timers.tick)) ≤ _
        rw [BitVec.add_comm, BitVec.sub_add_cancel]
        exact hle
      · trivial
  | delaying delta =>
    rw [hpc] at ht hahead hcov
    cases ht
    refine ⟨h.sorted, ?_, hcov⟩
    change 2 ^ 31 ≤ Serial.place s.timers.tick (s.timers.tick + delta)
    rw [place_delay _ hahead]
    exact Nat.le_add_right _ _
  | blocked wake => simp [hpc] at ht
  | entering =>
    rw [hpc] at ht
    cases ht
    exact h.awake (fun _ => trivial) trivial
  | checking current n =>
    rw [hpc] at ht
    cases n with
    | none =>
      cases ht
      exact h.awake (fun _ => trivial) trivial
    | some x =>
      simp only at ht
      split_ifs at ht
      · cases ht
        exact (h.timerRemove (x := x)).awake (fun _ => trivial) trivial
      · cases ht
        exact h.awake (fun _ => trivial) trivial
  | calling x n =>
    rw [hpc] at ht
    simp only at ht
    split_ifs at ht
    · cases ht
      exact (h.dropped (x := x)).awake (fun _ => trivial) trivial
    · cases ht
      exact (h.setTimer (x := x) (f := Timer.deactivate) (fun _ => rfl)).awake (fun _ => trivial) trivial
  | stamping x current n =>
    rw [hpc] at ht hc
    obtain ⟨m, hm, rfl⟩ := map_eq_some_iff.mp ht
    exact (h.stamp hc hm).awake (fun _ => trivial) trivial
  | linking x current n =>
    rw [hpc] at ht hc
    cases ht
    exact ⟨h.sorted.link hc, trivial, fun _ _ => .inl trivial⟩

theorem Inv.step {a : TimerThreadAction τ C} (hc : s.Timely a) (ht : s.step a = some t) : t.Inv := by
  cases a with
  | thread => exact h.thread hc ht
  | call c op =>
    simp only [TimerThread.step] at ht
    split_ifs at ht with hidle
    cases ht
    exact h.call op hidle
  | goOn c => exact h.goOn hc ht
  | tick => exact h.tick hc ht

end

end

instance (s : Timers τ) : ∀ pc, Decidable (ReadsTimeout s pc)
  | .fetch => Option.decidableForallMem _
  | .stamping _ _ _ => instDecidableNot
  | .linking _ _ _ => instDecidableForall
  | .suspending | .reading _ | .delaying _ | .blocked _ | .entering | .checking _ _ | .calling _ _ => isTrue trivial

instance (s : Timers τ) : ∀ pc, Decidable (KeepsDelay s pc)
  | .reading _ => instDecidableNot
  | .delaying _ => inferInstanceAs (Decidable (∀ x ∈ s.lists true, _))
  | .fetch | .suspending | .blocked _ | .entering | .checking _ _ | .calling _ _ | .stamping _ _ _ | .linking _ _ _ =>
    isTrue trivial

instance (s : Timers τ) (x : τ) : ∀ pc, Decidable (Covered s x pc)
  | .suspending | .blocked none => isFalse id
  | .reading _ | .delaying _ | .blocked (some _) => Nat.decLe _ _
  | .fetch | .entering | .checking _ _ | .calling _ _ | .stamping _ _ _ | .linking _ _ _ => isTrue trivial

instance (s : Timers τ) (pc : TimerPc τ) : DecidablePred (Noticed s pc)
  | .stamping _ => instDecidableNot
  | .linking _ => instDecidableForall
  | .testing _ => instDecidableOr
  | .unlinking _ | .inserting _ => inferInstanceAs (Decidable (Blocked pc))
  | .idle | .removing _ | .clearing _ => isTrue trivial

instance (s : TimerThread τ C) : DecidablePred s.Timely
  | .thread => inferInstanceAs (Decidable (ReadsTimeout s.timers s.pc))
  | .call _ _ => isTrue trivial
  | .goOn c => inferInstanceAs (Decidable (Noticed s.timers s.pc (s.caller c)))
  | .tick => instDecidableAnd

def twoSoft (tick : BitVec 32) : TimerThread Bool Unit :=
  { timers := { tick, timer := fun x => Timer.init (if x then 5 else 10) false true, lists := fun _ => [] }
    pc := .fetch
    caller := fun _ => .idle }

theorem twoSoft_atRest (tick : BitVec 32) : (twoSoft tick).AtRest := ⟨rfl, rfl, fun _ => rfl⟩

def startPieces (x : Bool) (n : ℕ) : List (TimerThreadAction Bool Unit) :=
  .call () (.start x) :: List.replicate n (.goOn ())

def Oversleeps (s : TimerThread Bool Unit) (wake : Option (BitVec 32)) : Prop :=
  s.pc = .blocked wake ∧ true ∈ s.timers.lists true ∧ s.caller () = .idle ∧
    ∀ v ∈ wake, s.timers.place true < Serial.place s.timers.tick v

-- the instance for a quantifier over bit vectors would try every one of them
instance (s : TimerThread Bool Unit) (wake : Option (BitVec 32)) : Decidable (Oversleeps s wake) :=
  @instDecidableAnd _ _ _ (@instDecidableAnd _ _ _ (@instDecidableAnd _ _ _ (Option.decidableForallMem wake)))

theorem Oversleeps.not_wakesInTime {s : TimerThread Bool Unit} {wake : Option (BitVec 32)} (h : Oversleeps s wake) :
    ¬ s.WakesInTime := by
  obtain ⟨hpc, hmem, hidle, hlate⟩ := h
  intro hw
  obtain ⟨v, rfl, hle⟩ | ⟨c, hc⟩ := hw wake hpc true hmem
  · exact absurd hle (not_le.mpr (hlate v rfl))
  · rw [show s.caller c = .idle from hidle] at hc
    exact hc

end TimerThread

end RtThread
