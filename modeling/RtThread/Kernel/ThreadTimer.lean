import RtThread.Kernel.HighestFirst

namespace RtThread.Kernel

open Function List Option

variable {T W : Type}

/-- A thread whose timer is linked is suspended, and `rt_timer_stop` finds the timer. -/
def Timed (k : Kernel T W) : Prop := ∀ t, (k.thread t).timer.linked = true →
  (k.thread t).timer.activated = true ∧ (k.thread t).stat = .suspend

/-- The running thread has neither suspended nor closed itself. -/
def Open (k : Kernel T W) : Prop := ∀ t ∈ k.current, (k.thread t).stat = .ready

instance (k : Kernel T W) : Decidable k.Open := Option.decidableForallMem _

variable {k j k' : Kernel T W} {t : T} (h : k.Timed)

section

include h

theorem Timed.of_thread (ht : k'.thread = k.thread) : k'.Timed := by
  intro u
  rw [ht]
  exact h u

theorem Timed.schedule : k.schedule.Timed := h.of_thread k.schedule_thread

theorem Timed.systemSchedulerStart : k.systemSchedulerStart.Timed := by
  refine h.of_thread ?_
  unfold Kernel.systemSchedulerStart
  split_ifs <;> rfl

theorem Timed.exitCritical : k.exitCritical.Timed := by
  have hn (n : ℕ) : Timed { k with lockNest := n } := h
  unfold Kernel.exitCritical
  dsimp only
  split_ifs
  · exact (hn 0).schedule
  · exact hn _

theorem stopped_linked (t : T) : (stopped (k.thread t).timer).linked = false := by
  unfold stopped
  split_ifs with ha
  · rfl
  · exact Bool.eq_false_iff.mpr (fun hl => ha (h t hl).1)

end

variable [DecidableEq T]

theorem threadClose_thread (k : Kernel T W) (t : T) : (k.threadClose t).thread = update k.thread t
    { k.thread t with stat := .close, timer := (k.thread t).timer.unlink } := by
  unfold threadClose
  split_ifs <;> simp [timerDetach, setThread_thread]

theorem threadSuspend_stat (h : (k.thread t).stat = .ready) : ((k.threadSuspend t).1.thread t).stat = .suspend := by
  rw [threadSuspend_thread h, update_self]

include h

theorem Timed.update {x : Thread} (hthread : k'.thread = update k.thread t x)
    (hth : x.timer.linked = true → x.timer.activated = true ∧ x.stat = .suspend) : k'.Timed := by
  intro u
  rw [hthread, update_apply]
  split_ifs
  · exact hth
  · exact h u

theorem Timed.update_unlinked {x : Thread} (hthread : k'.thread = Function.update k.thread t x)
    (hth : x.timer.linked = false) : k'.Timed :=
  h.update hthread (fun hl => absurd hl (Bool.eq_false_iff.mp hth))

theorem Timed.setThread (t : T) {f : Thread → Thread} (hs : (f (k.thread t)).stat = (k.thread t).stat)
    (htm : (f (k.thread t)).timer = (k.thread t).timer) : (k.setThread t f).Timed := by
  refine h.update (k.setThread_thread t f) ?_
  rw [hs, htm]
  exact h t

theorem Timed.threadSuspend (t : T) : (k.threadSuspend t).1.Timed := by
  by_cases hr : (k.thread t).stat = .ready
  · exact h.update_unlinked (threadSuspend_thread hr) (stopped_linked h t)
  · simpa [Kernel.threadSuspend, hr] using h

theorem Timed.threadSleepReturn (t : T) : (k.threadSleepReturn t).1.Timed := by
  unfold Kernel.threadSleepReturn
  dsimp only
  split_ifs
  · exact h.setThread t rfl rfl
  · exact h

theorem Timed.start (hs : (k.thread t).stat = .suspend) {time : BitVec 32}
    (he : ((k.timerControlSetTime t time).timerStart t).map Kernel.schedule = some k') : k'.Timed := by
  obtain ⟨i, hi, rfl⟩ := map_eq_some_iff.mp he
  obtain ⟨tm, hact, rfl⟩ := timerStart_activated hi
  refine Timed.schedule (h.update (t := t) (x := { k.thread t with timer := tm }) ?_ (fun _ => ⟨hact, hs⟩))
  simp [timerControlSetTime, setThread_thread]

theorem Timed.threadSleep (ho : k.Open) {tick : BitVec 32} (hs : k.threadSleep tick = some k') : k'.Timed := by
  obtain ⟨t, hc, hs⟩ := threadSleep_eq_some hs
  exact (h.threadSuspend t).start (threadSuspend_stat (ho t hc)) hs

variable [DecidableEq W]

theorem Timed.threadResume (t : T) : (k.threadResume t).1.Timed := by
  by_cases hs : (k.thread t).stat = .suspend
  · exact h.update_unlinked (threadResume_thread hs) (stopped_linked h t)
  · simpa [Kernel.threadResume, hs] using h

theorem Timed.threadChangePriority (t : T) (p : ℕ) : (k.threadChangePriority t p).Timed :=
  h.update (threadChangePriority_thread k t p) (h t)

theorem Timed.threadExit (he : k.threadExit = some k') : k'.Timed := by
  refine threadExit_induct (P := Timed) (fun _ hj => hj.schedule) he (fun t _ j hdef => ?_)
  have hthread : j.thread = Function.update k.thread t
      { k.thread t with stat := .close, timer := (k.thread t).timer.unlink } := by
    simp [hdef, timerDetach, setThread_thread]
  have hj : j.Timed := h.update_unlinked hthread rfl
  exact ⟨hj, hj⟩

theorem Timed.threadYield {r : Kernel T W × Err} (hr : k.threadYield = some r) : r.1.Timed :=
  threadYield_induct (P := Timed) (fun _ hj => hj.schedule) hr h (fun _ _ _ => h)

theorem Timed.timerExpire (he : k.timerExpire t = some k') : k'.Timed := by
  unfold Kernel.timerExpire at he
  split_ifs at he with hl
  obtain ⟨j, hj, rfl⟩ := map_eq_some_iff.mp he
  have hdetach : (k.timerDetach t).Timed := h.update_unlinked (setThread_thread ..) rfl
  have hthread := (threadTimeout_eq_some hj).2.1
  have hready : j.Timed := hdetach.update_unlinked hthread (by simp [timerDetach, ThreadTimer.unlink])
  exact hready.update_unlinked (setThread_thread ..) (by simp [hthread, timerDetach, ThreadTimer.unlink])

theorem Timed.suspendFor (ht : (k.thread t).stat = .ready) {w : W} {flag : IpcFlag} {time : BitVec 32}
    (hs : k.suspendFor w t flag time = some k') : k'.Timed := by
  have hq : (k.ipcListSuspend w t flag).Timed := h.threadSuspend t
  unfold Kernel.suspendFor at hs
  split_ifs at hs
  · exact hq.start (threadSuspend_stat ht) hs
  · cases hs
    exact hq.schedule

theorem Timed.ipcListResume (w : W) : (k.ipcListResume w).Timed := by
  unfold Kernel.ipcListResume
  split
  · exact h
  · exact h.threadResume _

theorem Timed.ipcListResumeAll (w : W) : (k.ipcListResumeAll w).Timed :=
  ipcListResumeAll_induct h (fun _ t hj => (hj.setThread t (f := fun th => { th with error := .error }) rfl
    rfl).threadResume t) w

end RtThread.Kernel
