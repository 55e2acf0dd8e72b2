import RtThread.Ipc.WaitList

namespace RtThread

open Function

structure View (T W : Type) where
  stat : T → Stat
  error : T → Err
  priority : T → ℕ
  initPriority : T → ℕ
  eventSet : T → BitVec 32
  eventInfo : T → BitVec 8
  waiting : W → List T

namespace View

variable {T W : Type} [DecidableEq T]

@[simp] abbrev setError (v : View T W) (t : T) (e : Err) : View T W := { v with error := update v.error t e }

theorem setError_self (v : View T W) (t : T) : v.setError t (v.error t) = v := by
  rw [setError, update_eq_self]

/-- The timer of the thread has run out. -/
@[simp] abbrev expired (v : View T W) (t : T) : View T W := { v with
  stat := update v.stat t .ready
  error := update v.error t .etimeout
  waiting := fun w => (v.waiting w).erase t }

variable [DecidableEq W] (v : View T W) (w : W)

@[simp] abbrev parked (flag : IpcFlag) (t : T) : View T W := { v with
  stat := update v.stat t .suspend
  error := update v.error t .eok
  waiting := update v.waiting w (enqueue flag v.priority t (v.waiting w)) }

@[simp] abbrev resumed (t : T) (l : List T) : View T W := { v with
  stat := update v.stat t .ready
  waiting := update v.waiting w l }

/-- Every thread of the list goes on as if it had been served. -/
@[simp] abbrev released : View T W := { v with
  stat := fun t => if t ∈ v.waiting w then .ready else v.stat t
  waiting := update v.waiting w [] }

@[simp] abbrev resumedAll : View T W := { v.released w with
  error := fun t => if t ∈ v.waiting w then .error else v.error t }

theorem released_nil {v : View T W} {w : W} (h : v.waiting w = []) : v.released w = v := by
  rw [released, ← h, update_eq_self]
  simp [h]

end View

inductive Outcome
  | returned (e : Err)
  | blocked
  deriving DecidableEq

namespace Kernel

variable {T W : Type} [DecidableEq T]

def view (k : Kernel T W) : View T W where
  stat t := (k.thread t).stat
  error t := (k.thread t).error
  priority t := (k.thread t).currentPriority
  initPriority t := (k.thread t).initPriority
  eventSet t := (k.thread t).eventSet
  eventInfo t := (k.thread t).eventInfo
  waiting w := k.lists (.wait w)

def dispatch (k : Kernel T W) (t : T) : Kernel T W := { k with current := some t }

def setError (k : Kernel T W) (t : T) (e : Err) : Kernel T W :=
  k.setThread t (fun th => { th with error := e })

variable {k k' : Kernel T W} {t : T}

section

omit [DecidableEq T]

@[simp] theorem dispatch_view (k : Kernel T W) (t : T) : (k.dispatch t).view = k.view := rfl

@[simp] theorem schedule_view (k : Kernel T W) : k.schedule.view = k.view := by
  simp [view]

theorem lockNest_view (k : Kernel T W) (n : ℕ) : { k with lockNest := n }.view = k.view := rfl

theorem exitCritical_view (k : Kernel T W) : k.exitCritical.view = k.view := by
  unfold exitCritical
  dsimp only
  split
  · exact schedule_view { k with lockNest := 0 }
  · exact lockNest_view k _

theorem Wf.dispatch (h : k.Wf) (t : T) : (k.dispatch t).Wf := h.congr rfl rfl rfl

end

theorem Wf.setError (h : k.Wf) (t : T) (e : Err) : (k.setError t e).Wf :=
  h.setThread t rfl rfl rfl rfl

theorem view_thread {th : Thread} (ht : k'.thread = update k.thread t th) :
    k'.view = { stat := update k.view.stat t th.stat
                error := update k.view.error t th.error
                priority := update k.view.priority t th.currentPriority
                initPriority := update k.view.initPriority t th.initPriority
                eventSet := update k.view.eventSet t th.eventSet
                eventInfo := update k.view.eventInfo t th.eventInfo
                waiting := fun w => k'.lists (.wait w) } := by
  simp only [view, View.mk.injEq, and_true]
  refine ⟨?_, ?_, ?_, ?_, ?_, ?_⟩ <;> funext u <;> by_cases hu : u = t <;> simp [ht, hu]

@[simp] theorem setError_view (k : Kernel T W) (t : T) (e : Err) :
    (k.setError t e).view = k.view.setError t e := by
  rw [setError, view_thread (k.setThread_thread t _)]
  simp [view]

variable [DecidableEq W]

theorem Wf.changePriority_view (h : k.Wf) (t : T) (p : ℕ) :
    (k.threadChangePriority t p).view =
      { k.view with priority := update k.view.priority t p } := by
  rw [view_thread (k.threadChangePriority_thread t p)]
  simp only [h.threadChangePriority_wait]
  simp [view]

variable (hk : k.Wf)

include hk

theorem Wf.suspendFor_view {w : W} {flag : IpcFlag}
    {time : BitVec 32} (hr : k.view.stat t = .ready) (h : k.suspendFor w t flag time = some k') :
    k'.Wf ∧ k'.view = { k.view with
      stat := update k.view.stat t .suspend
      waiting := update k.view.waiting w (enqueue flag k.view.priority t (k.view.waiting w)) } := by
  obtain ⟨hw, ⟨tm, hthread⟩, hself, hother⟩ := hk.suspendFor hr h
  refine ⟨hw, ?_⟩
  rw [view_thread hthread]
  have hwait : (fun v => k'.lists (.wait v)) =
      update k.view.waiting w (enqueue flag k.view.priority t (k.view.waiting w)) := by
    funext v
    by_cases hv : v = w
    · subst hv; rw [update_self]; exact hself
    · simpa [view, hv] using hother v hv
  rw [hwait]
  simp [view]

theorem Wf.timerExpire_view (h : k.timerExpire t = some k') :
    k'.Wf ∧ k.view.stat t = .suspend ∧ k'.view = k.view.expired t := by
  obtain ⟨hw, hs, ⟨tm, hthread⟩, hwait⟩ := hk.timerExpire h
  refine ⟨hw, hs, ?_⟩
  rw [view_thread hthread]
  simp only [hwait]
  simp [view]

theorem Wf.threadResume_view (hs : k.view.stat t = .suspend) :
    (k.threadResume t).1.Wf ∧ (k.threadResume t).1.view = { k.view with
      stat := update k.view.stat t .ready
      waiting := fun w => (k.view.waiting w).erase t } := by
  refine ⟨hk.threadResume t, ?_⟩
  rw [view_thread (threadResume_thread hs)]
  simp only [threadResume_wait hs]
  simp [view]

theorem Wf.ipcListResume_view {w : W} {l : List T} (h : k.view.waiting w = t :: l) :
    (k.ipcListResume w).Wf ∧ k.view.stat t = .suspend ∧ (k.ipcListResume w).view = k.view.resumed w t l := by
  obtain ⟨hw, hs, hthread, hself, hother⟩ := hk.ipcListResume h
  refine ⟨hw, hs, ?_⟩
  rw [view_thread hthread]
  have hwait : (fun v => (k.ipcListResume w).lists (.wait v)) = update k.view.waiting w l := by
    funext v
    by_cases hv : v = w
    · subst hv; simpa using hself
    · simpa [view, hv] using hother v hv
  rw [hwait]
  simp [view]

theorem Wf.ipcListResumeAll_view (w : W) :
    (k.ipcListResumeAll w).Wf ∧ (k.ipcListResumeAll w).view = k.view.resumedAll w := by
  obtain ⟨hw, hnil, hother, hin, hout⟩ := hk.ipcListResumeAll w
  refine ⟨hw, ?_⟩
  simp only [view, View.mk.injEq]
  refine ⟨?_, ?_, ?_, ?_, ?_, ?_, ?_⟩
  iterate 6
    funext t
    by_cases ht : t ∈ k.lists (.wait w)
    · simp [hin t ht, ht]
    · simp [hout t ht, ht]
  funext v
  by_cases hv : v = w
  · subst hv; simpa using hnil
  · simpa [hv] using hother v hv

omit [DecidableEq T] [DecidableEq W]

theorem Wf.view_suspend {w : W} (h : t ∈ k.view.waiting w) : k.view.stat t = .suspend :=
  (hk.placed t).wait_suspend w h

theorem Wf.view_unique {w w' : W} (h : t ∈ k.view.waiting w) (h' : t ∈ k.view.waiting w') : w = w' :=
  (hk.placed t).wait_unique w w' h h'

theorem Wf.view_nodup (w : W) : (k.view.waiting w).Nodup :=
  hk.nodup (.wait w)

theorem Wf.view_priority_lt (t : T) : k.view.priority t < 32 :=
  (hk.placed t).current_lt

end Kernel

end RtThread
