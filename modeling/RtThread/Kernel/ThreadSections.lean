import RtThread.Kernel.Effects

/-!
`rt_thread_startup`, `rt_thread_suspend`, `rt_thread_resume`, `rt_thread_detach` and `rt_thread_delete` run with
interrupts enabled and can be interrupted between any two of their sections.
-/

namespace RtThread

variable {T W : Type}

inductive ThreadCall (T : Type)
  | startup (t : T)
  | suspend (t : T)
  | resume (t : T)
  | detach (t : T)
  | delete (t : T)

/-- Where a call of `thread.c` stands; `always` tells `rt_thread_delete` from `rt_thread_detach`. -/
inductive ThreadPc (T : Type)
  | starting (t : T)
  | started (t : T)
  | suspending (t : T)
  | resuming (t : T)
  | inserting (t : T)
  | removing (t : T) (always : Bool)
  | detaching (t : T) (always : Bool)
  | closing (t : T) (always : Bool)
  | burying (t : T)
  deriving DecidableEq

namespace Kernel

def close (k : Kernel T W) (t : T) (always : Bool) : ThreadPc T :=
  if (k.thread t).stat ≠ .init then .removing t always else .detaching t always

def resumeTest (k : Kernel T W) (t : T) : Option (ThreadPc T) :=
  if (k.thread t).stat = .suspend then some (.resuming t) else none

theorem resumeTest_isSome (k : Kernel T W) (t : T) :
    (k.resumeTest t).isSome = true ↔ (k.thread t).stat = .suspend := by
  unfold resumeTest
  split_ifs with h <;> simp [h]

/-- The call up to its first section; `none` is a failed assertion. -/
def enter (k : Kernel T W) : ThreadCall T → Option (Option (ThreadPc T))
  | .startup t => if (k.thread t).stat = .init then some (some (.starting t)) else none
  | .suspend t => some (if (k.thread t).stat = .ready then some (.suspending t) else none)
  | .resume t => some (k.resumeTest t)
  | .detach t => some (some (k.close t false))
  | .delete t => some (some (k.close t true))

variable [DecidableEq T] [DecidableEq W]

def goOn (k : Kernel T W) : ThreadPc T → Kernel T W × Option (ThreadPc T)
  | .starting t =>
    (k.setThread t (fun th => { th with
      currentPriority := th.initPriority, numberMask := priorityMask th.initPriority, stat := .suspend }),
      some (.started t))
  | .started t => (k, k.resumeTest t)
  | .suspending t =>
    ((((k.setThread t (fun th => { th with stat := .suspend })).scheduleRemoveThread t).timerStop t).1, none)
  | .resuming t => (((k.listRemove t).timerStop t).1, some (.inserting t))
  | .inserting t => (k.scheduleInsertThread t, none)
  | .removing t always => (k.scheduleRemoveThread t, some (.detaching t always))
  | .detaching t always => (k.timerDetach t, some (.closing t always))
  | .closing t always =>
    (k.setThread t (fun th => { th with stat := .close }),
      if always ∨ (k.thread t).cleanup then some (.burying t) else none)
  | .burying t => (k.listInsertAfter .defunct t, none)

def finish : ℕ → Kernel T W × Option (ThreadPc T) → Kernel T W
  | 0, (k, _) => k
  | _ + 1, (k, none) => k
  | n + 1, (k, some p) => finish n (k.goOn p)

def call (k : Kernel T W) (c : ThreadCall T) : Option (Kernel T W) := (k.enter c).map (fun p => finish 4 (k, p))

variable (k : Kernel T W) (t : T)

theorem call_suspend : k.call (.suspend t) = some (k.threadSuspend t).1 := by
  by_cases h : (k.thread t).stat = .ready
  · simp [call, enter, finish, goOn, threadSuspend, h]
  · simp [call, enter, finish, threadSuspend, h]

theorem call_resume : k.call (.resume t) = some (k.threadResume t).1 := by
  by_cases h : (k.thread t).stat = .suspend
  · simp [call, enter, resumeTest, finish, goOn, threadResume, h]
  · simp [call, enter, resumeTest, finish, threadResume, h]

theorem call_startup {k' : Kernel T W} (h : (k.threadStartup t).map Prod.fst = some k') :
    ∃ j, k.call (.startup t) = some j ∧ k' = if j.current.isSome then j.schedule else j := by
  unfold threadStartup at h
  split_ifs at h with hi
  · cases h
  · obtain rfl := Option.some.inj h
    refine ⟨_, by simp [call, enter, not_not.mp hi]; rfl, ?_⟩
    simp [finish, goOn, resumeTest, threadResume, setThread]

theorem call_detach : k.call (.detach t) = some (k.threadDetach t).1 := by
  by_cases hi : (k.thread t).stat = .init <;> by_cases hc : (k.thread t).cleanup <;>
    simp [call, enter, close, finish, goOn, threadDetach, threadClose, timerDetach, hi, hc]

theorem call_delete : k.call (.delete t) = some (k.threadDelete t).1 := by
  by_cases hi : (k.thread t).stat = .init <;>
    simp [call, enter, close, finish, goOn, threadDelete, threadClose, hi]

end Kernel

end RtThread
