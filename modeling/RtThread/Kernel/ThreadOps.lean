import RtThread.Kernel.Scheduler

/-!
The functions of `thread.c`, each up to its last `rt_schedule`; what the caller does once it is switched in again is a
definition of its own. A result `none` stands for a failed assertion or a null dereference.
-/

namespace RtThread

inductive ThreadCtrl
  | changePriority (priority : ℕ)
  | startup
  | close
  | other
  deriving DecidableEq

/-- `memory` is what the control block held before; `number_mask` and the event fields keep it. The
cleanup function is the one the inited hook installs. -/
def threadInit (memory : Thread) (priority : ℕ) (isSystemObject cleanup : Bool) : Option Thread :=
  if priority < priorityMax then
    some { memory with
      stat := .init, initPriority := priority, currentPriority := priority, error := .eok
      timer := { linked := false, activated := false, initTick := 0, timeoutTick := 0 }
      cleanup, isSystemObject }
  else none

namespace Kernel

variable {T W : Type} [DecidableEq T] [DecidableEq W]

def threadSuspend (k : Kernel T W) (t : T) : Kernel T W × Err :=
  if (k.thread t).stat ≠ .ready then (k, .error)
  else
    let k := k.setThread t (fun th => { th with stat := .suspend })
    let k := k.scheduleRemoveThread t
    ((k.timerStop t).1, .eok)

def threadResume (k : Kernel T W) (t : T) : Kernel T W × Err :=
  if (k.thread t).stat ≠ .suspend then (k, .error)
  else
    let k := k.listRemove t
    let k := (k.timerStop t).1
    (k.scheduleInsertThread t, .eok)

def threadStartup (k : Kernel T W) (t : T) : Option (Kernel T W × Err) :=
  if (k.thread t).stat ≠ .init then none
  else
    let k := k.setThread t (fun th => { th with
      currentPriority := th.initPriority, numberMask := priorityMask th.initPriority })
    -- `rt_thread_resume` refuses threads that are not suspended
    let k := k.setThread t (fun th => { th with stat := .suspend })
    let k := (k.threadResume t).1
    some (if k.current.isSome then k.schedule else k, .eok)

def threadExit (k : Kernel T W) : Option (Kernel T W) :=
  match k.current with
  | none => none
  | some t =>
    let k := k.scheduleRemoveThread t
    let k := k.setThread t (fun th => { th with stat := .close })
    let k := k.timerDetach t
    let th := k.thread t
    let k := if th.isSystemObject ∧ ¬ th.cleanup then k else k.listInsertAfter .defunct t
    some k.schedule

def threadClose (k : Kernel T W) (t : T) : Kernel T W :=
  let k := if (k.thread t).stat ≠ .init then k.scheduleRemoveThread t else k
  let k := k.timerDetach t
  k.setThread t (fun th => { th with stat := .close })

def threadDetach (k : Kernel T W) (t : T) : Kernel T W × Err :=
  let k := k.threadClose t
  (if (k.thread t).cleanup then k.listInsertAfter .defunct t else k, .eok)

def threadDelete (k : Kernel T W) (t : T) : Kernel T W × Err :=
  ((k.threadClose t).listInsertAfter .defunct t, .eok)

def threadYield (k : Kernel T W) : Option (Kernel T W × Err) :=
  match k.current with
  | none => none
  | some t =>
    let p := (k.thread t).currentPriority
    if (k.thread t).stat = .ready ∧ k.lists (.ready p) ≠ [t] then
      some (((k.listRemove t).listInsertBefore (.ready p) t).schedule, .eok)
    else some (k, .eok)

def threadSleep (k : Kernel T W) (tick : BitVec 32) : Option (Kernel T W) :=
  match k.current with
  | none => none
  | some t =>
    let k := (k.threadSuspend t).1
    let k := k.timerControlSetTime t tick
    (k.timerStart t).map schedule

def threadSleepReturn (k : Kernel T W) (t : T) : Kernel T W × Err :=
  (if (k.thread t).error = .etimeout then k.setThread t (fun th => { th with error := .eok }) else k,
    .eok)

def threadChangePriority (k : Kernel T W) (t : T) (priority : ℕ) : Kernel T W :=
  let recalculate := fun th : Thread => { th with
    currentPriority := priority, numberMask := priorityMask priority }
  if (k.thread t).stat = .ready then
    ((k.scheduleRemoveThread t).setThread t recalculate).scheduleInsertThread t
  -- a suspended thread keeps its place in its suspend list
  else k.setThread t recalculate

def threadControl (k : Kernel T W) (t : T) : ThreadCtrl → Option (Kernel T W × Err)
  | .changePriority priority => some (k.threadChangePriority t priority, .eok)
  | .startup => k.threadStartup t
  | .close => some (k.threadDelete t)
  | .other => some (k, .eok)

def threadTimeout (k : Kernel T W) (t : T) : Option (Kernel T W) :=
  if (k.thread t).stat ≠ .suspend then none
  else
    let k := k.setThread t (fun th => { th with error := .etimeout })
    let k := k.listRemove t
    some (k.scheduleInsertThread t).schedule

def timerExpire (k : Kernel T W) (t : T) : Option (Kernel T W) :=
  if (k.thread t).timer.linked then
    ((k.timerDetach t).threadTimeout t).map (fun k =>
      k.setThread t (fun th => { th with timer := { th.timer with activated := false } }))
  else none

end Kernel

end RtThread
