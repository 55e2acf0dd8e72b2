import Mathlib.Data.List.Nodup

namespace RtThread

open Function

inductive Stat
  | init | ready | suspend | close
  deriving DecidableEq

inductive Err
  | eok | error | etimeout | efull
  deriving DecidableEq

structure ThreadTimer where
  linked : Bool
  activated : Bool
  initTick : BitVec 32
  timeoutTick : BitVec 32
  deriving DecidableEq

namespace ThreadTimer

def unlink (tm : ThreadTimer) : ThreadTimer := { tm with linked := false }

def deactivate (tm : ThreadTimer) : ThreadTimer := { tm with linked := false, activated := false }

def activate (tm : ThreadTimer) (now : BitVec 32) : ThreadTimer :=
  { tm with linked := true, activated := true, timeoutTick := now + tm.initTick }

end ThreadTimer

structure Thread where
  stat : Stat
  initPriority : ℕ
  currentPriority : ℕ
  numberMask : BitVec 32
  error : Err
  eventSet : BitVec 32
  eventInfo : BitVec 8
  timer : ThreadTimer
  cleanup : Bool
  isSystemObject : Bool
  deriving DecidableEq

inductive Head (W : Type)
  | ready (p : ℕ)
  | wait (w : W)
  | defunct
  deriving DecidableEq

structure Kernel (T W : Type) where
  thread : T → Thread
  lists : Head W → List T
  readyGroup : BitVec 32
  current : Option T
  lockNest : ℕ
  tick : BitVec 32

def priorityMax : ℕ := 32

def tickMax : BitVec 32 := 0xffffffff

def priorityMask (p : ℕ) : BitVec 32 := 1#32 <<< p

theorem priorityMask_getLsbD {p q : ℕ} (hp : p < 32) : (priorityMask p).getLsbD q = true ↔ q = p := by
  simp only [priorityMask, BitVec.getLsbD_shiftLeft, BitVec.getLsbD_one]
  simp only [Bool.and_eq_true, decide_eq_true_eq, Bool.not_eq_true', decide_eq_false_iff_not]
  omega

namespace Kernel

variable {T W : Type} [DecidableEq T] [DecidableEq W]

def setThread (k : Kernel T W) (t : T) (f : Thread → Thread) : Kernel T W :=
  { k with thread := update k.thread t (f (k.thread t)) }

def listRemove (k : Kernel T W) (t : T) : Kernel T W :=
  { k with lists := fun h => (k.lists h).erase t }

def listInsertBefore (k : Kernel T W) (h : Head W) (t : T) : Kernel T W :=
  { k with lists := update k.lists h (k.lists h ++ [t]) }

def listInsertAfter (k : Kernel T W) (h : Head W) (t : T) : Kernel T W :=
  { k with lists := update k.lists h (t :: k.lists h) }

def timerControlSetTime (k : Kernel T W) (t : T) (tick : BitVec 32) : Kernel T W :=
  k.setThread t (fun th => { th with timer := { th.timer with initTick := tick } })

def timerStart (k : Kernel T W) (t : T) : Option (Kernel T W) :=
  let k := k.setThread t (fun th => { th with timer := th.timer.deactivate })
  if (k.thread t).timer.initTick.ult (tickMax / 2) then
    some (k.setThread t (fun th => { th with timer := th.timer.activate k.tick }))
  else none

def timerStop (k : Kernel T W) (t : T) : Kernel T W × Err :=
  if (k.thread t).timer.activated then
    (k.setThread t (fun th => { th with timer := th.timer.deactivate }), .eok)
  else (k, .error)

def timerDetach (k : Kernel T W) (t : T) : Kernel T W :=
  k.setThread t (fun th => { th with timer := th.timer.unlink })

end Kernel

end RtThread
