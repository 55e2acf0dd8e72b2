import Mathlib.Algebra.GroupWithZero.Nat
import RtThread.Kernel.State

namespace RtThread

def lowestBitBitmap : List ℕ :=
  [ 0, 0, 1, 0, 2, 0, 1, 0, 3, 0, 1, 0, 2, 0, 1, 0,
    4, 0, 1, 0, 2, 0, 1, 0, 3, 0, 1, 0, 2, 0, 1, 0,
    5, 0, 1, 0, 2, 0, 1, 0, 3, 0, 1, 0, 2, 0, 1, 0,
    4, 0, 1, 0, 2, 0, 1, 0, 3, 0, 1, 0, 2, 0, 1, 0,
    6, 0, 1, 0, 2, 0, 1, 0, 3, 0, 1, 0, 2, 0, 1, 0,
    4, 0, 1, 0, 2, 0, 1, 0, 3, 0, 1, 0, 2, 0, 1, 0,
    5, 0, 1, 0, 2, 0, 1, 0, 3, 0, 1, 0, 2, 0, 1, 0,
    4, 0, 1, 0, 2, 0, 1, 0, 3, 0, 1, 0, 2, 0, 1, 0,
    7, 0, 1, 0, 2, 0, 1, 0, 3, 0, 1, 0, 2, 0, 1, 0,
    4, 0, 1, 0, 2, 0, 1, 0, 3, 0, 1, 0, 2, 0, 1, 0,
    5, 0, 1, 0, 2, 0, 1, 0, 3, 0, 1, 0, 2, 0, 1, 0,
    4, 0, 1, 0, 2, 0, 1, 0, 3, 0, 1, 0, 2, 0, 1, 0,
    6, 0, 1, 0, 2, 0, 1, 0, 3, 0, 1, 0, 2, 0, 1, 0,
    4, 0, 1, 0, 2, 0, 1, 0, 3, 0, 1, 0, 2, 0, 1, 0,
    5, 0, 1, 0, 2, 0, 1, 0, 3, 0, 1, 0, 2, 0, 1, 0,
    4, 0, 1, 0, 2, 0, 1, 0, 3, 0, 1, 0, 2, 0, 1, 0 ]

def ffs (value : BitVec 32) : ℕ :=
  if value = 0 then 0
  else if value &&& 0xff ≠ 0 then lowestBitBitmap.getD (value &&& 0xff).toNat 0 + 1
  else if value &&& 0xff00 ≠ 0 then
    lowestBitBitmap.getD ((value &&& 0xff00) >>> 8).toNat 0 + 9
  else if value &&& 0xff0000 ≠ 0 then
    lowestBitBitmap.getD ((value &&& 0xff0000) >>> 16).toNat 0 + 17
  else lowestBitBitmap.getD ((value &&& 0xff000000) >>> 24).toNat 0 + 25

namespace Kernel

variable {T W : Type} [DecidableEq T] [DecidableEq W]

def systemSchedulerInit (thread : T → Thread) (tick : BitVec 32) : Kernel T W :=
  { thread, lists := fun _ => [], readyGroup := 0, current := none, lockNest := 0, tick }

def highestReadyThread (k : Kernel T W) : Option T :=
  (k.lists (.ready (ffs k.readyGroup - 1))).head?

/-- With an empty ready group, which the idle thread prevents, the source indexes `rt_thread_priority_table[-1]`; the
model leaves the current thread as it is. -/
def schedule (k : Kernel T W) : Kernel T W :=
  if k.lockNest = 0 ∧ k.readyGroup ≠ 0 then
    { k with current := k.highestReadyThread.or k.current }
  else k

def systemSchedulerStart (k : Kernel T W) : Kernel T W :=
  if k.readyGroup ≠ 0 then { k with current := k.highestReadyThread.or k.current } else k

def scheduleInsertThread (k : Kernel T W) (t : T) : Kernel T W :=
  let k := k.setThread t (fun th => { th with stat := .ready })
  let k := k.listInsertBefore (.ready (k.thread t).currentPriority) t
  { k with readyGroup := k.readyGroup ||| (k.thread t).numberMask }

def scheduleRemoveThread (k : Kernel T W) (t : T) : Kernel T W :=
  let k := k.listRemove t
  -- the thread need not have been ready, so the list may have been empty all along
  if k.lists (.ready (k.thread t).currentPriority) = [] then
    { k with readyGroup := k.readyGroup &&& ~~~(k.thread t).numberMask }
  else k

def enterCritical (k : Kernel T W) : Kernel T W :=
  { k with lockNest := (k.lockNest + 1) % 2 ^ 16 }

def exitCritical (k : Kernel T W) : Kernel T W :=
  let nest := (k.lockNest + (2 ^ 16 - 1)) % 2 ^ 16
  if nest = 0 ∨ 2 ^ 15 ≤ nest then { k with lockNest := 0 }.schedule else { k with lockNest := nest }

end Kernel

end RtThread
