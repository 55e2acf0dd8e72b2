import RtThread.Ipc.TimedWait

/-! The queues of `dataqueue.c`. -/

namespace RtThread

structure DataItem where
  dataPtr : BitVec 32
  dataSize : BitVec 32
  deriving DecidableEq

structure DataQueue where
  queue : ℕ → DataItem
  size : ℕ
  lwm : ℕ
  getIndex : ℕ
  putIndex : ℕ
  evtNotify : Bool

inductive DataQueueEvent
  | pop
  | push
  | lwm
  deriving DecidableEq

inductive DqOutcome
  | returned (e : Err) (item : Option DataItem) (event : Option DataQueueEvent)
  | blocked (timeout : BitVec 32)
  deriving DecidableEq

def dqInit (queue : ℕ → DataItem) (size lwm : BitVec 16) (evtNotify : Bool) : DataQueue :=
  { queue, size := size.toNat, lwm := lwm.toNat, getIndex := 0, putIndex := 0, evtNotify }

namespace DataQueue

def length (q : DataQueue) : ℤ := q.putIndex - q.getIndex

def full (q : DataQueue) : Bool := q.length = q.size

def empty (q : DataQueue) : Bool := q.getIndex = q.putIndex

def notify (q : DataQueue) (event : DataQueueEvent) : Option DataQueueEvent :=
  if q.evtNotify then some event else none

def put (q : DataQueue) (item : DataItem) : DataQueue :=
  { q with
    queue := Function.update q.queue (q.putIndex % q.size) item
    putIndex := (q.putIndex + 1) % 65536 }

def get (q : DataQueue) : DataQueue := { q with getIndex := (q.getIndex + 1) % 65536 }

def front (q : DataQueue) : DataItem := q.queue (q.getIndex % q.size)

end DataQueue

variable {T W : Type} [DecidableEq T] [DecidableEq W]

def dqWait (k : Kernel T W) (w : W) (q : DataQueue) (timeout : BitVec 32) :
    Option (Kernel T W × DataQueue × DqOutcome) :=
  if timeout = 0 then some (k, q, .returned .etimeout none none)
  else
    match k.current with
    | none => none
    | some t => ((k.setError t .eok).suspendFor w t .fifo timeout).map (fun k => (k, q, .blocked timeout))

def dqPush (k : Kernel T W) (push pop : W) (q : DataQueue) (item : DataItem) (timeout : BitVec 32) :
    Option (Kernel T W × DataQueue × DqOutcome) :=
  if q.full then dqWait k push q timeout
  else
    -- whoever resumes a thread is not notified
    let event := if k.lists (.wait pop) = [] then q.notify .push else none
    some (k.resumeFirst pop, q.put item, .returned .eok none event)

def dqPop (k : Kernel T W) (push pop : W) (q : DataQueue) (timeout : BitVec 32) :
    Option (Kernel T W × DataQueue × DqOutcome) :=
  if q.empty then dqWait k pop q timeout
  else if q.get.length ≤ q.lwm then
    some (k.resumeFirst push, q.get, .returned .eok (some q.front) (q.notify .lwm))
  else some (k, q.get, .returned .eok (some q.front) (q.notify .pop))

def dqPushResume (k : Kernel T W) (push pop : W) (t : T) (q : DataQueue) (item : DataItem) (timeout : BitVec 32) :
    Option (Kernel T W × DataQueue × DqOutcome) :=
  if (k.thread t).error ≠ .eok then some (k, q, .returned (k.thread t).error none none)
  else dqPush k push pop q item timeout

def dqPopResume (k : Kernel T W) (push pop : W) (t : T) (q : DataQueue) (timeout : BitVec 32) :
    Option (Kernel T W × DataQueue × DqOutcome) :=
  if (k.thread t).error ≠ .eok then some (k, q, .returned (k.thread t).error none none)
  else dqPop k push pop q timeout

def dqPeak (q : DataQueue) : Option DataItem := if q.empty then none else some q.front

def dqReset (k : Kernel T W) (push pop : W) : Kernel T W :=
  ((k.enterCritical.ipcListResumeAll pop).ipcListResumeAll push).exitCritical.schedule

end RtThread
