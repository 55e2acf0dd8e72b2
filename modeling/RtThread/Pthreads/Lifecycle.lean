import RtThread.Lib.Ledger
import RtThread.Lib.Transition
import RtThread.Pthreads.Create

/-!
The end of a pthread: the thread itself, the clean-up of the idle thread, and one other thread that calls `pthread_join`
or `pthread_detach`. Each access to the control block, the thread data, the semaphore or the stack is a step of any of
them that can run. `rt_thread_exit` and the turn of the idle thread are interrupted only where the joining thread is
woken.
-/

namespace RtThread

open Transition

inductive LifeResource
  | control | data | semaphore | stack
  /-- The area of thread-specific data. -/
  | area
  deriving DecidableEq

/-- What is in the control block (`closed`, `cleanup`), in the thread data, in the semaphore (`value`, and `waiting`
for the joining thread in its list), and in the lists of the scheduler and of the idle thread. -/
structure PthreadObject (V : Type) where
  closed : Bool
  cleanup : Bool
  detachstate : DetachState
  joinableSem : Bool
  ownStack : Bool
  tls : Bool
  returnValue : Option V
  value : ℕ
  waiting : Bool
  /-- The semaphore was deleted under the joining thread. -/
  woken : Bool
  ready : Bool
  defunct : Bool
  ledger : Ledger LifeResource

namespace PthreadObject

variable {V : Type}

def touch (o : PthreadObject V) (r : LifeResource) : PthreadObject V := { o with ledger := o.ledger.touch r }

def release (o : PthreadObject V) (r : LifeResource) : PthreadObject V := { o with ledger := o.ledger.release r }

def crash (o : PthreadObject V) : PthreadObject V := { o with ledger := o.ledger.mark }

def rtSemRelease (o : PthreadObject V) : PthreadObject V :=
  let o := o.touch .semaphore
  if o.waiting then { o with waiting := false } else { o with value := o.value + 1 }

def rtSemDelete (o : PthreadObject V) : PthreadObject V :=
  if o.joinableSem then { o.release .semaphore with waiting := false, woken := o.waiting } else o.crash

end PthreadObject

inductive ThreadDetachPc
  | remove | timer | close | object | insert
  deriving DecidableEq

def rtThreadDetach {V : Type} (o : PthreadObject V) : ThreadDetachPc → PthreadObject V × Option ThreadDetachPc
  | .remove => ({ o.touch .control with ready := false, defunct := false }, some .timer)
  | .timer => (o.touch .control, some .close)
  | .close => ({ o.touch .control with closed := true }, some .object)
  | .object => (o.touch .control, some .insert)
  | .insert =>
    let o := o.touch .control
    (if o.cleanup then { o with defunct := true } else o, none)

inductive DetachPc
  | getData | look | sem | thread (pc : ThreadDetachPc) | stack | tls | control | data | mark
  deriving DecidableEq

def pthreadDetach {V : Type} (o : PthreadObject V) : DetachPc → PthreadObject V × Option DetachPc
  | .getData => ((o.touch .control).touch .data, some .look)
  | .look => (o.touch .control, some (if o.closed then .sem else .mark))
  | .sem =>
    let o := o.touch .data
    (if o.joinableSem then o.rtSemDelete else o, some (.thread .remove))
  | .thread pc =>
    match rtThreadDetach (if pc = .remove then o.touch .data else o) pc with
    | (o, some pc) => (o, some (.thread pc))
    | (o, none) => (o, some .stack)
  | .stack =>
    let o := o.touch .data
    (if o.ownStack then (o.touch .control).release .stack else o, some .tls)
  | .tls =>
    let o := o.touch .data
    (if o.tls then o.release .area else o, some .control)
  | .control => ((o.touch .data).release .control, some .data)
  | .data => (o.release .data, none)
  | .mark =>
    let o := { o.touch .data with detachstate := .detached }
    ({ o.rtSemDelete with joinableSem := false }, none)

inductive DyingPc
  | running
  | returning
  | exitTls
  | exitTest
  | exitLoad
  | exitPost (sem : Bool)
  | exitDetach (pc : ThreadDetachPc)
  | gone
  deriving DecidableEq

inductive CallerPc
  | away
  | joinData
  | joinCheck
  | joinLoad
  | joinTake (sem : Bool)
  | joinWait
  | joinRead
  | detach (pc : DetachPc)
  | returned (result : Except ThreadErrno Unit)
  deriving DecidableEq

inductive IdlePc
  | rest
  | cleaning
  | detach (pc : DetachPc)
  | checking
  | switched
  deriving DecidableEq

inductive LifeActor
  | dying | caller | idle
  deriving DecidableEq

structure LifeState (V : Type) where
  object : PthreadObject V
  dying : DyingPc
  caller : CallerPc
  idle : IdlePc
  current : LifeActor
  owned : LifeResource → Bool
  ended : Option (Option V)
  joined : Option (Option V)

inductive LifeEvent (V : Type)
  | ret (value : Option V)
  | exit (value : Option V)
  | dying
  | join
  | detach
  | caller
  | idle

namespace LifeState

variable {V : Type}

def finish (s : LifeState V) (value : Option V) (next : DyingPc) : LifeState V :=
  { s with
    object := { (s.object.touch .stack).touch .data with returnValue := value }
    dying := next
    ended := some value }

def threadExit (o : PthreadObject V) : PthreadObject V :=
  let o := { o.touch .control with ready := false, closed := true }
  if o.cleanup then { o with defunct := true } else o

def dyingStep (s : LifeState V) : Option (LifeState V) :=
  let o := s.object.touch .stack
  match s.dying with
  | .running | .gone => none
  | .returning => some { s with object := threadExit o, dying := .gone }
  | .exitTls =>
    let o := o.touch .data
    some { s with object := if o.tls then { o.release .area with tls := false } else o, dying := .exitTest }
  | .exitTest =>
    let o := o.touch .data
    some { s with object := o, dying := if o.detachstate = .joinable then .exitLoad else .exitDetach .remove }
  | .exitLoad =>
    let o := o.touch .data
    some { s with object := o, dying := .exitPost o.joinableSem }
  | .exitPost sem =>
    some { s with object := if sem then o.rtSemRelease else o.crash, dying := .exitDetach .remove }
  | .exitDetach pc =>
    let o := if pc = .remove then o.touch .data else o
    match rtThreadDetach o pc with
    | (o, some pc) => some { s with object := o, dying := .exitDetach pc }
    | (o, none) => some { s with object := o, dying := .gone }

def callerStep (s : LifeState V) : Option (LifeState V) :=
  let o := s.object
  match s.caller with
  | .away | .returned _ => none
  | .joinData => some { s with object := (o.touch .control).touch .data, caller := .joinCheck }
  | .joinCheck =>
    let o := o.touch .data
    some { s with object := o, caller := if o.detachstate = .detached then .returned (.error .einval) else .joinLoad }
  | .joinLoad =>
    let o := o.touch .data
    some { s with object := o, caller := .joinTake o.joinableSem }
  | .joinTake sem =>
    if sem then
      let o := o.touch .semaphore
      if 0 < o.value then some { s with object := { o with value := o.value - 1 }, caller := .joinRead }
      else some { s with object := { o with waiting := true, woken := false }, caller := .joinWait }
    else some { s with object := o.crash, caller := .returned (.error .esrch) }
  | .joinWait =>
    if o.waiting then none
    else if o.woken then some { s with caller := .returned (.error .esrch) }
    else some { s with caller := .joinRead }
  | .joinRead =>
    let o := o.touch .data
    some { s with object := o, joined := some o.returnValue, caller := .detach .getData }
  | .detach pc =>
    match pthreadDetach o pc with
    | (o, some pc) => some { s with object := o, caller := .detach pc }
    | (o, none) => some { s with object := o, caller := .returned (.ok ()) }

def idleStep (s : LifeState V) : Option (LifeState V) :=
  let o := s.object
  match s.idle with
  | .rest =>
    if o.defunct then
      let o := o.touch .control
      some { s with object := { o with defunct := false }, idle := if o.cleanup then .cleaning else .checking }
    else none
  | .cleaning =>
    let o := { (o.touch .control).touch .data with cleanup := false }
    if o.detachstate = .joinable then
      some { s with
        object := if o.joinableSem then o.rtSemRelease else o.crash
        idle := if o.waiting then .switched else .checking }
    else some { s with object := o, idle := .detach .getData }
  | .detach pc =>
    match pthreadDetach o pc with
    | (o, some pc) => some { s with object := o, idle := .detach pc }
    | (o, none) => some { s with object := o, idle := .checking }
  -- `rt_object_is_systemobject`
  | .checking | .switched => some { s with object := o.touch .control, idle := .rest }

def Unlocked (s : LifeState V) : Prop := s.idle = .rest ∨ s.idle = .switched

instance (s : LifeState V) : Decidable s.Unlocked := instDecidableOr

def runAs (a : LifeActor) (s : LifeState V) : LifeState V := { s with current := a }

def step (s : LifeState V) : LifeEvent V → Option (LifeState V)
  | .ret value =>
    if s.Unlocked ∧ s.dying = .running then some ((s.finish value .returning).runAs .dying) else none
  | .exit value =>
    if s.Unlocked ∧ s.dying = .running then some ((s.finish value .exitTls).runAs .dying) else none
  | .dying =>
    if s.Unlocked ∧ (s.object.ready = true ∨ s.current = .dying) then s.dyingStep.map (runAs .dying) else none
  | .join =>
    match s.caller with
    | .away => if s.Unlocked then some { s with caller := .joinData, current := .caller } else none
    | _ => none
  | .detach =>
    match s.caller with
    | .away => if s.Unlocked then some { s with caller := .detach .getData, current := .caller } else none
    | _ => none
  | .caller => if s.Unlocked then s.callerStep.map (runAs .caller) else none
  | .idle => s.idleStep.map (runAs .idle)

def Between (s : LifeState V) : Prop := ∃ pc, s.dying = .exitDetach pc ∧ pc ≠ .remove

def Over (s : LifeState V) : Prop := s.dying = .gone ∨ s.object.ready = false ∧ s.current ≠ .dying

def Settled (s : LifeState V) : Prop :=
  s.Over ∧ s.idle = .rest ∧ s.object.defunct = false ∧
  (s.owned .semaphore = false ∨ s.caller = .returned (.ok ()))

structure Good (s : LifeState V) : Prop where
  fault : s.object.ledger.fault = false
  once : ∀ r, s.object.ledger.released r ≤ 1
  settled : s.Settled → ∀ r, s.object.ledger.released r = if s.owned r then 1 else 0
  value : ∀ v, s.joined = some v → s.ended = some v

/-- The idle thread finds the thread joinable, the state of the thread is looked at after the idle thread is done with
it, and no other thread runs while it is between the two lists. -/
def Orderly (s : LifeState V) : LifeEvent V → Prop
  | .ret _ | .exit _ | .dying => True
  | .join | .detach => ¬ s.Between
  | .caller => ¬ s.Between ∧ (s.caller = .detach .look → s.object.cleanup = false ∧ s.idle = .rest)
  | .idle => ¬ s.Between ∧ (s.idle = .cleaning → s.object.detachstate = .joinable)

def init (state : DetachState) (ownStack tls : Bool) : LifeState V where
  object := {
    closed := false
    cleanup := true
    detachstate := state
    joinableSem := state = .joinable
    ownStack := ownStack
    tls := tls
    returnValue := none
    value := 0
    waiting := false
    woken := false
    ready := true
    defunct := false
    ledger := .empty }
  dying := .running
  caller := .away
  idle := .rest
  current := .dying
  owned
    | .control | .data => true
    | .semaphore => state = .joinable
    | .stack => ownStack
    | .area => tls
  ended := none
  joined := none

def Initial (s : LifeState V) : Prop := ∃ state ownStack tls, s = init state ownStack tls

end LifeState

end RtThread
