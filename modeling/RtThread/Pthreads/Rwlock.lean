import RtThread.Lib.CondDiscipline
import RtThread.Pthreads.Monitor

/-!
The functions of `pthread_rwlock.c` as code for the threads of a monitor: each access to a field of the lock and each
call of another function is a step.
-/

namespace RtThread

open CondMonitor Transition

inductive RwMode
  | read | write
  deriving DecidableEq

inductive RwStyle
  | wait | timed | never
  deriving DecidableEq

inductive RwOp
  | lock (m : RwMode) (y : RwStyle)
  | unlock
  | destroy
  | spurious (m : RwMode)
  deriving DecidableEq

def pthreadRwlockRdlock : RwOp := .lock .read .wait

def pthreadRwlockTimedrdlock : RwOp := .lock .read .timed

def pthreadRwlockTryrdlock : RwOp := .lock .read .never

def pthreadRwlockWrlock : RwOp := .lock .write .wait

def pthreadRwlockTimedwrlock : RwOp := .lock .write .timed

def pthreadRwlockTrywrlock : RwOp := .lock .write .never

def pthreadRwlockUnlock : RwOp := .unlock

def pthreadRwlockDestroy : RwOp := .destroy

structure RwData (T : Type) where
  refcount : BitVec 32
  nwaitreaders : BitVec 32
  nwaitwriters : BitVec 32
  readers : List T
  writers : List T
  deriving DecidableEq

def pthreadRwlockInit {T : Type} : RwData T :=
  { refcount := 0, nwaitreaders := 0, nwaitwriters := 0, readers := [], writers := [] }

inductive RwLabel
  | outside (kept : Bool) (last : Option (RwOp × Errno))
  | enter (op : RwOp) (kept : Bool)
  | poke (m : RwMode) (kept : Bool)
  | test (m : RwMode) (y : RwStyle)
  | count (m : RwMode) (y : RwStyle)
  | wait (m : RwMode) (y : RwStyle)
  | back (m : RwMode) (y : RwStyle) (r : Result)
  | grant (m : RwMode) (y : RwStyle)
  | drop
  | notify
  | wakeWriter
  | wakeReaders
  | check
  | tryReaders
  | tryWriters
  | putBack
  | putReaders
  | putWriters
  | destroyReaders
  | clearReaders
  | destroyWriters
  | clearWriters
  | release (op : RwOp) (e : Errno)
  deriving DecidableEq

structure RwChoice where
  op : RwOp
  time : BitVec 32
  deriving DecidableEq

namespace RwData

variable {T : Type} [DecidableEq T]

def Blocks (d : RwData T) : RwMode → Prop
  | .read => d.refcount.slt 0 = true ∨ (0 : BitVec 32).slt d.nwaitwriters = true
  | .write => d.refcount ≠ 0

instance (d : RwData T) : ∀ m, Decidable (d.Blocks m)
  | .read => instDecidableOr
  | .write => instDecidableNot

def waiters (d : RwData T) : RwMode → BitVec 32
  | .read => d.nwaitreaders
  | .write => d.nwaitwriters

def setWaiters (d : RwData T) : RwMode → BitVec 32 → RwData T
  | .read, n => { d with nwaitreaders := n }
  | .write, n => { d with nwaitwriters := n }

def grant (d : RwData T) (t : T) : RwMode → RwData T
  | .read => { d with refcount := d.refcount + 1, readers := t :: d.readers }
  | .write => { d with refcount := -1, writers := t :: d.writers }

def drop (d : RwData T) (t : T) : RwData T :=
  { d with
    refcount := if (0 : BitVec 32).slt d.refcount then d.refcount - 1 else if d.refcount = -1 then 0 else d.refcount
    readers := if t ∈ d.writers then d.readers else d.readers.erase t
    writers := d.writers.erase t }

def Held (d : RwData T) (t : T) : Prop := t ∈ d.readers ∨ t ∈ d.writers

instance (d : RwData T) (t : T) : Decidable (d.Held t) := instDecidableOr

end RwData

namespace RwLabel

def ofTest (m : RwMode) (y : RwStyle) (blocks : Bool) : RwLabel :=
  if blocks then if y = .never then .release (.lock m y) .ebusy else .count m y else .grant m y

def waitError : RwStyle → Result → Errno
  | .timed, .expired => .etimedout
  | _, _ => .einval

def ofBack (m : RwMode) (y : RwStyle) (r : Result) : RwLabel :=
  if r = .done then .test m y else .release (.lock m y) (waitError y r)

def ofNotify {T : Type} (d : RwData T) : RwLabel :=
  if (0 : BitVec 32).slt d.nwaitwriters then if d.refcount = 0 then .wakeWriter else .release .unlock .ok
  else if (0 : BitVec 32).slt d.nwaitreaders then .wakeReaders else .release .unlock .ok

def ofCheck {T : Type} (d : RwData T) : RwLabel :=
  -- this exit of `pthread_rwlock_destroy` does not unlock `rw_mutex`
  if d.refcount ≠ 0 ∨ d.nwaitreaders ≠ 0 ∨ d.nwaitwriters ≠ 0 then .outside true (some (.destroy, .ebusy))
  else .tryReaders

def ofCall (kept : Bool) : RwOp → RwLabel
  | .spurious m => .poke m kept
  | op => .enter op kept

def ofEnter : RwOp → RwLabel
  | .lock m y => .test m y
  | .unlock => .drop
  | .destroy => .check
  | .spurious m => .poke m true

end RwLabel

variable {T : Type} [DecidableEq T]

open RwLabel in
def rwCmd (t : T) (l : RwLabel) (d : RwData T) (x : RwChoice) : Option (Cmd RwMode RwLabel (RwData T) (BitVec 32)) :=
  match l with
  | outside kept _ => if x.op = .unlock ∧ ¬ d.Held t then none else some (.assign d (ofCall kept x.op))
  | enter _ _ => some .lock
  | poke m _ => some (.signal m)
  | test m y => some (.assign d (ofTest m y (d.Blocks m)))
  | count m y => some (.assign (d.setWaiters m (d.waiters m + 1)) (wait m y))
  | wait m y => some (.wait m (if y = .timed then x.time else waitingForever))
  | back m y r => some (.assign (d.setWaiters m (d.waiters m - 1)) (ofBack m y r))
  | grant m y => some (.assign (d.grant t m) (release (.lock m y) .ok))
  | drop => some (.assign (d.drop t) notify)
  | notify => some (.assign d (ofNotify d))
  | wakeWriter => some (.signal .write)
  | wakeReaders => some (.broadcast .read)
  | check => some (.assign d (ofCheck d))
  | tryReaders | destroyReaders => some (.tryTake .read)
  | tryWriters | destroyWriters => some (.tryTake .write)
  | putBack | putReaders => some (.signal .read)
  | putWriters => some (.signal .write)
  | clearReaders => some (.clear .read)
  | clearWriters => some (.clear .write)
  | release _ _ => some .unlock

open RwLabel in
def rwRet : RwLabel → Result → RwLabel
  | enter op _, .done => ofEnter op
  | enter op kept, _ => outside kept (some (op, .edeadlk))
  | poke m kept, _ => outside kept (some (.spurious m, .ok))
  | wait m y, r => back m y r
  | wakeWriter, _ | wakeReaders, _ => release .unlock .ok
  | tryReaders, .done => tryWriters
  | tryReaders, _ | putBack, _ => release .destroy .ebusy
  | tryWriters, .done => putReaders
  | tryWriters, _ => putBack
  | putReaders, _ => putWriters
  | putWriters, _ => destroyReaders
  | destroyReaders, .done => clearReaders
  | destroyReaders, _ | clearReaders, _ => destroyWriters
  | destroyWriters, .done => clearWriters
  | destroyWriters, _ | clearWriters, _ => release .destroy .ok
  -- left out: `pthread_mutex_destroy` after a destroy; the next `pthread_mutex_lock` initializes the mutex again
  | release op e, _ => outside false (some (op, e))
  | l, _ => l

def rwCode : Code T RwMode RwLabel (RwData T) (BitVec 32) RwChoice := ⟨rwCmd, rwRet⟩

abbrev RwSystem (T : Type) := MonitorSystem T RwMode RwLabel (RwData T)

def rwStart (k : Kernel T (Option RwMode)) : RwSystem T := .start k (.outside false none) pthreadRwlockInit

def RwLabel.Holds : RwLabel → Prop
  | outside kept _ | enter _ kept | poke _ kept => kept = true
  | _ => True

namespace RwLabel

theorem holds_ofCall (kept : Bool) (op : RwOp) : (ofCall kept op).Holds ↔ kept = true := by
  cases op <;> rfl

theorem holds_ofEnter (op : RwOp) : (ofEnter op).Holds := by
  cases op <;> trivial

theorem holds_ofTest (m : RwMode) (y : RwStyle) (b : Bool) : (ofTest m y b).Holds := by
  unfold ofTest
  split_ifs <;> trivial

theorem holds_ofBack (m : RwMode) (y : RwStyle) (r : Result) : (ofBack m y r).Holds := by
  unfold ofBack
  split_ifs <;> trivial

omit [DecidableEq T]

theorem holds_ofNotify (d : RwData T) : (ofNotify d).Holds := by
  unfold ofNotify
  split_ifs <;> trivial

theorem holds_ofCheck (d : RwData T) : (ofCheck d).Holds := by
  unfold ofCheck
  split_ifs <;> trivial

end RwLabel

theorem rw_disciplined : Disciplined (pthreadProgram (rwCode (T := T))) RwLabel.Holds := by
  intro t l d x cmd hcmd
  change rwCmd t l d x = some cmd at hcmd
  cases l
  case outside kept last =>
    unfold rwCmd at hcmd
    split_ifs at hcmd
    cases hcmd
    exact ⟨RwLabel.holds_ofCall kept x.op, .inl rfl⟩
  all_goals cases hcmd
  case enter op kept => exact ⟨fun _ => RwLabel.holds_ofEnter op, id⟩
  case test m y => exact ⟨iff_of_true (RwLabel.holds_ofTest m y _) trivial, .inl rfl⟩
  case back m y r => exact ⟨iff_of_true (RwLabel.holds_ofBack m y r) trivial, .inr trivial⟩
  case notify => exact ⟨iff_of_true (RwLabel.holds_ofNotify d) trivial, .inl rfl⟩
  case check => exact ⟨iff_of_true (RwLabel.holds_ofCheck d) trivial, .inl rfl⟩
  case count | grant | drop => exact ⟨Iff.rfl, .inr trivial⟩
  case wait m y => exact ⟨fun _ => ⟨trivial, trivial⟩, fun h => absurd trivial h⟩
  case tryReaders | tryWriters | destroyReaders | destroyWriters => exact ⟨Iff.rfl, Iff.rfl⟩
  case poke | wakeWriter | wakeReaders | putBack | putReaders | putWriters | clearReaders | clearWriters =>
    exact Iff.rfl
  case release op e => exact ⟨Bool.false_ne_true, fun h => absurd trivial h⟩

theorem rw_calling {l : RwLabel} (h : Calling (pthreadProgram (rwCode (T := T))) l) :
    (∃ op kept, l = .enter op kept) ∨ ∃ m y, l = .wait m y := by
  obtain ⟨t, d, x, h⟩ := h
  change rwCmd t l d x = some .lock ∨ ∃ c time, rwCmd t l d x = some (.wait c time) at h
  cases l with
  | enter op kept => exact .inl ⟨op, kept, rfl⟩
  | wait m y => exact .inr ⟨m, y, rfl⟩
  | outside kept last =>
    unfold rwCmd at h
    split_ifs at h <;> simp at h
  | _ => simp [rwCmd] at h

end RtThread
