import Mathlib.Data.Nat.Notation
import Mathlib.Logic.Basic

/-!
`pthread_create`, with what it takes from the heap and the object container and gives back. Whether an allocation or a
call of the kernel succeeds is an input.
-/

namespace RtThread

inductive ThreadErrno
  | enomem | einval | esrch | edeadlk
  deriving DecidableEq

inductive DetachState
  | joinable | detached
  deriving DecidableEq

structure PthreadAttr where
  stackBase : ℕ
  detachstate : DetachState

def pthreadDefaultAttr : PthreadAttr := ⟨0, .joinable⟩

inductive CreateBlock
  | data | stack | control | semaphore
  /-- The memory at `stack_base`. -/
  | callerStack
  deriving DecidableEq

inductive CreateObject
  | thread | semaphore
  deriving DecidableEq

inductive CreateOp
  | malloc (b : CreateBlock)
  | free (b : CreateBlock)
  | attach (o : CreateObject)
  | detach (o : CreateObject)
  /-- The control block is put into the list of the idle thread. -/
  | defunct
  deriving DecidableEq

structure CreateAnswers where
  data : Bool
  stack : Bool
  control : Bool
  semaphore : Bool
  init : Bool
  startup : Bool

abbrev CreateM := ExceptT ThreadErrno (StateM (List CreateOp))

namespace CreateM

def op (o : CreateOp) : CreateM Unit := modify (· ++ [o])

def rtMalloc (b : CreateBlock) (answer : Bool) : CreateM Bool := do
  if answer then op (.malloc b)
  return answer

def rtFree (b : CreateBlock) : CreateM Unit := op (.free b)

def rtSemCreate (answer : Bool) : CreateM Bool := do
  if answer then
    op (.malloc .semaphore)
    op (.attach .semaphore)
  return answer

def rtSemDelete : CreateM Unit := do
  op (.detach .semaphore)
  op (.free .semaphore)

def rtThreadInit (answer : Bool) : CreateM Bool := do
  op (.attach .thread)
  return answer

def rtThreadDetach : CreateM Unit := do
  op (.detach .thread)
  op .defunct

def pthreadCreate (attr : Option PthreadAttr) (answers : CreateAnswers) : CreateM Unit := do
  unless ← rtMalloc .data answers.data do throw .enomem
  let attr := attr.getD pthreadDefaultAttr
  let block := if attr.stackBase = 0 then CreateBlock.stack else .callerStack
  if attr.stackBase = 0 then
    unless ← rtMalloc block answers.stack do
      rtFree .data
      throw .enomem
  unless ← rtMalloc .control answers.control do
    if attr.stackBase = 0 then rtFree block
    rtFree .data
    throw .enomem
  if attr.detachstate = .joinable then
    unless ← rtSemCreate answers.semaphore do
      if attr.stackBase ≠ 0 then rtFree block
      rtFree .data
      throw .enomem
  unless ← rtThreadInit answers.init do
    if attr.stackBase = 0 then rtFree block
    if attr.detachstate = .joinable then rtSemDelete
    rtFree .data
    throw .einval
  unless answers.startup do
    rtThreadDetach
    if attr.stackBase = 0 then rtFree block
    if attr.detachstate = .joinable then rtSemDelete
    rtFree .data
    throw .einval

end CreateM

def pthreadCreate (attr : Option PthreadAttr) (answers : CreateAnswers) : Except ThreadErrno Unit × List CreateOp :=
  (CreateM.pthreadCreate attr answers).run.run []

structure CreateUndone (r : Except ThreadErrno Unit × List CreateOp) : Prop where
  error : ∃ e, r.1 = .error e
  freed : ∀ b, r.2.count (.free b) = if .malloc b ∈ r.2 then 1 else 0
  detached : ∀ o, r.2.count (.detach o) = r.2.count (.attach o)
  defunct : CreateOp.defunct ∉ r.2

def CreateAnswers.FailsEarly (answers : CreateAnswers) (attr : PthreadAttr) : Prop :=
  answers.data = false ∨ attr.stackBase = 0 ∧ answers.stack = false ∨ answers.control = false

section

open CreateM

variable {attr : Option PthreadAttr} {answers : CreateAnswers}

theorem create_undone_data (hdata : answers.data = false) : CreateUndone (pthreadCreate attr answers) := by
  have h : pthreadCreate attr answers = (.error .enomem, []) := by
    simp only [pthreadCreate, CreateM.pthreadCreate, rtMalloc, hdata]
    rfl
  rw [h]
  exact ⟨⟨_, rfl⟩, fun _ => rfl, fun _ => rfl, List.not_mem_nil⟩

variable (hdata : answers.data = true)

include hdata

theorem create_undone_stack (hbase : (attr.getD pthreadDefaultAttr).stackBase = 0)
    (hstack : answers.stack = false) : CreateUndone (pthreadCreate attr answers) := by
  have h : pthreadCreate attr answers = (.error .enomem, [.malloc .data, .free .data]) := by
    simp only [pthreadCreate, CreateM.pthreadCreate, rtMalloc, hdata, hbase, hstack]
    rfl
  rw [h]
  exact ⟨⟨_, rfl⟩, by intro b; cases b <;> rfl, by intro o; cases o <;> rfl, by decide⟩

variable (hstack : (attr.getD pthreadDefaultAttr).stackBase = 0 → answers.stack = true)

include hstack

theorem create_undone_control (hcontrol : answers.control = false) : CreateUndone (pthreadCreate attr answers) := by
  by_cases hbase : (attr.getD pthreadDefaultAttr).stackBase = 0
  · have h : pthreadCreate attr answers =
        (.error .enomem, [.malloc .data, .malloc .stack, .free .stack, .free .data]) := by
      simp only [pthreadCreate, CreateM.pthreadCreate, rtMalloc, hdata, hbase, hstack hbase, hcontrol]
      rfl
    rw [h]
    exact ⟨⟨_, rfl⟩, by intro b; cases b <;> rfl, by intro o; cases o <;> rfl, by decide⟩
  · have h : pthreadCreate attr answers = (.error .enomem, [.malloc .data, .free .data]) := by
      simp only [pthreadCreate, CreateM.pthreadCreate, rtMalloc, hdata, if_neg hbase, hcontrol]
      rfl
    rw [h]
    exact ⟨⟨_, rfl⟩, by intro b; cases b <;> rfl, by intro o; cases o <;> rfl, by decide⟩

theorem create_keeps_control (hcontrol : answers.control = true) :
    .malloc .control ∈ (pthreadCreate attr answers).2 ∧
      (pthreadCreate attr answers).2.count (.free .control) = 0 := by
  obtain ⟨data, stack, control, semaphore, init, startup⟩ := answers
  obtain rfl : data = true := hdata
  obtain rfl : control = true := hcontrol
  generalize hattr : attr.getD pthreadDefaultAttr = a at hstack
  obtain ⟨base, state⟩ := a
  obtain rfl | hbase := eq_or_ne base 0
  · obtain rfl : stack = true := hstack rfl
    simp only [pthreadCreate, CreateM.pthreadCreate, hattr]
    cases state <;> cases semaphore <;> cases init <;> cases startup <;> exact ⟨List.mem_of_elem_eq_true rfl, rfl⟩
  · simp only [pthreadCreate, CreateM.pthreadCreate, hattr, ne_eq, hbase, not_false_eq_true, if_true]
    cases state <;> cases semaphore <;> cases init <;> cases startup <;> exact ⟨List.mem_of_elem_eq_true rfl, rfl⟩

end

theorem create_undone_iff (attr : Option PthreadAttr) (answers : CreateAnswers) :
    CreateUndone (pthreadCreate attr answers) ↔ answers.FailsEarly (attr.getD pthreadDefaultAttr) := by
  by_cases hdata : answers.data = false
  · exact iff_of_true (create_undone_data hdata) (.inl hdata)
  rw [Bool.not_eq_false] at hdata
  by_cases hstack : (attr.getD pthreadDefaultAttr).stackBase = 0 ∧ answers.stack = false
  · exact iff_of_true (create_undone_stack hdata hstack.1 hstack.2) (.inr (.inl hstack))
  have hstack' : (attr.getD pthreadDefaultAttr).stackBase = 0 → answers.stack = true :=
    fun hbase => (Bool.not_eq_false _).mp fun h => hstack ⟨hbase, h⟩
  by_cases hcontrol : answers.control = false
  · exact iff_of_true (create_undone_control hdata hstack' hcontrol) (.inr (.inr hcontrol))
  · obtain ⟨hmalloc, hfree⟩ := create_keeps_control hdata hstack' ((Bool.not_eq_false _).mp hcontrol)
    apply iff_of_false
    · intro h
      have hcount := h.freed .control
      rw [if_pos hmalloc, hfree] at hcount
      cases hcount
    · rintro (h | h | h)
      · exact Bool.noConfusion (hdata.symm.trans h)
      · exact hstack h
      · exact hcontrol h

theorem create_not_undone :
    pthreadCreate (some ⟨4096, .joinable⟩) ⟨true, true, true, false, true, true⟩ =
      (.error .enomem, [.malloc .data, .malloc .control, .free .callerStack, .free .data]) ∧
    pthreadCreate none ⟨true, true, true, false, true, true⟩ =
      (.error .enomem, [.malloc .data, .malloc .stack, .malloc .control, .free .data]) ∧
    pthreadCreate none ⟨true, true, true, true, true, false⟩ =
      (.error .einval, [.malloc .data, .malloc .stack, .malloc .control, .malloc .semaphore, .attach .semaphore,
        .attach .thread, .detach .thread, .defunct, .free .stack, .detach .semaphore, .free .semaphore, .free .data]) :=
  ⟨rfl, rfl, rfl⟩

end RtThread
