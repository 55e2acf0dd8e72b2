import RtThread.Ipc.View
import RtThread.Kernel.ReadyQueue
import RtThread.Kernel.ThreadSections

/-! The work queues of `workqueue.c`: a thread of their own runs the works that other threads submit. -/

namespace RtThread

open Transition Function List Option Kernel

variable {T W Work : Type} [DecidableEq T] [DecidableEq W] [DecidableEq Work]

structure WorkQueue (Work : Type) where
  workList : List Work
  workCurrent : Option Work

inductive WorkResult
  | eok
  | ebusy
  deriving DecidableEq

namespace WorkQueue

def submit (q : WorkQueue Work) (work : Work) : WorkQueue Work × WorkResult × Bool :=
  if q.workCurrent = some work then (q, .ebusy, false)
  else ({ q with workList := q.workList.erase work ++ [work] }, .eok, q.workCurrent = none)

def dowork (q : WorkQueue Work) (work : Work) : WorkQueue Work × WorkResult × Bool := q.submit work

def criticalWork (q : WorkQueue Work) (work : Work) : WorkQueue Work × WorkResult × Bool := q.submit work

def cancelWork (q : WorkQueue Work) (work : Work) : WorkQueue Work × WorkResult :=
  if q.workCurrent = some work then (q, .ebusy) else ({ q with workList := q.workList.erase work }, .eok)

def cancelAllWork (q : WorkQueue Work) : WorkQueue Work := { q with workList := [] }

def take (q : WorkQueue Work) : Option (Work × WorkQueue Work) :=
  match q.workList with
  | [] => none
  | work :: rest => some (work, { workList := rest, workCurrent := some work })

end WorkQueue

/-- Where `_workqueue_thread_entry` is: before its test of the list, its suspension or its taking of a work, inside a
work, or inside what it took from an empty list. -/
inductive WorkerPc
  | test
  | suspending
  | take
  | running
  | wild
  deriving DecidableEq

/-- `resumes` counts the submitters that have linked their work and have yet to call `rt_thread_resume`, `unlinking` and
`inserting` those that have found the worker suspended and are before the one or the other section of it. The last three
fields record how often each work was submitted, cancelled while it was linked, and run. -/
structure WorkSystem (T W Work : Type) where
  kernel : Kernel T W
  queue : WorkQueue Work
  pc : WorkerPc
  resumes : ℕ
  unlinking : ℕ
  inserting : ℕ
  submitted : Work → ℕ
  cancelled : Work → ℕ
  runs : Work → ℕ

inductive WorkEvent (Work : Type)
  | dowork (work : Work)
  | criticalWork (work : Work)
  | resume
  | unlink
  | insert
  | cancelWork (work : Work)
  | cancelAllWork
  | test
  | suspend
  | take
  | finish
  deriving DecidableEq

def WorkEvent.own : WorkEvent Work → Bool
  | .resume | .unlink | .insert | .test | .suspend | .take | .finish => true
  | _ => false

namespace WorkSystem

def submit (s : WorkSystem T W Work) (work : Work) : WorkQueue Work × WorkResult × Bool → WorkSystem T W Work
  | (_, .ebusy, _) => s
  | (queue, .eok, resumes) =>
    { s with
      queue
      resumes := if resumes then s.resumes + 1 else s.resumes
      submitted := update s.submitted work (s.submitted work + 1) }

def cancel (s : WorkSystem T W Work) (work : Work) : WorkQueue Work × WorkResult → WorkSystem T W Work
  | (_, .ebusy) => s
  | (queue, .eok) =>
    { s with
      queue
      cancelled := update s.cancelled work
        (s.cancelled work + if work ∈ s.queue.workList then 1 else 0) }

def takeWork (s : WorkSystem T W Work) : WorkSystem T W Work :=
  match s.queue.take with
  | none => { s with pc := .wild }
  | some (work, queue) =>
    { s with queue, pc := .running, runs := update s.runs work (s.runs work + 1) }

def worker (t : T) (s : WorkSystem T W Work) (pc : WorkerPc) (s' : WorkSystem T W Work) :
    Option (WorkSystem T W Work) :=
  if s.pc = pc ∧ (s.kernel.thread t).stat = .ready then some s' else none

def step (t : T) (s : WorkSystem T W Work) : WorkEvent Work → Option (WorkSystem T W Work)
  | .dowork work => some (s.submit work (s.queue.dowork work))
  | .criticalWork work => some (s.submit work (s.queue.criticalWork work))
  | .resume =>
    if s.resumes = 0 then none
    else if (s.kernel.resumeTest t).isSome then
      some { s with resumes := s.resumes - 1, unlinking := s.unlinking + 1 }
    else some { s with kernel := s.kernel.schedule, resumes := s.resumes - 1 }
  | .unlink =>
    if s.unlinking = 0 then none
    else some { s with
      kernel := (s.kernel.goOn (.resuming t)).1
      unlinking := s.unlinking - 1
      inserting := s.inserting + 1 }
  | .insert =>
    if s.inserting = 0 then none
    else some { s with kernel := (s.kernel.goOn (.inserting t)).1.schedule, inserting := s.inserting - 1 }
  | .cancelWork work => some (s.cancel work (s.queue.cancelWork work))
  | .cancelAllWork =>
    some { s with
      queue := s.queue.cancelAllWork
      cancelled := fun work => s.cancelled work + s.queue.workList.count work }
  | .test => s.worker t .test { s with pc := if s.queue.workList = [] then .suspending else .take }
  | .suspend =>
    s.worker t .suspending { s with kernel := ((s.kernel.dispatch t).threadSuspend t).1.schedule, pc := .take }
  | .take => s.worker t .take s.takeWork
  | .finish => s.worker t .running { s with queue := { s.queue with workCurrent := none }, pc := .test }

structure Initial (t : T) (s : WorkSystem T W Work) : Prop where
  ready : s.kernel.view.stat t = .ready
  workList : s.queue.workList = []
  workCurrent : s.queue.workCurrent = none
  pc : s.pc = .test
  resumes : s.resumes = 0
  resuming : s.unlinking + s.inserting = 0
  submitted : ∀ work, s.submitted work = 0
  cancelled : ∀ work, s.cancelled work = 0
  runs : ∀ work, s.runs work = 0

structure Sound (t : T) (s : WorkSystem T W Work) : Prop where
  awake : s.kernel.view.stat t = .suspend → s.queue.workList ≠ [] → s.resumes + (s.unlinking + s.inserting) ≠ 0
  linked : s.pc ≠ .wild
  once : ∀ work, s.submitted work = s.cancelled work + s.runs work + s.queue.workList.count work

def Committed (t : T) (s : WorkSystem T W Work) : Prop := s.pc = .take ∧ (s.kernel.thread t).stat = .ready

instance (t : T) (s : WorkSystem T W Work) : Decidable (s.Committed t) := instDecidableAnd

/-- A work is submitted when it is not in the list. The last `rt_thread_resume` does not come to a worker that has seen
the list empty and is not suspended yet, none comes while another one is between its sections, and the worker is made
ready with works in the list, which are not all cancelled before it takes one. -/
def Orderly (t : T) (s : WorkSystem T W Work) : WorkEvent Work → Prop
  | .dowork work | .criticalWork work => s.queue.workCurrent = some work ∨ work ∉ s.queue.workList
  | .resume => ¬(s.pc = .suspending ∧ s.queue.workList ≠ [] ∧ s.resumes = 1) ∧ s.unlinking + s.inserting = 0
  | .insert => s.queue.workList ≠ []
  | .cancelWork work => s.Committed t → s.queue.workList.erase work ≠ []
  | .cancelAllWork => ¬s.Committed t
  | _ => True

instance (t : T) (s : WorkSystem T W Work) : ∀ e, Decidable (s.Orderly t e)
  | .dowork _ | .criticalWork _ => instDecidableOr
  | .resume => instDecidableAnd
  | .insert => instDecidableNot
  | .cancelWork _ => instDecidableForall
  | .cancelAllWork => instDecidableNot
  | .unlink | .test | .suspend | .take | .finish => isTrue trivial

def settle (t : T) (s : WorkSystem T W Work) (e : WorkEvent Work) : Option (WorkSystem T W Work) :=
  if e.own = true ∧ s.Orderly t e then s.step t e else none

def workLeft (s : WorkSystem T W Work) : ℕ :=
  4 * s.queue.workList.length + 3 * s.resumes + 2 * s.unlinking + s.inserting +
    match s.pc with
    | .running => 3
    | .test => 2
    | .suspending => 1
    | .take | .wild => 0

structure Inv (t : T) (s : WorkSystem T W Work) : Prop extends Sound t s where
  idle : s.pc ≠ .running → s.queue.workCurrent = none
  stat : s.kernel.view.stat t = .ready ∨ s.kernel.view.stat t = .suspend ∧ s.pc = .take
  resuming : s.unlinking + s.inserting = 0 ∨ s.unlinking + s.inserting = 1 ∧ s.kernel.view.stat t = .suspend
  suspending : s.pc = .suspending → s.queue.workList ≠ [] → s.resumes ≠ 0
  committed : s.Committed t → s.queue.workList ≠ []

variable {t : T} {s s' : WorkSystem T W Work}

variable {work : Work} {e : WorkEvent Work}

section

omit [DecidableEq T] [DecidableEq W]

theorem Initial.inv (h : s.Initial t) : s.Inv t where
  awake _ hne := absurd h.workList hne
  linked := by simp [h.pc]
  once work := by simp [h.submitted, h.cancelled, h.runs, h.workList]
  idle _ := h.workCurrent
  stat := .inl h.ready
  resuming := .inl h.resuming
  suspending _ hne := absurd h.workList hne
  committed hc := by simp [Committed, h.pc] at hc

theorem Inv.suspended (h : s.Inv t) (hs : s.kernel.view.stat t = .suspend) : s.pc = .take := by
  rcases h.stat with hr | hs'
  · simp [hs] at hr
  · exact hs'.2

theorem Inv.ready (h : s.Inv t) (hpc : s.pc ≠ .take) : s.kernel.view.stat t = .ready :=
  h.stat.resolve_right (fun hs => hpc hs.2)

theorem Inv.not_resuming (h : s.Inv t) (hr : s.kernel.view.stat t = .ready) : s.unlinking + s.inserting = 0 :=
  h.resuming.resolve_right (fun hs => absurd (hr.symm.trans hs.2) nofun)

theorem submit_busy (hcur : s.queue.workCurrent = some work) : s.submit work (s.queue.submit work) = s := by
  simp [submit, WorkQueue.submit, hcur]

theorem submit_linked (hcur : s.queue.workCurrent ≠ some work) :
    s.submit work (s.queue.submit work) = { s with
      queue := { s.queue with workList := s.queue.workList.erase work ++ [work] }
      resumes := if s.queue.workCurrent = none then s.resumes + 1 else s.resumes
      submitted := update s.submitted work (s.submitted work + 1) } := by
  simp [submit, WorkQueue.submit, hcur]

theorem Inv.submit (h : s.Inv t) (hc : s.queue.workCurrent = some work ∨ work ∉ s.queue.workList) :
    (s.submit work (s.queue.submit work)).Inv t := by
  by_cases hcur : s.queue.workCurrent = some work
  · rwa [submit_busy hcur]
  have hmem := hc.resolve_left hcur
  -- a worker that does not run a work is resumed by this submission
  have hresumes : s.pc ≠ .running → (if s.queue.workCurrent = none then s.resumes + 1 else s.resumes) ≠ 0 := by
    intro hpc
    rw [if_pos (h.idle hpc)]
    exact Nat.succ_ne_zero _
  rw [submit_linked hcur]
  refine ⟨⟨fun hs _ hz => hresumes (by simp [h.suspended hs]) (Nat.eq_zero_of_add_eq_zero_right hz),
    h.linked, ?_⟩,
    h.idle, h.stat, h.resuming, fun hpc _ => hresumes (by simp [show s.pc = _ from hpc]), by simp⟩
  intro v
  rw [erase_of_not_mem hmem]
  have hv := h.once v
  obtain rfl | hvw := eq_or_ne v work
  · simp only [update_self, count_append, count_singleton_self]
    omega
  · simp only [update_of_ne hvw, count_append, count_singleton, beq_iff_eq, Ne.symm hvw, if_false]
    omega

theorem cancel_busy (hcur : s.queue.workCurrent = some work) : s.cancel work (s.queue.cancelWork work) = s := by
  simp [cancel, WorkQueue.cancelWork, hcur]

theorem cancel_unlinked (hcur : s.queue.workCurrent ≠ some work) :
    s.cancel work (s.queue.cancelWork work) = { s with
      queue := { s.queue with workList := s.queue.workList.erase work }
      cancelled := update s.cancelled work
        (s.cancelled work + if work ∈ s.queue.workList then 1 else 0) } := by
  simp [cancel, WorkQueue.cancelWork, hcur]

theorem Inv.cancel (h : s.Inv t) (hc : s.Committed t → s.queue.workList.erase work ≠ []) :
    (s.cancel work (s.queue.cancelWork work)).Inv t := by
  by_cases hcur : s.queue.workCurrent = some work
  · rwa [cancel_busy hcur]
  have hne : s.queue.workList.erase work ≠ [] → s.queue.workList ≠ [] := by
    intro herase hnil
    simp [hnil] at herase
  rw [cancel_unlinked hcur]
  refine ⟨⟨fun hs hl => h.awake hs (hne hl), h.linked, ?_⟩, h.idle, h.stat, h.resuming,
    fun hpc hl => h.suspending hpc (hne hl), hc⟩
  intro v
  have hv := h.once v
  obtain rfl | hvw := eq_or_ne v work
  · simp only [update_self, count_erase_self]
    by_cases hm : v ∈ s.queue.workList
    · have hpos := count_pos_iff.mpr hm
      rw [if_pos hm]
      omega
    · rw [if_neg hm, count_eq_zero_of_not_mem hm] at *
      omega
  · simpa only [update_of_ne hvw, count_erase_of_ne hvw] using hv

theorem Inv.cancelAll (h : s.Inv t) (hc : ¬s.Committed t) : Inv t { s with
    queue := s.queue.cancelAllWork
    cancelled := fun work => s.cancelled work + s.queue.workList.count work } := by
  refine ⟨⟨fun _ hl => absurd rfl hl, h.linked, fun v => ?_⟩, h.idle, h.stat, h.resuming,
    fun _ hl => absurd rfl hl, fun hcom => absurd hcom hc⟩
  have hv := h.once v
  simp only [WorkQueue.cancelAllWork, count_nil]
  omega

theorem takeWork_cons {rest : List Work} (hl : s.queue.workList = work :: rest) :
    s.takeWork = { s with
      queue := { workList := rest, workCurrent := some work }
      pc := .running
      runs := update s.runs work (s.runs work + 1) } := by
  simp [takeWork, WorkQueue.take, hl]

end

theorem Inv.resume (h : s.Inv t) (hc : s.Orderly t .resume) (hs : s.step t .resume = some s') : s'.Inv t := by
  obtain ⟨hpos, hs⟩ := ite_none_left_eq_some.mp hs
  obtain ⟨hlast, hnone⟩ := hc
  have hsuspending : s.pc = .suspending → s.queue.workList ≠ [] → s.resumes - 1 ≠ 0 := by
    intro hpc hl hz
    exact hlast ⟨hpc, hl, by omega⟩
  by_cases hsus : s.kernel.view.stat t = .suspend
  · rw [if_pos ((resumeTest_isSome ..).mpr hsus)] at hs
    cases hs
    refine ⟨⟨fun _ _ => ?_, h.linked, h.once⟩, h.idle, h.stat, .inr ⟨?_, hsus⟩, hsuspending, h.committed⟩
    · dsimp only
      omega
    · dsimp only
      omega
  · rw [if_neg (fun htest => hsus ((resumeTest_isSome ..).mp htest))] at hs
    cases hs
    have hr := h.stat.resolve_right (fun h' => hsus h'.1)
    have hr' : s.kernel.schedule.view.stat t = .ready := by rwa [schedule_view]
    exact ⟨⟨fun hs' => absurd (hs'.symm.trans hr') nofun, h.linked, h.once⟩, h.idle, .inl hr', .inl hnone,
      hsuspending,
      fun hcom => h.committed ⟨hcom.1, hr⟩⟩

theorem unlink_stat (k : Kernel T W) (t : T) : (k.goOn (.resuming t)).1.view.stat t = k.view.stat t := by
  change ((k.goOn (.resuming t)).1.thread t).stat = (k.thread t).stat
  simp [goOn]

theorem insert_stat (k : Kernel T W) (t : T) : (k.goOn (.inserting t)).1.schedule.view.stat t = .ready := by
  rw [schedule_view]
  change ((k.goOn (.inserting t)).1.thread t).stat = .ready
  simp [goOn]

theorem Inv.unlink (h : s.Inv t) (hs : s.step t .unlink = some s') : s'.Inv t := by
  obtain ⟨hpos, hs⟩ := ite_none_left_eq_some.mp hs
  cases hs
  obtain ⟨hone, hsus⟩ := h.resuming.resolve_left (by omega)
  have hsus' := (unlink_stat s.kernel t).trans hsus
  refine ⟨⟨fun _ _ => ?_, h.linked, h.once⟩, h.idle, .inr ⟨hsus', h.suspended hsus⟩, .inr ⟨?_, hsus'⟩,
    h.suspending,
    fun hcom => absurd (hsus'.symm.trans hcom.2) nofun⟩
  · dsimp only
    omega
  · dsimp only
    omega

theorem Inv.insert (h : s.Inv t) (hc : s.Orderly t .insert) (hs : s.step t .insert = some s') : s'.Inv t := by
  obtain ⟨hpos, hs⟩ := ite_none_left_eq_some.mp hs
  cases hs
  obtain ⟨hone, -⟩ := h.resuming.resolve_left (by omega)
  have hready := insert_stat s.kernel t
  refine ⟨⟨fun hsus => absurd (hsus.symm.trans hready) nofun, h.linked, h.once⟩, h.idle, .inl hready, .inl ?_,
    h.suspending, fun _ => hc⟩
  dsimp only
  omega

section

omit [DecidableEq T] [DecidableEq W] [DecidableEq Work]

theorem worker_eq_some {pc : WorkerPc} {u : WorkSystem T W Work} :
    s.worker t pc u = some s' ↔ (s.pc = pc ∧ s.kernel.view.stat t = .ready) ∧ u = s' := by
  unfold worker
  rw [ite_none_right_eq_some, Option.some.injEq]
  rfl

end

theorem Inv.test (h : s.Inv t) (hs : s.step t .test = some s') : s'.Inv t := by
  obtain ⟨⟨hpc, hr⟩, rfl⟩ := worker_eq_some.mp hs
  have hidle : s.queue.workCurrent = none := h.idle (by simp [hpc])
  have hsus : s.kernel.view.stat t ≠ .suspend := by simp [hr]
  by_cases hl : s.queue.workList = []
  · rw [if_pos hl]
    exact ⟨⟨fun hs => absurd hs hsus, nofun, h.once⟩, fun _ => hidle, .inl hr, h.resuming,
      fun _ hne => absurd hl hne,
      fun hcom => absurd hcom.1 nofun⟩
  · rw [if_neg hl]
    exact ⟨⟨fun hs => absurd hs hsus, nofun, h.once⟩, fun _ => hidle, .inl hr, h.resuming, nofun, fun _ => hl⟩

section

omit [DecidableEq W] [DecidableEq Work]

theorem suspend_stat (hr : s.kernel.view.stat t = .ready) :
    ((s.kernel.dispatch t).threadSuspend t).1.schedule.view.stat t = .suspend := by
  have hr' : ((s.kernel.dispatch t).thread t).stat = .ready := hr
  rw [schedule_view, view_thread (threadSuspend_thread hr')]
  simp

end

theorem Inv.suspend (h : s.Inv t) (hs : s.step t .suspend = some s') : s'.Inv t := by
  obtain ⟨⟨hpc, hr⟩, rfl⟩ := worker_eq_some.mp hs
  have hstat := suspend_stat hr
  refine ⟨⟨fun _ hl hz => h.suspending hpc hl (Nat.eq_zero_of_add_eq_zero_right hz), nofun, h.once⟩,
    fun _ => h.idle (by simp [hpc]), .inr ⟨hstat, rfl⟩, .inl (h.not_resuming hr), nofun, fun hcom => ?_⟩
  exact absurd (hstat.symm.trans hcom.2) nofun

section

variable (h : s.Inv t)

include h

theorem Inv.take (hs : s.step t .take = some s') : s'.Inv t := by
  obtain ⟨hcom, rfl⟩ := worker_eq_some.mp hs
  obtain ⟨work, rest, hl⟩ := exists_cons_of_ne_nil (h.committed hcom)
  rw [takeWork_cons hl]
  refine ⟨⟨fun hs => ?_, nofun, fun v => ?_⟩, fun hpc => absurd rfl hpc, .inl hcom.2, h.resuming, nofun,
    fun hcom => absurd hcom.1 nofun⟩
  · simp [hcom.2] at hs
  · have hv := h.once v
    rw [hl, count_cons] at hv
    obtain rfl | hvw := eq_or_ne v work
    · simp only [beq_self_eq_true, if_true, update_self] at hv ⊢
      omega
    · simp only [beq_iff_eq, Ne.symm hvw, if_false, update_of_ne hvw] at hv ⊢
      omega

theorem Inv.finish (hs : s.step t .finish = some s') : s'.Inv t := by
  obtain ⟨⟨-, hr⟩, rfl⟩ := worker_eq_some.mp hs
  refine ⟨⟨fun hs => ?_, nofun, h.once⟩, fun _ => rfl, .inl hr, h.resuming, nofun,
    fun hcom => absurd hcom.1 nofun⟩
  simp [hr] at hs

theorem Inv.step (hc : s.Orderly t e) (hs : s.step t e = some s') : s'.Inv t := by
  cases e with
  | dowork work | criticalWork work => exact Option.some.inj hs ▸ h.submit hc
  | resume => exact h.resume hc hs
  | unlink => exact h.unlink hs
  | insert => exact h.insert hc hs
  | cancelWork work => exact Option.some.inj hs ▸ h.cancel hc
  | cancelAllWork => exact Option.some.inj hs ▸ h.cancelAll hc
  | test => exact h.test hs
  | suspend => exact h.suspend hs
  | take => exact h.take hs
  | finish => exact h.finish hs

theorem Inv.progress (hl : s.queue.workList ≠ []) : ∃ e, (s.settle t e).isSome := by
  have hworker : ∀ e pc u, s.step t e = s.worker t pc u → e.own = true → s.Orderly t e → s.pc = pc →
      s.kernel.view.stat t = .ready → (s.settle t e).isSome := by
    intro e pc u hstep hown hc hpc hr
    rw [settle, if_pos ⟨hown, hc⟩, hstep, worker_eq_some.mpr ⟨⟨hpc, hr⟩, rfl⟩]
    rfl
  cases hpc : s.pc with
  | test => exact ⟨.test, hworker _ _ _ rfl rfl trivial hpc (h.ready (by simp [hpc]))⟩
  | suspending => exact ⟨.suspend, hworker _ _ _ rfl rfl trivial hpc (h.ready (by simp [hpc]))⟩
  | running => exact ⟨.finish, hworker _ _ _ rfl rfl trivial hpc (h.ready (by simp [hpc]))⟩
  | wild => exact absurd hpc h.linked
  | take =>
    rcases h.stat with hr | ⟨hs, _⟩
    · exact ⟨.take, hworker _ _ _ rfl rfl trivial hpc hr⟩
    · by_cases hins : s.inserting = 0
      · by_cases hun : s.unlinking = 0
        · have hc : s.Orderly t .resume := ⟨by simp [hpc], by omega⟩
          have hpos : s.resumes ≠ 0 := by
            have := h.awake hs hl
            omega
          refine ⟨.resume, ?_⟩
          rw [WorkSystem.settle, if_pos ⟨rfl, hc⟩, WorkSystem.step, if_neg hpos]
          split_ifs <;> rfl
        · refine ⟨.unlink, ?_⟩
          rw [WorkSystem.settle, if_pos ⟨rfl, trivial⟩, WorkSystem.step, if_neg hun]
          rfl
      · refine ⟨.insert, ?_⟩
        rw [WorkSystem.settle, if_pos ⟨rfl, hl⟩, WorkSystem.step, if_neg hins]
        rfl

theorem Inv.settle (hs : s.settle t e = some s') : s'.Inv t ∧ s'.workLeft < s.workLeft := by
  obtain ⟨⟨hown, hc⟩, hs⟩ := ite_none_right_eq_some.mp hs
  refine ⟨h.step hc hs, ?_⟩
  cases e with
  | dowork | criticalWork | cancelWork | cancelAllWork => exact absurd hown nofun
  | resume =>
    obtain ⟨hpos, hs⟩ := ite_none_left_eq_some.mp hs
    split_ifs at hs <;>
    · cases hs
      simp only [workLeft]
      omega
  | unlink | insert =>
    obtain ⟨hpos, hs⟩ := ite_none_left_eq_some.mp hs
    cases hs
    simp only [workLeft]
    omega
  | test =>
    obtain ⟨⟨hpc, _⟩, rfl⟩ := worker_eq_some.mp hs
    by_cases hl : s.queue.workList = []
    · simp [workLeft, hl, hpc]
    · simp [workLeft, hl, hpc]
  | suspend =>
    obtain ⟨⟨hpc, _⟩, rfl⟩ := worker_eq_some.mp hs
    simp [workLeft, hpc]
  | take =>
    obtain ⟨hcom, rfl⟩ := worker_eq_some.mp hs
    obtain ⟨work, rest, hl⟩ := exists_cons_of_ne_nil (h.committed hcom)
    rw [takeWork_cons hl]
    simp only [workLeft, hl, hcom.1, length_cons]
    omega
  | finish =>
    obtain ⟨⟨hpc, _⟩, rfl⟩ := worker_eq_some.mp hs
    simp [workLeft, hpc]

theorem Inv.settled {es : List (WorkEvent Work)} (hrun : run (WorkSystem.settle t) s es = some s') :
    es.length ≤ s.workLeft ∧
      ((∀ e, s'.settle t e = none) → ∀ work, s'.submitted work = s'.cancelled work + s'.runs work) := by
  refine ⟨run_length_le (fun _ _ _ h hs => (h.settle hs).1) (fun _ _ _ h hs => (h.settle hs).2) h hrun, ?_⟩
  intro hquiet work
  have hinv : s'.Inv t := run_invariant (fun _ _ _ h hs => (h.settle hs).1) h hrun
  have hnil : s'.queue.workList = [] := by
    by_contra hne
    obtain ⟨e, he⟩ := hinv.progress hne
    simp [hquiet e] at he
  have honce := hinv.once work
  rw [hnil] at honce
  simpa using honce

end

end WorkSystem

open WorkSystem

theorem workqueue_sound {t : T} {s : WorkSystem T W Work}
    (hr : Reachable (WorkSystem.step t) (Orderly t) (Initial t) s) :
    s.Sound t ∧
      ∀ es s', run (WorkSystem.settle t) s es = some s' → es.length ≤ s.workLeft ∧
        ((∀ e, s'.settle t e = none) → ∀ work, s'.submitted work = s'.cancelled work + s'.runs work) := by
  have hinv : s.Inv t := hr.invariant (fun _ h => h.inv) (fun _ _ _ h hc hs => h.step hc hs)
  exact ⟨hinv.toSound, fun _ _ hrun => hinv.settled hrun⟩

def workKernel : Kernel Tid Unit := bootKernel Tid.priority [.startup .mid, .startup .low, .schedulerStart]

def idleQueue : WorkSystem Tid Unit ℕ where
  kernel := workKernel
  queue := { workList := [], workCurrent := none }
  pc := .test
  resumes := 0
  unlinking := 0
  inserting := 0
  submitted _ := 0
  cancelled _ := 0
  runs _ := 0

theorem idleQueue_initial : idleQueue.Initial .mid :=
  ⟨by decide +kernel, rfl, rfl, rfl, rfl, rfl, fun _ => rfl, fun _ => rfl, fun _ => rfl⟩

def oneOfTwo : List (WorkEvent ℕ) :=
  [.test, .suspend, .dowork 1, .resume, .unlink, .dowork 2, .insert, .take, .cancelWork 2, .resume, .finish]

theorem workqueue_sound_oneOfTwo : ∃ s, run (WorkSystem.step .mid) idleQueue oneOfTwo = some s ∧ s.runs 1 = 1 ∧
    s.cancelled 2 = 1 ∧ s.Sound .mid := by
  refine exists_some_and_and (by decide +kernel) (fun s hs _ _ => ?_)
  exact (workqueue_sound (.of_run (.start idleQueue_initial) (by decide +kernel) hs)).1

def resumedTwice : List (WorkEvent ℕ) :=
  [.test, .suspend, .dowork 1, .dowork 2, .resume, .resume, .unlink, .unlink, .insert, .take, .finish, .test, .take,
    .finish, .test, .suspend, .insert, .take]

theorem workqueue_asleep : idleQueue.Initial .mid ∧
    (∃ s, run (WorkSystem.step .mid) idleQueue [.test, .dowork 1, .resume, .suspend] = some s ∧
      s.queue.workList = [1] ∧ s.kernel.view.stat .mid = .suspend ∧ s.resumes + (s.unlinking + s.inserting) = 0 ∧
      ¬s.Sound .mid) ∧
    ∃ s, run (WorkSystem.step .mid) idleQueue resumedTwice = some s ∧ s.pc = .wild ∧ ¬s.Sound .mid := by
  refine ⟨idleQueue_initial, ?_, ?_⟩
  · exact exists_some_imp (P := fun s => _ ∧ _ ∧ _) (by decide +kernel)
      (fun s _ h => ⟨h.1, h.2.1, h.2.2, fun hsound => hsound.awake h.2.1 (by simp [h.1]) h.2.2⟩)
  · exact exists_some_and (by decide +kernel) (fun _ _ h hsound => hsound.linked h)

end RtThread
