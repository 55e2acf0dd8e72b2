import RtThread.Kernel.ThreadTimer
import RtThread.Kernel.ThreadSections
import RtThread.Ipc.IpcSystem

/-!
Threads call the functions of `thread.c` and wait for IPC objects of every kind, and `rt_timer_check` fires the timers
of threads.
-/

namespace RtThread

open Transition Option Kernel

variable {T W O : Type} [DecidableEq T] [DecidableEq O]

namespace Kernel

variable {k k' : Kernel T W} {w : W} {t : T}

theorem setError_stat (k : Kernel T W) (t u : T) (e : Err) : ((k.setError t e).thread u).stat = (k.thread u).stat := by
  by_cases hu : u = t
  · simp [setError, hu]
  · simp [setError, setThread_of_ne, hu]

section

omit [DecidableEq T]

theorem open_dispatch (h : (k.thread t).stat = .ready) : (k.dispatch t).Open := by
  rintro u ⟨⟩
  exact h

end

variable {time timeout : BitVec 32} {r : MbOutcome}

variable (h : k.Timed) {x x' : MessageQueue} {op : MbOp W}

include h

theorem Timed.setError (t : T) (e : Err) : (k.setError t e).Timed := h.setThread t rfl rfl

variable [DecidableEq W]

theorem Timed.suspend_self (ho : k.Open) (hc : k.current = some t) {flag : IpcFlag} {e : Err}
    (hs : (k.setError t e).suspendFor w t flag time = some k') : k'.Timed :=
  (h.setError t e).suspendFor (by rw [setError_stat]; exact ho t hc) hs

theorem Timed.semTake (ho : k.Open) {x x' : Semaphore} {r : Outcome}
    (hs : RtThread.semTake k w x time = some (k', x', r)) : k'.Timed := by
  unfold RtThread.semTake at hs
  split_ifs at hs
  · cases hs; exact h
  · cases hs; exact h
  · cases hc : k.current with
    | none => simp [hc] at hs
    | some t =>
      simp only [hc] at hs
      obtain ⟨j, hj, he⟩ := map_eq_some_iff.mp hs
      cases he
      exact h.suspend_self ho hc hj

theorem Timed.wake (w : W) : (k.ipcListResume w).schedule.Timed := (h.ipcListResume w).schedule

theorem Timed.wakeAll (w : W) : (k.ipcListResumeAll w).schedule.Timed := (h.ipcListResumeAll w).schedule

theorem Timed.semRelease (x : Semaphore) : (RtThread.semRelease k w x).1.Timed := by
  unfold RtThread.semRelease
  split
  · exact h.wake w
  · exact h

theorem Timed.semControl (x : Semaphore) (cmd : SemCtrl) : (RtThread.semControl k w x cmd).1.Timed := by
  cases cmd with
  | reset value => exact h.wakeAll w
  | other => exact h

theorem Timed.mutexTake (ho : k.Open) {x x' : Mutex T} {r : Outcome}
    (hs : RtThread.mutexTake k w x time = some (k', x', r)) : k'.Timed := by
  unfold RtThread.mutexTake at hs
  cases hc : k.current with
  | none =>
    simp only [hc] at hs
    cases hs
    exact h
  | some t =>
    simp only [hc] at hs
    have he := h.setError t .eok
    split_ifs at hs with hown hfree hzero
    · cases hs; exact he
    · cases hs; exact he
    · cases hs; exact he.setError t _
    · cases hx : x.owner with
      | none => simp [hx] at hs
      | some o =>
        simp only [hx] at hs
        obtain ⟨j, hj, heq⟩ := map_eq_some_iff.mp hs
        cases heq
        split_ifs at hj with hboost
        · refine (he.threadChangePriority o _).suspendFor ?_ hj
          have ht := ho t hc
          rw [threadChangePriority_thread, Function.update_apply]
          split_ifs with hto
          · rw [← hto, setError_stat]
            exact ht
          · rw [setError_stat]
            exact ht
        · exact h.suspend_self ho hc hj

theorem Timed.mutexRelease (x : Mutex T) : (RtThread.mutexRelease k w x).1.Timed := by
  unfold RtThread.mutexRelease
  cases hc : k.current with
  | none => exact h
  | some t =>
    dsimp only
    split_ifs with hown hlast hprio
    · exact h.setError t _
    · split
      · exact (h.threadChangePriority t x.originalPriority).wake w
      · exact h.threadChangePriority t x.originalPriority
    · split
      · exact h.wake w
      · exact h
    · exact h

theorem Timed.eventRecv (ho : k.Open) {x x' : Event} {set : BitVec 32} {option : BitVec 8} {r : Outcome}
    {v : Option (BitVec 32)} (hs : RtThread.eventRecv k w x set option timeout = some (k', x', r, v)) :
    k'.Timed := by
  unfold RtThread.eventRecv at hs
  cases hc : k.current with
  | none => simp [hc] at hs
  | some t =>
    simp only [hc] at hs
    have he := h.setError t .eok
    by_cases hset : set = 0
    · rw [if_pos hset] at hs
      cases hs
      exact h
    · rw [if_neg hset] at hs
      split at hs
      · cases hs
      · cases hs
        exact he
      · by_cases hzero : timeout = 0
        · rw [if_pos hzero] at hs
          cases hs
          exact he.setError t _
        · rw [if_neg hzero] at hs
          obtain ⟨j, hj, heq⟩ := map_eq_some_iff.mp hs
          cases heq
          refine (he.setThread t (f := fun th => { th with eventSet := set, eventInfo := option }) rfl rfl).suspendFor
            ?_ hj
          rw [setThread_self, setError_stat]
          exact ho t hc

theorem Timed.eventSendTurn (t : T) (set : BitVec 32) (need : Bool) :
    (RtThread.eventSendTurn t (k, set, need)).1.Timed := by
  have hst : (eventSendStatus k t set).1.Timed := by
    unfold eventSendStatus
    split_ifs
    · exact h
    · exact h
    · exact h.setThread t (f := fun th => { th with eventSet := th.eventSet &&& set }) rfl rfl
    · exact h
    · exact h
  simp only [RtThread.eventSendTurn]
  split_ifs
  · exact hst.threadResume t
  · exact hst.threadResume t
  · exact hst

theorem Timed.eventSendLoop (l : List T) (set : BitVec 32) (need : Bool) :
    (RtThread.eventSendLoop l (k, set, need)).1.Timed := by
  induction l generalizing k set need with
  | nil => exact h
  | cons t l ih => exact ih (h.eventSendTurn t set need) _ _

theorem Timed.eventSend (x : Event) (set : BitVec 32) : (RtThread.eventSend k w x set).1.Timed := by
  unfold RtThread.eventSend
  split_ifs with hset
  · exact h
  · have hloop := h.eventSendLoop (k.lists (.wait w)) (x.set ||| set) false
    dsimp only
    split_ifs
    · exact hloop.schedule
    · exact hloop

theorem Timed.eventControl (x : Event) (cmd : EventCtrl) : (RtThread.eventControl k w x cmd).1.Timed := by
  cases cmd with
  | reset => exact h.wakeAll w
  | other => exact h

theorem Timed.waitOn (ho : timeout ≠ 0 → k.Open) {flag : IpcFlag} {errno : Err}
    {r : Option (BitVec 32 × BitVec 32)} (hs : k.waitOn w flag errno timeout = some (k', r)) : k'.Timed := by
  obtain ⟨t, hc, hturn⟩ := waitOn_turn hs
  cases hturn with
  | refused _ => exact h.setError t _
  | parked hne hj => exact h.suspend_self (ho hne) hc hj

theorem Timed.resumeFirst (w : W) : (k.resumeFirst w).Timed := by
  unfold Kernel.resumeFirst
  split
  · exact h
  · exact h.wake w

theorem Timed.mbLoop (ho : timeout ≠ 0 → k.Open) {x x' : Mailbox}
    (hs : RtThread.mbLoop k op x timeout = some (k', x', r)) : k'.Timed := by
  cases mbLoop_turn hs with
  | waits _ hj => exact h.waitOn ho hj
  | done _ => exact h.resumeFirst op.wake

theorem Timed.mbCall (ho : timeout ≠ 0 → k.Open) {x x' : Mailbox}
    (hs : RtThread.mbCall k op x timeout = some (k', x', r)) : k'.Timed := by
  unfold RtThread.mbCall at hs
  split_ifs at hs
  · cases hs; exact h
  · exact h.mbLoop ho hs

theorem Timed.mbResume (ho : k.Open) {x x' : Mailbox} {tickDelta : BitVec 32}
    (hs : RtThread.mbResume k op t x timeout tickDelta = some (k', x', r)) : k'.Timed := by
  unfold RtThread.mbResume at hs
  split_ifs at hs
  · cases hs; exact h
  · exact h.mbLoop (fun _ => ho) hs

theorem Timed.mbControl {recv send : W} (x : Mailbox) (cmd : MbCtrl) :
    (RtThread.mbControl k recv send x cmd).1.Timed := by
  cases cmd with
  | reset => exact (h.ipcListResumeAll recv).wakeAll send
  | other => exact h

theorem Timed.mqRecvLoop (ho : k.Open) {size : ℕ} {r : MqOutcome}
    (hs : RtThread.mqRecvLoop k w x size timeout = some (k', x', r)) : k'.Timed := by
  cases mqRecvLoop_turn hs with
  | refused hj | waits hj => exact h.waitOn (fun _ => ho) hj
  | takes _ _ => exact h

theorem Timed.mqRecv (ho : k.Open) {size : ℕ} {r : MqOutcome}
    (hs : RtThread.mqRecv k w x size timeout = some (k', x', r)) : k'.Timed := by
  unfold RtThread.mqRecv at hs
  split_ifs at hs
  · cases hs; exact h
  · exact h.mqRecvLoop ho hs

theorem Timed.mqProceed (ho : k.Open) {p : MqPc} {r : MqOutcome}
    (hs : RtThread.mqProceed k w (some t) x p = some (k', x', r)) : k'.Timed := by
  cases p with
  | filling urgent msg buffer => cases hs; exact h
  | linking urgent msg buffer => cases hs; exact h.resumeFirst w
  | waiting size timeout tickDelta =>
    simp only [RtThread.mqProceed, bind_some, RtThread.mqRecvResume] at hs
    split_ifs at hs
    · cases hs; exact h
    · exact h.mqRecvLoop ho hs
  | copying msg size value | freeing msg value => cases hs; exact h

theorem Timed.mqControl (x : MessageQueue) (cmd : MqCtrl) : (RtThread.mqControl k w x cmd).1.Timed := by
  cases cmd with
  | reset => exact h.wakeAll w
  | other => exact h

end Kernel

section

variable {k k' : IpcKernel T O} {o : O} {x x' : IpcObject T} {t : T} {p : Option IpcPc} (h : k.Timed)

include h

theorem Kernel.Timed.ipcCall (ho : k.Open) {c : IpcCall} (hs : RtThread.ipcCall k o x c = some (k', x', p)) :
    k'.Timed := by
  unfold RtThread.ipcCall at hs
  split at hs
  · obtain ⟨⟨j, y, r⟩, hj, he⟩ := map_eq_some_iff.mp hs
    cases he
    exact h.semTake ho hj
  · obtain ⟨⟨j, y, r⟩, hj, he⟩ := map_eq_some_iff.mp hs
    cases he
    exact h.mutexTake ho hj
  · cases hs
    exact h.mutexRelease _
  · obtain ⟨⟨j, y, r, v⟩, hj, he⟩ := map_eq_some_iff.mp hs
    cases he
    exact h.eventRecv ho hj
  · obtain ⟨⟨j, y, r⟩, hj, he⟩ := map_eq_some_iff.mp hs
    cases he
    exact h.mbCall (fun _ => ho) hj
  · obtain ⟨⟨j, y, r⟩, hj, he⟩ := map_eq_some_iff.mp hs
    cases he
    exact h.mbCall (fun _ => ho) hj
  · cases hs
    exact h
  · cases hs
    exact h
  · obtain ⟨⟨j, y, r⟩, hj, he⟩ := map_eq_some_iff.mp hs
    cases he
    exact h.mqRecv ho hj
  · cases hs

theorem Kernel.Timed.ipcPost {c : IpcPost} (hs : RtThread.ipcPost k o x c = some (k', x')) : k'.Timed := by
  unfold RtThread.ipcPost at hs
  split at hs
  · cases hs
    exact h.semRelease _
  · cases hs
    exact h.semControl _ _
  · cases hs
    exact h.eventSend _ _
  · cases hs
    exact h.eventControl _ _
  · obtain ⟨⟨j, y, r⟩, hj, he⟩ := map_eq_some_iff.mp hs
    cases he
    exact h.mbCall (fun hne => absurd rfl hne) hj
  · cases hs
    exact h.mbControl _ _
  · cases hs
    exact h.mqControl _ _
  · cases hs

theorem Kernel.Timed.ipcProceed (ho : k.Open) {q : IpcPc}
    (hs : RtThread.ipcProceed k t o x q = some (k', x', p)) : k'.Timed := by
  unfold RtThread.ipcProceed at hs
  split at hs
  · cases hs
    exact h
  · obtain ⟨⟨j, y, r⟩, hj, he⟩ := map_eq_some_iff.mp hs
    cases he
    exact h.mbResume ho hj
  · obtain ⟨⟨j, y, r⟩, hj, he⟩ := map_eq_some_iff.mp hs
    cases he
    exact h.mbResume ho hj
  · obtain ⟨⟨j, y, r⟩, hj, he⟩ := map_eq_some_iff.mp hs
    cases he
    exact h.mqProceed ho hj
  · cases hs

end

/-- The node of the thread is in no list. -/
def Kernel.Unlinked (k : IpcKernel T O) (t : T) : Prop :=
  (∀ p < priorityMax, t ∉ k.lists (.ready p)) ∧
  (∀ o, t ∉ k.lists (.wait (o, .suspendThread)) ∧ t ∉ k.lists (.wait (o, .suspendSenderThread))) ∧
  t ∉ k.lists .defunct

instance [Fintype O] (k : IpcKernel T O) (t : T) : Decidable (k.Unlinked t) := instDecidableAnd

/-- The thread of the call is as the call has left it. -/
def ThreadPc.Undisturbed (k : IpcKernel T O) : ThreadPc T → Prop
  | .inserting t => (k.thread t).timer.linked = false ∧ k.Unlinked t
  | .closing t _ => (k.thread t).timer.linked = false
  | .burying t => k.Unlinked t
  | _ => True

instance [Fintype O] (k : IpcKernel T O) : (p : ThreadPc T) → Decidable (p.Undisturbed k)
  | .inserting _ => instDecidableAnd
  | .closing _ _ => decEq _ _
  | .burying t => inferInstanceAs (Decidable (k.Unlinked t))
  | .starting _ | .started _ | .suspending _ | .resuming _ | .removing _ _ | .detaching _ _ => .isTrue trivial

theorem Kernel.Timed.goOn {k : IpcKernel T O} (h : k.Timed) {p : ThreadPc T} (hp : p.Undisturbed k) :
    (k.goOn p).1.Timed := by
  cases p with
  | starting t => exact h.update (setThread_thread ..) (fun hl => ⟨(h t hl).1, rfl⟩)
  | started t => exact h
  | suspending t =>
    refine h.update_unlinked (t := t) (x := { k.thread t with stat := .suspend, timer := stopped (k.thread t).timer })
      ?_ (stopped_linked h t)
    simp [Kernel.goOn, setThread_thread]
  | resuming t => exact h.update_unlinked (timerStop_thread ..) (stopped_linked h t)
  | inserting t => exact h.update_unlinked (scheduleInsertThread_thread ..) hp.1
  | removing t always => exact h.of_thread (scheduleRemoveThread_thread ..)
  | detaching t always => exact h.update_unlinked (setThread_thread ..) rfl
  | closing t always => exact h.update_unlinked (setThread_thread ..) hp
  | burying t => exact h

structure ThreadSystem (T O C : Type) extends IpcSystem T O where
  doing : C → Option (ThreadPc T)

inductive ThreadEvent (T O C : Type)
  | dispatch (t : T)
  | schedulerStart
  | schedule
  | enterCritical
  | exitCritical
  | yield
  | sleep (tick : BitVec 32)
  | sleepReturn (t : T)
  | changePriority (t : T) (priority : ℕ)
  | exit
  | begin (c : C) (call : ThreadCall T)
  | goOn (c : C)
  | call (o : O) (c : IpcCall)
  | post (o : O) (c : IpcPost)
  | proceed
  | timeout (t : T)
  | tick

namespace ThreadSystem

variable {C : Type}

def put (s : ThreadSystem T O C) (k : IpcKernel T O) : ThreadSystem T O C := { s with kernel := k }

variable {s s' : ThreadSystem T O C}

section

omit [DecidableEq O] [DecidableEq T]

theorem put_kernel (s : ThreadSystem T O C) (k : IpcKernel T O) : (s.put k).kernel = k := rfl

structure Initial (s : ThreadSystem T O C) : Prop where
  booted : Booted s.kernel
  doing : ∀ c, s.doing c = none
  pc : ∀ t, s.pc t = none

theorem timed_of_initial (h : s.Initial) : s.kernel.Timed := by
  intro t hl
  rw [(h.booted.thread t).2.2.2] at hl
  cases hl

end

def step [DecidableEq C] (s : ThreadSystem T O C) : ThreadEvent T O C → Option (ThreadSystem T O C)
  | .dispatch t => if (s.kernel.thread t).stat = .ready then some (s.put (s.kernel.dispatch t)) else none
  | .schedulerStart => some (s.put s.kernel.systemSchedulerStart)
  | .schedule => some (s.put s.kernel.schedule)
  | .enterCritical => some (s.put s.kernel.enterCritical)
  | .exitCritical => some (s.put s.kernel.exitCritical)
  | .yield => s.kernel.threadYield.map (fun r => s.put r.1)
  | .sleep tick => (s.kernel.threadSleep tick).map s.put
  | .sleepReturn t => some (s.put (s.kernel.threadSleepReturn t).1)
  | .changePriority t priority =>
    if priority < priorityMax then some (s.put (s.kernel.threadChangePriority t priority)) else none
  | .exit => s.kernel.threadExit.map s.put
  | .begin c call =>
    if s.doing c = none then
      (s.kernel.enter call).map (fun p => { s with doing := Function.update s.doing c p })
    else none
  | .goOn c =>
    (s.doing c).map (fun p =>
      { s.put (s.kernel.goOn p).1 with doing := Function.update s.doing c (s.kernel.goOn p).2 })
  | .call o c =>
    match s.kernel.current with
    | none => none
    | some t =>
      if s.pc t = none ∧ c.Valid then
        (ipcCall s.kernel o (s.object o) c).map (fun r => { s with toIpcSystem := s.after t o r })
      else none
  | .post o c =>
    (ipcPost s.kernel o (s.object o) c).map
      (fun (k, x) => { s.put k with object := Function.update s.object o x })
  | .proceed =>
    match s.kernel.current with
    | none => none
    | some t =>
      match s.pc t with
      | none => none
      | some (o, p) =>
        (ipcProceed s.kernel t o (s.object o) p).map (fun r => { s with toIpcSystem := s.after t o r })
  | .timeout t => (s.kernel.timerExpire t).map s.put
  | .tick => some (s.put { s.kernel with tick := s.kernel.tick + 1 })

/-- Only ready threads sleep or wait, and what a call does to a thread is not disturbed. -/
def Safe (s : ThreadSystem T O C) : ThreadEvent T O C → Prop
  | .sleep _ | .call _ _ | .proceed => s.kernel.Open
  | .goOn c => ∀ p ∈ s.doing c, p.Undisturbed s.kernel
  | _ => True

instance [Fintype O] (s : ThreadSystem T O C) : (e : ThreadEvent T O C) → Decidable (s.Safe e)
  | .sleep _ | .call _ _ | .proceed => inferInstanceAs (Decidable s.kernel.Open)
  | .goOn _ => Option.decidableForallMem _
  | .dispatch _ | .schedulerStart | .schedule | .enterCritical | .exitCritical | .yield | .sleepReturn _
  | .changePriority _ _ | .exit | .begin _ _ | .post _ _ | .timeout _ | .tick => .isTrue trivial

def TimeoutsHold (s : ThreadSystem T O C) : Prop :=
  ∀ t, (s.kernel.thread t).timer.linked = true →
    (s.kernel.thread t).stat = .suspend ∧ (s.kernel.timerExpire t).isSome

theorem timed_step [DecidableEq C] {e : ThreadEvent T O C} (h : s.kernel.Timed) (hc : s.Safe e)
    (hs : s.step e = some s') :
    s'.kernel.Timed := by
  unfold step at hs
  split at hs
  · split_ifs at hs
    cases hs
    exact h
  · cases hs
    exact h.systemSchedulerStart
  · cases hs
    exact h.schedule
  · cases hs
    exact h
  · obtain rfl := Option.some.inj hs
    rw [put_kernel]
    exact h.exitCritical
  · obtain ⟨r, hr, rfl⟩ := map_eq_some_iff.mp hs
    exact h.threadYield hr
  · obtain ⟨k, hk, rfl⟩ := map_eq_some_iff.mp hs
    exact h.threadSleep hc hk
  · cases hs
    exact h.threadSleepReturn _
  · split_ifs at hs
    cases hs
    exact h.threadChangePriority _ _
  · obtain ⟨k, hk, rfl⟩ := map_eq_some_iff.mp hs
    exact h.threadExit hk
  · split_ifs at hs
    obtain ⟨p, -, rfl⟩ := map_eq_some_iff.mp hs
    exact h
  · obtain ⟨p, hp, rfl⟩ := map_eq_some_iff.mp hs
    exact h.goOn (hc p hp)
  · split at hs
    · cases hs
    · split_ifs at hs
      obtain ⟨⟨k, x, p⟩, hk, rfl⟩ := map_eq_some_iff.mp hs
      exact h.ipcCall hc hk
  · obtain ⟨⟨k, x⟩, hk, rfl⟩ := map_eq_some_iff.mp hs
    exact h.ipcPost hk
  · split at hs
    · cases hs
    · split at hs
      · cases hs
      · obtain ⟨⟨k, x, p⟩, hk, rfl⟩ := map_eq_some_iff.mp hs
        exact h.ipcProceed hc hk
  · obtain ⟨k, hk, rfl⟩ := map_eq_some_iff.mp hs
    exact h.timerExpire hk
  · cases hs
    exact h

theorem timeoutsHold_of_timed (h : s.kernel.Timed) : s.TimeoutsHold := by
  intro t hl
  have hs := (h t hl).2
  refine ⟨hs, ?_⟩
  simp [timerExpire, hl, threadTimeout, timerDetach, hs]

theorem thread_timeout_assertion [DecidableEq C] (h : Reachable step Safe Initial s) : s.TimeoutsHold :=
  timeoutsHold_of_timed (h.invariant (fun _ hi => timed_of_initial hi) (fun _ _ _ hk hc hs => timed_step hk hc hs))

def idleSystem : ThreadSystem Tid Unit Bool where
  kernel := initKernel Tid.priority
  object _ := .semaphore (semInit 0 .fifo)
  pc _ := none
  doing _ := none

theorem idleSystem_initial : idleSystem.Initial := ⟨initKernel_booted (by decide), fun _ => rfl, fun _ => rfl⟩

def whole (c : Bool) (call : ThreadCall Tid) (n : ℕ) : List (ThreadEvent Tid Unit Bool) :=
  .begin c call :: .replicate n (.goOn c)

def starting : List (ThreadEvent Tid Unit Bool) :=
  whole false (.startup .mid) 4 ++ whole false (.startup .low) 4 ++ [.schedulerStart]

-- an interrupt comes between the sections of each of the calls
theorem thread_timeout_assertion_waiting : ∃ s, run step idleSystem (starting ++
    [.call () (.semTake 5), .sleep 3, .tick, .timeout .low, .begin false (.resume .mid), .goOn false, .tick,
      .goOn false, .dispatch .mid, .proceed, .call () (.semTake 9), .begin false (.delete .mid), .goOn false, .tick,
      .goOn false, .post () .semRelease, .goOn false, .goOn false, .dispatch .low, .sleep 7]) = some s ∧
    (s.kernel.thread .low).timer.linked = true ∧ s.TimeoutsHold := by
  refine exists_some_and (by decide +kernel) (fun s hs _ => ?_)
  exact thread_timeout_assertion (.of_run (.start idleSystem_initial) (by decide +kernel) hs)

def sleepsClosed : List (ThreadEvent Tid Unit Bool) := starting ++ whole false (.delete .mid) 4 ++ [.sleep 10]

def resumedTwice : List (ThreadEvent Tid Unit Bool) :=
  starting ++ whole false (.suspend .mid) 1 ++ [.schedule, .begin false (.resume .mid), .goOn false] ++
    whole true (.resume .mid) 2 ++ [.dispatch .mid, .sleep 10, .goOn false]

def resumedClosing : List (ThreadEvent Tid Unit Bool) :=
  starting ++ whole false (.suspend .mid) 1 ++ [.schedule, .begin false (.delete .mid), .goOn false, .goOn false] ++
    whole true (.resume .mid) 2 ++ [.dispatch .mid, .sleep 10, .goOn false]

theorem thread_timeout_asserts : idleSystem.Initial ∧ ∀ events ∈ [sleepsClosed, resumedTwice, resumedClosing],
    ∃ s, run step idleSystem events = some s ∧ (s.kernel.thread .mid).timer.linked = true ∧
      (s.kernel.thread .mid).stat ≠ .suspend ∧ s.kernel.timerExpire .mid = none := by
  refine ⟨idleSystem_initial, fun events he => ?_⟩
  have hrun : ∀ events ∈ [sleepsClosed, resumedTwice, resumedClosing],
      (run step idleSystem events).map (fun s => ((s.kernel.thread .mid).timer.linked,
        decide ((s.kernel.thread .mid).stat ≠ .suspend), (s.kernel.timerExpire .mid).isNone)) =
      some (true, true, true) := by decide
  obtain ⟨s, hs, ho⟩ := map_eq_some_iff.mp (hrun events he)
  simp only [Prod.mk.injEq, isNone_iff_eq_none, decide_eq_true_eq] at ho
  exact ⟨s, hs, ho⟩

end ThreadSystem

end RtThread
