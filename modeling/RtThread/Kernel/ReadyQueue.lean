import Mathlib.Data.Fintype.Basic
import RtThread.Lib.Transition
import RtThread.Kernel.Calls

namespace RtThread

open Transition Option BitVec Kernel

variable {T W : Type}

inductive KernelCall (T W : Type)
  | startup (t : T)
  | suspend (t : T)
  | resume (t : T)
  | yield
  | sleep (tick : BitVec 32)
  | sleepReturn (t : T)
  | changePriority (t : T) (priority : ℕ)
  | timeout (t : T)
  | exit
  | detach (t : T)
  | delete (t : T)
  | schedulerStart
  | ipcListSuspend (w : W) (flag : IpcFlag)
  | ipcListResume (w : W)
  | ipcListResumeAll (w : W)

variable {k : Kernel T W}

structure ReadyQueueInvariant (k : Kernel T W) : Prop where
  group_iff : ∀ p < priorityMax, k.readyGroup.getLsbD p = true ↔ k.lists (.ready p) ≠ []
  linked_iff : ∀ t p, t ∈ k.lists (.ready p) ↔
    (k.thread t).stat = .ready ∧ (k.thread t).currentPriority = p
  linked_once : (∀ h, (k.lists h).Nodup) ∧
    ∀ t a b, t ∈ k.lists a → t ∈ k.lists b → a = b

theorem Kernel.Wf.readyQueue (h : k.Wf) : ReadyQueueInvariant k :=
  ⟨h.group_iff, fun t => (h.placed t).ready_iff, h.nodup, fun _ _ _ => h.unique⟩

def Booted (k : Kernel T W) : Prop :=
  ∃ thread tick, k = Kernel.systemSchedulerInit thread tick ∧
    ∀ t, ∃ memory priority isSystemObject cleanup,
      threadInit memory priority isSystemObject cleanup = some (thread t)

def freshThread (priority : ℕ) (mask : BitVec 32) : Thread where
  stat := .init
  initPriority := priority
  currentPriority := priority
  numberMask := mask
  error := .eok
  eventSet := 0
  eventInfo := 0
  timer := { linked := false, activated := false, initTick := 0, timeoutTick := 0 }
  cleanup := true
  isSystemObject := false

theorem threadInit_fresh {priority : ℕ} (h : priority < priorityMax) (mask : BitVec 32) :
    threadInit (freshThread priority mask) priority false true = some (freshThread priority mask) := by
  simp [threadInit, freshThread, h]

def initKernel (priority : T → ℕ) : Kernel T W :=
  Kernel.systemSchedulerInit (fun t => freshThread (priority t) 0) 0

theorem initKernel_booted {priority : T → ℕ} (h : ∀ t, priority t < priorityMax) :
    Booted (initKernel priority : Kernel T W) :=
  ⟨_, _, rfl, fun t => ⟨_, _, _, _, threadInit_fresh (h t) 0⟩⟩

def CleanMask (th : Thread) : Prop :=
  ∀ q, th.numberMask.getLsbD q = true → q = th.initPriority

theorem initKernel_cleanMask (priority : T → ℕ) (t : T) :
    CleanMask ((initKernel priority : Kernel T W).thread t) := by
  intro q hq
  simp [initKernel, systemSchedulerInit, freshThread] at hq

variable [DecidableEq T] [DecidableEq W]

def kernelStep (k : Kernel T W) : KernelCall T W → Option (Kernel T W)
  | .startup t => (k.threadStartup t).map Prod.fst
  | .suspend t => some (k.threadSuspend t).1
  | .resume t => some (k.threadResume t).1
  | .yield => k.threadYield.map Prod.fst
  | .sleep tick => k.threadSleep tick
  | .sleepReturn t => some (k.threadSleepReturn t).1
  | .changePriority t priority =>
    if priority < priorityMax then (k.threadControl t (.changePriority priority)).map Prod.fst else none
  | .timeout t => k.threadTimeout t
  | .exit => k.threadExit
  | .detach t => some (k.threadDetach t).1
  | .delete t => some (k.threadDelete t).1
  | .schedulerStart => some k.systemSchedulerStart
  | .ipcListSuspend w flag =>
    match k.current with
    | none => none
    | some t =>
      if (k.thread t).stat = .ready then some (k.ipcListSuspend w t flag).schedule else none
  | .ipcListResume w => some (k.ipcListResume w)
  | .ipcListResumeAll w => some (k.ipcListResumeAll w)

section

variable {k : Kernel T W} (h : Booted k)

include h

omit [DecidableEq T] [DecidableEq W]

theorem Booted.thread (t : T) : (k.thread t).stat = .init ∧ (k.thread t).initPriority < 32 ∧
      (k.thread t).currentPriority = (k.thread t).initPriority ∧ (k.thread t).timer.linked = false := by
  obtain ⟨thread, tick, rfl, hinit⟩ := h
  obtain ⟨memory, priority, isSystemObject, cleanup, ht⟩ := hinit t
  unfold threadInit at ht
  split_ifs at ht with hp
  rw [Option.some.injEq] at ht
  simp only [systemSchedulerInit, ← ht]
  exact ⟨trivial, hp, trivial, trivial⟩

theorem Booted.lists (a : Head W) : k.lists a = [] := by
  obtain ⟨thread, tick, rfl, _⟩ := h
  rfl

theorem Booted.schedState : k.schedState = (none, 0) := by
  obtain ⟨thread, tick, rfl, _⟩ := h
  rfl

theorem Booted.readyGroup : k.readyGroup = 0 := by
  obtain ⟨thread, tick, rfl, _⟩ := h
  rfl

theorem Booted.wf (hm : ∀ t, CleanMask (k.thread t)) : k.Wf := by
  refine ⟨?_, ?_, ?_⟩
  · intro p _; simp [h.lists, h.readyGroup]
  · intro a; simp [h.lists]
  · intro t
    obtain ⟨hs, hi, hc, -⟩ := h.thread t
    refine ⟨?_, ?_, ?_, ?_, ?_, hi, ?_, ?_⟩
    · intro p; simp [h.lists, hs]
    · intro w hw; simp [h.lists] at hw
    · intro w w' hw; simp [h.lists] at hw
    · intro hd; simp [h.lists] at hd
    · rw [hc]; exact hi
    · rw [hc]; exact hm t
    · simp [hs]

end

theorem Kernel.Wf.kernelStep {k' : Kernel T W} (h : k.Wf) (c : KernelCall T W)
    (hs : RtThread.kernelStep k c = some k') : k'.Wf := by
  cases c with
  | startup t => obtain ⟨r, hr, rfl⟩ := map_eq_some_iff.mp hs; exact h.threadStartup hr
  | suspend t => cases hs; exact h.threadSuspend t
  | resume t => cases hs; exact h.threadResume t
  | yield => obtain ⟨r, hr, rfl⟩ := map_eq_some_iff.mp hs; exact h.threadYield hr
  | sleep tick => exact h.threadSleep hs
  | sleepReturn t => cases hs; exact h.threadSleepReturn t
  | changePriority t p =>
    simp only [RtThread.kernelStep] at hs
    split_ifs at hs with hp
    cases hs
    exact h.threadChangePriority t hp
  | timeout t => exact h.threadTimeout hs
  | exit => exact h.threadExit hs
  | detach t => cases hs; exact h.threadDetach t
  | delete t => cases hs; exact h.threadDelete t
  | schedulerStart => cases hs; exact h.systemSchedulerStart
  | ipcListSuspend w flag =>
    simp only [RtThread.kernelStep] at hs
    split at hs
    · cases hs
    · split_ifs at hs with hr
      cases hs
      exact (h.ipcListSuspend w flag hr).schedule
  | ipcListResume w =>
    cases hs
    cases hl : k.lists (.wait w) with
    | nil => simpa [Kernel.ipcListResume, hl] using h
    | cons t l => exact (h.ipcListResume hl).1
  | ipcListResumeAll w => cases hs; exact (h.ipcListResumeAll w).1

theorem Booted.startup (h : Booted k) (u : T) :
    ∃ j, kernelStep k (.startup u) = some j ∧ (∀ t, t ≠ u → j.thread t = k.thread t) ∧
      (j.thread u).stat = .ready ∧ (∀ p, (j.lists (.ready p)).erase u = []) ∧
      j.schedState = (none, 0) := by
  have hs := (h.thread u).1
  let i := k.starting u
  have hi : (i.thread u).stat = .suspend := by simp [i, starting_thread]
  have hother : ∀ t, t ≠ u → (i.threadResume u).1.thread t = k.thread t := by
    intro t ht
    simp [threadResume_thread hi, ht, i, starting_thread]
  have hlists : ∀ p, ((i.threadResume u).1.lists (.ready p)).erase u = [] := by
    intro p
    rw [threadResume_suspended hi, scheduleInsertThread_lists]
    split_ifs <;> simp [i, starting, h.lists]
  have hready : ((i.threadResume u).1.thread u).stat = .ready := by
    simp [threadResume_thread hi]
  have hidle : (i.threadResume u).1.schedState = (none, 0) := by
    rw [threadResume_schedState]
    exact h.schedState
  refine ⟨(i.threadResume u).1, ?_, hother, hready, hlists, hidle⟩
  simp only [kernelStep, threadStartup, hs, ne_eq, not_true_eq_false, ↓reduceIte, map_some, Option.some.injEq]
  exact if_neg (show ¬ (i.threadResume u).1.current.isSome by rw [(Prod.mk.inj hidle).1]; simp)

theorem Kernel.changePriority_ready {u : T} {q : ℕ} (h : (k.thread u).stat = .ready)
    (hl : ∀ p, (k.lists (.ready p)).erase u = []) :
    (∀ t, t ≠ u → (k.threadChangePriority u q).thread t = k.thread t) ∧
      ((k.threadChangePriority u q).thread u).stat = .ready ∧
      (∀ p, (k.threadChangePriority u q).lists (.ready p) = if p = q then [u] else []) := by
  refine ⟨fun t ht => ?_, ?_, fun p => ?_⟩
  · simp [threadChangePriority_thread, ht]
  · simp [threadChangePriority_thread, h]
  · simp [threadChangePriority, h, scheduleInsertThread_lists, hl]

theorem Kernel.threadDetach_of_ne {t u : T} (h : u ≠ t) :
    (k.threadDetach t).1.thread u = k.thread u ∧ (k.threadDetach t).1.schedState = k.schedState := by
  have hclose : (k.threadClose t).thread u = k.thread u ∧ (k.threadClose t).schedState = k.schedState := by
    unfold threadClose
    split_ifs <;> simp [timerDetach, setThread_of_ne, h]
  unfold threadDetach
  dsimp only
  split_ifs
  · exact hclose
  · exact hclose

theorem Kernel.threadDetach_of_init {t : T} (h : (k.thread t).stat = .init) :
    ((k.threadDetach t).1.thread t).stat = .close ∧
      ((k.threadDetach t).1.thread t).numberMask = (k.thread t).numberMask ∧
      ((k.threadDetach t).1.thread t).currentPriority = (k.thread t).currentPriority ∧
      ∀ p, (k.threadDetach t).1.lists (.ready p) = k.lists (.ready p) := by
  by_cases hc : (k.thread t).cleanup <;>
    simp [threadDetach, threadClose, timerDetach, listInsertAfter, h, hc]

theorem Kernel.threadDetach_of_close {t : T} (h : (k.thread t).stat = .close)
    (hl : k.lists (.ready (k.thread t).currentPriority) = []) :
    (k.threadDetach t).1.readyGroup = k.readyGroup &&& ~~~(k.thread t).numberMask ∧
      ∀ p, (k.threadDetach t).1.lists (.ready p) = (k.lists (.ready p)).erase t := by
  by_cases hc : (k.thread t).cleanup <;>
    simp [threadDetach, threadClose, scheduleRemoveThread, timerDetach, listInsertAfter, h, hl, hc]

theorem Booted.strayBit (h : Booted k) {t u : T} (hu : u ≠ t) {q : ℕ}
    (hb : (k.thread t).numberMask.getLsbD q = true) (hq : q ≠ (k.thread t).initPriority) :
    ∃ k', run kernelStep k [.startup u, .changePriority u q, .detach t, .detach t] = some k' ∧
      k'.readyGroup.getLsbD q = false ∧ (∀ p, k'.lists (.ready p) = if p = q then [u] else []) ∧
      (k'.thread u).stat = .ready ∧ k'.schedState = (none, 0) := by
  obtain ⟨hs, -, hc, -⟩ := h.thread t
  have hq32 : q < priorityMax := lt_of_getLsbD hb
  obtain ⟨k1, h1, hthread1, hready1, hlists1, hidle1⟩ := h.startup u
  obtain ⟨hthread2, hready2, hlists2⟩ := changePriority_ready hready1 hlists1
  let k2 := k1.threadChangePriority u q
  have ht2 : k2.thread t = k.thread t := (hthread2 t hu.symm).trans (hthread1 t hu.symm)
  obtain ⟨hs3, hm3, hc3, hl3⟩ := threadDetach_of_init (by rw [ht2]; exact hs)
  obtain ⟨hg4, hl4⟩ := threadDetach_of_close hs3 (by rw [hl3, hc3, ht2, hc, hlists2, if_neg hq.symm])
  have hkept3 := threadDetach_of_ne (k := k2) hu
  have hkept4 := threadDetach_of_ne (k := (k2.threadDetach t).1) hu
  refine ⟨((k2.threadDetach t).1.threadDetach t).1, ?_, ?_, fun p => ?_, ?_, ?_⟩
  · simp only [run, h1, bind_some]
    simp [kernelStep, threadControl, hq32, k2]
  · rw [hg4, hm3, ht2, getLsbD_and, getLsbD_not, hb]
    simp
  · rw [hl4, hl3, hlists2]
    split_ifs
    · exact List.erase_of_not_mem (by simpa using hu.symm)
    · rfl
  · rw [hkept4.1, hkept3.1]
    exact hready2
  · rw [hkept4.2, hkept3.2, threadChangePriority_schedState, hidle1]

theorem readyQueue_invariant_iff [Nontrivial T] {k : Kernel T W} (h : Booted k) :
    (∀ k', Reachable kernelStep (fun _ _ => True) (· = k) k' → ReadyQueueInvariant k') ↔
      ∀ t, CleanMask (k.thread t) := by
  constructor
  · intro hinv t q hb
    by_contra hq
    obtain ⟨u, hu⟩ := exists_ne t
    obtain ⟨k', hrun, hlost, hlists, -⟩ := h.strayBit hu hb hq
    have hqueue := hinv k' (.of_free_run rfl hrun)
    have hbit := (hqueue.group_iff q (lt_of_getLsbD hb)).mpr (by simp [hlists])
    rw [hlost] at hbit
    cases hbit
  · intro hm k' hr
    have hwf : k'.Wf := hr.invariant (by rintro _ rfl; exact h.wf hm) (fun _ c _ hk _ hs => hk.kernelStep c hs)
    exact hwf.readyQueue

def recycledKernel : Kernel (Fin 2) Unit :=
  Kernel.systemSchedulerInit
    (fun t => if t = 0 then freshThread 5 0 else freshThread 20 (priorityMask 5)) 0

theorem recycledKernel_booted : Booted recycledKernel := by
  refine ⟨_, _, rfl, ?_⟩
  intro t
  match t with
  | 0 => exact ⟨_, _, _, _, threadInit_fresh (by decide) 0⟩
  | 1 => exact ⟨_, _, _, _, threadInit_fresh (by decide) (priorityMask 5)⟩

theorem recycledKernel_bit_lost : ¬ ∀ k', Reachable kernelStep (fun _ _ => True) (· = recycledKernel) k' →
    ReadyQueueInvariant k' := by
  intro hinv
  have hrun : (run kernelStep recycledKernel [.startup 0, .delete 1, .delete 1]).map
      (fun k => (k.readyGroup.getLsbD 5, k.lists (.ready 5))) = some (false, [0]) := by decide
  obtain ⟨k', hk, ho⟩ := map_eq_some_iff.mp hrun
  obtain ⟨hg, hl⟩ := Prod.mk.inj ho
  have hbit := ((hinv k' (.of_free_run rfl hk)).group_iff 5 (by decide)).mpr (by simp [hl])
  rw [hg] at hbit
  cases hbit

theorem readyQueue_invariant_iff_recycled : Booted recycledKernel ∧
    ((∀ k', Reachable kernelStep (fun _ _ => True) (· = recycledKernel) k' → ReadyQueueInvariant k') ↔
      ∀ t, CleanMask (recycledKernel.thread t)) :=
  ⟨recycledKernel_booted, readyQueue_invariant_iff recycledKernel_booted⟩

def bootKernel (priority : T → ℕ) (calls : List (KernelCall T W)) : Kernel T W :=
  (run kernelStep (initKernel priority) calls).getD (initKernel priority)

section

variable {priority : T → ℕ} (h : ∀ t, priority t < priorityMax)

include h

omit [DecidableEq T] [DecidableEq W] in
theorem initKernel_wf : (initKernel priority : Kernel T W).Wf :=
  (initKernel_booted h).wf (initKernel_cleanMask priority)

theorem bootKernel_wf (calls : List (KernelCall T W)) : (bootKernel priority calls).Wf := by
  unfold bootKernel
  cases hr : run kernelStep (initKernel priority) calls with
  | none => exact initKernel_wf h
  | some k => exact run_invariant (fun _ c _ hk hs => hk.kernelStep c hs) (initKernel_wf h) hr

end

inductive Tid
  | low
  | mid
  | high
  deriving DecidableEq

instance : Fintype Tid := ⟨{.low, .mid, .high}, fun t => by cases t <;> decide⟩

instance : Nontrivial Tid := ⟨.low, .mid, nofun⟩

def Tid.priority : Tid → ℕ
  | low => 20
  | mid => 10
  | high => 5

end RtThread
