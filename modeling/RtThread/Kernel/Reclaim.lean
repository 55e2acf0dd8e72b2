import RtThread.Kernel.ThreadTimer

namespace RtThread

open Transition Function Option

variable {T W : Type} [DecidableEq T] [DecidableEq W]

namespace Kernel

def DefunctClosed (k : Kernel T W) : Prop := ∀ t ∈ k.lists .defunct, (k.thread t).stat = .close

structure Spares (k k' : Kernel T W) : Prop where
  defunct : k'.lists .defunct = k.lists .defunct
  closed : ∀ t, (k'.thread t).stat = .close ↔ (k.thread t).stat = .close
  cleanup : ∀ t, (k'.thread t).cleanup = (k.thread t).cleanup
  isSystemObject : ∀ t, (k'.thread t).isSystemObject = (k.thread t).isSystemObject

variable {k j k' : Kernel T W} {t : T}

section

omit [DecidableEq T] [DecidableEq W]

theorem Spares.refl (k : Kernel T W) : Spares k k := ⟨rfl, fun _ => Iff.rfl, fun _ => rfl, fun _ => rfl⟩

theorem Spares.trans (h : Spares k j) (h' : Spares j k') : Spares k k' :=
  ⟨h'.defunct.trans h.defunct, fun t => (h'.closed t).trans (h.closed t), fun t => (h'.cleanup t).trans (h.cleanup t),
    fun t => (h'.isSystemObject t).trans (h.isSystemObject t)⟩

theorem Spares.defunctClosed (h : Spares k k') (hk : k.DefunctClosed) : k'.DefunctClosed :=
  fun t ht => (h.closed t).mpr (hk t (h.defunct ▸ ht))

theorem spares_of_eq (ht : k'.thread = k.thread) (hl : k'.lists = k.lists) : Spares k k' :=
  ⟨by rw [hl], fun _ => by rw [ht], fun _ => by rw [ht], fun _ => by rw [ht]⟩

theorem spares_schedule (k : Kernel T W) : Spares k k.schedule := spares_of_eq k.schedule_thread k.schedule_lists

end

section

omit [DecidableEq W]

theorem spares_of_update {th : Thread} (hthread : k'.thread = update k.thread t th)
    (hd : k'.lists .defunct = k.lists .defunct) (hs : th.stat = .close ↔ (k.thread t).stat = .close)
    (hc : th.cleanup = (k.thread t).cleanup) (ho : th.isSystemObject = (k.thread t).isSystemObject) :
    Spares k k' := by
  refine ⟨hd, ?_, ?_, ?_⟩
  all_goals rw [hthread]
  · exact (forall_update_iff k.thread
      (fun u x => x.stat = .close ↔ (k.thread u).stat = .close)).mpr ⟨hs, fun _ _ => Iff.rfl⟩
  · exact (forall_update_iff k.thread (fun u x => x.cleanup = (k.thread u).cleanup)).mpr ⟨hc, fun _ _ => rfl⟩
  · exact (forall_update_iff k.thread (fun u x => x.isSystemObject = (k.thread u).isSystemObject)).mpr
      ⟨ho, fun _ _ => rfl⟩

theorem DefunctClosed.erase (h : k.DefunctClosed) (hs : (k.thread t).stat ≠ .close) :
    (k.lists .defunct).erase t = k.lists .defunct :=
  List.erase_of_not_mem (fun ht => hs (h t ht))

theorem spares_setThread (k : Kernel T W) (t : T) {f : Thread → Thread}
    (hs : (f (k.thread t)).stat = (k.thread t).stat) (hc : (f (k.thread t)).cleanup = (k.thread t).cleanup)
    (ho : (f (k.thread t)).isSystemObject = (k.thread t).isSystemObject) : Spares k (k.setThread t f) :=
  spares_of_update (k.setThread_thread t f) rfl (by rw [hs]) hc ho

theorem DefunctClosed.threadSuspend (h : k.DefunctClosed) (t : T) : Spares k (k.threadSuspend t).1 := by
  by_cases hr : (k.thread t).stat = .ready
  · refine spares_of_update (threadSuspend_thread hr) ?_ (by simp [hr]) rfl rfl
    rw [threadSuspend_lists hr, h.erase (by simp [hr])]
  · simpa [Kernel.threadSuspend, hr] using Spares.refl k

end

theorem scheduleInsertThread_defunct (k : Kernel T W) (t : T) :
    (k.scheduleInsertThread t).lists .defunct = k.lists .defunct := by
  rw [scheduleInsertThread_lists, if_neg nofun]

section

variable (h : k.DefunctClosed)

include h

theorem DefunctClosed.threadResume (t : T) : Spares k (k.threadResume t).1 := by
  by_cases hs : (k.thread t).stat = .suspend
  · refine spares_of_update (threadResume_thread hs) ?_ (by simp [hs]) rfl rfl
    rw [threadResume_suspended hs, scheduleInsertThread_defunct, timerStop_lists, listRemove_lists,
      h.erase (by simp [hs])]
  · simpa [Kernel.threadResume, hs] using Spares.refl k

theorem DefunctClosed.threadChangePriority (t : T) (p : ℕ) : Spares k (k.threadChangePriority t p) := by
  refine spares_of_update (k.threadChangePriority_thread t p) ?_ Iff.rfl rfl rfl
  unfold Kernel.threadChangePriority
  split_ifs with hr
  · rw [scheduleInsertThread_defunct, setThread_lists, scheduleRemoveThread_lists, h.erase (by simp [hr])]
  · rfl

theorem DefunctClosed.threadStartup {r : Kernel T W × Err} (hr : k.threadStartup t = some r) : Spares k r.1 := by
  refine threadStartup_induct (fun _ hj => hj.trans (spares_schedule _)) hr (fun hs => ?_)
  have hj : Spares k (k.starting t) := spares_of_update (k.starting_thread t) rfl (by simp [hs]) rfl rfl
  exact hj.trans ((hj.defunctClosed h).threadResume t)

theorem DefunctClosed.threadYield {r : Kernel T W × Err} (hr : k.threadYield = some r) : Spares k r.1 := by
  refine threadYield_induct (fun _ hj => hj.trans (spares_schedule _)) hr (Spares.refl k) (fun t hready _ => ?_)
  refine ⟨?_, fun _ => Iff.rfl, fun _ => rfl, fun _ => rfl⟩
  exact h.erase (by simp [hready])

section

omit [DecidableEq W]

theorem DefunctClosed.threadSleep {tick : BitVec 32} (hs : k.threadSleep tick = some k') : Spares k k' := by
  obtain ⟨t, -, hs⟩ := threadSleep_eq_some hs
  obtain ⟨j, hj, rfl⟩ := map_eq_some_iff.mp hs
  obtain ⟨tm, rfl⟩ := timerStart_eq_some hj
  refine (h.threadSuspend t).trans ?_
  exact ((spares_setThread _ t rfl rfl rfl).trans (spares_setThread _ t rfl rfl rfl)).trans (spares_schedule _)

theorem DefunctClosed.threadClose (hlive : (k.thread t).stat ≠ .close) :
    (k.threadClose t).lists .defunct = k.lists .defunct := by
  unfold Kernel.threadClose
  split_ifs
  · simpa [timerDetach] using h.erase hlive
  · rfl

end

theorem DefunctClosed.threadTimeout (hs : k.threadTimeout t = some k') : Spares k k' := by
  obtain ⟨hst, hthread, -⟩ := threadTimeout_eq_some hs
  refine spares_of_update hthread ?_ (by simp [hst]) rfl rfl
  rw [threadTimeout_suspended hst, Option.some.injEq] at hs
  rw [← hs, schedule_lists, scheduleInsertThread_defunct, listRemove_lists, setThread_lists, h.erase (by simp [hst])]

theorem DefunctClosed.ipcListSuspend (w : W) (t : T) (flag : IpcFlag) : Spares k (k.ipcListSuspend w t flag) := by
  refine (h.threadSuspend t).trans ⟨?_, fun _ => Iff.rfl, fun _ => rfl, fun _ => rfl⟩
  have hne : (Head.defunct : Head W) ≠ .wait w := nofun
  simp only [Kernel.ipcListSuspend, update_of_ne hne]

theorem DefunctClosed.ipcListResume (w : W) : Spares k (k.ipcListResume w) := by
  unfold Kernel.ipcListResume
  split
  · exact Spares.refl k
  · exact h.threadResume _

theorem DefunctClosed.resumeWithError (t : T) : Spares k (k.resumeWithError t) := by
  have he := spares_setThread k t (f := fun th => { th with error := .error }) rfl rfl rfl
  exact he.trans ((he.defunctClosed h).threadResume t)

theorem DefunctClosed.ipcListResumeAll (w : W) : Spares k (k.ipcListResumeAll w) :=
  ipcListResumeAll_induct (Spares.refl k) (fun _ t hj => hj.trans ((hj.defunctClosed h).resumeWithError t)) w

end

structure Closes (k : Kernel T W) (t : T) (queued : Bool) (k' : Kernel T W) : Prop where
  thread : k'.thread = update k.thread t
    { k.thread t with stat := .close, timer := (k.thread t).timer.unlink }
  defunct : k'.lists .defunct = if queued then t :: k.lists .defunct else k.lists .defunct

theorem DefunctClosed.threadExit (h : k.DefunctClosed) (hc : k.current = some t)
    (hlive : (k.thread t).stat ≠ .close) (hs : k.threadExit = some k') :
    Closes k t (!((k.thread t).isSystemObject && !(k.thread t).cleanup)) k' := by
  have hlists := h.erase hlive
  unfold Kernel.threadExit at hs
  simp only [hc, Option.some.injEq] at hs
  subst hs
  cases ho : (k.thread t).isSystemObject <;> cases hcl : (k.thread t).cleanup <;>
    exact ⟨by simp [timerDetach, setThread_thread, listInsertAfter, ho, hcl],
      by simp [timerDetach, listInsertAfter, ho, hcl, hlists]⟩

section

variable (h : k.DefunctClosed) (hlive : (k.thread t).stat ≠ .close)

include h hlive

theorem DefunctClosed.threadDelete : Closes k t true (k.threadDelete t).1 :=
  ⟨k.threadClose_thread t, by simp [Kernel.threadDelete, listInsertAfter, h.threadClose hlive]⟩

theorem DefunctClosed.threadDetach : Closes k t (k.thread t).cleanup (k.threadDetach t).1 := by
  have hclose := h.threadClose hlive
  cases hcl : (k.thread t).cleanup <;>
    exact ⟨by simp [Kernel.threadDetach, threadClose_thread, listInsertAfter, hcl],
      by simp [Kernel.threadDetach, threadClose_thread, listInsertAfter, hcl, hclose]⟩

end

def Continues : SchedulerCall T W → Prop
  | .kernel .exit => False
  | .kernel (.detach _) => False
  | .kernel (.delete _) => False
  | _ => True

theorem DefunctClosed.kernelStep (h : k.DefunctClosed) (c : KernelCall T W)
    (hc : Continues (SchedulerCall.kernel c)) (hs : RtThread.kernelStep k c = some k') : Spares k k' := by
  cases c with
  | startup t => obtain ⟨r, hr, rfl⟩ := map_eq_some_iff.mp hs; exact h.threadStartup hr
  | suspend t => cases hs; exact h.threadSuspend t
  | resume t => cases hs; exact h.threadResume t
  | yield => obtain ⟨r, hr, rfl⟩ := map_eq_some_iff.mp hs; exact h.threadYield hr
  | sleep tick => exact h.threadSleep hs
  | sleepReturn t =>
    cases hs
    unfold Kernel.threadSleepReturn
    dsimp only
    split_ifs
    · exact spares_setThread k t rfl rfl rfl
    · exact Spares.refl k
  | changePriority t p =>
    simp only [RtThread.kernelStep] at hs
    split_ifs at hs with hp
    cases hs
    exact h.threadChangePriority t p
  | timeout t => exact h.threadTimeout hs
  | exit | detach t | delete t => exact hc.elim
  | schedulerStart =>
    cases hs
    unfold Kernel.systemSchedulerStart
    split_ifs
    · exact spares_of_eq rfl rfl
    · exact Spares.refl k
  | ipcListSuspend w flag =>
    simp only [RtThread.kernelStep] at hs
    split at hs
    · cases hs
    · split_ifs at hs with hr
      cases hs
      exact (h.ipcListSuspend w _ flag).trans (spares_schedule _)
  | ipcListResume w => cases hs; exact h.ipcListResume w
  | ipcListResumeAll w => cases hs; exact h.ipcListResumeAll w

theorem DefunctClosed.schedulerStep (h : k.DefunctClosed) (c : SchedulerCall T W) (hc : Continues c)
    (hs : RtThread.schedulerStep k c = some k') : Spares k k' := by
  cases c with
  | kernel c => exact h.kernelStep c hc hs
  | enterCritical => cases hs; exact spares_of_eq rfl rfl
  | exitCritical =>
    obtain rfl : k.exitCritical = k' := Option.some.inj hs
    have hunlock : Spares k { k with lockNest := 0 } := spares_of_eq rfl rfl
    unfold Kernel.exitCritical
    dsimp only
    split_ifs
    · exact hunlock.trans (spares_schedule _)
    · exact spares_of_eq rfl rfl
  | schedule => cases hs; exact spares_schedule k

end Kernel

inductive ReclaimEvent (T : Type)
  | cleanup (t : T)
  | freeStack (t : T)
  | freeObject (t : T)
  deriving DecidableEq

structure ThreadObjects (T W : Type) where
  kernel : Kernel T W
  attached : T → Bool
  idle : Option T
  log : List (ReclaimEvent T)

inductive ObjectsCall (T W : Type)
  | scheduler (c : SchedulerCall T W)
  | exit
  | detach (t : T)
  | delete (t : T)
  | idle
  | free

namespace ThreadObjects

def objectDetach (s : ThreadObjects T W) (t : T) : ThreadObjects T W :=
  { s with attached := update s.attached t false }

def threadExit (s : ThreadObjects T W) : Option (ThreadObjects T W) :=
  match s.kernel.current with
  | none => none
  | some t =>
    let th := s.kernel.thread t
    let s := if th.isSystemObject ∧ ¬ th.cleanup then s.objectDetach t else s
    s.kernel.threadExit.map (fun k => { s with kernel := k })

def threadDetach (s : ThreadObjects T W) (t : T) : ThreadObjects T W :=
  { s.objectDetach t with kernel := (s.kernel.threadDetach t).1 }

def threadDelete (s : ThreadObjects T W) (t : T) : ThreadObjects T W :=
  { s with kernel := (s.kernel.threadDelete t).1 }

def idleTurn (s : ThreadObjects T W) : ThreadObjects T W :=
  match s.kernel.lists .defunct with
  | [] => s
  | t :: _ =>
    let th := s.kernel.thread t
    { s with
      kernel := s.kernel.listRemove t
      log := if th.cleanup then s.log ++ [.cleanup t] else s.log
      idle := if th.isSystemObject then none else some t }

def idleFree (s : ThreadObjects T W) (t : T) : ThreadObjects T W :=
  { s.objectDetach t with log := s.log ++ [.freeStack t, .freeObject t], idle := none }

def step (s : ThreadObjects T W) : ObjectsCall T W → Option (ThreadObjects T W)
  | .scheduler (.kernel .exit) => none
  | .scheduler (.kernel (.detach _)) => none
  | .scheduler (.kernel (.delete _)) => none
  | .scheduler c => (schedulerStep s.kernel c).map (fun k => { s with kernel := k })
  | .exit =>
    match s.kernel.current with
    | none => none
    | some t => if (s.kernel.thread t).stat ≠ .close then s.threadExit else none
  | .detach t => if (s.kernel.thread t).stat ≠ .close then some (s.threadDetach t) else none
  | .delete t => if (s.kernel.thread t).stat ≠ .close then some (s.threadDelete t) else none
  | .idle => if s.idle = none then some s.idleTurn else none
  | .free => s.idle.map s.idleFree

end ThreadObjects

end RtThread
