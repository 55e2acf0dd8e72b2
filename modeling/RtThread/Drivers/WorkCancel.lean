import RtThread.Drivers.WorkQueue
import RtThread.Ipc.Semaphore

namespace RtThread

open Transition Function Option Kernel

variable {T W Work : Type} [DecidableEq T] [DecidableEq W] [DecidableEq Work]

structure CancelSystem (T W Work : Type) where
  kernel : Kernel T W
  queue : WorkQueue Work
  sem : Semaphore

def workCompletionLoop (w : W) : ℕ → Kernel T W → Semaphore → Option (Kernel T W × Semaphore × Err)
  | 0, _, _ => none
  | n + 1, k, sem =>
    match semTrytake k w sem with
    | some (k, sem, .returned .etimeout) =>
      match semRelease k w sem with
      | (k, sem, _) => workCompletionLoop w n k sem
    | some (k, sem, .returned .eok) => some (k, sem, .eok)
    | some (k, sem, _) => some (k, sem, .error)
    | none => none

/-- `fuel` bounds the turns of the loop. -/
def workqueueWorkCompletion (w : W) (fuel : ℕ) (k : Kernel T W) (sem : Semaphore) :
    Option (Kernel T W × Semaphore × Err) :=
  (workCompletionLoop w fuel k.enterCritical sem).map (fun (k, sem, e) => (k.exitCritical, sem, e))

/-- Whatever else the threads do is a `change`: only the calls of `workqueue.c` touch the semaphore. -/
inductive CancelStep (T W Work : Type)
  | cancelWorkSync (t : T) (work : Work)
  | completion
  | change (kernel : Kernel T W) (queue : WorkQueue Work)

namespace CancelSystem

def cancelWorkSync (w : W) (s : CancelSystem T W Work) (t : T) (work : Work) : Option (CancelSystem T W Work) :=
  if s.queue.workCurrent = some work then
    (semTake (s.kernel.dispatch t) w s.sem waitingForever).map (fun (kernel, sem, _) => { s with kernel, sem })
  else some { s with queue := { s.queue with workList := s.queue.workList.erase work } }

def step (w : W) (s : CancelSystem T W Work) : CancelStep T W Work → Option (CancelSystem T W Work)
  | .cancelWorkSync t work => if (s.kernel.thread t).stat = .ready then s.cancelWorkSync w t work else none
  | .completion =>
    (workqueueWorkCompletion w ((s.kernel.view.waiting w).length + 2) s.kernel s.sem).map
      (fun (kernel, sem, _) => { s with kernel, sem })
  | .change kernel queue => some { s with kernel, queue }

def Allowed (_ : CancelSystem T W Work) : CancelStep T W Work → Prop
  | .change kernel _ => kernel.Wf
  | _ => True

/-- As `rt_workqueue_create` leaves it. -/
structure Initial (w : W) (s : CancelSystem T W Work) : Prop where
  wf : s.kernel.Wf
  sem : s.sem = semInit 0 .fifo
  waiting : s.kernel.view.waiting w = []

structure Inv (s : CancelSystem T W Work) : Prop where
  wf : s.kernel.Wf
  value : s.sem.value = 0

variable {w : W} {k : Kernel T W} {x : Semaphore} {s s' : CancelSystem T W Work}

theorem completion_eq (hk : k.Wf) (hv : x.value = 0) (n : ℕ) :
    ∃ k', workqueueWorkCompletion w ((k.view.waiting w).length + (n + 2)) k x = some (k', x, .eok) ∧ k'.Wf ∧
      k'.view = k.view.released w := by
  obtain ⟨value, flag⟩ := x
  obtain rfl : value = 0 := hv
  have hturn : ∀ n (k : Kernel T W), workCompletionLoop w (n + 1) k ⟨0, flag⟩ =
      workCompletionLoop w n (semRelease k w ⟨0, flag⟩).1 (semRelease k w ⟨0, flag⟩).2.1 := by
    intro n k
    rw [workCompletionLoop]
    simp [semTrytake_eq]
  have hwf : k.enterCritical.Wf := hk.congr rfl rfl rfl
  obtain ⟨j, hrun, hj, -, hview⟩ := hwf.releaseAll (P := fun _ => True) hturn
    (fun _ _ => trivial) trivial rfl (n + 2)
  have hnil : j.lists (.wait w) = [] := by
    change j.view.waiting w = []
    rw [hview]
    exact update_self ..
  -- the last release finds no waiter, so that the next turn takes back what it put
  have hlast : workCompletionLoop w (n + 2) j ⟨0, flag⟩ = some (j, ⟨0, flag⟩, .eok) := by
    rw [hturn]
    simp [semRelease, hnil, workCompletionLoop, semTrytake_eq]
  refine ⟨j.exitCritical, ?_, hj.exitCritical, (exitCritical_view j).trans hview⟩
  rw [workqueueWorkCompletion, show (k.view.waiting w).length = (k.enterCritical.view.waiting w).length from rfl,
    hrun, hlast]
  rfl

theorem Inv.step (h : s.Inv) {a : CancelStep T W Work} (ha : s.Allowed a) (hs : s.step w a = some s') : s'.Inv := by
  cases a with
  | cancelWorkSync t work =>
    obtain ⟨hready, hs⟩ := ite_none_right_eq_some.mp hs
    unfold cancelWorkSync at hs
    split at hs
    · obtain ⟨⟨k', x', r⟩, htake, rfl⟩ := map_eq_some_iff.mp hs
      obtain ⟨hwf, heff⟩ := h.wf.semTake hready htake
      refine ⟨hwf, ?_⟩
      cases heff with
      | taken hv _ => exact absurd hv (by simp [h.value])
      | refused _ _ | blocked _ _ => exact h.value
    · cases hs
      exact ⟨h.wf, h.value⟩
  | completion =>
    obtain ⟨k', hcall, hwf, -⟩ := completion_eq (w := w) h.wf h.value 0
    obtain ⟨r, hr, rfl⟩ := map_eq_some_iff.mp hs
    cases hcall.symm.trans hr
    exact ⟨hwf, h.value⟩
  | change kernel queue =>
    cases hs
    exact ⟨ha, h.value⟩

theorem work_completion_wakes (h : Reachable (step w) Allowed (Initial w) s) {fuel : ℕ}
    (hfuel : (s.kernel.view.waiting w).length + 2 ≤ fuel) :
    ∃ k' x', workqueueWorkCompletion w fuel s.kernel s.sem = some (k', x', .eok) ∧
      (∀ t ∈ s.kernel.view.waiting w, k'.view.stat t = .ready) ∧ x'.value = 0 ∧ k'.view.waiting w = [] := by
  have hinv : s.Inv := h.invariant (fun _ hi => ⟨hi.wf, by rw [hi.sem]; rfl⟩) (fun _ _ _ hi ha hs => hi.step ha hs)
  obtain ⟨n, rfl⟩ := Nat.exists_eq_add_of_le hfuel
  obtain ⟨k', hcall, -, hview⟩ := completion_eq (w := w) hinv.wf hinv.value n
  refine ⟨k', s.sem, ?_, fun t ht => ?_, hinv.value, ?_⟩
  · rw [← hcall]
    congr 1
    omega
  · rw [hview]
    exact if_pos ht
  · rw [hview]
    exact update_self ..

def busyQueue : CancelSystem Tid Unit Unit where
  kernel := workKernel
  queue := ⟨[], some ()⟩
  sem := semInit 0 .fifo

theorem work_completion_wakes_both : ∃ s, run (step ()) busyQueue
    [.cancelWorkSync .mid (), .cancelWorkSync .low ()] = some s ∧
    s.kernel.view.waiting () = [.mid, .low] ∧ ∃ k' x', workqueueWorkCompletion
    () 4 s.kernel s.sem = some (k', x', .eok) ∧
      (∀ t ∈ s.kernel.view.waiting (), k'.view.stat t = .ready) ∧ x'.value = 0 ∧ k'.view.waiting () = [] := by
  have hwf : workKernel.Wf := bootKernel_wf (by decide) _
  refine exists_some_and (by decide +kernel) (fun s hs hw => work_completion_wakes (.of_run (.start ?_) ?_ hs) ?_)
  · exact ⟨hwf, rfl, by decide +kernel⟩
  · exact fun _ _ => ⟨trivial, fun _ _ => ⟨trivial, trivial⟩⟩
  · rw [hw]
    decide

end CancelSystem

end RtThread
