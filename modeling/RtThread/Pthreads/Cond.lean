import RtThread.Ipc.ThreadTimeout
import RtThread.Pthreads.Spin
import RtThread.Wait.Sections

/-!
The mutexes and condition variables of `pthread_mutex.c` and `pthread_cond.c`, with their default attributes: a FIFO
mutex that is not recursive and a FIFO semaphore.
-/

namespace RtThread

open Function Option

variable {T W : Type} [DecidableEq T] [DecidableEq W]

def Outcome.errno : Outcome → Option Errno
  | .returned .eok => some .ok
  | .returned _ => some .einval
  | .blocked => none

def pthreadMutexInit : Mutex T := mutexInit .fifo

def pthreadMutexLock (k : Kernel T W) (w : W) (mutex : Mutex T) : Option (Kernel T W × Mutex T × Option Errno) :=
  if mutex.owner = k.current then some (k, mutex, some .edeadlk)
  else (mutexTake k w mutex waitingForever).map (fun (k, mutex, o) => (k, mutex, o.errno))

def pthreadMutexUnlock (k : Kernel T W) (w : W) (mutex : Mutex T) : Kernel T W × Mutex T × Errno :=
  if mutex.owner ≠ k.current ∧ mutex.owner = none then (k, mutex, .ok)
  else
    match mutexRelease k w mutex with
    | (k, mutex, e) => (k, mutex, if e = .eok then .ok else .einval)

def pthreadCondInit : Semaphore := semInit 0 .fifo

/-- What the `rt_memset` of `pthread_cond_destroy` leaves of the semaphore: `RT_IPC_FLAG_FIFO` is 0. -/
def condCleared : Semaphore := ⟨0, .fifo⟩

/-- So the initialization at the next use, where `attr` is -1, changes neither the value nor the flag. -/
theorem pthreadCondInit_eq : pthreadCondInit = condCleared := rfl

def pthreadCondSignal (k : Kernel T W) (w : W) (sem : Semaphore) : Kernel T W × Semaphore × Errno :=
  match semRelease k w sem with
  | (k, sem, _) => (k, sem, .ok)

def broadcastLoop (w : W) : ℕ → Kernel T W → Semaphore → Option (Kernel T W × Semaphore × Errno)
  | 0, _, _ => none
  | n + 1, k, sem =>
    match semTrytake k w sem with
    | some (k, sem, .returned .etimeout) =>
      match semRelease k w sem with
      | (k, sem, _) => broadcastLoop w n k sem
    | some (k, sem, .returned .eok) =>
      match semRelease k w sem with
      | (k, sem, _) => some (k, sem, .ok)
    | some (k, sem, _) => some (k, sem, .einval)
    | none => none

def pthreadCondBroadcast (k : Kernel T W) (w : W) (sem : Semaphore) : Option (Kernel T W × Semaphore × Errno) :=
  (broadcastLoop w ((k.lists (.wait w)).length + 2) k.enterCritical sem).map
  (fun (k, sem, e) => (k.exitCritical, sem, e))

def pthreadCondDestroy (k : Kernel T W) (w : W) (sem : Semaphore) : Option (Kernel T W × Semaphore × Errno) :=
  (semTrytake k w sem).map (fun
    | (k, _, .returned .eok) => (k, condCleared, .ok)
    | (k, sem, _) => (k, sem, .ebusy))

namespace Kernel

variable {k j k' : Kernel T W} {w : W} {t : T}

section

omit [DecidableEq T] [DecidableEq W]

theorem wakes_dispatch (k : Kernel T W) (t : T) : Wakes k (k.dispatch t) := wakes_of_thread rfl rfl

structure Calm (k : Kernel T W) : Prop where
  wf : k.Wf
  ready : ∀ t, k.view.stat t = .ready
  lists : ∀ w, k.view.waiting w = []
  timers : ∀ t, (k.thread t).timer.linked = false

theorem Calm.timed (h : k.Calm) : k.Timed := by
  intro t hl
  rw [h.timers t] at hl
  cases hl

end

variable {time : BitVec 32} {x x' : Semaphore}

theorem Timed.suspendFor_unlinked (h : k.Timed) (hr : k.view.stat t = .ready) {flag : IpcFlag}
    (hz : ¬ (0 : BitVec 32).slt time) (hs : k.suspendFor w t flag time = some k') :
    (k'.thread t).timer.linked = false := by
  unfold Kernel.suspendFor at hs
  rw [if_neg hz] at hs
  cases hs
  rw [schedule_thread, ipcListSuspend_thread w flag hr, update_self]
  exact stopped_linked h t

structure ParksCaller (k : Kernel T W) (t : T) (time : BitVec 32) (k' : Kernel T W) : Prop where
  parks : Parks k t time k'
  linked : (k'.thread t).timer.linked = true → (0 : BitVec 32).slt time

theorem Timed.parksCaller (h : j.Timed) (hw : Wakes k j) (hr : j.view.stat t = .ready) {flag : IpcFlag}
    (hs : j.suspendFor w t flag time = some k') : ParksCaller k t time k' := by
  refine ⟨hw.parks (suspendFor_parks hs), fun hl => ?_⟩
  by_contra hz
  rw [h.suspendFor_unlinked hr hz hs] at hl
  cases hl

theorem mutexTake_wakes {x x' : Mutex T} {e : Err}
    (h : RtThread.mutexTake (k.dispatch t) w x time = some (k', x', .returned e)) : Wakes k k' := by
  have hd : (k.dispatch t).current = some t := rfl
  simp only [RtThread.mutexTake, hd] at h
  have hj := (wakes_dispatch k t).trans (wakes_setError _ t .eok)
  split_ifs at h
  · cases h
    exact hj
  · cases h
    exact hj
  · cases h
    exact hj.trans (wakes_setError _ t .etimeout)
  · cases ho : x.owner with
    | none | some o => simp [ho] at h

theorem Timed.mutexTake_parks (h : k.Timed) (hk : k.Wf) {x x' : Mutex T} (hr : k.view.stat t = .ready)
    (hs : RtThread.mutexTake (k.dispatch t) w x time = some (k', x', .blocked)) : ParksCaller k t time k' := by
  have hd : (k.dispatch t).current = some t := rfl
  simp only [RtThread.mutexTake, hd] at hs
  have hw := (wakes_dispatch k t).trans (wakes_setError _ t .eok)
  have hq := Timed.setError (k := k.dispatch t) h t .eok
  have hwf := (hk.dispatch t).setError t .eok
  have hr' : ((k.dispatch t).setError t .eok).view.stat t = .ready := by
    rw [setError_view]
    exact hr
  split_ifs at hs
  · cases hs
  · cases hs
  · cases hs
  · cases ho : x.owner with
    | none => simp [ho] at hs
    | some o =>
      simp only [ho] at hs
      obtain ⟨i, hi, he⟩ := map_eq_some_iff.mp hs
      cases he
      split_ifs at hi with hboost
      · refine (hq.threadChangePriority o _).parksCaller (hw.trans (wakes_threadChangePriority _ o _)) ?_ hi
        rw [hwf.changePriority_view]
        exact hr'
      · exact hq.parksCaller hw hr' hi

theorem wakes_mutexRelease (k : Kernel T W) (w : W) (x : Mutex T) : Wakes k (RtThread.mutexRelease k w x).1 := by
  unfold RtThread.mutexRelease
  cases hc : k.current with
  | none => exact Wakes.refl k
  | some t =>
    have hwake : ∀ j : Kernel T W, Wakes j (j.ipcListResume w).schedule := fun j =>
      (wakes_ipcListResume j w).trans (wakes_schedule _)
    dsimp only
    split_ifs
    · exact wakes_setError k t .error
    · have hp := wakes_threadChangePriority k t x.originalPriority
      split
      · exact hp.trans (hwake _)
      · exact hp
    · split
      · exact hwake k
      · exact Wakes.refl k
    · exact Wakes.refl k

theorem semTake_wakes {e : Err}
    (h : RtThread.semTake (k.dispatch t) w x time = some (k', x', .returned e)) : Wakes k k' := by
  have hd : (k.dispatch t).current = some t := rfl
  simp only [RtThread.semTake, hd] at h
  split_ifs at h
  · cases h
    exact wakes_dispatch k t
  · cases h
    exact wakes_dispatch k t
  · obtain ⟨i, -, he⟩ := map_eq_some_iff.mp h
    cases he

theorem semTake_refused
    (h : RtThread.semTake (k.dispatch t) w x time = some (k', x', .returned .etimeout)) : time = 0 := by
  have hd : (k.dispatch t).current = some t := rfl
  simp only [RtThread.semTake, hd] at h
  split_ifs at h with hv hz
  · simp at h
  · exact hz
  · obtain ⟨i, -, he⟩ := map_eq_some_iff.mp h
    cases he

theorem Timed.semTake_parks (h : k.Timed) (hr : k.view.stat t = .ready)
    (hs : RtThread.semTake (k.dispatch t) w x time = some (k', x', .blocked)) :
    time ≠ 0 ∧ ParksCaller k t time k' := by
  have hd : (k.dispatch t).current = some t := rfl
  simp only [RtThread.semTake, hd] at hs
  have hw := (wakes_dispatch k t).trans (wakes_setError _ t .eok)
  have hq := Timed.setError (k := k.dispatch t) h t .eok
  split_ifs at hs with hv hz
  · cases hs
  · cases hs
  · obtain ⟨i, hi, he⟩ := map_eq_some_iff.mp hs
    cases he
    refine ⟨hz, hq.parksCaller hw ?_ hi⟩
    rw [setError_view]
    exact hr

theorem wakes_semRelease (k : Kernel T W) (w : W) (x : Semaphore) : Wakes k (RtThread.semRelease k w x).1 := by
  unfold RtThread.semRelease
  split
  · exact (wakes_ipcListResume k w).trans (wakes_schedule _)
  · exact Wakes.refl k

inductive MutexShape (mutex : Mutex T) : Prop
  | free (hflag : mutex.flag = .fifo) (ho : mutex.owner = none) (hv : mutex.value = 1) (hh : mutex.hold = 0)
  | held (o : T) (hflag : mutex.flag = .fifo) (ho : mutex.owner = some o) (hv : mutex.value = 0) (hh : mutex.hold = 1)
      (hp : mutex.originalPriority < 32)

inductive LockEffect (k : Kernel T W) (w : W) (mutex : Mutex T) (t : T) :
    Kernel T W → Mutex T → Option Errno → Prop
  | deadlock {k' : Kernel T W} (ho : mutex.owner = some t) (hv : k'.view = k.view) (hw : Wakes k k') :
      LockEffect k w mutex t k' mutex (some .edeadlk)
  | acquired {k' : Kernel T W} {m : Mutex T} (ho : mutex.owner = none) (hm : m.owner = some t)
      (hv : k'.view = k.view.setError t .eok) (hw : Wakes k k') :
      LockEffect k w mutex t k' m (some .ok)
  | blocked {k' : Kernel T W} {o : T} {p : T → ℕ} (ho : mutex.owner = some o) (hne : o ≠ t)
      (hv : k'.view = { k.view with
        stat := update k.view.stat t .suspend
        error := update k.view.error t .eok
        priority := p
        waiting := update k.view.waiting w (k.view.waiting w ++ [t]) })
      (hp : ParksCaller k t waitingForever k') :
      LockEffect k w mutex t k' mutex none

theorem Wf.pthreadMutexLock (hk : k.Wf) (ht : k.Timed) {m m' : Mutex T} {r : Option Errno} (hm : MutexShape m)
    (hr : k.view.stat t = .ready) (h : RtThread.pthreadMutexLock (k.dispatch t) w m = some (k', m', r)) :
    k'.Wf ∧ k'.Timed ∧ MutexShape m' ∧ LockEffect k w m t k' m' r := by
  unfold RtThread.pthreadMutexLock at h
  have hd : (k.dispatch t).current = some t := rfl
  have hq : (k.dispatch t).Timed := ht
  rw [hd] at h
  by_cases hown : m.owner = some t
  · rw [if_pos hown] at h
    cases h
    exact ⟨hk.dispatch t, hq, hm, .deadlock hown rfl (wakes_dispatch k t)⟩
  rw [if_neg hown] at h
  obtain ⟨⟨i, x, o⟩, hi, he⟩ := map_eq_some_iff.mp h
  obtain ⟨rfl, rfl, rfl⟩ : i = k' ∧ x = m' ∧ o.errno = r := by simpa using he
  obtain ⟨hw, heff⟩ := hk.mutexTake hr hi
  have htimed := hq.mutexTake (open_dispatch hr) hi
  refine ⟨hw, htimed, ?_⟩
  generalize hview : i.view = v at heff
  cases heff with
  | nested ho => exact absurd ho hown
  | acquired ho hv =>
    cases hm with
    | free hflag hfree hone hh =>
      refine ⟨.held t hflag rfl ?_ ?_ (hk.view_priority_lt t), .acquired hfree rfl hview (mutexTake_wakes hi)⟩
      · rw [hone]
      · rw [hh]
    | held o hflag ho' hzero => exact absurd hv (by omega)
  | refused ho hv hz => exact absurd hz (by decide)
  | @blocked o p ho hne hv hz hp =>
    refine ⟨hm, .blocked (p := p) ho hne ?_ (ht.mutexTake_parks hk hr hi)⟩
    have hflag : m.flag = .fifo := by
      cases hm with
      | free hflag | held _ hflag => exact hflag
    rw [hview, hflag]
    rfl

theorem pthreadMutexLock_isSome (k : Kernel T W) (w : W) (t : T) {m : Mutex T} (hm : MutexShape m) :
    (RtThread.pthreadMutexLock (k.dispatch t) w m).isSome := by
  have hd : (k.dispatch t).current = some t := rfl
  unfold RtThread.pthreadMutexLock
  rw [hd]
  split_ifs with ho
  · rfl
  · simp only [RtThread.mutexTake, hd, if_neg ho]
    cases hm with
    | free hflag hfree hv hh => simp [hv]
    | held o hflag ho' hv hh hp =>
      have hforever : waitingForever ≠ 0 := by decide
      simp only [hv, Nat.lt_irrefl, if_false, if_neg hforever, ho', isSome_map]
      exact suspendFor_isSome _ _ _ _ (by decide)

theorem semTake_isSome (k : Kernel T W) (w : W) (t : T) (x : Semaphore) (h : time ≠ 0x7fffffff) :
    (RtThread.semTake (k.dispatch t) w x time).isSome := by
  have hd : (k.dispatch t).current = some t := rfl
  simp only [RtThread.semTake, hd]
  split_ifs
  · rfl
  · rfl
  · rw [isSome_map]
    exact suspendFor_isSome _ _ _ _ h

inductive UnlockEffect (k : Kernel T W) (w : W) (mutex : Mutex T) (t : T) : Kernel T W → Mutex T → Errno → Prop
  | idle {k' : Kernel T W} (ho : mutex.owner = none) (hv : k'.view = k.view) : UnlockEffect k w mutex t k' mutex .ok
  | refused {k' : Kernel T W} {o : T} (ho : mutex.owner = some o) (hne : o ≠ t)
      (hv : k'.view = k.view.setError t .error) :
      UnlockEffect k w mutex t k' mutex .einval
  | handed {k' : Kernel T W} {m : Mutex T} {u : T} {l : List T} {p : T → ℕ} (ho : mutex.owner = some t)
      (hl : k.view.waiting w = u :: l) (hm : m.owner = some u)
      (hv : k'.view = { k.view with priority := p }.resumed w u l) : UnlockEffect k w mutex t k' m .ok
  | freed {k' : Kernel T W} {m : Mutex T} {p : T → ℕ} (ho : mutex.owner = some t) (hl : k.view.waiting w = [])
      (hm : m.owner = none) (hv : k'.view = { k.view with priority := p }) : UnlockEffect k w mutex t k' m .ok

theorem Wf.pthreadMutexUnlock (hk : k.Wf) (ht : k.Timed) {m m' : Mutex T} {e : Errno} (hm : MutexShape m)
    (h : RtThread.pthreadMutexUnlock (k.dispatch t) w m = (k', m', e)) :
    k'.Wf ∧ k'.Timed ∧ Wakes k k' ∧ MutexShape m' ∧ UnlockEffect k w m t k' m' e := by
  unfold RtThread.pthreadMutexUnlock at h
  have hd : (k.dispatch t).current = some t := rfl
  have hq : (k.dispatch t).Timed := ht
  by_cases hfree : m.owner = none
  · rw [if_pos ⟨by rw [hfree]; nofun, hfree⟩] at h
    cases h
    exact ⟨hk.dispatch t, hq, wakes_dispatch k t, hm, .idle hfree rfl⟩
  rw [if_neg (fun hand => hfree hand.2)] at h
  obtain ⟨i, x, e', hi⟩ : ∃ i x e', RtThread.mutexRelease (k.dispatch t) w m = (i, x, e') := ⟨_, _, _, rfl⟩
  rw [hi] at h
  obtain ⟨rfl, rfl, rfl⟩ : i = k' ∧ x = m' ∧ (if e' = .eok then .ok else .einval) = e := by simpa using h
  cases hm with
  | free hflag ho => exact absurd ho hfree
  | held o hflag ho hzero hh hp =>
    obtain ⟨hw, heff⟩ := hk.mutexRelease (fun _ => hp) hi
    have htimed : i.Timed := by
      have := hq.mutexRelease m (w := w)
      rwa [hi] at this
    have hwakes : Wakes k i := by
      have := (wakes_dispatch k t).trans (wakes_mutexRelease _ w m)
      rwa [hi] at this
    refine ⟨hw, htimed, hwakes, ?_⟩
    generalize hview : i.view = v at heff
    cases heff with
    | refused hno =>
      refine ⟨.held o hflag ho hzero hh hp, .refused ho (fun hot => hno (hot ▸ ho)) hview⟩
    | kept hown hh' => exact absurd (by rw [hh]) hh'
    | @handed u l p hown hh' hl hp' =>
      refine ⟨.held u hflag rfl hzero rfl ?_, .handed hown hl rfl hview⟩
      rw [hp']
      by_cases hu : u = t
      · rw [hu, update_self]
        exact hp
      · rw [update_of_ne hu]
        exact hk.view_priority_lt u
    | freed hown hh' hl hp' => exact ⟨.free hflag rfl (by dsimp only; rw [hzero]) rfl, .freed hown hl rfl hview⟩

theorem broadcastLoop_stored (hv : 0 < x.value) (hlt : x.value < 65536) (hl : k.view.waiting w = [])
    (n : ℕ) : broadcastLoop w (n + 1) k x = some (k, x, .ok) := by
  have hl' : k.lists (.wait w) = [] := hl
  have hval : (x.value - 1 + 1) % 65536 = x.value := by omega
  simp [broadcastLoop, semTrytake_eq, hv, RtThread.semRelease, hl', hval]

theorem Wf.broadcastLoop_waiting (hv : x.value = 0) (hk : k.Wf) (ht : k.Timed) : ∃ k',
      broadcastLoop w ((k.view.waiting w).length + 2) k x = some (k', { x with value := 1 }, .ok) ∧
      k'.Wf ∧ k'.Timed ∧ Wakes k k' ∧ k'.view = k.view.released w := by
  have hturn : ∀ n (k : Kernel T W), broadcastLoop w (n + 1) k x =
      broadcastLoop w n (RtThread.semRelease k w x).1 (RtThread.semRelease k w x).2.1 := by
    intro n k
    rw [broadcastLoop]
    simp [semTrytake_eq, hv]
  obtain ⟨k', hrun, hk', ⟨ht', hw'⟩, hview⟩ := hk.releaseAll (P := fun j => j.Timed ∧ Wakes k j) hturn
    (fun j hj => ⟨hj.1.semRelease x (w := w), hj.2.trans (wakes_semRelease j w x)⟩) ⟨ht, Wakes.refl k⟩ rfl 2
  have hnil : k'.view.waiting w = [] := by
    rw [hview]
    exact update_self ..
  have hnil' : k'.lists (.wait w) = [] := hnil
  refine ⟨k', ?_, hk', ht', hw', hview⟩
  rw [hrun, hturn]
  simp only [RtThread.semRelease, hnil', hv]
  exact broadcastLoop_stored Nat.one_pos (Nat.lt_of_sub_eq_succ rfl) hnil 0

theorem Wf.pthreadCondBroadcast (hk : k.Wf) (ht : k.Timed) (hlt : x.value < 65536)
    (hx : 0 < x.value → k.view.waiting w = []) : ∃ k', RtThread.pthreadCondBroadcast k w x =
      some (k', { x with value := if x.value = 0 then 1 else x.value }, .ok) ∧ k'.Wf ∧ k'.Timed ∧ Wakes k k' ∧
      k'.view = k.view.released w := by
  have hwf : k.enterCritical.Wf := hk.congr rfl rfl rfl
  have htimed : k.enterCritical.Timed := ht
  have hwakes : Wakes k k.enterCritical := wakes_of_thread rfl rfl
  have hview : k.enterCritical.view = k.view := rfl
  unfold RtThread.pthreadCondBroadcast
  by_cases hv : x.value = 0
  · obtain ⟨j, hloop, hj, htj, hwj, hviewj⟩ := hwf.broadcastLoop_waiting hv htimed
    have hlen : (k.lists (.wait w)).length = (k.view.waiting w).length := rfl
    refine ⟨j.exitCritical, ?_, hj.exitCritical, htj.exitCritical, ?_, ?_⟩
    · rw [hview] at hloop
      rw [hlen, hloop, if_pos hv]
      rfl
    · exact (hwakes.trans hwj).trans (wakes_exitCritical j)
    · rw [exitCritical_view, hviewj, hview]
  · have hnil := hx (Nat.pos_of_ne_zero hv)
    refine ⟨k.enterCritical.exitCritical, ?_, hwf.exitCritical, htimed.exitCritical,
      hwakes.trans (wakes_exitCritical _), ?_⟩
    · rw [broadcastLoop_stored (Nat.pos_of_ne_zero hv) hlt (hview ▸ hnil), if_neg hv]
      rfl
    · rw [exitCritical_view, hview, View.released_nil hnil]

end Kernel

end RtThread
