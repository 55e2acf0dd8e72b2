import RtThread.Lib.CondMonitor
import RtThread.Pthreads.Cond

/-!
Threads whose code locks one mutex of `pthreads` and waits on condition variables with it. A step is one section of a
call by any ready thread.
-/

namespace RtThread

open CondMonitor Function Option Kernel List Semaphore

variable {T C L D X : Type} [DecidableEq T] [DecidableEq C]

/-- Where a thread is in a call: `locking` in `rt_mutex_take` of a `pthread_mutex_lock`, `dropped` between the unlock
and `rt_sem_take` of a wait, `waiting` in `rt_sem_take`, `retake` behind it and `retaking` in the lock at the end of
the wait. -/
inductive Phase (C : Type)
  | start
  | locking
  | dropped (c : C) (time : BitVec 32)
  | waiting (c : C) (time : BitVec 32)
  | retake (r : Result)
  | retaking (r : Result)
  deriving DecidableEq

def Errno.result : Errno → Result
  | .ok => .done
  | .etimedout => .expired
  | .einval | .ebusy | .eperm | .edeadlk => .refused

def Err.waitErrno : Err → Errno
  | .eok => .ok
  | .etimeout => .etimedout
  | .error | .efull => .einval

def semPatience (time : BitVec 32) : Patience :=
  if time = 0 then .never else if (0 : BitVec 32).slt time then .timed else .forever

structure MonitorSystem (T C L D : Type) where
  kernel : Kernel T (Option C)
  mutex : Mutex T
  sem : C → Semaphore
  phase : T → Phase C
  label : T → L
  data : D

namespace MonitorSystem

def setPhase (s : MonitorSystem T C L D) (t : T) (p : Phase C) : MonitorSystem T C L D :=
  { s with phase := update s.phase t p }

def moveTo (s : MonitorSystem T C L D) (t : T) (l : L) : MonitorSystem T C L D :=
  { s.setPhase t .start with label := update s.label t l }

def setSem (s : MonitorSystem T C L D) (k : Kernel T (Option C)) (c : C) (x : Semaphore) : MonitorSystem T C L D :=
  { s with kernel := k, sem := update s.sem c x }

variable (P : Code T C L D (BitVec 32) X)

def lock (s : MonitorSystem T C L D) (t : T) : Option (MonitorSystem T C L D) :=
  (pthreadMutexLock (s.kernel.dispatch t) none s.mutex).map (fun
    | (k, m, some e) => { s with kernel := k, mutex := m }.moveTo t (P.ret (s.label t) e.result)
    | (k, m, none) => { s with kernel := k, mutex := m }.setPhase t .locking)

def relock (s : MonitorSystem T C L D) (t : T) (r : Result) : Option (MonitorSystem T C L D) :=
  (pthreadMutexLock (s.kernel.dispatch t) none s.mutex).map (fun
    | (k, m, some _) => { s with kernel := k, mutex := m }.moveTo t (P.ret (s.label t) r)
    | (k, m, none) => { s with kernel := k, mutex := m }.setPhase t (.retaking r))

def unlock (s : MonitorSystem T C L D) (t : T) : MonitorSystem T C L D :=
  match pthreadMutexUnlock (s.kernel.dispatch t) none s.mutex with
  | (k, m, e) => { s with kernel := k, mutex := m }.moveTo t (P.ret (s.label t) e.result)

def wait (s : MonitorSystem T C L D) (t : T) (c : C) (time : BitVec 32) : MonitorSystem T C L D :=
  if s.mutex.owner ≠ some t then s.moveTo t (P.ret (s.label t) .refused)
  else
    match pthreadMutexUnlock (s.kernel.dispatch t) none s.mutex with
    | (k, m, .ok) => { s with kernel := k, mutex := m }.setPhase t (.dropped c time)
    | (k, m, _) => { s with kernel := k, mutex := m }.moveTo t (P.ret (s.label t) .refused)

def take (s : MonitorSystem T C L D) (t : T) (c : C) (time : BitVec 32) : Option (MonitorSystem T C L D) :=
  (semTake (s.kernel.dispatch t) (some c) (s.sem c) time).map (fun
    | (k, x, .returned e) => (s.setSem k c x).setPhase t (.retake e.waitErrno.result)
    | (k, x, .blocked) => (s.setSem k c x).setPhase t (.waiting c time))

def exec (s : MonitorSystem T C L D) (t : T) : Cmd C L D (BitVec 32) → Option (MonitorSystem T C L D)
  | .lock => s.lock P t
  | .unlock => some (s.unlock P t)
  | .wait c time => some (s.wait P t c time)
  | .signal c =>
    match pthreadCondSignal (s.kernel.dispatch t) (some c) (s.sem c) with
    | (k, x, e) => some ((s.setSem k c x).moveTo t (P.ret (s.label t) e.result))
  | .broadcast c => (pthreadCondBroadcast (s.kernel.dispatch t) (some c) (s.sem c)).map (fun (k, x, e) =>
      (s.setSem k c x).moveTo t (P.ret (s.label t) e.result))
  | .tryTake c => (semTrytake (s.kernel.dispatch t) (some c) (s.sem c)).map (fun
    | (k, x, .returned e) => (s.setSem k c x).moveTo t (P.ret (s.label t) e.waitErrno.result)
    | (k, x, .blocked) => (s.setSem k c x).moveTo t (P.ret (s.label t) .refused))
  | .clear c => some ((s.setSem s.kernel c condCleared).moveTo t (P.ret (s.label t) .done))
  | .assign d l => some { s.moveTo t l with data := d }

def turn (s : MonitorSystem T C L D) (t : T) (x : X) : Option (MonitorSystem T C L D) :=
  if s.kernel.view.stat t = .ready then
    match s.phase t with
    | .start => (P.cmd t (s.label t) s.data x).bind (s.exec P t)
    | .locking =>
      some (s.moveTo t (P.ret (s.label t) (if mutexTakeReturn s.kernel t = .eok then .done else .refused)))
    | .dropped c time => s.take t c time
    | .waiting _ _ => s.relock P t (semTakeReturn s.kernel t).waitErrno.result
    | .retake r => s.relock P t r
    | .retaking r => some (s.moveTo t (P.ret (s.label t) r))
  else none

def step (s : MonitorSystem T C L D) : CondMonitor.Event T X → Option (MonitorSystem T C L D)
  | .run t x => s.turn P t x
  | .expire t => (s.kernel.timerExpire t).map (fun k => { s with kernel := k })

def place (s : MonitorSystem T C L D) (t : T) : CondMonitor.Place C :=
  match s.phase t with
  | .start => .run
  | .locking => if s.kernel.view.stat t = .suspend then .queued .done else .handed .done
  | .dropped c time => .dropped c (semPatience time)
  | .waiting c time =>
    if s.kernel.view.stat t = .suspend then .parked c (semPatience time)
    else .woken (s.kernel.view.error t).waitErrno.result
  | .retake r => .woken r
  | .retaking r => if s.kernel.view.stat t = .suspend then .queued r else .handed r

def monitor (s : MonitorSystem T C L D) : State T C L D where
  owner := s.mutex.owner
  queue := s.kernel.view.waiting none
  value c := (s.sem c).value
  list c := s.kernel.view.waiting (some c)
  label := s.label
  place := s.place
  data := s.data

end MonitorSystem

def pthreadProgram (P : Code T C L D (BitVec 32) X) : Program T C L D (BitVec 32) X :=
  { P with patience := semPatience, limit := 65536 }

namespace MonitorSystem

def Settled (s : MonitorSystem T C L D) (t : T) : Prop :=
  s.kernel.view.stat t = .ready ∨ s.kernel.view.stat t = .suspend ∧ ¬ (s.place t).Free

structure Inv (s : MonitorSystem T C L D) : Prop where
  wf : s.kernel.Wf
  timed : s.kernel.Timed
  shape : Kernel.MutexShape s.mutex
  fifo : ∀ c, (s.sem c).flag = .fifo
  value_lt : ∀ c, (s.sem c).value < 65536
  monitor : CondMonitor.Inv s.monitor
  settled : ∀ t, s.Settled t
  -- a thread that was granted what it waits for has not seen an error
  waiting : ∀ w, ∀ t ∈ s.kernel.view.waiting w, s.kernel.view.error t = .eok
  locking : ∀ t, s.phase t = .locking → s.kernel.view.error t = .eok
  linked : ∀ t, s.kernel.view.stat t = .suspend → (s.kernel.thread t).timer.linked = true →
    ∃ c time, s.phase t = .waiting c time ∧ (0 : BitVec 32).slt time

variable {s s' : MonitorSystem T C L D} {t u : T} {P : Code T C L D (BitVec 32) X} {c : C} {time : BitVec 32}
  {r : Result}
  {k j : Kernel T (Option C)} {m : Mutex T} {x : Semaphore} {w : Option C} {p : Phase C} (h : s.Inv)
  (hr : s.kernel.view.stat t = .ready)

section

omit [DecidableEq C] [DecidableEq T]

theorem place_congr (hp : s'.phase t = s.phase t) (hs : s'.kernel.view.stat t = s.kernel.view.stat t)
    (he : s'.kernel.view.error t = s.kernel.view.error t) : s'.place t = s.place t := by
  unfold place
  rw [hp, hs, he]

theorem place_start (h : s.phase t = .start) : s.place t = .run := by
  unfold place
  rw [h]

theorem place_of_dropped (h : s.phase t = .dropped c time) : s.place t = .dropped c (semPatience time) := by
  unfold place
  rw [h]

theorem place_of_retake (h : s.phase t = .retake r) : s.place t = .woken r := by
  unfold place
  rw [h]

theorem place_of_waiting (h : s.phase t = .waiting c time) : s.place t =
    if s.kernel.view.stat t = .suspend then .parked c (semPatience time)
    else .woken (s.kernel.view.error t).waitErrno.result := by
  unfold place
  rw [h]

theorem place_of_locking (h : s.phase t = .locking ∧ r = .done ∨ s.phase t = .retaking r) :
    s.place t = if s.kernel.view.stat t = .suspend then .queued r else .handed r := by
  unfold place
  obtain ⟨h, rfl⟩ | h := h <;> rw [h]

theorem place_queued (hq : s.place u = .queued r) :
    (s.phase u = .locking ∧ r = .done ∨ s.phase u = .retaking r) ∧ s.kernel.view.stat u = .suspend := by
  unfold place at hq
  split at hq <;> try split_ifs at hq
  all_goals simp_all

theorem place_parked {p : Patience} (hq : s.place u = .parked c p) :
    ∃ time, s.phase u = .waiting c time ∧ p = semPatience time ∧ s.kernel.view.stat u = .suspend := by
  unfold place at hq
  split at hq <;> try split_ifs at hq
  all_goals simp_all

theorem place_handed (hq : s.place u = .queued r) (hp : s'.phase u = s.phase u)
    (hs : s'.kernel.view.stat u = .ready) : s'.place u = .handed r := by
  obtain ⟨hphase, -⟩ := place_queued hq
  rw [← hp] at hphase
  rw [place_of_locking hphase, hs]
  rfl

theorem place_woken {p : Patience} {e : Err} (hq : s.place u = .parked c p) (hp : s'.phase u = s.phase u)
    (hs : s'.kernel.view.stat u = .ready) (he : s'.kernel.view.error u = e) :
    s'.place u = .woken e.waitErrno.result := by
  obtain ⟨time, hphase, -⟩ := place_parked hq
  rw [place_of_waiting (hp.trans hphase), hs, he]
  rfl

theorem Inv.linked_wakes (h : s.Inv) (hw : s.kernel.Wakes s'.kernel)
    (hphase : ∀ u, s.kernel.view.stat u = .suspend → s'.phase u = s.phase u) (hs : s'.kernel.view.stat u = .suspend)
    (hl : (s'.kernel.thread u).timer.linked = true) : ∃ c time, s'.phase u = .waiting c time ∧
    (0 : BitVec 32).slt time := by
  obtain ⟨hsus, htimer⟩ := hw.keeps u hs
  rw [htimer] at hl
  rw [hphase u hsus]
  exact h.linked u hsus hl

theorem Inv.linked_parks (h : s.Inv) (hp : s.kernel.ParksCaller t time s'.kernel)
    (hphase : ∀ u, u ≠ t → s'.phase u = s.phase u)
    (ht : (0 : BitVec 32).slt time → ∃ c, s'.phase t = .waiting c time)
    (hs : s'.kernel.view.stat u = .suspend) (hl : (s'.kernel.thread u).timer.linked = true) :
    ∃ c time, s'.phase u = .waiting c time ∧ (0 : BitVec 32).slt time := by
  obtain rfl | hut := eq_or_ne u t
  · have hpos := hp.linked hl
    obtain ⟨c, hc⟩ := ht hpos
    exact ⟨c, time, hc, hpos⟩
  · obtain ⟨hsus, htimer⟩ := hp.parks.keeps u hut hs
    rw [htimer] at hl
    rw [hphase u hut]
    exact h.linked u hsus hl

structure Frame (s : MonitorSystem T C L D) (t : T) (s' : MonitorSystem T C L D) : Prop where
  stat : ∀ u, u ≠ t → s'.kernel.view.stat u = s.kernel.view.stat u ∨ s'.kernel.view.stat u = .ready
  settled : s'.Settled t
  error : ∀ u, u ≠ t → s'.kernel.view.error u = s.kernel.view.error u
  phase : ∀ u, u ≠ t → s'.phase u = s.phase u
  waiting : ∀ w u, u ≠ t → u ∈ s'.kernel.view.waiting w → u ∈ s.kernel.view.waiting w
  parked : ∀ w, t ∈ s'.kernel.view.waiting w → s'.kernel.view.error t = .eok
  locking : s'.phase t = .locking → s'.kernel.view.error t = .eok
  linked : ∀ u, s'.kernel.view.stat u = .suspend → (s'.kernel.thread u).timer.linked = true →
    ∃ c time, s'.phase u = .waiting c time ∧ (0 : BitVec 32).slt time

theorem Inv.next (h : s.Inv) (hf : s.Frame t s') (hwf : s'.kernel.Wf) (htimed : s'.kernel.Timed)
    (hshape : Kernel.MutexShape s'.mutex) (hsem : ∀ c, (s'.sem c).flag = .fifo ∧ (s'.sem c).value < 65536)
    (hmon : CondMonitor.Inv s'.monitor) : s'.Inv := by
  refine ⟨hwf, htimed, hshape, fun c => (hsem c).1, fun c => (hsem c).2, hmon, fun u => ?_, fun w u hu => ?_,
    fun u hu => ?_, hf.linked⟩
  all_goals obtain rfl | hut := eq_or_ne u t
  · exact hf.settled
  · obtain hstat | hready := hf.stat u hut
    · unfold Settled
      rw [hstat, place_congr (hf.phase u hut) hstat (hf.error u hut)]
      exact h.settled u
    · exact .inl hready
  · exact hf.parked w hu
  · rw [hf.error u hut]
    exact h.waiting w u (hf.waiting w u hut hu)
  · exact hf.locking hu
  · rw [hf.error u hut]
    exact h.locking u ((hf.phase u hut).symm.trans hu)

structure Releases (k : Kernel T (Option C)) (t : T) (j : Kernel T (Option C)) : Prop where
  wf : j.Wf
  timed : j.Timed
  wakes : k.Wakes j
  stat : ∀ u, j.view.stat u = k.view.stat u ∨ j.view.stat u = .ready
  error : ∀ u, u ≠ t → j.view.error u = k.view.error u
  waiting : ∀ w u, u ∈ j.view.waiting w → u ∈ k.view.waiting w

theorem Releases.of_view (hwf : j.Wf) (htimed : j.Timed) (hw : k.Wakes j) (hv : j.view = k.view) : Releases k t j := by
  refine ⟨hwf, htimed, hw, fun u => .inl ?_, fun u _ => ?_, fun w u hu => ?_⟩
  · rw [hv]
  · rw [hv]
  · rwa [hv] at hu

def start (k : Kernel T (Option C)) (l : L) (d : D) : MonitorSystem T C L D where
  kernel := k
  mutex := pthreadMutexInit
  sem _ := pthreadCondInit
  phase _ := .start
  label _ := l
  data := d

theorem inv_start {k : Kernel T (Option C)} (h : k.Calm) (l : L) (d : D) : (start k l d).Inv := by
  have hplace : ∀ t, (start k l d).monitor.place t = .run := fun _ => rfl
  have hlist : ∀ w t, t ∉ k.view.waiting w := by
    intro w t
    rw [h.lists]
    exact not_mem_nil
  refine ⟨h.wf, h.timed, .free rfl rfl rfl rfl, fun _ => rfl, fun _ => show pthreadCondInit.value < 65536 by decide,
    ⟨fun t => ?_, fun t c => ?_, h.wf.view_nodup none, fun c => h.wf.view_nodup (some c), fun _ => h.lists none,
      fun t r ht => ?_, fun t ht => ?_, fun c _ => h.lists (some c)⟩,
    fun t => .inl (h.ready t), fun w t ht => absurd ht (hlist w t), fun t ht => ?_, fun t _ ht => ?_⟩
  · exact iff_of_false (hlist none t) (by simp [hplace])
  · exact iff_of_false (hlist (some c) t) (by simp [hplace])
  · exact absurd ((hplace t).symm.trans ht) (by simp)
  · exact .inl (hplace t)
  · exact absurd ht (by simp [start])
  · exact absurd ((h.timers t).symm.trans ht) (by simp)

include h

theorem Inv.releases_refl (t : T) : Releases s.kernel t s.kernel :=
  .of_view h.wf h.timed (.refl _) rfl

theorem Inv.releases_dispatch (t : T) : Releases s.kernel t (s.kernel.dispatch t) :=
  .of_view (h.wf.dispatch t) h.timed (wakes_dispatch s.kernel t) rfl

theorem Inv.next_releases (hr : s.kernel.view.stat t = .ready) (hk : Releases s.kernel t s'.kernel)
    (hmon : CondMonitor.Inv s'.monitor) (hshape : Kernel.MutexShape s'.mutex)
    (hsem : ∀ c, (s'.sem c).flag = .fifo ∧ (s'.sem c).value < 65536)
    (hphase : ∀ u, u ≠ t → s'.phase u = s.phase u)
    (hlock : s'.phase t ≠ .locking) : s'.Inv := by
  have hready : s'.kernel.view.stat t = .ready := (hk.stat t).elim (·.trans hr) id
  refine h.next ⟨fun u _ => hk.stat u, .inl hready, hk.error, hphase, fun w u _ => hk.waiting w u, fun w hu => ?_,
    fun hu => absurd hu hlock, fun u => ?_⟩ hk.wf hk.timed hshape hsem hmon
  · exact absurd (hk.waiting w t hu) (h.wf.not_waiting hr w)
  · refine h.linked_wakes hk.wakes (fun v hv => hphase v ?_)
    rintro rfl
    exact absurd (hr.symm.trans hv) (by simp)

theorem Inv.sem (c : C) : (s.sem c).flag = .fifo ∧ (s.sem c).value < 65536 := ⟨h.fifo c, h.value_lt c⟩

theorem Inv.ready_of_free (hf : (s.place t).Free) : s.kernel.view.stat t = .ready :=
  (h.settled t).resolve_right (fun hs => hs.2 hf)

end

def Spares (s : MonitorSystem T C L D) (t : T) (s' : MonitorSystem T C L D) : Prop :=
  ∀ u, u ≠ t → s'.phase u = s.phase u ∧ s'.kernel.view.stat u = s.kernel.view.stat u ∧
    s'.kernel.view.error u = s.kernel.view.error u

section

omit [DecidableEq C]

theorem Spares.place (h : s.Spares t s') {p : CondMonitor.Place C} (hp : s'.place t = p) :
    s'.place = update s.place t p :=
  Function.eq_update_iff.mpr ⟨hp, fun u hut => place_congr (h u hut).1 (h u hut).2.1 (h u hut).2.2⟩

theorem moveTo_phase_ne (s : MonitorSystem T C L D) (t : T) (l : L) : (s.moveTo t l).phase t ≠ .locking :=
  (update_self ..).trans_ne (by simp)

theorem monitor_moveTo_view (hwait : k.view.waiting = s.kernel.view.waiting) (hstat : k.view.stat = s.kernel.view.stat)
    (herr : ∀ u, u ≠ t → k.view.error u = s.kernel.view.error u) (l : L) :
    ({ s with kernel := k }.moveTo t l).monitor = s.monitor.moveTo t l := by
  have hspares : s.Spares t ({ s with kernel := k }.moveTo t l) := fun u hut =>
    ⟨update_of_ne hut _ _, congrFun hstat u, herr u hut⟩
  exact State.ext rfl (congrFun hwait none) rfl (funext fun c => congrFun hwait (some c)) rfl
    (hspares.place (place_start (update_self ..))) rfl

theorem monitor_moveTo (s : MonitorSystem T C L D) (t : T) (l : L) : (s.moveTo t l).monitor = s.monitor.moveTo t l :=
  monitor_moveTo_view rfl rfl (fun _ _ => rfl) l

theorem monitor_setPhase {q : CondMonitor.Place C} (hq : (s.setPhase t p).place t = q) :
    (s.setPhase t p).monitor = s.monitor.setPlace t q := by
  have hspares : s.Spares t (s.setPhase t p) := fun u hut => ⟨update_of_ne hut _ _, rfl, rfl⟩
  exact State.ext rfl rfl rfl rfl rfl (hspares.place hq) rfl

theorem monitor_enter_free (ho : s.mutex.owner = none) (hm : m.owner = some t)
    (hv : k.view = s.kernel.view.setError t .eok) (r : Result) (l : L) :
    ({ s with kernel := k, mutex := m }.moveTo t l).monitor = s.monitor.enter t r l := by
  unfold State.enter
  rw [show s.monitor.owner = none from ho]
  have hmove := monitor_moveTo_view (by rw [hv]) (by rw [hv]) (fun u hut => by rw [hv]; exact update_of_ne hut _ _) l
  rw [← hmove, ← hm]
  rfl

theorem setPhase_locking (hp : p = .locking ∧ r = .done ∨ p = .retaking r) (t : T) :
    (s.setPhase t p).phase t = .locking ∧ r = .done ∨ (s.setPhase t p).phase t = .retaking r := by
  rw [setPhase]
  simpa using hp

include h hr

section

variable (hk : Releases s.kernel t k) (hshape : Kernel.MutexShape m) {sem : C → Semaphore}
  (hsem : ∀ c, (sem c).flag = .fifo ∧ (sem c).value < 65536)

include hk hshape hsem

theorem Inv.next_moveTo {l : L}
    {d : D} (hmon : CondMonitor.Inv { ({ s with kernel := k, mutex := m, sem }.moveTo t l) with data := d }.monitor) :
    { ({ s with kernel := k, mutex := m, sem }.moveTo t l) with data := d }.Inv :=
  h.next_releases hr hk hmon hshape hsem (fun _ hut => update_of_ne hut _ _)
    (moveTo_phase_ne { s with kernel := k, mutex := m, sem } t l)

theorem Inv.next_setPhase
    (hp : p ≠ .locking) (hmon : CondMonitor.Inv ({ s with kernel := k, mutex := m, sem }.setPhase t p).monitor) :
    ({ s with kernel := k, mutex := m, sem }.setPhase t p).Inv :=
  h.next_releases hr hk hmon hshape hsem (fun _ hut => update_of_ne hut _ _)
    ((update_self ..).trans_ne hp)

end

theorem Inv.moveTo (l : L) (d : D) :
    { s.monitor.moveTo t l with data := d } = { s.moveTo t l with data := d }.monitor ∧
    { s.moveTo t l with data := d }.Inv := by
  have hfree : (s.monitor.place t).Free := by
    cases hp : s.monitor.place t with
    | queued r => exact absurd ((h.monitor.queued t).mpr ⟨r, hp⟩) (h.wf.not_waiting hr none)
    | parked c p => exact absurd ((h.monitor.parked t c).mpr ⟨p, hp⟩) (h.wf.not_waiting hr (some c))
    | _ => trivial
  have heq : { s.monitor.moveTo t l with data := d } = { s.moveTo t l with data := d }.monitor :=
    congrArg (fun m : State T C L D => { m with data := d }) (monitor_moveTo s t l).symm
  have hmon := (h.monitor.moveTo hfree l).of_label (update s.label t l) d
  exact ⟨heq, h.next_moveTo hr (h.releases_refl t) h.shape h.sem (heq ▸ hmon)⟩

end

section

omit [DecidableEq T]

theorem mem_waiting_of_append {f : Option C → List T} {w' : Option C} (hu : u ∈ update f w (f w ++ [t]) w')
    (hut : u ≠ t) : u ∈ f w' := by
  obtain rfl | hw := eq_or_ne w' w
  · rw [update_self] at hu
    exact (mem_append.mp hu).resolve_right (by simpa using hut)
  · rwa [update_of_ne hw] at hu

theorem monitor_setSem (hv : k.view = s.kernel.view) : (s.setSem k c x).monitor = s.monitor.setValue c x.value := by
  refine State.ext rfl ?_ ?_ ?_ rfl ?_ rfl
  · exact congrFun (congrArg View.waiting hv) none
  · exact Function.eq_update_iff.mpr ⟨congrArg value (update_self ..), fun d hd =>
      congrArg value (update_of_ne hd _ _)⟩
  · exact funext fun d => congrFun (congrArg View.waiting hv) (some d)
  · exact funext fun u => place_congr rfl (congrFun (congrArg View.stat hv) u) (congrFun (congrArg View.error hv) u)

theorem values_same (s : MonitorSystem T C L D) (k : Kernel T (Option C)) (c : C) :
    (s.setSem k c (s.sem c)).monitor.value = s.monitor.value := by
  change (fun d => (update s.sem c (s.sem c) d).value) = _
  rw [update_eq_self]
  rfl

section

variable {q : List T} (hw : k.view.waiting = update s.kernel.view.waiting (some c) q)

include hw

theorem list_of_waiting : (fun d => k.view.waiting (some d)) = update s.monitor.list c q := by
  rw [hw]
  exact Function.eq_update_iff.mpr ⟨update_self .., fun d hd => update_of_ne (by simpa using hd) _ _⟩

theorem queue_of_waiting : k.view.waiting none = s.monitor.queue := by
  rw [hw]
  exact update_of_ne (by simp) _ _

end

include h

theorem Inv.setSem (hx : x.flag = .fifo ∧ x.value < 65536) (d : C) :
    (update s.sem c x d).flag = .fifo ∧ (update s.sem c x d).value < 65536 :=
  (forall_update_iff s.sem (fun _ y => y.flag = .fifo ∧ y.value < 65536)).mpr ⟨hx, fun d _ => h.sem d⟩ d

theorem Inv.granted_place (hu : u ∈ s.kernel.view.waiting (some c)) (hs : k.view.stat u = .ready)
    (he : k.view.error u = s.kernel.view.error u) : (s.setSem k c x).place u = .woken .done := by
  obtain ⟨p, hp⟩ := (h.monitor.parked u c).mp hu
  exact place_woken (e := .eok) hp rfl hs (he.trans (h.waiting _ u hu))

end

theorem Releases.of_head (hwf : j.Wf) (htimed : j.Timed) (hw : k.Wakes j) {q : List T}
    (hl : k.view.waiting w = u :: q) (hs : j.view.stat = update k.view.stat u .ready)
    (he : j.view.error = k.view.error) (hq : j.view.waiting = update k.view.waiting w q) : Releases k t j := by
  refine ⟨hwf, htimed, hw, fun v => ?_, fun v _ => congrFun he v, fun w' v hv => ?_⟩
  · obtain rfl | hvu := eq_or_ne v u
    · exact .inr (by rw [hs, update_self])
    · exact .inl (by rw [hs, update_of_ne hvu])
  · rw [hq] at hv
    obtain rfl | hw' := eq_or_ne w' w
    · rw [update_self] at hv
      exact hl ▸ mem_cons_of_mem _ hv
    · rwa [update_of_ne hw'] at hv

structure Suspends (s : MonitorSystem T C L D) (t : T) (w : Option C) (k : Kernel T (Option C)) : Prop where
  stat : k.view.stat = update s.kernel.view.stat t .suspend
  error : k.view.error = update s.kernel.view.error t .eok
  waiting : k.view.waiting = update s.kernel.view.waiting w (s.kernel.view.waiting w ++ [t])

theorem Suspends.self (h : s.Suspends t w k) : k.view.stat t = .suspend := by
  rw [h.stat, update_self]

theorem Suspends.spares (h : s.Suspends t w s'.kernel) (hphase : ∀ u, u ≠ t → s'.phase u = s.phase u) :
    s.Spares t s' := by
  intro u hut
  rw [h.stat, h.error, update_of_ne hut, update_of_ne hut]
  exact ⟨hphase u hut, rfl, rfl⟩

theorem Inv.frame_parks (h : s.Inv) (hpark : s.kernel.ParksCaller t time s'.kernel)
    (hk : s.Suspends t w s'.kernel) (hphase : ∀ u, u ≠ t → s'.phase u = s.phase u) (hplace : ¬ (s'.place t).Free)
    (htime : (0 : BitVec 32).slt time → ∃ c, s'.phase t = .waiting c time) : s.Frame t s' := by
  have hself : s'.kernel.view.error t = .eok := by rw [hk.error, update_self]
  have hspares := hk.spares hphase
  refine ⟨fun u hut => .inl (hspares u hut).2.1, .inr ⟨hk.self, hplace⟩, fun u hut => (hspares u hut).2.2, hphase,
    fun w' u hut hu => ?_, fun _ _ => hself, fun _ => hself, fun u => h.linked_parks hpark hphase htime⟩
  rw [hk.waiting] at hu
  exact mem_waiting_of_append hu hut

section

variable (hp : p = .locking ∧ r = .done ∨ p = .retaking r)

include hp

theorem monitor_enter_held {o : T} (ho : s.mutex.owner = some o) (hne : o ≠ t) (hk : s.Suspends t none k) (l : L) :
    ({ s with kernel := k }.setPhase t p).monitor = s.monitor.enter t r l := by
  unfold State.enter
  rw [show s.monitor.owner = some o from ho]
  dsimp only
  rw [if_neg hne]
  have hspares : s.Spares t ({ s with kernel := k }.setPhase t p) := hk.spares (fun u hut => update_of_ne hut _ _)
  refine State.ext rfl ?_ rfl ?_ rfl (hspares.place ?_) rfl
  · exact (congrFun hk.waiting none).trans (update_self ..)
  · exact funext fun c => (congrFun hk.waiting (some c)).trans (update_of_ne (by simp) _ _)
  · exact (place_of_locking (setPhase_locking hp t)).trans (if_pos hk.self)

theorem Inv.enter (h : s.Inv) (hr : s.kernel.view.stat t = .ready) (hnot : s.mutex.owner ≠ some t)
    (hfree : (s.monitor.place t).Free) (l : L)
    {e : Option Errno} (hlock : pthreadMutexLock (s.kernel.dispatch t) none s.mutex = some (k, m, e)) :
    e = some .ok ∧ (({ s with kernel := k, mutex := m }.moveTo t l).monitor = s.monitor.enter t r l) ∧
        ({ s with kernel := k, mutex := m }.moveTo t l).Inv ∨
      e = none ∧ (({ s with kernel := k, mutex := m }.setPhase t p).monitor = s.monitor.enter t r l) ∧
        ({ s with kernel := k, mutex := m }.setPhase t p).Inv := by
  obtain ⟨hwf, htimed, hshape, heff⟩ := h.wf.pthreadMutexLock h.timed h.shape hr hlock
  have hmon := h.monitor.enter hfree r l
  cases heff with
  | deadlock ho hv hw => exact absurd ho hnot
  | acquired ho hm hv hw =>
    have heq := monitor_enter_free ho hm hv r l
    have hk : Releases s.kernel t k := by
      refine ⟨hwf, htimed, hw, fun u => .inl ?_, fun u hut => ?_, fun w u hu => ?_⟩
      · rw [hv]
      · rw [hv]
        exact update_of_ne hut _ _
      · rwa [hv] at hu
    exact .inl ⟨rfl, heq, h.next_moveTo hr hk hshape h.sem (heq ▸ hmon)⟩
  | blocked ho hne hv hpark =>
    have hk : s.Suspends t none k := ⟨by rw [hv], by rw [hv], by rw [hv]⟩
    have heq := monitor_enter_held hp ho hne hk l
    have hqueued := (place_of_locking (setPhase_locking (s := { s with kernel := k }) hp t)).trans (if_pos hk.self)
    have hframe : s.Frame t ({ s with kernel := k }.setPhase t p) :=
      h.frame_parks hpark hk (fun u hut => update_of_ne hut _ _) (by rw [hqueued]; exact id)
        (fun hpos => absurd hpos (by decide))
    exact .inr ⟨rfl, heq, h.next hframe hwf htimed hshape h.sem (heq ▸ hmon)⟩

end

theorem Inv.monitor_pass (h : s.Inv) (ho : s.mutex.owner = some t) {e : Errno}
    (heff : s.kernel.UnlockEffect none s.mutex t k m e) :
    e = .ok ∧ { s with kernel := k, mutex := m }.monitor = s.monitor.pass := by
  cases heff with
  | idle ho' => simp [ho] at ho'
  | refused ho' hne => exact absurd (Option.some.inj (ho'.symm.trans ho)) hne
  | @handed _ u q p _ hl hm hv =>
    have hqueue : s.monitor.queue = u :: q := hl
    obtain ⟨r, hr, hhand⟩ := h.monitor.queue_place (by rw [hqueue]; exact mem_cons_self)
    unfold State.pass
    rw [hqueue]
    have hspares : s.Spares u { s with kernel := k, mutex := m } := by
      intro v hvu
      rw [hv]
      exact ⟨rfl, update_of_ne hvu _ _, rfl⟩
    have hwait : k.view.waiting = update s.kernel.view.waiting none q := congrArg View.waiting hv
    refine ⟨rfl, State.ext hm ?_ rfl (funext fun c => ?_) rfl (hspares.place ?_) rfl⟩
    · exact (congrFun hwait none).trans (update_self ..)
    · exact (congrFun hwait (some c)).trans (update_of_ne (by simp) _ _)
    · rw [hhand]
      exact place_handed hr rfl ((congrFun (congrArg View.stat hv) u).trans (update_self ..))
  | freed _ hl hm hv =>
    have hqueue : s.monitor.queue = [] := hl
    unfold State.pass
    rw [hqueue]
    refine ⟨rfl, State.ext hm ?_ rfl (funext fun c => ?_) rfl (funext fun v => ?_) rfl⟩
    · exact (congrFun (congrArg View.waiting hv) none).trans hl
    · exact congrFun (congrArg View.waiting hv) (some c)
    · exact place_congr rfl (by rw [hv]) (by rw [hv])

theorem Releases.unlock {m' : Mutex T} {e : Errno} (hwf : j.Wf) (htimed : j.Timed) (hw : k.Wakes j)
    (heff : k.UnlockEffect none m t j m' e) : Releases k t j := by
  cases heff with
  | idle ho hv => exact .of_view hwf htimed hw hv
  | freed ho hl hm hv =>
    refine ⟨hwf, htimed, hw, fun u => .inl ?_, fun u _ => ?_, fun w u hu => ?_⟩
    · rw [hv]
    · rw [hv]
    · rwa [hv] at hu
  | refused ho hne hv =>
    refine ⟨hwf, htimed, hw, fun u => .inl ?_, fun u hut => ?_, fun w u hu => ?_⟩
    · rw [hv]
    · rw [hv]
      exact update_of_ne hut _ _
    · rwa [hv] at hu
  | handed ho hl hm hv => exact .of_head hwf htimed hw hl (by rw [hv]) (by rw [hv]) (by rw [hv])

section

include h hr

theorem Inv.lock (hp : s.phase t = .start) (hs : s.lock P t = some s') :
    s.monitor.exec (pthreadProgram P) t .lock = s'.monitor ∧ s'.Inv := by
  have hplace : s.monitor.place t = .run := place_start hp
  obtain ⟨⟨k, m, e⟩, hlock, hs⟩ := map_eq_some_iff.mp hs
  unfold State.exec
  by_cases ho : s.mutex.owner = some t
  · obtain ⟨hwf, htimed, hshape, heff⟩ := h.wf.pthreadMutexLock h.timed h.shape hr hlock
    have hexec := h.monitor.moveTo (by rw [hplace]; trivial) (P.ret (s.label t) .refused)
    rw [if_pos (show s.monitor.owner = some t from ho)]
    cases heff with
    | acquired ho' => simp [ho] at ho'
    | blocked ho' hne => exact absurd (Option.some.inj (ho'.symm.trans ho)) hne
    | deadlock ho' hv hw =>
      have heq := monitor_moveTo_view (t := t) (by rw [hv]) (by rw [hv]) (fun u _ => by rw [hv])
        (P.ret (s.label t) .refused)
      subst hs
      exact ⟨heq.symm, h.next_moveTo hr (.of_view hwf htimed hw hv) hshape h.sem (heq ▸ hexec)⟩
  · rw [if_neg (show s.monitor.owner ≠ some t from ho)]
    obtain ⟨rfl, heq, hinv⟩ | ⟨rfl, heq, hinv⟩ := h.enter (.inl ⟨rfl, rfl⟩) hr ho (by rw [hplace]; trivial)
      (P.ret (s.label t) .done) hlock
    all_goals
      subst hs
      exact ⟨heq.symm, hinv⟩

theorem Inv.relock (hp : s.place t = .woken r)
    (hs : s.relock P t r = some s') : s.monitor.enter t r (P.ret (s.label t) r) = s'.monitor ∧ s'.Inv := by
  have hplace : s.monitor.place t = .woken r := hp
  obtain ⟨⟨k, m, e⟩, hlock, hs⟩ := map_eq_some_iff.mp hs
  have hnot : s.mutex.owner ≠ some t := by
    intro ho
    have := h.monitor.owner t ho
    simp [hplace] at this
  obtain ⟨rfl, heq, hinv⟩ | ⟨rfl, heq, hinv⟩ := h.enter (r := r) (.inr rfl) hr hnot (by rw [hplace]; trivial)
    (P.ret (s.label t) r) hlock
  all_goals
    subst hs
    exact ⟨heq.symm, hinv⟩

theorem Inv.unlock (hp : s.phase t = .start) :
    s.monitor.exec (pthreadProgram P) t .unlock = (s.unlock P t).monitor ∧ (s.unlock P t).Inv := by
  have hexec := h.monitor.exec (P := pthreadProgram P) (place_start hp) .unlock
  obtain ⟨k, m, e, hu⟩ : ∃ k m e, pthreadMutexUnlock (s.kernel.dispatch t) none s.mutex = (k, m, e) :=
    ⟨_, _, _, rfl⟩
  obtain ⟨hwf, htimed, hw, hshape, heff⟩ := h.wf.pthreadMutexUnlock h.timed h.shape hu
  have hk := Releases.unlock hwf htimed hw heff
  have hs : s.unlock P t = { s with kernel := k, mutex := m }.moveTo t (P.ret (s.label t) e.result) := by
    unfold MonitorSystem.unlock
    rw [hu]
  have heq : s.monitor.exec (pthreadProgram P) t .unlock = (s.unlock P t).monitor := by
    rw [hs]
    unfold State.exec
    dsimp only
    by_cases ho : s.monitor.owner = some t
    · obtain ⟨rfl, hpass⟩ := h.monitor_pass ho heff
      rw [if_pos ho, monitor_moveTo, hpass]
      rfl
    · rw [if_neg ho]
      cases heff with
      | handed ho' | freed ho' => exact absurd ho' ho
      | idle ho' hv =>
        rw [if_pos (show s.monitor.owner = none from ho')]
        exact (monitor_moveTo_view (by rw [hv]) (by rw [hv]) hk.error _).symm
      | refused ho' hne hv =>
        rw [if_neg (ne_none_iff_exists'.mpr ⟨_, ho'⟩ : s.monitor.owner ≠ none)]
        exact (monitor_moveTo_view (by rw [hv]) (by rw [hv]) hk.error _).symm
  refine ⟨heq, ?_⟩
  rw [heq] at hexec
  rw [hs] at hexec ⊢
  exact h.next_moveTo hr hk hshape h.sem hexec

theorem Inv.wait (hp : s.phase t = .start) (c : C) (time : BitVec 32) :
    s.monitor.exec (pthreadProgram P) t (.wait c time) = (s.wait P t c time).monitor ∧ (s.wait P t c time).Inv := by
  have hexec := h.monitor.exec (P := pthreadProgram P) (place_start hp) (.wait c time)
  unfold State.exec at hexec ⊢
  dsimp only at hexec ⊢
  unfold MonitorSystem.wait
  by_cases ho : s.mutex.owner = some t
  · rw [if_pos (show s.monitor.owner = some t from ho)] at hexec ⊢
    rw [if_neg (not_not.mpr ho)]
    obtain ⟨k, m, e, hu⟩ : ∃ k m e, pthreadMutexUnlock (s.kernel.dispatch t) none s.mutex = (k, m, e) :=
      ⟨_, _, _, rfl⟩
    obtain ⟨hwf, htimed, hw, hshape, heff⟩ := h.wf.pthreadMutexUnlock h.timed h.shape hu
    obtain ⟨rfl, hpass⟩ := h.monitor_pass ho heff
    rw [hu]
    have heq := monitor_setPhase (s := { s with kernel := k, mutex := m }) (t := t) (p := .dropped c time)
      (place_of_dropped (update_self ..))
    rw [hpass] at heq
    exact ⟨heq.symm, h.next_setPhase hr (.unlock hwf htimed hw heff) hshape h.sem (by simp) (heq ▸ hexec)⟩
  · rw [if_neg (show s.monitor.owner ≠ some t from ho)] at hexec ⊢
    rw [if_pos ho]
    have heq := monitor_moveTo s t (P.ret (s.label t) .refused)
    exact ⟨heq.symm, h.next_moveTo hr (h.releases_refl t) h.shape h.sem (heq ▸ hexec)⟩

end

theorem monitor_take_blocked (time : BitVec 32) (hk : s.Suspends t (some c) k) :
    ((s.setSem k c (s.sem c)).setPhase t (.waiting c time)).monitor =
      (s.monitor.setPlace t (.parked c (semPatience time))).setList c (s.monitor.list c ++ [t]) := by
  have hspares : s.Spares t ((s.setSem k c (s.sem c)).setPhase t (.waiting c time)) :=
    hk.spares (fun u hut => update_of_ne hut _ _)
  refine State.ext rfl (queue_of_waiting hk.waiting) (values_same s k c) (list_of_waiting hk.waiting) rfl
    (hspares.place ?_) rfl
  exact (place_of_waiting (update_self ..)).trans (if_pos hk.self)

section

include h

theorem Inv.take (hr : s.kernel.view.stat t = .ready) (hp : s.phase t = .dropped c time)
    (hs : s.take t c time = some s') : s.monitor.take t c (semPatience time) = s'.monitor ∧ s'.Inv := by
  have hmon := h.monitor.take ⟨_, place_of_dropped hp⟩ (semPatience time)
  obtain ⟨⟨k, x, o⟩, htake, hs⟩ := map_eq_some_iff.mp hs
  obtain ⟨hwf, heff⟩ := h.wf.semTake hr htake
  have htimed := Kernel.Timed.semTake (k := s.kernel.dispatch t) h.timed (open_dispatch hr) htake
  unfold State.take at hmon ⊢
  have hvalue : s.monitor.value c = (s.sem c).value := rfl
  have hretake : ∀ (x : Semaphore) (r : Result), k.view = s.kernel.view →
      ((s.setSem k c x).setPhase t (.retake r)).monitor = (s.monitor.setPlace t (.woken r)).setValue c x.value := by
    intro x r hk
    rw [monitor_setPhase (place_of_retake (update_self ..)), monitor_setSem hk]
    rfl
  cases heff with
  | taken hv hk =>
    rw [if_pos (show 0 < s.monitor.value c from hv)] at hmon ⊢
    have heq := hretake { s.sem c with value := (s.sem c).value - 1 } .done hk
    subst hs
    have hlt : (s.sem c).value - 1 < 65536 := lt_of_le_of_lt (Nat.sub_le _ 1) (h.value_lt c)
    exact ⟨heq.symm, h.next_setPhase hr (.of_view hwf htimed (semTake_wakes htake) hk) h.shape
      (h.setSem ⟨h.fifo c, hlt⟩) (by simp) (heq ▸ hmon)⟩
  | refused hv hk =>
    have hnever : semPatience time = .never := by
      rw [semPatience, if_pos (semTake_refused htake)]
    rw [if_neg (by simp [hvalue, hv]), if_pos hnever] at hmon ⊢
    have heq := (hretake (s.sem c) .expired hk).trans (State.setValue_self _ c)
    subst hs
    exact ⟨heq.symm, h.next_setPhase hr (.of_view hwf htimed (semTake_wakes htake) hk) h.shape
      (h.setSem (h.sem c)) (by simp) (heq ▸ hmon)⟩
  | blocked hv hv' =>
    obtain ⟨hz, hpark⟩ := h.timed.semTake_parks hr htake
    have hnever : semPatience time ≠ .never := by
      rw [semPatience, if_neg hz]
      split_ifs <;> simp
    rw [if_neg (by simp [hvalue, hv]), if_neg hnever] at hmon ⊢
    rw [h.fifo c] at hv'
    have hk : s.Suspends t (some c) k := ⟨by rw [hv'], by rw [hv'], by rw [hv']; rfl⟩
    have heq := monitor_take_blocked time hk
    have hparked := (place_of_waiting (s := (s.setSem k c (s.sem c)).setPhase t (.waiting c time))
      (update_self ..)).trans (if_pos hk.self)
    subst hs
    have hframe : s.Frame t ((s.setSem k c (s.sem c)).setPhase t (.waiting c time)) :=
      h.frame_parks hpark hk (fun u hut => update_of_ne hut _ _) (by rw [hparked]; exact id)
        (fun _ => ⟨c, update_self ..⟩)
    exact ⟨heq.symm, h.next hframe hwf htimed h.shape (h.setSem (h.sem c)) (heq ▸ hmon)⟩

theorem Inv.monitor_grant (heff : SemReleaseEffect (s.kernel.dispatch t) (some c) (s.sem c) k x) :
    (s.setSem k c x).monitor = s.monitor.grant 65536 c := by
  unfold State.grant
  cases heff with
  | counted hl =>
    rw [show s.monitor.list c = [] from hl]
    exact monitor_setSem rfl
  | @granted _ u q hl hv =>
    have hlist : s.monitor.list c = u :: q := hl
    have hmem : u ∈ s.monitor.list c := hlist ▸ mem_cons_self
    rw [hlist]
    have hwait : k.view.waiting = update s.kernel.view.waiting (some c) q := congrArg View.waiting hv
    have hspares : s.Spares u (s.setSem k c (s.sem c)) := by
      intro v hvu
      change _ ∧ k.view.stat v = _ ∧ k.view.error v = _
      rw [hv]
      exact ⟨rfl, update_of_ne hvu _ _, rfl⟩
    refine State.ext rfl (queue_of_waiting hwait) (values_same s k c) (list_of_waiting hwait) rfl (hspares.place ?_) rfl
    exact h.granted_place hmem ((congrFun (congrArg View.stat hv) u).trans (update_self ..)) (by rw [hv]; rfl)

theorem Inv.monitor_grantAll {n : ℕ} (hn : n = if (s.sem c).value = 0 then 1 else (s.sem c).value)
    (hv : k.view = s.kernel.view.released (some c)) :
    (s.setSem k c { s.sem c with value := n }).monitor = s.monitor.grantAll c := by
  have hwait : k.view.waiting = update s.kernel.view.waiting (some c) [] := congrArg View.waiting hv
  have hstat : ∀ u, k.view.stat u = if u ∈ s.kernel.view.waiting (some c) then .ready else s.kernel.view.stat u :=
    congrFun (congrArg View.stat hv)
  have herr : ∀ u, k.view.error u = s.kernel.view.error u := fun u => by rw [hv]
  refine State.ext rfl (queue_of_waiting hwait) ?_ (list_of_waiting hwait) rfl (funext fun u => ?_) rfl
  · exact Function.eq_update_iff.mpr ⟨(congrArg value (update_self ..)).trans hn, fun d hd =>
      congrArg value (update_of_ne hd _ _)⟩
  · change place _ u = if u ∈ s.kernel.view.waiting (some c) then .woken .done else s.place u
    split_ifs with hu
    · exact h.granted_place hu ((hstat u).trans (if_pos hu)) (herr u)
    · exact place_congr rfl ((hstat u).trans (if_neg hu)) (herr u)

section

include hr

theorem Inv.signal (hp : s.phase t = .start) (c : C) (hs : s.exec P t (.signal c) = some s') :
    s.monitor.exec (pthreadProgram P) t (.signal c) = s'.monitor ∧ s'.Inv := by
  have hmon := h.monitor.exec (P := pthreadProgram P) (place_start hp) (.signal c)
  have hwf := (h.wf.dispatch t).semRelease (some c) (s.sem c)
  have hw := (wakes_dispatch s.kernel t).trans (wakes_semRelease _ (some c) (s.sem c))
  have hq := Kernel.Timed.semRelease (k := s.kernel.dispatch t) h.timed (s.sem c) (w := some c)
  obtain ⟨k, x, e, hk⟩ : ∃ k x e, semRelease (s.kernel.dispatch t) (some c) (s.sem c) = (k, x, e) :=
    ⟨_, _, _, rfl⟩
  rw [hk] at hwf hw hq
  simp only [MonitorSystem.exec, pthreadCondSignal, hk] at hs
  have heq : s.monitor.exec (pthreadProgram P) t (.signal c) = s'.monitor := by
    rw [← Option.some.inj hs, monitor_moveTo, h.monitor_grant hwf.2]
    rfl
  refine ⟨heq, ?_⟩
  rw [heq] at hmon
  cases hs
  obtain ⟨hk, hx⟩ : Releases s.kernel t k ∧ x.flag = .fifo ∧ x.value < 65536 := by
    cases hwf.2 with
    | counted hl => exact ⟨.of_view hwf.1 hq hw rfl, h.fifo c, Nat.mod_lt _ (by decide)⟩
    | granted hl hv =>
      exact ⟨.of_head hwf.1 hq hw hl (by rw [hv]; rfl) (by rw [hv]; rfl)
        (by rw [hv]; rfl), h.sem c⟩
  exact h.next_moveTo hr hk h.shape (h.setSem hx) hmon

theorem Inv.broadcast (hp : s.phase t = .start) (c : C) (hs : s.exec P t (.broadcast c) = some s') :
    s.monitor.exec (pthreadProgram P) t (.broadcast c) = s'.monitor ∧ s'.Inv := by
  have hmon := h.monitor.exec (P := pthreadProgram P) (place_start hp) (.broadcast c)
  obtain ⟨k, hk, hwf, htimed, hw, hv⟩ := (h.wf.dispatch t).pthreadCondBroadcast h.timed
    (h.value_lt c) (h.monitor.value c)
  unfold MonitorSystem.exec at hs
  dsimp only at hs
  rw [hk] at hs
  have heq : s.monitor.exec (pthreadProgram P) t (.broadcast c) = s'.monitor := by
    rw [← Option.some.inj hs, monitor_moveTo, h.monitor_grantAll rfl hv]
    rfl
  refine ⟨heq, ?_⟩
  rw [heq] at hmon
  cases hs
  have hk : Releases s.kernel t k := by
    refine ⟨hwf, htimed, (wakes_dispatch s.kernel t).trans hw, fun u => ?_, fun u _ => ?_, fun w u hu => ?_⟩
    · rw [hv]
      dsimp only
      split_ifs
      · exact .inr rfl
      · exact .inl rfl
    · rw [hv]
      rfl
    · rw [hv] at hu
      dsimp only at hu
      obtain rfl | hw' := eq_or_ne w (some c)
      · rw [update_self] at hu
        exact absurd hu not_mem_nil
      · rwa [update_of_ne hw'] at hu
  refine h.next_moveTo hr hk h.shape (h.setSem
    (x := ⟨if (s.sem c).value = 0 then 1 else _, _⟩) ⟨h.fifo c, ?_⟩) hmon
  dsimp only
  split_ifs
  · decide
  · exact h.value_lt c

theorem Inv.count (hp : s.phase t = .start)
    (hk : k = s.kernel ∨ k = s.kernel.dispatch t) (hx : x.flag = .fifo ∧ x.value < 65536)
    (hlist : 0 < x.value → s.monitor.list c = []) (l : L) :
    (s.monitor.setValue c x.value).moveTo t l = ((s.setSem k c x).moveTo t l).monitor ∧
    ((s.setSem k c x).moveTo t l).Inv := by
  have hplace : s.monitor.place t = .run := place_start hp
  have hmon := (h.monitor.setValue hlist).moveTo (l := l) (by
    rw [State.setValue_place, hplace]
    trivial)
  obtain ⟨hk, hv⟩ : Releases s.kernel t k ∧ k.view = s.kernel.view := by
    obtain rfl | rfl := hk
    · exact ⟨h.releases_refl t, rfl⟩
    · exact ⟨h.releases_dispatch t, rfl⟩
  have heq : (s.monitor.setValue c x.value).moveTo t l = ((s.setSem k c x).moveTo t l).monitor := by
    rw [monitor_moveTo, monitor_setSem hv]
  exact ⟨heq, h.next_moveTo hr hk h.shape (h.setSem hx) (heq ▸ hmon)⟩

theorem Inv.exec (hp : s.phase t = .start) (cmd : Cmd C L D (BitVec 32))
    (hs : s.exec P t cmd = some s') : s.monitor.exec (pthreadProgram P) t cmd = s'.monitor ∧ s'.Inv := by
  cases cmd with
  | lock => exact h.lock hr hp hs
  | unlock =>
    cases hs
    exact h.unlock hr hp
  | wait c time =>
    cases hs
    exact h.wait hr hp c time
  | signal c => exact h.signal hr hp c hs
  | broadcast c => exact h.broadcast hr hp c hs
  | tryTake c =>
    unfold MonitorSystem.exec at hs
    dsimp only at hs
    rw [semTrytake_eq] at hs
    unfold State.exec
    dsimp only
    by_cases hv : 0 < s.monitor.value c
    · rw [if_pos (show 0 < (s.sem c).value from hv)] at hs
      rw [if_pos hv]
      cases hs
      have hlt : (s.sem c).value - 1 < 65536 := lt_of_le_of_lt (Nat.sub_le _ 1) (h.value_lt c)
      exact h.count hr hp (.inr rfl) (x := { s.sem c with value := (s.sem c).value - 1 }) ⟨h.fifo c, hlt⟩
        (fun _ => h.monitor.value c hv) _
    · rw [if_neg (show ¬ 0 < (s.sem c).value from hv)] at hs
      rw [if_neg hv]
      cases hs
      have hcount := h.count (c := c) hr hp (.inr rfl) (h.sem c) (fun hv' => absurd hv' hv) (P.ret (s.label t) .expired)
      rwa [show (s.sem c).value = s.monitor.value c from rfl, State.setValue_self] at hcount
  | clear c =>
    cases hs
    exact h.count hr hp (.inl rfl) (x := condCleared) ⟨rfl, by decide⟩ (fun hv => absurd hv (by decide)) _
  | assign d l =>
    cases hs
    exact h.moveTo hr l d

end

theorem Inv.turn {x : X} (hs : s.turn P t x = some s') :
    s.monitor.turn (pthreadProgram P) t x = some s'.monitor ∧ s'.Inv := by
  unfold MonitorSystem.turn at hs
  by_cases hr : s.kernel.view.stat t = .ready
  swap
  · rw [if_neg hr] at hs
    cases hs
  rw [if_pos hr] at hs
  have hsus : s.kernel.view.stat t ≠ .suspend := by simp [hr]
  have hhanded : ∀ r, s.phase t = .locking ∧ r = .done ∨ s.phase t = .retaking r →
    s.monitor.place t = .handed r :=
    fun r hp => (place_of_locking hp).trans (if_neg hsus)
  unfold State.turn
  cases hp : s.phase t with
  | start =>
    simp only [hp] at hs
    obtain ⟨cmd, hcmd, hs⟩ := bind_eq_some_iff.mp hs
    obtain ⟨heq, hinv⟩ := h.exec hr hp cmd hs
    rw [show s.monitor.place t = .run from place_start hp, ← heq]
    exact ⟨congrArg (Option.map _) hcmd, hinv⟩
  | locking =>
    simp only [hp] at hs
    rw [hhanded .done (.inl ⟨hp, rfl⟩)]
    rw [if_pos (show mutexTakeReturn s.kernel t = .eok from h.locking t hp)] at hs
    cases hs
    obtain ⟨heq, hinv⟩ := h.moveTo hr (P.ret (s.label t) .done) s.data
    exact ⟨congrArg some heq, hinv⟩
  | dropped c time =>
    simp only [hp] at hs
    obtain ⟨heq, hinv⟩ := h.take hr hp hs
    rw [show s.monitor.place t = .dropped c (semPatience time) from place_of_dropped hp]
    exact ⟨congrArg some heq, hinv⟩
  | waiting c time =>
    simp only [hp] at hs
    have hplace : s.place t = .woken (semTakeReturn s.kernel t).waitErrno.result :=
      (place_of_waiting hp).trans (if_neg hsus)
    obtain ⟨heq, hinv⟩ := h.relock hr hplace hs
    rw [show s.monitor.place t = _ from hplace]
    exact ⟨congrArg some heq, hinv⟩
  | retake r =>
    simp only [hp] at hs
    obtain ⟨heq, hinv⟩ := h.relock hr (place_of_retake hp) hs
    rw [show s.monitor.place t = .woken r from place_of_retake hp]
    exact ⟨congrArg some heq, hinv⟩
  | retaking r =>
    simp only [hp] at hs
    rw [hhanded r (.inr hp)]
    cases hs
    obtain ⟨heq, hinv⟩ := h.moveTo hr (P.ret (s.label t) r) s.data
    exact ⟨congrArg some heq, hinv⟩

theorem Inv.expire (hk : s.kernel.timerExpire t = some k) :
    s.monitor.step (pthreadProgram P) (.expire t) = some { s with kernel := k }.monitor ∧
    { s with kernel := k }.Inv := by
  obtain ⟨hwf, hsus, hv⟩ := h.wf.timerExpire_view hk
  have hlinked : (s.kernel.thread t).timer.linked = true := by
    unfold timerExpire at hk
    split_ifs at hk with hl
    exact hl
  obtain ⟨c, time, hp, hpos⟩ := h.linked t hsus hlinked
  have hz : time ≠ 0 := by
    rintro rfl
    exact absurd hpos (by decide)
  have hplace : s.monitor.place t = .parked c .timed := by
    rw [show Patience.timed = semPatience time by rw [semPatience, if_neg hz, if_pos hpos]]
    exact (place_of_waiting hp).trans (if_pos hsus)
  have hmem : t ∈ s.kernel.view.waiting (some c) := (h.monitor.parked t c).mpr ⟨_, hplace⟩
  have herase : ∀ w, k.view.waiting w = (s.kernel.view.waiting w).erase t := congrFun (congrArg View.waiting hv)
  have hwait : k.view.waiting = update s.kernel.view.waiting (some c) ((s.kernel.view.waiting (some c)).erase t) := by
    refine Function.eq_update_iff.mpr ⟨herase _, fun w hw => ?_⟩
    rw [herase, erase_of_not_mem (fun hm => hw (h.wf.view_unique hm hmem))]
  have hready : k.view.stat t = .ready := (congrFun (congrArg View.stat hv) t).trans (update_self ..)
  have hspares : s.Spares t { s with kernel := k } := by
    intro u hut
    rw [hv]
    exact ⟨rfl, update_of_ne hut _ _, update_of_ne hut _ _⟩
  have heq : { s with kernel := k }.monitor =
      (s.monitor.setPlace t (.woken .expired)).setList c ((s.monitor.list c).erase t) := by
    refine State.ext rfl (queue_of_waiting hwait) rfl (list_of_waiting hwait) rfl (hspares.place ?_) rfl
    exact place_woken (e := .etimeout) hplace rfl hready
      ((congrFun (congrArg View.error hv) t).trans (update_self ..))
  have hstep : s.monitor.step (pthreadProgram P) (.expire t) = some { s with kernel := k }.monitor := by
    rw [State.step, hplace, heq]
  refine ⟨hstep, h.next ⟨fun u hut => .inl (hspares u hut).2.1, .inl hready, fun u hut => (hspares u hut).2.2,
    fun _ _ => rfl, fun w u _ hu => ?_, fun w hu => ?_, fun hl => ?_,
    fun u => h.linked_wakes (timerExpire_wakes hk).1 (fun _ _ => rfl)⟩ hwf (h.timed.timerExpire hk) h.shape h.sem
    (h.monitor.step hstep)⟩
  · exact mem_of_mem_erase (herase w ▸ hu)
  · exact absurd (herase w ▸ hu) (h.wf.view_nodup w).not_mem_erase
  · exact absurd (hp.symm.trans hl) (by simp)

theorem Inv.step {e : CondMonitor.Event T X} (hs : s.step P e = some s') :
    s.monitor.step (pthreadProgram P) e = some s'.monitor ∧ s'.Inv := by
  cases e with
  | run t x => exact h.turn hs
  | expire t =>
    obtain ⟨k, hk, rfl⟩ := map_eq_some_iff.mp hs
    exact h.expire hk

theorem Inv.exec_isSome (cmd : Cmd C L D (BitVec 32)) : (s.exec P t cmd).isSome := by
  cases cmd with
  | lock =>
    unfold MonitorSystem.exec MonitorSystem.lock
    rw [isSome_map]
    exact pthreadMutexLock_isSome _ _ _ h.shape
  | unlock | wait c time | signal c => rfl
  | broadcast c =>
    obtain ⟨k, hk, -⟩ := (h.wf.dispatch t).pthreadCondBroadcast h.timed
      (h.value_lt c) (h.monitor.value c)
    unfold MonitorSystem.exec
    dsimp only
    rw [hk]
    rfl
  | tryTake c =>
    unfold MonitorSystem.exec
    dsimp only
    rw [semTrytake_eq]
    rfl
  | clear c | assign d l => rfl

theorem Inv.step_isSome {x : X} (hmon : (s.monitor.step (pthreadProgram P) (.run t x)).isSome)
    (htime : ∀ c, s.phase t ≠ .dropped c 0x7fffffff) : (s.step P (.run t x)).isSome := by
  have hfree : (s.place t).Free := by
    rw [State.step, State.turn] at hmon
    cases hp : s.monitor.place t with
    | queued r | parked c p => simp [hp] at hmon
    | run => exact (show s.place t = .run from hp) ▸ trivial
    | handed r => exact (show s.place t = .handed r from hp) ▸ trivial
    | dropped c p => exact (show s.place t = .dropped c p from hp) ▸ trivial
    | woken r => exact (show s.place t = .woken r from hp) ▸ trivial
  have hr := h.ready_of_free hfree
  rw [State.step, State.turn] at hmon
  unfold MonitorSystem.step MonitorSystem.turn
  dsimp only
  rw [if_pos hr]
  cases hp : s.phase t with
  | start =>
    rw [show s.monitor.place t = .run from place_start hp] at hmon
    rw [isSome_map] at hmon
    obtain ⟨cmd, hcmd⟩ := isSome_iff_exists.mp hmon
    rw [show P.cmd t (s.label t) s.data x = some cmd from hcmd]
    exact h.exec_isSome cmd
  | locking => rfl
  | dropped c time =>
    unfold MonitorSystem.take
    rw [isSome_map]
    exact semTake_isSome _ _ _ _ (fun he => htime c (he ▸ hp))
  | waiting c time | retake r =>
    unfold MonitorSystem.relock
    rw [isSome_map]
    exact pthreadMutexLock_isSome _ _ _ h.shape
  | retaking r => rfl

theorem Inv.exists_exec (hrun : s.place t = .run) {x : X} {cmd : Cmd C L D (BitVec 32)}
    (hcmd : P.cmd t (s.label t) s.data x = some cmd) :
    ∃ s', s.step P (.run t x) = some s' ∧ s'.monitor = s.monitor.exec (pthreadProgram P) t cmd ∧ s'.Inv := by
  have hmon : s.monitor.step (pthreadProgram P) (.run t x) = some (s.monitor.exec (pthreadProgram P) t cmd) := by
    rw [State.step, State.turn, show s.monitor.place t = .run from hrun]
    exact map_eq_some_iff.mpr ⟨cmd, hcmd, rfl⟩
  have htime : ∀ c, s.phase t ≠ .dropped c 0x7fffffff := by
    intro c hc
    exact absurd (hrun.symm.trans (place_of_dropped hc)) (by simp)
  obtain ⟨s', hs'⟩ := isSome_iff_exists.mp (h.step_isSome (by rw [hmon]; rfl) htime)
  obtain ⟨hsim, h'⟩ := h.step hs'
  exact ⟨s', hs', Option.some.inj (hsim.symm.trans hmon), h'⟩

end

end MonitorSystem

end RtThread
