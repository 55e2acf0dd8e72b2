import RtThread.Ipc.View

namespace RtThread

open Function

structure Mutex (T : Type) where
  value : ℕ
  owner : Option T
  originalPriority : ℕ
  hold : ℕ
  flag : IpcFlag
  deriving DecidableEq

variable {T W : Type} [DecidableEq T] [DecidableEq W]

def mutexInit (flag : IpcFlag) : Mutex T :=
  { value := 1, owner := none, originalPriority := 0xff, hold := 0, flag }

def mutexTake (k : Kernel T W) (w : W) (mutex : Mutex T) (time : BitVec 32) :
    Option (Kernel T W × Mutex T × Outcome) :=
  match k.current with
  | none => some (k, mutex, .returned .eok)
  | some t =>
    let k := k.setError t .eok
    if mutex.owner = some t then
      some (k, { mutex with hold := (mutex.hold + 1) % 256 }, .returned .eok)
    else if 0 < mutex.value then
      some (k, { mutex with
        value := mutex.value - 1, owner := some t, originalPriority := k.priority t
        hold := (mutex.hold + 1) % 256 }, .returned .eok)
    else if time = 0 then some (k.setError t .etimeout, mutex, .returned .etimeout)
    else
      match mutex.owner with
      | none => none
      | some o =>
        let k := if k.priority t < k.priority o then k.threadChangePriority o (k.priority t) else k
        (k.suspendFor w t mutex.flag time).map (fun k => (k, mutex, .blocked))

def mutexTakeReturn (k : Kernel T W) (t : T) : Err := (k.thread t).error

def mutexRelease (k : Kernel T W) (w : W) (mutex : Mutex T) : Kernel T W × Mutex T × Err :=
  match k.current with
  | none => (k, mutex, .eok)
  | some t =>
    if mutex.owner ≠ some t then (k.setError t .error, mutex, .error)
    else
      let mutex := { mutex with hold := (mutex.hold + 255) % 256 }
      if mutex.hold = 0 then
        let k := if mutex.originalPriority ≠ k.priority t then
          k.threadChangePriority t mutex.originalPriority else k
        match k.lists (.wait w) with
        | u :: _ =>
          -- `value` stays 0 in a hand-over
          let mutex := { mutex with
            owner := some u, originalPriority := k.priority u, hold := (mutex.hold + 1) % 256 }
          ((k.ipcListResume w).schedule, mutex, .eok)
        | [] =>
          (k, { mutex with
            value := (mutex.value + 1) % 65536, owner := none, originalPriority := 0xff }, .eok)
      else (k, mutex, .eok)

inductive TakeEffect (v : View T W) (w : W) (x : Mutex T) (t : T) (time : BitVec 32) :
    View T W → Mutex T → Outcome → Prop
  | nested (ho : x.owner = some t) : TakeEffect v w x t time
      (v.setError t .eok)
      { x with hold := (x.hold + 1) % 256 } (.returned .eok)
  | acquired (ho : x.owner ≠ some t) (hv : 0 < x.value) : TakeEffect v w x t time
      (v.setError t .eok)
      { x with value := x.value - 1, owner := some t, originalPriority := v.priority t
               hold := (x.hold + 1) % 256 } (.returned .eok)
  | refused (ho : x.owner ≠ some t) (hv : x.value = 0) (hz : time = 0) : TakeEffect v w x t time
      (v.setError t .etimeout) x (.returned .etimeout)
  | blocked {o : T} {p : T → ℕ} (ho : x.owner = some o) (hne : o ≠ t) (hv : x.value = 0) (hz : time ≠ 0)
      (hp : p = update v.priority o (min (v.priority o) (v.priority t))) :
      TakeEffect v w x t time
        ({ v with priority := p }.parked w x.flag t)
        x .blocked

variable {k : Kernel T W}

theorem Kernel.Wf.boost (hk : k.Wf) (o : T) {p : ℕ} (hp : p < 32) :
    (if p < k.priority o then k.threadChangePriority o p else k).Wf ∧
      (if p < k.priority o then k.threadChangePriority o p else k).view =
        { k.view with priority := update k.view.priority o (min (k.view.priority o) p) } := by
  have hv : k.view.priority o = k.priority o := rfl
  split_ifs with h
  · rw [hv, min_eq_right h.le]
    exact ⟨hk.threadChangePriority o hp, hk.changePriority_view o p⟩
  · refine ⟨hk, ?_⟩
    rw [hv, min_eq_left (not_lt.mp h), ← hv, update_eq_self]

theorem Kernel.Wf.mutexTake {k' : Kernel T W} (hk : k.Wf) {w : W} {x x' : Mutex T} {t : T}
    {time : BitVec 32} {r : Outcome} (hr : k.view.stat t = .ready)
    (h : RtThread.mutexTake (k.dispatch t) w x time = some (k', x', r)) :
    k'.Wf ∧ TakeEffect k.view w x t time k'.view x' r := by
  have hd : (k.dispatch t).current = some t := rfl
  simp only [RtThread.mutexTake, hd] at h
  have hj : ((k.dispatch t).setError t .eok).Wf := (hk.dispatch t).setError t .eok
  have hjv : ((k.dispatch t).setError t .eok).view = k.view.setError t .eok := by simp
  generalize (k.dispatch t).setError t .eok = j at h hj hjv
  split_ifs at h with ho hv hz
  · cases h
    exact ⟨hj, hjv ▸ .nested ho⟩
  · have hp : j.priority t = k.view.priority t := congrFun (congrArg View.priority hjv) t
    rw [hp] at h
    cases h
    exact ⟨hj, hjv ▸ .acquired ho hv⟩
  · cases h
    refine ⟨hj.setError t _, ?_⟩
    have hv' : (j.setError t .etimeout).view = k.view.setError t .etimeout := by simp [hjv]
    exact hv' ▸ .refused ho (by omega) hz
  · cases hx : x.owner with
    | none => simp [hx] at h
    | some o =>
      simp only [hx] at h
      obtain ⟨i, hi, hr'⟩ := Option.map_eq_some_iff.mp h
      cases hr'
      obtain ⟨hb, hbv⟩ := hj.boost o (hj.view_priority_lt t)
      have hstat : (if j.priority t < j.priority o then j.threadChangePriority o (j.priority t)
          else j).view.stat t = .ready := by
        rw [show j.priority t = j.view.priority t from rfl, hbv, hjv]; exact hr
      obtain ⟨hw, hview⟩ := hb.suspendFor_view hstat hi
      refine ⟨hw, ?_⟩
      rw [hview, hbv, hjv]
      have hne : o ≠ t := fun he => ho (he ▸ hx)
      exact .blocked hx hne (by omega) hz rfl

inductive ReleaseEffect (v : View T W) (w : W) (x : Mutex T) (t : T) :
    View T W → Mutex T → Err → Prop
  | refused (ho : x.owner ≠ some t) : ReleaseEffect v w x t
      (v.setError t .error) x .error
  | kept (ho : x.owner = some t) (hh : (x.hold + 255) % 256 ≠ 0) : ReleaseEffect v w x t
      v { x with hold := (x.hold + 255) % 256 } .eok
  | handed {u : T} {l : List T} {p : T → ℕ} (ho : x.owner = some t) (hh : (x.hold + 255) % 256 = 0)
      (hl : v.waiting w = u :: l) (hp : p = update v.priority t x.originalPriority) :
      ReleaseEffect v w x t
        ({ v with priority := p }.resumed w u l)
        { x with owner := some u, originalPriority := p u, hold := 1 } .eok
  | freed {p : T → ℕ} (ho : x.owner = some t) (hh : (x.hold + 255) % 256 = 0) (hl : v.waiting w = [])
      (hp : p = update v.priority t x.originalPriority) : ReleaseEffect v w x t
        { v with priority := p }
        { x with value := (x.value + 1) % 65536, owner := none, originalPriority := 0xff, hold := 0 } .eok

theorem Kernel.Wf.restore (hk : k.Wf) (t : T) {p : ℕ} (hp : p < 32) :
    (if p ≠ k.priority t then k.threadChangePriority t p else k).Wf ∧
      (if p ≠ k.priority t then k.threadChangePriority t p else k).view =
        { k.view with priority := update k.view.priority t p } := by
  split_ifs with h
  · exact ⟨hk.threadChangePriority t hp, hk.changePriority_view t p⟩
  · refine ⟨hk, ?_⟩
    rw [not_not.mp h, show k.priority t = k.view.priority t from rfl, update_eq_self]

theorem Kernel.Wf.mutexRelease {k' : Kernel T W} (hk : k.Wf) {w : W} {x x' : Mutex T} {t : T} {e : Err}
    (hp : x.owner = some t → x.originalPriority < 32) (h : RtThread.mutexRelease (k.dispatch t) w x = (k', x', e)) :
    k'.Wf ∧ ReleaseEffect k.view w x t k'.view x' e := by
  have hd : (k.dispatch t).current = some t := rfl
  simp only [RtThread.mutexRelease, hd] at h
  have hj : (k.dispatch t).Wf := hk.dispatch t
  have hjv : (k.dispatch t).view = k.view := rfl
  generalize k.dispatch t = j at h hj hjv
  rw [← hjv]
  by_cases ho : x.owner = some t
  swap
  · rw [if_pos ho] at h
    cases h
    exact ⟨hj.setError t _, by rw [setError_view]; exact .refused ho⟩
  rw [if_neg (not_not.mpr ho)] at h
  by_cases hh : (x.hold + 255) % 256 = 0
  · rw [if_pos hh] at h
    obtain ⟨hw, hwv⟩ := hj.restore t (hp ho)
    generalize (if x.originalPriority ≠ j.priority t then
      j.threadChangePriority t x.originalPriority else j) = i at h hw hwv
    cases hl : i.lists (.wait w) with
    | nil =>
      simp only [hl, Prod.mk.injEq] at h
      obtain ⟨rfl, rfl, rfl⟩ := h
      have hl' : j.view.waiting w = [] := by
        rw [← hl]; exact (congrFun (congrArg View.waiting hwv) w).symm
      refine ⟨hw, ?_⟩
      rw [hwv, hh]
      exact .freed ho hh hl' rfl
    | cons u l =>
      simp only [hl, Prod.mk.injEq] at h
      obtain ⟨rfl, rfl, rfl⟩ := h
      have hl' : j.view.waiting w = u :: l := by
        rw [← hl]; exact (congrFun (congrArg View.waiting hwv) w).symm
      obtain ⟨hres, _, hview⟩ := hw.ipcListResume_view hl
      refine ⟨hres.schedule, ?_⟩
      have hpu : i.priority u = i.view.priority u := rfl
      rw [schedule_view, hview, hpu, hwv, hh]
      exact .handed ho hh hl' rfl
  · rw [if_neg hh] at h
    cases h
    exact ⟨hj, .kept ho hh⟩

end RtThread
