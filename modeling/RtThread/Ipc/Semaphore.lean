import RtThread.Ipc.Parking

namespace RtThread

open Function

structure Semaphore where
  value : ℕ
  flag : IpcFlag
  deriving DecidableEq

inductive SemCtrl
  | reset (value : BitVec 32)
  | other
  deriving DecidableEq

variable {T W : Type} [DecidableEq T] [DecidableEq W]

def semInit (value : BitVec 32) (flag : IpcFlag) : Semaphore := { value := value.toNat % 65536, flag }

def semTake (k : Kernel T W) (w : W) (sem : Semaphore) (time : BitVec 32) :
    Option (Kernel T W × Semaphore × Outcome) :=
  if 0 < sem.value then some (k, { sem with value := sem.value - 1 }, .returned .eok)
  else if time = 0 then some (k, sem, .returned .etimeout)
  else
    match k.current with
    | none => none
    | some t => ((k.setError t .eok).suspendFor w t sem.flag time).map (fun k => (k, sem, .blocked))

def semTakeReturn (k : Kernel T W) (t : T) : Err := (k.thread t).error

def semTrytake (k : Kernel T W) (w : W) (sem : Semaphore) : Option (Kernel T W × Semaphore × Outcome) :=
  semTake k w sem 0

def semRelease (k : Kernel T W) (w : W) (sem : Semaphore) : Kernel T W × Semaphore × Err :=
  match k.lists (.wait w) with
  -- the unit goes to the waiter without passing through the counter
  | _ :: _ => ((k.ipcListResume w).schedule, sem, .eok)
  | [] => (k, { sem with value := (sem.value + 1) % 65536 }, .eok)

def semControl (k : Kernel T W) (w : W) (sem : Semaphore) : SemCtrl → Kernel T W × Semaphore × Err
  | .reset value => ((k.ipcListResumeAll w).schedule, { sem with value := value.toNat % 65536 }, .eok)
  | .other => (k, sem, .error)

theorem semTrytake_eq (k : Kernel T W) (w : W) (sem : Semaphore) :
    semTrytake k w sem = some (if 0 < sem.value then
      (k, { sem with value := sem.value - 1 }, .returned .eok) else (k, sem, .returned .etimeout)) := by
  by_cases h : 0 < sem.value <;> simp [semTrytake, semTake, h]

inductive SemTakeEffect (k : Kernel T W) (w : W) (x : Semaphore) (t : T) :
    Kernel T W → Semaphore → Outcome → Prop
  | taken {k' : Kernel T W} (hv : 0 < x.value) (hk : k'.view = k.view) :
      SemTakeEffect k w x t k' { x with value := x.value - 1 } (.returned .eok)
  | refused {k' : Kernel T W} (hv : x.value = 0) (hk : k'.view = k.view) :
      SemTakeEffect k w x t k' x (.returned .etimeout)
  | blocked {k' : Kernel T W} (hv : x.value = 0) (hk : k'.view = k.view.parked w x.flag t) :
      SemTakeEffect k w x t k' x .blocked

theorem Kernel.Wf.semTake {k k' : Kernel T W} (hk : k.Wf) {w : W} {x x' : Semaphore} {t : T}
    {time : BitVec 32} {r : Outcome} (hr : k.view.stat t = .ready)
    (h : RtThread.semTake (k.dispatch t) w x time = some (k', x', r)) : k'.Wf ∧ SemTakeEffect k w x t k' x' r := by
  have hd : (k.dispatch t).current = some t := rfl
  simp only [RtThread.semTake, hd] at h
  split_ifs at h with hv hz
  · cases h
    exact ⟨hk.dispatch t, .taken hv rfl⟩
  · cases h
    exact ⟨hk.dispatch t, .refused (by omega) rfl⟩
  · obtain ⟨i, hi, hr'⟩ := Option.map_eq_some_iff.mp h
    cases hr'
    obtain ⟨hw, hview⟩ := (hk.dispatch t).park_view hr hi
    exact ⟨hw, .blocked (by omega) hview⟩

inductive SemReleaseEffect (k : Kernel T W) (w : W) (x : Semaphore) : Kernel T W → Semaphore → Prop
  | granted {k' : Kernel T W} {t : T} {l : List T} (hl : k.view.waiting w = t :: l)
      (hk : k'.view = k.view.resumed w t l) : SemReleaseEffect k w x k' x
  | counted (hl : k.view.waiting w = []) :
      SemReleaseEffect k w x k { x with value := (x.value + 1) % 65536 }

theorem Kernel.Wf.semRelease {k : Kernel T W} (hk : k.Wf) (w : W) (x : Semaphore) :
    (RtThread.semRelease k w x).1.Wf ∧
      SemReleaseEffect k w x (RtThread.semRelease k w x).1 (RtThread.semRelease k w x).2.1 := by
  unfold RtThread.semRelease
  cases hl : k.lists (.wait w) with
  | nil => exact ⟨hk, .counted hl⟩
  | cons t l =>
    obtain ⟨hw, _, hv⟩ := hk.ipcListResume_view hl
    exact ⟨hw.schedule, .granted hl (by rw [schedule_view, hv])⟩

/-- A loop that releases the semaphore for as long as `rt_sem_trytake` times out. -/
theorem Kernel.Wf.releaseAll {β : Type} {loop : ℕ → Kernel T W → Semaphore → β}
    {P : Kernel T W → Prop} {w : W}
    {x : Semaphore} (hturn : ∀ n k, loop (n + 1) k x = loop n (RtThread.semRelease k w x).1
      (RtThread.semRelease k w x).2.1)
    (hP : ∀ k, P k → P (RtThread.semRelease k w x).1) {k : Kernel T W} (hk : k.Wf) (hp : P k) {l : List T}
    (hl : k.view.waiting w = l) (n : ℕ) : ∃ k', loop (l.length + n) k x = loop n k' x ∧ k'.Wf ∧ P k' ∧
      k'.view = k.view.released w := by
  induction l generalizing k with
  | nil => exact ⟨k, by rw [List.length_nil, Nat.zero_add], hk, hp, (View.released_nil hl).symm⟩
  | cons u l ih =>
    obtain ⟨hwf, heff⟩ := hk.semRelease w x
    have hturn' := hturn (l.length + n) k
    have hp' := hP k hp
    generalize (RtThread.semRelease k w x).1 = j, (RtThread.semRelease k w x).2.1 = y at hwf heff hturn' hp'
    cases heff with
    | counted hnil => exact absurd (hl.symm.trans hnil) (by simp)
    | @granted _ v q hcons hview =>
      obtain ⟨rfl, rfl⟩ := List.cons.inj (hl.symm.trans hcons)
      obtain ⟨k', hrun, hk', hp'', hview'⟩ := ih hwf hp' (by rw [hview]; exact update_self ..)
      refine ⟨k', ?_, hk', hp'', ?_⟩
      · rw [List.length_cons, Nat.add_right_comm, hturn', hrun]
      · rw [hview', hview]
        simp only [View.released, hl, update_self, update_idem, View.mk.injEq, and_true]
        funext t
        by_cases htu : t = u
        · simp [htu]
        · simp [htu]

end RtThread
