import Mathlib.Data.List.Sort
import RtThread.Kernel.Effects

namespace RtThread

open Function List Option

inductive IpcFlag
  | fifo | prio
  deriving DecidableEq

def waitingForever : BitVec 32 := 0xffffffff

def enqueue {T : Type} (flag : IpcFlag) (priority : T → ℕ) (t : T) (l : List T) : List T :=
  match flag with
  | .fifo => l ++ [t]
  | .prio => l.orderedInsert (fun a b => priority a < priority b) t

theorem enqueue_perm {T : Type} (flag : IpcFlag) (priority : T → ℕ) (t : T) (l : List T) :
    (enqueue flag priority t l).Perm (t :: l) := by
  cases flag with
  | fifo => exact perm_append_comm
  | prio => exact perm_orderedInsert _ t l

theorem mem_enqueue {T : Type} (flag : IpcFlag) (priority : T → ℕ) (t u : T) (l : List T) :
    u ∈ enqueue flag priority t l ↔ u = t ∨ u ∈ l := by
  rw [(enqueue_perm flag priority t l).mem_iff, mem_cons]

theorem zero_slt_iff (x : BitVec 32) : (0 : BitVec 32).slt x = true ↔ 0 < x.toNat ∧ x.toNat < 2 ^ 31 := by
  have hint := BitVec.toInt_eq_toNat_cond x
  have hiff : (0 : BitVec 32).slt x = true ↔ (0 : ℤ) < x.toInt := by simp [BitVec.slt]
  rw [hiff, hint]
  split_ifs <;> omega

namespace Kernel

variable {T W : Type} [DecidableEq T] [DecidableEq W]

def priority (k : Kernel T W) (t : T) : ℕ := (k.thread t).currentPriority

def ipcListSuspend (k : Kernel T W) (w : W) (t : T) (flag : IpcFlag) : Kernel T W :=
  let k := (k.threadSuspend t).1
  { k with lists := update k.lists (.wait w) (enqueue flag k.priority t (k.lists (.wait w))) }

def ipcListResume (k : Kernel T W) (w : W) : Kernel T W :=
  match k.lists (.wait w) with
  | [] => k
  | t :: _ => (k.threadResume t).1

def resumeWithError (k : Kernel T W) (t : T) : Kernel T W :=
  ((k.setThread t (fun th => { th with error := .error })).threadResume t).1

def ipcListResumeAllLoop (w : W) : ℕ → Kernel T W → Kernel T W
  | 0, k => k
  | n + 1, k =>
    match k.lists (.wait w) with
    | [] => k
    -- every turn takes the first thread off the list, so its length bounds the turns
    | t :: _ => ipcListResumeAllLoop w n (k.resumeWithError t)

def ipcListResumeAll (k : Kernel T W) (w : W) : Kernel T W :=
  ipcListResumeAllLoop w (k.lists (.wait w)).length k

variable {k k' : Kernel T W} {t : T}

theorem ipcListResumeAll_induct {P : Kernel T W → Prop} (h : P k)
    (hstep : ∀ k t, P k → P (k.resumeWithError t)) (w : W) : P (k.ipcListResumeAll w) := by
  unfold ipcListResumeAll
  generalize (k.lists (.wait w)).length = n
  induction n generalizing k with
  | zero => exact h
  | succ n ih =>
    unfold ipcListResumeAllLoop
    split
    · exact h
    · exact ih (hstep k _ h)

def suspendFor (k : Kernel T W) (w : W) (t : T) (flag : IpcFlag) (time : BitVec 32) :
    Option (Kernel T W) :=
  let k := k.ipcListSuspend w t flag
  if (0 : BitVec 32).slt time then ((k.timerControlSetTime t time).timerStart t).map schedule
  else some k.schedule

theorem ipcListSuspend_thread (w : W) (flag : IpcFlag) (h : (k.thread t).stat = .ready) :
    (k.ipcListSuspend w t flag).thread = update k.thread t
      { k.thread t with stat := .suspend, timer := stopped (k.thread t).timer } :=
  threadSuspend_thread h

theorem Wf.ipcListSuspend_self (hk : k.Wf) (w : W) (flag : IpcFlag) (h : (k.thread t).stat = .ready) :
    (k.ipcListSuspend w t flag).lists (.wait w) = enqueue flag k.priority t (k.lists (.wait w)) := by
  have hp : (k.threadSuspend t).1.priority = k.priority := by
    funext u
    by_cases hu : u = t
    · subst hu; simp [priority, threadSuspend_thread h]
    · simp [priority, threadSuspend_thread h, hu]
  simp only [Kernel.ipcListSuspend, update_self, hp, threadSuspend_lists h]
  rw [erase_of_not_mem (hk.not_mem_wait (by simp [h]) w)]

theorem Wf.ipcListSuspend_of_ne (hk : k.Wf) {w w' : W} (flag : IpcFlag)
    (h : (k.thread t).stat = .ready) (hw : w' ≠ w) :
    (k.ipcListSuspend w t flag).lists (.wait w') = k.lists (.wait w') := by
  have hne : (Head.wait w' : Head W) ≠ .wait w := fun he => hw (by injection he)
  simp only [Kernel.ipcListSuspend, update_of_ne hne, threadSuspend_lists h]
  exact erase_of_not_mem (hk.not_mem_wait (by simp [h]) w')

theorem Wf.ipcListSuspend (hk : k.Wf) (w : W) (flag : IpcFlag)
    (h : (k.thread t).stat = .ready) : (k.ipcListSuspend w t flag).Wf := by
  have ht := hk.placed t
  apply (hk.apart_suspend h).insert (enqueue_perm _ _ _ _) <;> rw [threadSuspend_thread h] <;> simp only [update_self]
  · exact Or.inl ⟨w, rfl, trivial⟩
  · exact ht.current_lt
  · exact ht.init_lt
  · exact ht.mask_subset
  · exact fun _ => ht.mask_eq (Or.inl h)

section

variable (h : k.timerStart t = some k')

include h

omit [DecidableEq W]

theorem timerStart_setThread :
    k' = k.setThread t (fun th => { th with timer := th.timer.deactivate.activate k.tick }) := by
  unfold timerStart at h
  dsimp only at h
  split_ifs at h
  rw [Option.some.injEq] at h
  rw [← h]
  simp [setThread]

theorem timerStart_activated : ∃ tm, tm.activated = true ∧ k' = k.setThread t (fun th => { th with timer := tm }) :=
  ⟨(k.thread t).timer.deactivate.activate k.tick, rfl, timerStart_setThread h⟩

theorem timerStart_eq_some : ∃ tm, k' = k.setThread t (fun th => { th with timer := tm }) :=
  ⟨_, timerStart_setThread h⟩

end

theorem suspendFor_isSome (k : Kernel T W) (w : W) (t : T) (flag : IpcFlag) {time : BitVec 32}
    (h : time ≠ 0x7fffffff) : (k.suspendFor w t flag time).isSome := by
  unfold suspendFor
  split_ifs with hpos
  · have hlt : time.ult (tickMax / 2) = true := by
      have hne : time.toNat ≠ 0x7fffffff := fun he => h (BitVec.eq_of_toNat_eq he)
      have hhalf : (tickMax / 2).toNat = 0x7fffffff := rfl
      have hsmall := ((zero_slt_iff time).mp hpos).2
      rw [BitVec.ult, decide_eq_true_eq]
      omega
    have hinit : ((((k.ipcListSuspend w t flag).timerControlSetTime t time).setThread t
        (fun th => { th with timer := th.timer.deactivate })).thread t).timer.initTick = time := by
      simp [timerControlSetTime, ThreadTimer.deactivate]
    have hstart : ((k.ipcListSuspend w t flag).timerControlSetTime t time).timerStart t ≠ none := by
      simp only [timerStart, hinit]
      rw [if_pos hlt]
      exact some_ne_none _
    simpa [isSome_iff_ne_none] using hstart
  · rfl

theorem Wf.suspendFor (hk : k.Wf) {w : W} {flag : IpcFlag}
    {time : BitVec 32} (hr : (k.thread t).stat = .ready) (h : k.suspendFor w t flag time = some k') :
    k'.Wf ∧ (∃ tm, k'.thread = update k.thread t { k.thread t with
        stat := .suspend, timer := tm }) ∧
      k'.lists (.wait w) = enqueue flag k.priority t (k.lists (.wait w)) ∧
      ∀ w', w' ≠ w → k'.lists (.wait w') = k.lists (.wait w') := by
  have hw := hk.ipcListSuspend w flag hr
  have hself := hk.ipcListSuspend_self w flag hr
  have hother : ∀ w', w' ≠ w → (k.ipcListSuspend w t flag).lists (.wait w') = k.lists (.wait w') :=
    fun w' hne => hk.ipcListSuspend_of_ne flag hr hne
  have hthread := ipcListSuspend_thread w flag hr
  unfold Kernel.suspendFor at h
  split_ifs at h
  · obtain ⟨j, hj, rfl⟩ := map_eq_some_iff.mp h
    obtain ⟨tm, rfl⟩ := timerStart_eq_some hj
    refine ⟨?_, ⟨tm, ?_⟩, ?_, ?_⟩
    · exact ((hw.setThread t rfl rfl rfl rfl).setThread t rfl rfl rfl rfl).schedule
    · simp [setThread_thread, timerControlSetTime, hthread]
    · simpa [timerControlSetTime] using hself
    · simpa [timerControlSetTime] using hother
  · cases h
    exact ⟨hw.schedule, ⟨stopped (k.thread t).timer, by simp [hthread]⟩,
      by simpa using hself, by simpa using hother⟩

theorem Wf.timerExpire (hk : k.Wf) (h : k.timerExpire t = some k') :
    k'.Wf ∧ (k.thread t).stat = .suspend ∧ (∃ tm, k'.thread = update k.thread t
        { k.thread t with stat := .ready, error := .etimeout, timer := tm }) ∧
      ∀ w, k'.lists (.wait w) = (k.lists (.wait w)).erase t := by
  unfold Kernel.timerExpire at h
  split_ifs at h
  obtain ⟨j, hj, rfl⟩ := map_eq_some_iff.mp h
  have hw : (k.timerDetach t).Wf := hk.setThread t rfl rfl rfl rfl
  obtain ⟨hs, hthread, hlists⟩ := threadTimeout_eq_some hj
  refine ⟨(hw.threadTimeout hj).setThread t rfl rfl rfl rfl, ?_, ?_, ?_⟩
  · simpa [timerDetach] using hs
  · refine ⟨{ (k.thread t).timer.unlink with activated := false }, ?_⟩
    simp [setThread_thread, hthread, timerDetach]
  · simpa [timerDetach] using hlists

theorem ipcListResume_cons {w : W} {l : List T}
    (h : k.lists (.wait w) = t :: l) : k.ipcListResume w = (k.threadResume t).1 := by
  simp [ipcListResume, h]

variable (hk : k.Wf)

include hk

theorem Wf.ipcListResume {w : W} {l : List T} (h : k.lists (.wait w) = t :: l) :
    (k.ipcListResume w).Wf ∧ (k.thread t).stat = .suspend ∧
      (k.ipcListResume w).thread = update k.thread t
        { k.thread t with stat := .ready, timer := stopped (k.thread t).timer } ∧
      (k.ipcListResume w).lists (.wait w) = l ∧
      ∀ w', w' ≠ w → (k.ipcListResume w).lists (.wait w') = k.lists (.wait w') := by
  have hmem : t ∈ k.lists (.wait w) := by simp [h]
  have hs := (hk.placed t).wait_suspend w hmem
  rw [ipcListResume_cons h]
  refine ⟨hk.threadResume t, hs, threadResume_thread hs, ?_, ?_⟩
  · simp [threadResume_wait hs, h]
  · intro w' hw
    rw [threadResume_wait hs]
    exact erase_of_not_mem (fun hm => hw ((hk.placed t).wait_unique w' w hm hmem))

theorem Wf.resumeWithError (hs : (k.thread t).stat = .suspend) :
    (k.resumeWithError t).Wf ∧ (k.resumeWithError t).thread = update k.thread t
        { k.thread t with stat := .ready, error := .error, timer := stopped (k.thread t).timer } ∧
      ∀ w, (k.resumeWithError t).lists (.wait w) = (k.lists (.wait w)).erase t := by
  have hw : (k.setThread t (fun th => { th with error := .error })).Wf := hk.setThread t rfl rfl rfl rfl
  have hs' : ((k.setThread t (fun th => { th with error := .error })).thread t).stat = .suspend := by
    simpa using hs
  refine ⟨hw.threadResume t, ?_, ?_⟩
  · rw [Kernel.resumeWithError, threadResume_thread hs']
    simp [setThread_thread]
  · intro w
    rw [Kernel.resumeWithError, threadResume_wait hs', setThread_lists]

theorem Wf.ipcListResumeAllLoop (w : W) (n : ℕ) (hn : (k.lists (.wait w)).length = n) :
    (Kernel.ipcListResumeAllLoop w n k).Wf ∧
      (Kernel.ipcListResumeAllLoop w n k).lists (.wait w) = [] ∧
      (∀ w', w' ≠ w → (Kernel.ipcListResumeAllLoop w n k).lists (.wait w') = k.lists (.wait w')) ∧
      (∀ t, t ∈ k.lists (.wait w) → (Kernel.ipcListResumeAllLoop w n k).thread t =
        { k.thread t with stat := .ready, error := .error, timer := stopped (k.thread t).timer }) ∧
      ∀ t, t ∉ k.lists (.wait w) → (Kernel.ipcListResumeAllLoop w n k).thread t = k.thread t := by
  induction n generalizing k with
  | zero =>
    have hl := eq_nil_of_length_eq_zero hn
    exact ⟨hk, hl, fun _ _ => rfl, by simp [hl], fun _ _ => rfl⟩
  | succ n ih =>
    obtain ⟨t, l, hl⟩ := exists_cons_of_length_eq_add_one hn
    have hmem : t ∈ k.lists (.wait w) := by simp [hl]
    have hs := (hk.placed t).wait_suspend w hmem
    obtain ⟨hw, hthread, hlists⟩ := hk.resumeWithError hs
    have hrest : (k.resumeWithError t).lists (.wait w) = l := by simp [hlists, hl]
    have hnot : t ∉ l := (nodup_cons.mp (hl ▸ hk.nodup (.wait w))).1
    obtain ⟨h1, h2, h3, h4, h5⟩ := ih hw (by rw [hrest]; simpa [hl] using hn)
    simp only [Kernel.ipcListResumeAllLoop, hl]
    refine ⟨h1, h2, ?_, ?_, ?_⟩
    · intro w' hne
      rw [h3 w' hne, hlists]
      exact erase_of_not_mem (fun hm => hne ((hk.placed t).wait_unique w' w hm hmem))
    · intro u hu
      rcases mem_cons.mp hu with rfl | hu
      · rw [h5 u (by rwa [hrest]), hthread, update_self]
      · have hne : u ≠ t := fun he => hnot (he ▸ hu)
        rw [h4 u (by rwa [hrest]), hthread, update_of_ne hne]
    · intro u hu
      rw [mem_cons, not_or] at hu
      rw [h5 u (by rw [hrest]; exact hu.2), hthread, update_of_ne hu.1]

theorem Wf.ipcListResumeAll (w : W) : (k.ipcListResumeAll w).Wf ∧ (k.ipcListResumeAll w).lists (.wait w) = [] ∧
      (∀ w', w' ≠ w → (k.ipcListResumeAll w).lists (.wait w') = k.lists (.wait w')) ∧
      (∀ t, t ∈ k.lists (.wait w) → (k.ipcListResumeAll w).thread t =
        { k.thread t with stat := .ready, error := .error, timer := stopped (k.thread t).timer }) ∧
      ∀ t, t ∉ k.lists (.wait w) → (k.ipcListResumeAll w).thread t = k.thread t :=
  hk.ipcListResumeAllLoop w _ rfl

end Kernel

end RtThread
