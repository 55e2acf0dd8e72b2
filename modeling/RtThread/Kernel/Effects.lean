import RtThread.Kernel.WellFormed

namespace RtThread.Kernel

open Function

variable {T W : Type} [DecidableEq W]

variable {k : Kernel T W} {t : T}

theorem Apart.insert (h : k.Apart t) {a : Head W} {l : List T} (hl : l.Perm (t :: k.lists a))
    (ha : (∃ w, a = .wait w ∧ (k.thread t).stat = .suspend) ∨ (a = .defunct ∧ (k.thread t).stat = .close))
    (hc : (k.thread t).currentPriority < 32) (hi : (k.thread t).initPriority < 32)
    (hm : ∀ q, (k.thread t).numberMask.getLsbD q = true → q = (k.thread t).currentPriority)
    (he : (k.thread t).stat = .suspend →
      (k.thread t).numberMask = priorityMask (k.thread t).currentPriority) :
    Wf { k with lists := update k.lists a l } := by
  have hr : ∀ p, a ≠ .ready p := by
    rintro p rfl
    rcases ha with ⟨w, hw, _⟩ | ⟨hd, _⟩
    · cases hw
    · cases hd
  have hnr : (k.thread t).stat ≠ .ready := by
    rcases ha with ⟨_, _, hs⟩ | ⟨_, hs⟩ <;> simp [hs]
  refine ⟨?_, ?_, ?_⟩
  · intro p hp
    dsimp only
    rw [update_of_ne (hr p).symm]
    exact h.group_iff p hp
  · exact h.nodup_update hl
  · intro u
    obtain rfl | hu := eq_or_ne u t
    · constructor <;> simp only [h.mem_update hl]
      · intro p; exact iff_of_false (fun h => hr p h.symm) (fun hs => hnr hs.1)
      · rintro w rfl
        rcases ha with ⟨_, _, hs⟩ | ⟨hd, _⟩
        · exact hs
        · cases hd
      · rintro w w' rfl hw; cases hw; rfl
      · rintro rfl
        rcases ha with ⟨_, hw, _⟩ | ⟨_, hs⟩
        · cases hw
        · exact hs
      · exact hc
      · exact hi
      · exact hm
      · rintro (hs | hs)
        · exact absurd hs hnr
        · exact he hs
    · exact (h.placed u hu).congr rfl (mem_update_of_ne hl hu)

variable [DecidableEq T]

section

variable (k : Kernel T W) (t : T)

section

omit [DecidableEq W]

@[simp] theorem scheduleRemoveThread_thread : (k.scheduleRemoveThread t).thread = k.thread := by
  unfold scheduleRemoveThread; dsimp only; split_ifs <;> rfl

@[simp] theorem scheduleRemoveThread_lists (h : Head W) :
    (k.scheduleRemoveThread t).lists h = (k.lists h).erase t := by
  unfold scheduleRemoveThread; dsimp only; split_ifs <;> rfl

@[simp] theorem scheduleRemoveThread_schedState : (k.scheduleRemoveThread t).schedState = k.schedState := by
  unfold scheduleRemoveThread; dsimp only; split_ifs <;> rfl

theorem scheduleRemoveThread_setThread (f : Thread → Thread)
    (hp : (f (k.thread t)).currentPriority = (k.thread t).currentPriority)
    (hm : (f (k.thread t)).numberMask = (k.thread t).numberMask) :
    (k.setThread t f).scheduleRemoveThread t = (k.scheduleRemoveThread t).setThread t f := by
  unfold scheduleRemoveThread
  simp only [listRemove_thread, listRemove_lists, setThread_lists, setThread_self, hp, hm]
  by_cases he : (k.lists (.ready (k.thread t).currentPriority)).erase t = []
  · simp only [he, ↓reduceIte]; rfl
  · simp only [he, ↓reduceIte]; rfl

@[simp] theorem timerStop_lists : (k.timerStop t).1.lists = k.lists := by
  rw [timerStop_fst]; rfl

end

@[simp] theorem scheduleInsertThread_thread :
    (k.scheduleInsertThread t).thread =
      update k.thread t { k.thread t with stat := .ready } := rfl

@[simp] theorem scheduleInsertThread_schedState :
    (k.scheduleInsertThread t).schedState = k.schedState := rfl

theorem scheduleInsertThread_lists (a : Head W) :
    (k.scheduleInsertThread t).lists a = if a = .ready (k.thread t).currentPriority then
      k.lists a ++ [t] else k.lists a := by
  by_cases ha : a = .ready (k.thread t).currentPriority
  · subst ha; simp [scheduleInsertThread, listInsertBefore]
  · simp [scheduleInsertThread, listInsertBefore, ha]

@[simp] theorem scheduleInsertThread_wait (w : W) :
    (k.scheduleInsertThread t).lists (.wait w) = k.lists (.wait w) := by
  simp [scheduleInsertThread, listInsertBefore]

end

def stopped (tm : ThreadTimer) : ThreadTimer := if tm.activated then tm.deactivate else tm

section

omit [DecidableEq W]

@[simp] theorem timerStop_thread (k : Kernel T W) (t : T) :
    (k.timerStop t).1.thread =
      update k.thread t { k.thread t with timer := stopped (k.thread t).timer } := by
  rw [timerStop_fst]; rfl

theorem Wf.setThread (hk : k.Wf) (t : T) {f : Thread → Thread} (hs : (f (k.thread t)).stat = (k.thread t).stat)
    (hi : (f (k.thread t)).initPriority = (k.thread t).initPriority)
    (hc : (f (k.thread t)).currentPriority = (k.thread t).currentPriority)
    (hm : (f (k.thread t)).numberMask = (k.thread t).numberMask) : (k.setThread t f).Wf := by
  refine ⟨hk.group_iff, hk.nodup, ?_⟩
  intro u
  have hu := hk.placed u
  obtain rfl | he := eq_or_ne u t
  · constructor <;> simp only [setThread_self, setThread_lists, hs, hi, hc, hm]
    · exact hu.ready_iff
    · exact hu.wait_suspend
    · exact hu.wait_unique
    · exact hu.defunct_close
    · exact hu.current_lt
    · exact hu.init_lt
    · exact hu.mask_subset
    · exact hu.mask_eq
  · exact hu.congr (k.setThread_of_ne f he) (fun _ => Iff.rfl)

def starting (k : Kernel T W) (t : T) : Kernel T W :=
  (k.setThread t (fun th => { th with
    currentPriority := th.initPriority, numberMask := priorityMask th.initPriority })).setThread t
    (fun th => { th with stat := .suspend })

theorem starting_thread (k : Kernel T W) (t : T) : (k.starting t).thread = update k.thread t { k.thread t with
    currentPriority := (k.thread t).initPriority, numberMask := priorityMask (k.thread t).initPriority
    stat := .suspend } := by
  simp [starting, setThread_thread]

theorem threadSleep_eq_some {tick : BitVec 32} {k' : Kernel T W} (hs : k.threadSleep tick = some k') :
    ∃ t, k.current = some t ∧
      (((k.threadSuspend t).1.timerControlSetTime t tick).timerStart t).map schedule = some k' := by
  unfold threadSleep at hs
  cases hc : k.current with
  | none => simp [hc] at hs
  | some t => exact ⟨t, rfl, by simpa only [hc] using hs⟩

end

section

variable (h : (k.thread t).stat = .ready)

include h

omit [DecidableEq W]

theorem threadSuspend_ready : (k.threadSuspend t).1 = (((k.scheduleRemoveThread t).setThread t
      (fun th => { th with stat := .suspend })).timerStop t).1 := by
  simp only [threadSuspend, h, ne_eq, not_true_eq_false, ↓reduceIte]
  rw [scheduleRemoveThread_setThread _ _ _ rfl rfl]

theorem threadSuspend_thread : (k.threadSuspend t).1.thread = update k.thread t
      { k.thread t with stat := .suspend, timer := stopped (k.thread t).timer } := by
  rw [threadSuspend_ready h]
  simp [setThread_thread]

theorem threadSuspend_lists (a : Head W) : (k.threadSuspend t).1.lists a = (k.lists a).erase t := by
  rw [threadSuspend_ready h]
  simp

end

section

omit [DecidableEq W]

theorem Wf.apart_suspend (hk : k.Wf) (h : (k.thread t).stat = .ready) : (k.threadSuspend t).1.Apart t := by
  rw [threadSuspend_ready h]
  exact ((hk.apart_remove t).setThread _).timerStop

theorem Wf.threadSuspend (hk : k.Wf) (t : T) : (k.threadSuspend t).1.Wf := by
  by_cases h : (k.thread t).stat = .ready
  · have ht := hk.placed t
    have ha := hk.apart_suspend h
    refine ha.wf (ha.placed_self ?_ ?_ ?_ ?_ ?_) <;> rw [threadSuspend_thread h] <;>
      simp only [update_self, ne_eq, reduceCtorEq, not_false_eq_true]
    · exact ht.current_lt
    · exact ht.init_lt
    · exact ht.mask_subset
    · exact fun _ => ht.mask_eq (Or.inl h)
  · simpa [Kernel.threadSuspend, h] using hk

end

theorem threadResume_suspended (h : (k.thread t).stat = .suspend) :
    (k.threadResume t).1 = ((k.listRemove t).timerStop t).1.scheduleInsertThread t := by
  simp [threadResume, h]

theorem threadResume_thread (h : (k.thread t).stat = .suspend) :
    (k.threadResume t).1.thread = update k.thread t
      { k.thread t with stat := .ready, timer := stopped (k.thread t).timer } := by
  rw [threadResume_suspended h]
  simp

theorem threadResume_schedState (k : Kernel T W) (t : T) : (k.threadResume t).1.schedState = k.schedState := by
  unfold threadResume
  split_ifs
  · rfl
  · simp only [scheduleInsertThread_schedState, timerStop_fst, setThread_schedState]
    rfl

theorem threadResume_wait (h : (k.thread t).stat = .suspend) (w : W) :
    (k.threadResume t).1.lists (.wait w) = (k.lists (.wait w)).erase t := by
  rw [threadResume_suspended h]
  simp

theorem Wf.threadResume (hk : k.Wf) (t : T) : (k.threadResume t).1.Wf := by
  by_cases h : (k.thread t).stat = .suspend
  · have ht := hk.placed t
    rw [threadResume_suspended h]
    have ha : (k.listRemove t).Apart t := hk.apart_listRemove (by simp [h])
    apply ha.timerStop.insert_ready <;> simp only [timerStop_thread, listRemove_thread, update_self]
    · exact ht.current_lt
    · exact ht.init_lt
    · exact ht.mask_eq (Or.inr h)
  · simpa [Kernel.threadResume, h] using hk

theorem threadTimeout_suspended (h : (k.thread t).stat = .suspend) :
    k.threadTimeout t = some (((k.setThread t (fun th => { th with error := .etimeout })).listRemove
      t).scheduleInsertThread t).schedule := by
  simp [threadTimeout, h]

theorem threadTimeout_eq_some {k' : Kernel T W} (h : k.threadTimeout t = some k') :
    (k.thread t).stat = .suspend ∧
      k'.thread = update k.thread t { k.thread t with stat := .ready, error := .etimeout } ∧
      ∀ w, k'.lists (.wait w) = (k.lists (.wait w)).erase t := by
  by_cases hs : (k.thread t).stat = .suspend
  · rw [threadTimeout_suspended hs, Option.some.injEq] at h
    subst h
    refine ⟨hs, ?_, ?_⟩
    · simp [setThread_thread]
    · intro w; simp
  · simp [threadTimeout, hs] at h

theorem Wf.threadTimeout {k' : Kernel T W} (hk : k.Wf) (h : k.threadTimeout t = some k') : k'.Wf := by
  have hs := (threadTimeout_eq_some h).1
  rw [threadTimeout_suspended hs, Option.some.injEq] at h
  subst h
  have hw : (k.setThread t (fun th => { th with error := .etimeout })).Wf := hk.setThread t rfl rfl rfl rfl
  have ht := hw.placed t
  have hs' : ((k.setThread t (fun th => { th with error := .etimeout })).thread t).stat = .suspend := by
    simpa using hs
  exact ((hw.apart_listRemove (by simp [hs])).insert_ready ht.current_lt ht.init_lt
    (ht.mask_eq (Or.inr hs'))).schedule

section

variable {P : Kernel T W → Prop} (hschedule : ∀ j, P j → P j.schedule) {r : Kernel T W × Err}

include hschedule

theorem threadStartup_induct (hr : k.threadStartup t = some r)
    (h : (k.thread t).stat = .init → P ((k.starting t).threadResume t).1) : P r.1 := by
  unfold threadStartup at hr
  split_ifs at hr with hs
  have hresume := h (by simpa using hs)
  cases hr
  dsimp only
  split_ifs
  · exact hschedule _ hresume
  · exact hresume

theorem threadYield_induct (hr : k.threadYield = some r) (hk : P k)
    (h : ∀ t, (k.thread t).stat = .ready → k.lists (.ready (k.thread t).currentPriority) ≠ [t] →
      P ((k.listRemove t).listInsertBefore (.ready (k.thread t).currentPriority) t)) : P r.1 := by
  unfold threadYield at hr
  cases hc : k.current with
  | none => simp [hc] at hr
  | some t =>
    simp only [hc] at hr
    split_ifs at hr with hy
    · cases hr
      exact hschedule _ (h t hy.1 hy.2)
    · cases hr
      exact hk

theorem threadExit_induct {k' : Kernel T W} (he : k.threadExit = some k') (h : ∀ t, k.current = some t → ∀ j,
      j = ((k.scheduleRemoveThread t).setThread t (fun th => { th with stat := .close })).timerDetach t →
      P j ∧ P (j.listInsertAfter .defunct t)) : P k' := by
  unfold threadExit at he
  cases hc : k.current with
  | none => simp [hc] at he
  | some t =>
    simp only [hc, Option.some.injEq] at he
    obtain ⟨hj, hd⟩ := h t hc _ rfl
    subst he
    split_ifs
    · exact hschedule _ hj
    · exact hschedule _ hd

end

theorem threadChangePriority_thread (k : Kernel T W) (t : T) (p : ℕ) :
    (k.threadChangePriority t p).thread = update k.thread t
      { k.thread t with currentPriority := p, numberMask := priorityMask p } := by
  unfold threadChangePriority
  split_ifs with h
  · simp [setThread_thread, h]
  · rfl

theorem threadChangePriority_schedState (k : Kernel T W) (t : T) (p : ℕ) :
    (k.threadChangePriority t p).schedState = k.schedState := by
  unfold threadChangePriority
  split_ifs <;> simp

theorem Wf.threadChangePriority_wait (hk : k.Wf) (t : T) (p : ℕ) (w : W) :
    (k.threadChangePriority t p).lists (.wait w) = k.lists (.wait w) := by
  unfold Kernel.threadChangePriority
  split_ifs with h
  · simp only [scheduleInsertThread_wait, setThread_lists, scheduleRemoveThread_lists]
    exact List.erase_of_not_mem (hk.not_mem_wait (by simp [h]) w)
  · rfl

theorem Wf.threadChangePriority (hk : k.Wf) (t : T) {p : ℕ} (hp : p < 32) : (k.threadChangePriority t p).Wf := by
  have ht := hk.placed t
  unfold Kernel.threadChangePriority
  split_ifs with h
  · exact ((hk.apart_remove t).setThread _).insert_ready (by simpa using hp) (by simpa using ht.init_lt) (by simp)
  · refine ⟨hk.group_iff, hk.nodup, ?_⟩
    intro u
    obtain rfl | he := eq_or_ne u t
    · constructor <;> simp only [setThread_self, setThread_lists]
      · intro q
        exact iff_of_false (hk.not_mem_ready h q) (fun hr => h hr.1)
      · exact ht.wait_suspend
      · exact ht.wait_unique
      · exact ht.defunct_close
      · exact hp
      · exact ht.init_lt
      · exact fun q hq => (priorityMask_getLsbD hp).mp hq
      · exact fun _ => trivial
    · exact (hk.placed u).congr (k.setThread_of_ne _ he) (fun _ => Iff.rfl)

end RtThread.Kernel
