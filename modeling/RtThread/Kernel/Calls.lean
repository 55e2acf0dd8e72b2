import RtThread.Ipc.WaitList

namespace RtThread.Kernel

open List

variable {T W : Type}

variable {k : Kernel T W}

theorem Wf.apart_of_init (h : k.Wf) {t : T} (hs : (k.thread t).stat = .init) : k.Apart t := by
  have ht := h.placed t
  refine ⟨h.group_iff, h.nodup, ?_, fun u _ => h.placed u⟩
  intro a hm
  cases a with
  | ready p => simp [(ht.ready_iff p).mp hm] at hs
  | wait w => simp [ht.wait_suspend w hm] at hs
  | defunct => simp [ht.defunct_close hm] at hs

variable [DecidableEq T] [DecidableEq W]

theorem Apart.closed {t : T} (h : k.Apart t) (hs : (k.thread t).stat = .close)
    (hc : (k.thread t).currentPriority < 32) (hi : (k.thread t).initPriority < 32)
    (hm : ∀ q, (k.thread t).numberMask.getLsbD q = true → q = (k.thread t).currentPriority) :
    k.Wf ∧ (k.listInsertAfter .defunct t).Wf := by
  have he : (k.thread t).stat = .suspend →
      (k.thread t).numberMask = priorityMask (k.thread t).currentPriority := by simp [hs]
  exact ⟨h.wf (h.placed_self (by simp [hs]) hc hi hm he),
    h.insert (List.Perm.refl _) (Or.inr ⟨rfl, hs⟩) hc hi hm he⟩

section

variable (h : k.Wf)

include h

theorem Wf.threadClose (t : T) : (k.threadClose t).Wf ∧ ((k.threadClose t).listInsertAfter .defunct t).Wf := by
  have hp := h.placed t
  have hclose : ∀ j : Kernel T W, j.Apart t → j.thread = k.thread →
      ∀ i : Kernel T W, i = (j.timerDetach t).setThread t (fun th => { th with stat := .close }) →
      i.Wf ∧ (i.listInsertAfter .defunct t).Wf := by
    rintro j hj hthread i rfl
    apply ((hj.setThread _).setThread _).closed <;> simp only [setThread_self, hthread]
    · exact hp.current_lt
    · exact hp.init_lt
    · exact hp.mask_subset
  unfold Kernel.threadClose
  split_ifs with hs
  · exact hclose _ (h.apart_remove t) (by simp) _ rfl
  · exact hclose _ (h.apart_of_init (by simpa using hs)) rfl _ rfl

theorem Wf.threadDetach (t : T) : (k.threadDetach t).1.Wf := by
  obtain ⟨h1, h2⟩ := h.threadClose t
  unfold Kernel.threadDetach
  dsimp only
  split_ifs
  · exact h2
  · exact h1

theorem Wf.threadDelete (t : T) : (k.threadDelete t).1.Wf :=
  (h.threadClose t).2

theorem Wf.threadExit {k' : Kernel T W} (he : k.threadExit = some k') : k'.Wf := by
  refine threadExit_induct (fun _ hj => hj.schedule) he ?_
  rintro t - j rfl
  have hp := h.placed t
  apply (((h.apart_remove t).setThread _).setThread _).closed <;>
    simp only [setThread_self, scheduleRemoveThread_thread]
  · exact hp.current_lt
  · exact hp.init_lt
  · exact hp.mask_subset

theorem Wf.threadStartup {r : Kernel T W × Err} {t : T} (hr : k.threadStartup t = some r) : r.1.Wf := by
  refine threadStartup_induct (fun _ hj => hj.schedule) hr (fun hs => Wf.threadResume ?_ t)
  have hp := h.placed t
  have ha : (k.starting t).Apart t := ((h.apart_of_init hs).setThread _).setThread _
  refine ha.wf (ha.placed_self ?_ ?_ ?_ ?_ ?_) <;> simp only [starting_thread, Function.update_self, ne_eq,
    reduceCtorEq, not_false_eq_true]
  · exact hp.init_lt
  · exact hp.init_lt
  · exact fun q hq => (priorityMask_getLsbD hp.init_lt).mp hq
  · exact fun _ => trivial

theorem Wf.threadYield {r : Kernel T W × Err} (hr : k.threadYield = some r) : r.1.Wf := by
  refine threadYield_induct (fun _ hj => hj.schedule) hr h (fun t hready hne' => ?_)
  have hp := h.placed t
  have hmem := (hp.ready_iff _).mpr ⟨hready, rfl⟩
  have hne : ((k.lists (.ready (k.thread t).currentPriority)).erase t) ≠ [] := by
    intro hn
    have hl := length_erase_of_mem hmem
    rw [hn, length_nil] at hl
    obtain ⟨u, hu⟩ := length_eq_one_iff.mp (show (k.lists (.ready (k.thread t).currentPriority)).length = 1 by
        have := length_pos_of_mem hmem; omega)
    rw [hu, mem_singleton] at hmem
    exact hne' (hmem ▸ hu)
  -- the group keeps the bit, so putting the node back at the end restores the queue
  have ha : (k.listRemove t).Apart t := by
    have := h.apart_remove t
    rwa [Kernel.scheduleRemoveThread, listRemove_thread, listRemove_lists, if_neg hne] at this
  have hins := ha.insert_ready hp.current_lt hp.init_lt (hp.mask_eq (Or.inl hready))
  refine hins.congr ?_ ?_ ?_
  · funext u
    obtain rfl | hu := eq_or_ne u t
    · simp [listInsertBefore, ← hready]
    · simp [listInsertBefore, hu]
  · simp [Kernel.scheduleInsertThread, listInsertBefore]
  · have hg := (h.group_iff _ hp.current_lt).mpr (ne_nil_of_mem hmem)
    simp only [Kernel.scheduleInsertThread, listInsertBefore, setThread_self, listRemove_thread]
    rw [hp.mask_eq (Or.inl hready)]
    apply BitVec.eq_of_getLsbD_eq
    intro q hq
    rw [BitVec.getLsbD_or, Bool.eq_iff_iff, Bool.or_eq_true, priorityMask_getLsbD hp.current_lt]
    constructor
    · exact Or.inl
    · rintro (hb | rfl)
      · exact hb
      · exact hg

section

omit [DecidableEq W]

theorem Wf.threadSleep {k' : Kernel T W} {tick : BitVec 32} (hs : k.threadSleep tick = some k') : k'.Wf := by
  obtain ⟨t, -, hs⟩ := threadSleep_eq_some hs
  obtain ⟨j, hj, rfl⟩ := Option.map_eq_some_iff.mp hs
  obtain ⟨tm, rfl⟩ := timerStart_eq_some hj
  exact (((h.threadSuspend t).setThread t rfl rfl rfl rfl).setThread t rfl rfl rfl rfl).schedule

theorem Wf.threadSleepReturn (t : T) : (k.threadSleepReturn t).1.Wf := by
  unfold Kernel.threadSleepReturn
  dsimp only
  split_ifs
  · exact h.setThread t rfl rfl rfl rfl
  · exact h

end

omit [DecidableEq T] [DecidableEq W]

theorem Wf.systemSchedulerStart : k.systemSchedulerStart.Wf := by
  unfold Kernel.systemSchedulerStart
  split_ifs
  · exact h.congr rfl rfl rfl
  · exact h

end

end RtThread.Kernel
