import RtThread.Kernel.ThreadOps

namespace RtThread.Kernel

open Function List

variable {T W : Type}

structure Placed (k : Kernel T W) (t : T) : Prop where
  ready_iff : ∀ p, t ∈ k.lists (.ready p) ↔
    (k.thread t).stat = .ready ∧ (k.thread t).currentPriority = p
  wait_suspend : ∀ w, t ∈ k.lists (.wait w) → (k.thread t).stat = .suspend
  wait_unique : ∀ w w', t ∈ k.lists (.wait w) → t ∈ k.lists (.wait w') → w = w'
  defunct_close : t ∈ k.lists .defunct → (k.thread t).stat = .close
  current_lt : (k.thread t).currentPriority < 32
  init_lt : (k.thread t).initPriority < 32
  mask_subset : ∀ q, (k.thread t).numberMask.getLsbD q = true → q = (k.thread t).currentPriority
  mask_eq : (k.thread t).stat = .ready ∨ (k.thread t).stat = .suspend →
    (k.thread t).numberMask = priorityMask (k.thread t).currentPriority

structure Wf (k : Kernel T W) : Prop where
  group_iff : ∀ p < 32, k.readyGroup.getLsbD p = true ↔ k.lists (.ready p) ≠ []
  nodup : ∀ h, (k.lists h).Nodup
  placed : ∀ t, k.Placed t

structure Apart (k : Kernel T W) (t : T) : Prop where
  group_iff : ∀ p < 32, k.readyGroup.getLsbD p = true ↔ k.lists (.ready p) ≠ []
  nodup : ∀ h, (k.lists h).Nodup
  unlinked : ∀ h, t ∉ k.lists h
  placed : ∀ u, u ≠ t → k.Placed u

variable {k : Kernel T W} {t : T} {a : Head W}

theorem Placed.congr {k' : Kernel T W} (h : k.Placed t)
    (ht : k'.thread t = k.thread t) (hl : ∀ h, t ∈ k'.lists h ↔ t ∈ k.lists h) : k'.Placed t := by
  constructor
  · intro p; rw [hl, ht]; exact h.ready_iff p
  · intro w hw; rw [ht]; exact h.wait_suspend w ((hl _).mp hw)
  · intro w w' hw hw'; exact h.wait_unique w w' ((hl _).mp hw) ((hl _).mp hw')
  · intro hd; rw [ht]; exact h.defunct_close ((hl _).mp hd)
  · rw [ht]; exact h.current_lt
  · rw [ht]; exact h.init_lt
  · rw [ht]; exact h.mask_subset
  · rw [ht]; exact h.mask_eq

theorem Wf.congr {k' : Kernel T W} (h : k.Wf) (ht : k'.thread = k.thread)
    (hl : k'.lists = k.lists) (hg : k'.readyGroup = k.readyGroup) : k'.Wf := by
  refine ⟨?_, ?_, ?_⟩
  · rw [hl, hg]; exact h.group_iff
  · rw [hl]; exact h.nodup
  · intro t
    exact (h.placed t).congr (by rw [ht]) (fun h => by rw [hl])

section

variable (k : Kernel T W)

@[simp] theorem schedule_thread : k.schedule.thread = k.thread := by
  unfold schedule; split_ifs <;> rfl

@[simp] theorem schedule_lists : k.schedule.lists = k.lists := by
  unfold schedule; split_ifs <;> rfl

@[simp] theorem schedule_readyGroup : k.schedule.readyGroup = k.readyGroup := by
  unfold schedule; split_ifs <;> rfl

end

theorem Wf.schedule (h : k.Wf) : k.schedule.Wf :=
  h.congr k.schedule_thread k.schedule_lists k.schedule_readyGroup

theorem Wf.exitCritical (h : k.Wf) : k.exitCritical.Wf := by
  unfold Kernel.exitCritical
  dsimp only
  split_ifs
  · exact Wf.schedule (h.congr rfl rfl rfl)
  · exact h.congr rfl rfl rfl

theorem Wf.not_mem_ready (h : k.Wf) (hs : (k.thread t).stat ≠ .ready) (p : ℕ) : t ∉ k.lists (.ready p) :=
  fun hm => hs ((h.placed t).ready_iff p |>.mp hm).1

theorem Wf.not_mem_wait (h : k.Wf) (hs : (k.thread t).stat ≠ .suspend) (w : W) : t ∉ k.lists (.wait w) :=
  fun hm => hs ((h.placed t).wait_suspend w hm)

theorem Wf.unique (h : k.Wf) {b : Head W} (ha : t ∈ k.lists a) (hb : t ∈ k.lists b) : a = b := by
  have ht := h.placed t
  cases a with
  | ready p =>
    have hr := (ht.ready_iff p).mp ha
    cases b with
    | ready q => rw [← hr.2, ((ht.ready_iff q).mp hb).2]
    | wait w => have := ht.wait_suspend w hb; simp_all
    | defunct => have := ht.defunct_close hb; simp_all
  | wait w =>
    have hs := ht.wait_suspend w ha
    cases b with
    | ready q => have := (ht.ready_iff q).mp hb; simp_all
    | wait w' => rw [ht.wait_unique w w' ha hb]
    | defunct => have := ht.defunct_close hb; simp_all
  | defunct =>
    have hc := ht.defunct_close ha
    cases b with
    | ready q => have := (ht.ready_iff q).mp hb; simp_all
    | wait w => have := ht.wait_suspend w hb; simp_all
    | defunct => rfl

theorem Apart.placed_self (h : k.Apart t) (hr : (k.thread t).stat ≠ .ready)
    (hc : (k.thread t).currentPriority < 32) (hi : (k.thread t).initPriority < 32)
    (hm : ∀ q, (k.thread t).numberMask.getLsbD q = true → q = (k.thread t).currentPriority)
    (he : (k.thread t).stat = .suspend →
      (k.thread t).numberMask = priorityMask (k.thread t).currentPriority) : k.Placed t := by
  refine ⟨?_, ?_, ?_, ?_, hc, hi, hm, ?_⟩
  · intro p
    exact iff_of_false (h.unlinked _) (fun hs => hr hs.1)
  · intro w hw; exact absurd hw (h.unlinked _)
  · intro w w' hw; exact absurd hw (h.unlinked _)
  · intro hd; exact absurd hd (h.unlinked _)
  · rintro (hs | hs)
    · exact absurd hs hr
    · exact he hs

section

variable [DecidableEq W] {l : List T} (hl : l.Perm (t :: k.lists a))

include hl

theorem mem_update_of_ne {u : T} (hu : u ≠ t) (b : Head W) :
    u ∈ update k.lists a l b ↔ u ∈ k.lists b := by
  by_cases hb : b = a
  · subst hb; simp [hl.mem_iff, hu]
  · rw [update_of_ne hb]

variable (h : k.Apart t) (b : Head W)

include h b

theorem Apart.nodup_update : (update k.lists a l b).Nodup := by
  obtain rfl | hb := eq_or_ne b a
  · rw [update_self, hl.nodup_iff]
    exact nodup_cons.mpr ⟨h.unlinked _, h.nodup _⟩
  · rw [update_of_ne hb]
    exact h.nodup b

theorem Apart.mem_update : t ∈ update k.lists a l b ↔ b = a := by
  by_cases hb : b = a
  · subst hb; simp [hl.mem_iff]
  · simp [hb, h.unlinked]

end

variable [DecidableEq T]

@[simp] theorem setThread_lists (k : Kernel T W) (t : T) (f : Thread → Thread) :
    (k.setThread t f).lists = k.lists := rfl

@[simp] theorem setThread_readyGroup (k : Kernel T W) (t : T) (f : Thread → Thread) :
    (k.setThread t f).readyGroup = k.readyGroup := rfl

def schedState (k : Kernel T W) : Option T × ℕ := (k.current, k.lockNest)

section

variable (k : Kernel T W)

@[simp] theorem setThread_schedState (t : T) (f : Thread → Thread) :
    (k.setThread t f).schedState = k.schedState := rfl

theorem setThread_thread (t : T) (f : Thread → Thread) :
    (k.setThread t f).thread = update k.thread t (f (k.thread t)) := rfl

@[simp] theorem setThread_self (t : T) (f : Thread → Thread) : (k.setThread t f).thread t = f (k.thread t) := by
  simp [setThread_thread]

theorem setThread_of_ne {u : T} (f : Thread → Thread) (h : u ≠ t) : (k.setThread t f).thread u = k.thread u := by
  simp [setThread_thread, h]

@[simp] theorem listRemove_thread (t : T) : (k.listRemove t).thread = k.thread := rfl

@[simp] theorem listRemove_readyGroup (t : T) :
    (k.listRemove t).readyGroup = k.readyGroup := rfl

@[simp] theorem listRemove_lists (t : T) (h : Head W) :
    (k.listRemove t).lists h = (k.lists h).erase t := rfl

theorem timerStop_fst (t : T) :
    (k.timerStop t).1 = k.setThread t (fun th => { th with
      timer := if th.timer.activated then th.timer.deactivate else th.timer }) := by
  by_cases h : (k.thread t).timer.activated <;> simp [timerStop, setThread, h]

end

theorem Placed.listRemove {u : T} (h : k.Placed u) (hu : u ≠ t) : (k.listRemove t).Placed u :=
  h.congr rfl (fun _ => mem_erase_of_ne hu)

theorem Wf.apart_listRemove (h : k.Wf) (hs : (k.thread t).stat ≠ .ready) : (k.listRemove t).Apart t := by
  refine ⟨?_, ?_, ?_, ?_⟩
  · intro p hp
    rw [listRemove_lists, erase_of_not_mem (h.not_mem_ready hs p)]
    exact h.group_iff p hp
  · intro a; exact (h.nodup a).erase t
  · intro a; exact (h.nodup a).not_mem_erase
  · intro u hu; exact (h.placed u).listRemove hu

theorem Wf.apart_remove (h : k.Wf) (t : T) : (k.scheduleRemoveThread t).Apart t := by
  have ht := h.placed t
  have hnodup : ∀ a, ((k.listRemove t).lists a).Nodup := fun a => (h.nodup a).erase t
  have hunlinked : ∀ a, t ∉ (k.listRemove t).lists a := fun a => (h.nodup a).not_mem_erase
  have hplaced : ∀ u, u ≠ t → (k.listRemove t).Placed u := fun u hu => (h.placed u).listRemove hu
  have hother : ∀ p, p ≠ (k.thread t).currentPriority →
      (k.listRemove t).lists (.ready p) = k.lists (.ready p) := by
    intro p hp
    exact erase_of_not_mem (fun hm => hp ((ht.ready_iff p).mp hm).2.symm)
  unfold scheduleRemoveThread
  dsimp only
  split_ifs with he
  · refine ⟨?_, hnodup, hunlinked, fun u hu => (hplaced u hu).congr rfl (fun _ => Iff.rfl)⟩
    intro p hp
    have hg := h.group_iff p hp
    simp only [BitVec.getLsbD_and, BitVec.getLsbD_not, hp, decide_true, Bool.true_and,
      Bool.and_eq_true, Bool.not_eq_true', listRemove_thread] at he ⊢
    by_cases hc : p = (k.thread t).currentPriority
    · subst hc
      simp only [he, ne_eq, not_true_eq_false, iff_false, not_and]
      intro hb
      have hm : t ∈ k.lists (.ready (k.thread t).currentPriority) := by
        by_contra hm
        rw [listRemove_lists, erase_of_not_mem hm] at he
        exact (hg.mp hb) he
      have hr := ((ht.ready_iff _).mp hm).1
      rw [ht.mask_eq (Or.inl hr), Bool.not_eq_false, priorityMask_getLsbD hp]
    · rw [hother p hc, ← hg]
      constructor
      · exact fun hb => hb.1
      · intro hb
        exact ⟨hb, Bool.eq_false_iff.mpr (fun hm => hc (ht.mask_subset p hm))⟩
  · refine ⟨?_, hnodup, hunlinked, hplaced⟩
    intro p hp
    by_cases hc : p = (k.thread t).currentPriority
    · subst hc
      have hne : k.lists (.ready (k.thread t).currentPriority) ≠ [] := by
        intro hn
        exact he (by simp [hn])
      exact (iff_of_true ((h.group_iff _ hp).mpr hne) he)
    · rw [hother p hc]
      exact h.group_iff p hp

variable (h : k.Apart t)

include h

theorem Apart.setThread (f : Thread → Thread) : (k.setThread t f).Apart t :=
  ⟨h.group_iff, h.nodup, h.unlinked,
    fun u hu => (h.placed u hu).congr (k.setThread_of_ne f hu) (fun _ => Iff.rfl)⟩

theorem Apart.timerStop : (k.timerStop t).1.Apart t := by
  rw [timerStop_fst]
  exact h.setThread _

theorem Apart.wf (ht : k.Placed t) : k.Wf := by
  refine ⟨h.group_iff, h.nodup, ?_⟩
  intro u
  by_cases hu : u = t
  · exact hu ▸ ht
  · exact h.placed u hu

variable [DecidableEq W]

theorem Apart.insert_ready (hc : (k.thread t).currentPriority < 32) (hi : (k.thread t).initPriority < 32)
    (hm : (k.thread t).numberMask = priorityMask (k.thread t).currentPriority) : (k.scheduleInsertThread t).Wf := by
  have hl : (k.scheduleInsertThread t).lists = update k.lists (.ready (k.thread t).currentPriority)
        (k.lists (.ready (k.thread t).currentPriority) ++ [t]) := by
    simp [scheduleInsertThread, listInsertBefore]
  have hperm : (k.lists (.ready (k.thread t).currentPriority) ++ [t]).Perm
      (t :: k.lists (.ready (k.thread t).currentPriority)) := perm_append_comm
  have ht : (k.scheduleInsertThread t).thread = update k.thread t { k.thread t with stat := .ready } := by
    simp [scheduleInsertThread, listInsertBefore, setThread_thread]
  have hg : (k.scheduleInsertThread t).readyGroup = k.readyGroup ||| priorityMask (k.thread t).currentPriority := by
    simp [scheduleInsertThread, listInsertBefore, hm]
  refine ⟨?_, ?_, ?_⟩
  · intro p hp
    rw [hg, hl, BitVec.getLsbD_or, Bool.or_eq_true, priorityMask_getLsbD hc, h.group_iff p hp]
    by_cases hq : p = (k.thread t).currentPriority
    · subst hq; simp
    · simp [hq]
  · intro a
    rw [hl]
    exact h.nodup_update hperm a
  · intro u
    obtain rfl | hu := eq_or_ne u t
    · have hmem : ∀ a, u ∈ (k.scheduleInsertThread u).lists a ↔ a = .ready (k.thread u).currentPriority := by
        intro a
        rw [hl]
        exact h.mem_update hperm a
      constructor
      · intro p; simp only [hmem, ht, update_self, Head.ready.injEq, true_and]; exact eq_comm
      · intro w hw; simp [hmem] at hw
      · intro w w' hw; simp [hmem] at hw
      · intro hd; simp [hmem] at hd
      · simpa [ht] using hc
      · simpa [ht] using hi
      · intro q hq
        rw [ht, update_self] at hq ⊢
        exact (priorityMask_getLsbD hc).mp (hm ▸ hq)
      · intro _; simpa [ht] using hm
    · refine (h.placed u hu).congr (by rw [ht, update_of_ne hu]) ?_
      intro a
      rw [hl]
      exact mem_update_of_ne hperm hu a

end RtThread.Kernel
