import RtThread.Lib.KeyOrder
import RtThread.Ipc.Mutex
import RtThread.Ipc.Semaphore
import RtThread.Ipc.Event
import RtThread.Ipc.Mailbox
import RtThread.Ipc.MessageQueue

namespace RtThread

open Function List Option

variable {T W : Type} [DecidableEq W]

def View.Ordered (v : View T W) (flag : W → IpcFlag) : Prop :=
  ∀ w, flag w = .prio → KeyOrder.Sorted v.priority (v.waiting w)

inductive WaitChange (flag : W → IpcFlag) (v v' : View T W) : Prop
  | shrunk (hp : ∀ w, ∀ t ∈ v.waiting w, v'.priority t = v.priority t)
      (hw : ∀ w, (v'.waiting w).Sublist (v.waiting w))
  | parked (t : T) (w : W) (hp : v'.priority = v.priority)
      (hw : v'.waiting = update v.waiting w (enqueue (flag w) v.priority t (v.waiting w)))

variable {flag : W → IpcFlag} {v v' : View T W} {w : W}

theorem ordered_parked_iff {t : T} (hp : v'.priority = v.priority)
    (hw : v'.waiting = update v.waiting w (enqueue (flag w) v.priority t (v.waiting w))) :
    v'.Ordered flag ↔ v.Ordered flag := by
  refine forall_congr' (fun w' => imp_congr_right (fun hf => ?_))
  by_cases he : w' = w
  · subst he
    rw [hp, hw, update_self, hf]
    exact ⟨fun h => h.sublist (sublist_orderedInsert _ _), fun h => h.orderedInsert t⟩
  · rw [hp, hw, update_of_ne he]

theorem WaitChange.ordered (h : WaitChange flag v v') (ho : v.Ordered flag) : v'.Ordered flag := by
  cases h with
  | shrunk hp hw => exact fun w hf => ((ho w hf).congr (hp w)).sublist (hw w)
  | parked t w hp hw => exact (ordered_parked_iff hp hw).mpr ho

theorem WaitChange.same (hp : v'.priority = v.priority) (hw : v'.waiting = v.waiting) : WaitChange flag v v' :=
  .shrunk (fun _ _ _ => by rw [hp]) (fun _ => by rw [hw])

theorem WaitChange.cut {l : List T} (hp : v'.priority = v.priority)
    (hw : v'.waiting = update v.waiting w l) (hl : l.Sublist (v.waiting w)) : WaitChange flag v v' := by
  refine .shrunk (fun _ _ _ => by rw [hp]) (fun w' => ?_)
  by_cases he : w' = w
  · subst he
    rwa [hw, update_self]
  · rw [hw, update_of_ne he]

variable {k : Kernel T W} {k' : Kernel T W} [DecidableEq T]

theorem SemTakeEffect.change {x x' : Semaphore} {t : T} {r : Outcome}
    (h : SemTakeEffect k w x t k' x' r) (hf : flag w = x.flag) :
    WaitChange flag k.view k'.view ∧ x'.flag = x.flag := by
  cases h with
  | taken _ hk | refused _ hk => exact ⟨.same (by rw [hk]) (by rw [hk]), rfl⟩
  | blocked _ hk => exact ⟨.parked t w (by rw [hk]) (by rw [hk, hf]), rfl⟩

theorem SemReleaseEffect.change {x x' : Semaphore}
    (h : SemReleaseEffect k w x k' x') : WaitChange flag k.view k'.view ∧ x'.flag = x.flag := by
  cases h with
  | @granted _ t l hl hk =>
    exact ⟨.cut (by rw [hk]) (by rw [hk]) (by rw [hl]; exact sublist_cons_self t l), rfl⟩
  | counted _ => exact ⟨.same rfl rfl, rfl⟩

theorem ReleaseEffect.change {x x' : Mutex T} {t : T} {e : Err} (h : ReleaseEffect v w x t v' x' e)
    (ht : ∀ w', t ∉ v.waiting w') : WaitChange flag v v' ∧ x'.flag = x.flag := by
  have hkeep : ∀ p w', ∀ u ∈ v.waiting w', update v.priority t p u = v.priority u := by
    intro p w' u hu
    refine update_of_ne ?_ _ _
    rintro rfl
    exact ht w' hu
  cases h with
  | refused _ | kept _ _ => exact ⟨.same rfl rfl, rfl⟩
  | @handed u l p _ _ hl hp =>
    refine ⟨.shrunk (fun w' u hu => by rw [hp]; exact hkeep _ w' u hu) (fun w' => ?_), rfl⟩
    by_cases he : w' = w
    · subst he
      simp [hl]
    · simp [he]
  | freed _ _ _ hp => exact ⟨.shrunk (fun w' u hu => by rw [hp]; exact hkeep _ w' u hu) (fun _ => .refl _), rfl⟩

namespace Kernel

variable {k k' : Kernel T W} {w : W} {t : T}

theorem RecvEffect.change {x x' : Event} {set : BitVec 32} {option : BitVec 8} {timeout : BitVec 32} {r : Outcome}
    {recved : Option (BitVec 32)} (h : RecvEffect k w x t set option timeout k' x' r recved)
    (hf : flag w = x.flag) : WaitChange flag k.view k'.view ∧ x'.flag = x.flag := by
  cases h with
  | rejected _ hk | served _ _ hk | refused _ _ _ hk => exact ⟨.same (by rw [hk]) (by rw [hk]), rfl⟩
  | blocked _ _ _ hk => exact ⟨.parked t w (by rw [hk]) (by rw [hk, hf]), rfl⟩

theorem Delivered.change {served : List (T × BitVec 32)} (h : Delivered k served k') :
    WaitChange flag k.view k'.view :=
  .shrunk (fun _ _ _ => by rw [h.priority]) (fun w => by rw [h.waiting]; exact filter_sublist)

theorem Wf.eventSend_change (hk : k.Wf) (w : W) (x : Event) (set : BitVec 32) :
    (RtThread.eventSend k w x set).1.Wf ∧ WaitChange flag k.view (RtThread.eventSend k w x set).1.view ∧
      (RtThread.eventSend k w x set).2.1.flag = x.flag := by
  by_cases hset : set = 0
  · rw [RtThread.eventSend, if_pos hset]
    exact ⟨hk, .same rfl rfl, rfl⟩
  · obtain ⟨hx, hd⟩ := hk.eventSend w x hset
    exact ⟨hd.wf, hd.change, by rw [hx]⟩

theorem Wf.resumeFirst_change (hk : k.Wf) (flag : W → IpcFlag) (w : W) :
    (k.resumeFirst w).Wf ∧ WaitChange flag k.view (k.resumeFirst w).view := by
  unfold Kernel.resumeFirst
  cases hl : k.lists (.wait w) with
  | nil => exact ⟨hk, .same rfl rfl⟩
  | cons t l =>
    obtain ⟨hw, _, hv⟩ := hk.ipcListResume_view hl
    have hcut : l.Sublist (k.view.waiting w) := by
      rw [show k.view.waiting w = t :: l from hl]
      exact sublist_cons_self t l
    exact ⟨hw.schedule, .cut (by rw [schedule_view, hv]) (by rw [schedule_view, hv]) hcut⟩

theorem Wf.resetList_change (hk : k.Wf) (w : W) :
    (k.ipcListResumeAll w).schedule.Wf ∧ WaitChange flag k.view (k.ipcListResumeAll w).schedule.view := by
  obtain ⟨hw, hv⟩ := hk.ipcListResumeAll_view w
  exact ⟨hw.schedule, .cut (by rw [schedule_view, hv]) (by rw [schedule_view, hv]) (nil_sublist _)⟩

theorem Wf.timerExpire_change (hk : k.Wf) (h : k.timerExpire t = some k') :
    k'.Wf ∧ WaitChange flag k.view k'.view := by
  obtain ⟨hw, _, hv⟩ := hk.timerExpire_view h
  exact ⟨hw, .shrunk (fun _ _ _ => by rw [hv]) (fun w => by rw [hv]; exact erase_sublist)⟩

theorem WaitEffect.change {f : IpcFlag} {errno : Err} {r : Option (BitVec 32 × BitVec 32)}
    (h : WaitEffect k w f errno t k' r) (hf : flag w = f) : WaitChange flag k.view k'.view := by
  cases h with
  | refused hv => exact .same (by rw [hv]) (by rw [hv])
  | parked p hv => exact .parked t w (by rw [hv]) (by rw [hv, hf])

end Kernel

theorem MbEffect.change {op : MbOp W} {t : T} {x x' : Mailbox} {r : MbOutcome} (hk : k.Wf)
    (h : MbEffect k op t x k' x' r) (hf : flag op.wait = x.flag) (hop : (op.apply x).flag = x.flag) :
    k'.Wf ∧ WaitChange flag k.view k'.view ∧ x'.flag = x.flag := by
  cases h with
  | failed errno _ _ hk hv => exact ⟨hk, .same (by rw [hv]) (by rw [hv]), rfl⟩
  | parked timeout tickDelta _ hk hv => exact ⟨hk, .parked t op.wait (by rw [hv]) (by rw [hv, hf]), rfl⟩
  | done _ =>
    obtain ⟨hw, hc⟩ := (hk.dispatch t).resumeFirst_change flag op.wake
    exact ⟨hw, hc, hop⟩

theorem mbSend_change {recv send : W} {x x' : Mailbox} {value : BitVec 32} {r : MbOutcome}
    (hk : k.Wf) (h : mbSend k recv send x value = some (k', x', r)) :
    k'.Wf ∧ WaitChange flag k.view k'.view ∧ x'.flag = x.flag := by
  unfold mbSend mbSendWait mbCall mbLoop at h
  cases hstuck : (mbSendOp recv send value).stuck x with
  | true =>
    rw [if_pos ⟨hstuck, rfl⟩] at h
    cases h
    exact ⟨hk, .same rfl rfl, rfl⟩
  | false =>
    simp only [hstuck, Bool.false_eq_true, false_and, if_false, some.injEq, Prod.mk.injEq] at h
    obtain ⟨rfl, rfl, -⟩ := h
    obtain ⟨hw, hc⟩ := hk.resumeFirst_change flag recv
    exact ⟨hw, hc, rfl⟩

theorem mbControl_change (hk : k.Wf) (recv send : W) (x : Mailbox) (cmd : MbCtrl) :
    (mbControl k recv send x cmd).1.Wf ∧ WaitChange flag k.view (mbControl k recv send x cmd).1.view ∧
      (mbControl k recv send x cmd).2.1.flag = x.flag := by
  cases cmd with
  | other => exact ⟨hk, .same rfl rfl, rfl⟩
  | reset =>
    obtain ⟨hw, hv⟩ := hk.ipcListResumeAll_view recv
    obtain ⟨hw', hv'⟩ := hw.ipcListResumeAll_view send
    refine ⟨hw'.schedule, .shrunk (fun _ _ _ => ?_) (fun w => ?_), rfl⟩
    · rw [mbControl, Kernel.schedule_view, hv', hv]
    · rw [mbControl, Kernel.schedule_view, hv', hv]
      by_cases hs : w = send
      · simp [hs]
      · obtain rfl | hr := eq_or_ne w recv
        · simp [hs]
        · simp [hs, hr]

theorem MqSendEffect.flag_eq {x x' : MessageQueue} {urgent : Bool} {buffer : Bytes} {o : MqOutcome}
    (h : MqSendEffect x urgent buffer x' o) : x'.flag = x.flag := by
  cases h with
  | failed _ => rfl
  | begun hm =>
    obtain ⟨b, _, he⟩ := map_eq_some_iff.mp hm
    cases he
    rfl

theorem MqRecvEffect.flag_eq {x x' : MessageQueue} {o : MqOutcome} (h : MqRecvEffect x x' o) : x'.flag = x.flag := by
  cases h with
  | returned _ | waiting _ _ _ => rfl
  | taken _ _ hm =>
    obtain ⟨b, _, he⟩ := map_eq_some_iff.mp hm
    cases he
    simp only [MessageQueue.unlink]

section

variable {k k' : Kernel T W} {w : W} {t : T} {x x' : MessageQueue} {size : ℕ} {timeout tickDelta : BitVec 32}
  {o : MqOutcome}

section

variable (hk : k.Wf) (hr : k.view.stat t = .ready) (hf : flag w = x.flag)

include hk hr hf

theorem mqRecvLoop_change (h : mqRecvLoop (k.dispatch t) w x size timeout = some (k', x', o)) :
    k'.Wf ∧ WaitChange flag k.view k'.view := by
  cases mqRecvLoop_turn h with
  | refused hj | waits hj =>
    obtain ⟨hw, heff⟩ := hk.waitOn hr hj
    exact ⟨hw, heff.change hf⟩
  | takes _ _ => exact ⟨hk.dispatch t, .same rfl rfl⟩

theorem mqRecv_change (h : mqRecv (k.dispatch t) w x size timeout = some (k', x', o)) :
    k'.Wf ∧ WaitChange flag k.view k'.view := by
  unfold mqRecv at h
  split_ifs at h
  · obtain rfl : k.dispatch t = k' := congrArg Prod.fst (some.inj h)
    exact ⟨hk.dispatch t, .same rfl rfl⟩
  · exact mqRecvLoop_change hk hr hf h

theorem mqRecvResume_change (h : mqRecvResume (k.dispatch t) w t x size timeout tickDelta = some (k', x', o)) :
    k'.Wf ∧ WaitChange flag k.view k'.view := by
  unfold mqRecvResume at h
  split_ifs at h
  · obtain rfl : k.dispatch t = k' := congrArg Prod.fst (some.inj h)
    exact ⟨hk.dispatch t, .same rfl rfl⟩
  · exact mqRecvLoop_change hk hr hf h

end

theorem mqProceed_change {p : MqPc} (hk : k.Wf) (hr : k.view.stat t = .ready) (hf : flag w = x.flag)
    (h : mqProceed (k.dispatch t) w (some t) x p = some (k', x', o)) :
    k'.Wf ∧ WaitChange flag k.view k'.view ∧ x'.flag = x.flag := by
  cases p with
  | filling urgent msg buffer =>
    cases h
    exact ⟨hk.dispatch t, .same rfl rfl, rfl⟩
  | linking urgent msg buffer =>
    cases h
    obtain ⟨hw, hc⟩ := (hk.dispatch t).resumeFirst_change flag w
    exact ⟨hw, hc, by cases urgent <;> rfl⟩
  | waiting size timeout tickDelta =>
    have hq : mqRecvResume (k.dispatch t) w t x size timeout tickDelta = some (k', x', o) := h
    obtain ⟨hw, hc⟩ := mqRecvResume_change hk hr hf hq
    exact ⟨hw, hc, (mqRecvResume_effect hq).flag_eq⟩
  | copying msg size message =>
    cases h
    exact ⟨hk.dispatch t, .same rfl rfl, rfl⟩
  | freeing msg value =>
    cases h
    exact ⟨hk.dispatch t, .same rfl rfl, rfl⟩

end

end RtThread
