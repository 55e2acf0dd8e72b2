import RtThread.Lib.Serial
import RtThread.Drivers.DataQueue
import RtThread.Ipc.MqSystem
import RtThread.Port.Fmq

namespace RtThread

open Function Option

theorem slt_zero_iff (x : BitVec 32) : x.slt 0 = true ↔ 2 ^ 31 ≤ x.toNat := by
  have hint := BitVec.toInt_eq_toNat_cond x
  have hiff : x.slt 0 = true ↔ x.toInt < (0 : ℤ) := by simp [BitVec.slt]
  rw [hiff, hint]
  split_ifs <;> omega

variable {T W : Type} [DecidableEq T] [DecidableEq W]

namespace Kernel

variable {timeout : BitVec 32}

variable {k j k' : Kernel T W} {t : T} {w : W}

section

omit [DecidableEq T] [DecidableEq W]

theorem timeLeft_toNat {k : Kernel T W} {tickDelta : BitVec 32} {n : ℕ} (hpos : (0 : BitVec 32).slt timeout)
    (htick : tickDelta + BitVec.ofNat 32 n = k.tick) (hn : n ≤ timeout.toNat + 2 ^ 31) :
    (k.timeLeft timeout tickDelta).toNat = timeout.toNat - n := by
  have hlt := ((zero_slt_iff timeout).mp hpos).2
  have hsub : k.tick - tickDelta = BitVec.ofNat 32 n := by rw [← htick, add_sub_cancel_left]
  have hnat : (BitVec.ofNat 32 n).toNat = n := by rw [BitVec.toNat_ofNat, Nat.mod_eq_of_lt (by omega)]
  rw [timeLeft, if_pos hpos, hsub]
  by_cases hle : n ≤ timeout.toNat
  · have hrest : (timeout - BitVec.ofNat 32 n).toNat = timeout.toNat - n := by
      rw [Serial.toNat_sub_of_le (by rwa [hnat]), hnat]
    rw [if_neg (by rw [slt_zero_iff]; omega), hrest]
  · have hover : (timeout - BitVec.ofNat 32 n).toNat = 2 ^ 32 - (n - timeout.toNat) := by
      rw [Serial.toNat_sub_of_lt (by omega), hnat]
    rw [if_pos (by rw [slt_zero_iff]; omega)]
    exact (Nat.sub_eq_zero_of_le (Nat.le_of_not_le hle)).symm

def Keeps (k k' : Kernel T W) (t : T) : Prop :=
  (k'.thread t).stat = .suspend → (k.thread t).stat = .suspend ∧ (k'.thread t).timer = (k.thread t).timer

structure Wakes (k k' : Kernel T W) : Prop where
  tick : k'.tick = k.tick
  keeps : ∀ t, k.Keeps k' t

theorem Wakes.refl (k : Kernel T W) : Wakes k k := ⟨rfl, fun _ h => ⟨h, rfl⟩⟩

theorem Wakes.trans (h : Wakes k j) (h' : Wakes j k') : Wakes k k' := by
  refine ⟨h'.tick.trans h.tick, fun t ht => ?_⟩
  obtain ⟨hj, htimer⟩ := h'.keeps t ht
  obtain ⟨hk, htimer'⟩ := h.keeps t hj
  exact ⟨hk, htimer.trans htimer'⟩

structure Parks (k : Kernel T W) (t : T) (timeout : BitVec 32) (k' : Kernel T W) : Prop where
  tick : k'.tick = k.tick
  keeps : ∀ u, u ≠ t → k.Keeps k' u
  started : (0 : BitVec 32).slt timeout → (k'.thread t).timer.linked = true ∧
    (k'.thread t).timer.timeoutTick = k.tick + timeout

theorem Wakes.parks (h : Wakes k j) (h' : Parks j t timeout k') : Parks k t timeout k' := by
  refine ⟨h'.tick.trans h.tick, fun u hu hs => ?_, fun hpos => ?_⟩
  · obtain ⟨hj, htimer⟩ := h'.keeps u hu hs
    obtain ⟨hk, htimer'⟩ := h.keeps u hj
    exact ⟨hk, htimer.trans htimer'⟩
  · rw [← h.tick]
    exact h'.started hpos

theorem wakes_of_thread (htick : k'.tick = k.tick) (h : k'.thread = k.thread) : Wakes k k' :=
  ⟨htick, fun t ht => by rw [h] at ht ⊢; exact ⟨ht, rfl⟩⟩

def startTick (k : Kernel T W) (timeout : BitVec 32) : BitVec 32 := if (0 : BitVec 32).slt timeout then k.tick else 0

/-- How a section of a waiting call ends: without a wait, or with its caller parked for `timeout`. What is kept of the
wait is its timeout and, if the call is `clocked`, the tick it begins at. -/
inductive WaitSection (k : Kernel T W) (timeout : BitVec 32) (clocked : Bool) :
    Kernel T W → Option (BitVec 32 × Option (BitVec 32)) → Prop
  | passes {k' : Kernel T W} (h : Wakes k k') : WaitSection k timeout clocked k' none
  | parks {k' : Kernel T W} {t : T} (hz : timeout ≠ 0) (hc : k.current = some t) (h : Parks k t timeout k') :
      WaitSection k timeout clocked k' (some (timeout, if clocked then some (k.startTick timeout) else none))

theorem WaitSection.returned {α β : Type} {armed : β → Option (BitVec 32 × Option (BitVec 32))} {x x' : α}
    {r r' : β} {clocked : Bool} (h : some (j, x, r) = some (k', x', r')) (hw : Wakes k j)
    (hr : armed r = none) : WaitSection k timeout clocked k' (armed r') := by
  cases h
  rw [hr]
  exact .passes hw

end

def timerCheck (k : Kernel T W) : List T → Option (Kernel T W)
  | [] => some k
  | t :: l => (k.timerExpire t).bind (fun k => k.timerCheck l)

def TimerDue (k : Kernel T W) (t : T) : Prop :=
  (k.thread t).timer.linked = true ∧ (k.tick - (k.thread t).timer.timeoutTick).ult (tickMax / 2)

instance (k : Kernel T W) (t : T) : Decidable (k.TimerDue t) := instDecidableAnd

omit [DecidableEq W] in
theorem wakes_of_update {th : Thread} (htick : k'.tick = k.tick) (h : k'.thread = update k.thread t th)
    (hth : th.stat = .suspend → (k.thread t).stat = .suspend ∧ th.timer = (k.thread t).timer) : Wakes k k' := by
  refine ⟨htick, ?_⟩
  simp only [Keeps, h]
  exact (forall_update_iff k.thread (fun u x => x.stat = .suspend →
    (k.thread u).stat = .suspend ∧ x.timer = (k.thread u).timer)).mpr ⟨hth, fun _ _ hs => ⟨hs, rfl⟩⟩

section

variable (k : Kernel T W)

section

omit [DecidableEq T] [DecidableEq W]

theorem schedule_tick : k.schedule.tick = k.tick := by
  unfold schedule
  split_ifs <;> rfl

theorem wakes_schedule : Wakes k k.schedule := wakes_of_thread k.schedule_tick k.schedule_thread

theorem wakes_exitCritical : Wakes k k.exitCritical := by
  have hunlock : Wakes k { k with lockNest := 0 } := wakes_of_thread rfl rfl
  unfold exitCritical
  dsimp only
  split_ifs
  · exact hunlock.trans (wakes_schedule _)
  · exact wakes_of_thread rfl rfl

end

section

omit [DecidableEq W]

theorem wakes_setError (t : T) (e : Err) : Wakes k (k.setError t e) :=
  wakes_of_update rfl (k.setThread_thread t _) (fun h => ⟨h, rfl⟩)

theorem timerStop_tick (t : T) : (k.timerStop t).1.tick = k.tick := by
  unfold timerStop
  split_ifs <;> rfl

end

theorem wakes_threadResume (t : T) : Wakes k (k.threadResume t).1 := by
  by_cases hs : (k.thread t).stat = .suspend
  · refine wakes_of_update ?_ (threadResume_thread hs) nofun
    rw [threadResume_suspended hs]
    exact timerStop_tick _ t
  · simpa [threadResume, hs] using Wakes.refl k

theorem wakes_threadChangePriority (t : T) (p : ℕ) : Wakes k (k.threadChangePriority t p) := by
  refine wakes_of_update ?_ (k.threadChangePriority_thread t p) (fun h => ⟨h, rfl⟩)
  unfold threadChangePriority scheduleRemoveThread
  dsimp only
  split_ifs <;> rfl

theorem wakes_ipcListResume (w : W) : Wakes k (k.ipcListResume w) := by
  unfold ipcListResume
  split
  · exact Wakes.refl k
  · exact wakes_threadResume k _

theorem wakes_resumeFirst (w : W) : Wakes k (k.resumeFirst w) := by
  unfold resumeFirst
  split
  · exact Wakes.refl k
  · exact (wakes_ipcListResume k w).trans (wakes_schedule _)

theorem wakes_wakeFirst (w : Option W) : Wakes k (k.wakeFirst w) := by
  cases w with
  | none => exact Wakes.refl k
  | some w => exact wakes_resumeFirst k w

theorem wakes_ipcListResumeAll (w : W) : Wakes k (k.ipcListResumeAll w) :=
  ipcListResumeAll_induct (Wakes.refl k)
    (fun _ t hj => hj.trans ((wakes_setError _ t .error).trans (wakes_threadResume _ t))) w

end

theorem timerExpire_wakes (h : k.timerExpire t = some k') : Wakes k k' ∧ (k'.thread t).stat = .ready := by
  unfold timerExpire at h
  split_ifs at h
  obtain ⟨j, hj, rfl⟩ := map_eq_some_iff.mp h
  obtain ⟨hs, hthread, -⟩ := threadTimeout_eq_some hj
  have htick : j.tick = k.tick := by
    rw [threadTimeout_suspended hs, Option.some.injEq] at hj
    rw [← hj]
    exact schedule_tick _
  have hupdate : (j.setThread t (fun th => { th with timer := { th.timer with activated := false } })).thread =
      update k.thread t { k.thread t with
        stat := .ready, error := .etimeout, timer := { (k.thread t).timer.unlink with activated := false } } := by
    simp [setThread_thread, hthread, timerDetach]
  exact ⟨wakes_of_update htick hupdate (by simp), by rw [hupdate, update_self]⟩

theorem timerCheck_wakes {l : List T} (h : k.timerCheck l = some k') :
    Wakes k k' ∧ ∀ t ∈ l, (k'.thread t).stat ≠ .suspend := by
  induction l generalizing k with
  | nil =>
    obtain rfl := Option.some.inj h
    exact ⟨Wakes.refl k, by simp⟩
  | cons t l ih =>
    obtain ⟨j, hj, hl⟩ := bind_eq_some_iff.mp h
    obtain ⟨hw, hready⟩ := timerExpire_wakes hj
    obtain ⟨hw', hrest⟩ := ih hl
    refine ⟨hw.trans hw', fun u hu => ?_⟩
    obtain rfl | hu := List.mem_cons.mp hu
    · -- the later firings suspend nobody
      intro hs
      have hsuspend := (hw'.keeps u hs).1
      rw [hready] at hsuspend
      cases hsuspend
    · exact hrest u hu

theorem ipcListSuspend_tick (k : Kernel T W) (w : W) (t : T) (flag : IpcFlag) :
    (k.ipcListSuspend w t flag).tick = k.tick := by
  unfold ipcListSuspend threadSuspend scheduleRemoveThread
  dsimp only
  split_ifs
  · rfl
  · exact timerStop_tick _ t
  · exact timerStop_tick _ t

theorem ipcListSuspend_of_ne (k : Kernel T W) (w : W) (t : T) (flag : IpcFlag) {u : T} (hu : u ≠ t) :
    (k.ipcListSuspend w t flag).thread u = k.thread u := by
  by_cases hr : (k.thread t).stat = .ready
  · rw [ipcListSuspend_thread w flag hr, update_of_ne hu]
  · simp [ipcListSuspend, threadSuspend, hr]

theorem suspendFor_parks {flag : IpcFlag} (h : k.suspendFor w t flag timeout = some k') : Parks k t timeout k' := by
  have htick := k.ipcListSuspend_tick w t flag
  unfold suspendFor at h
  split_ifs at h with hpos
  · obtain ⟨j, hj, rfl⟩ := map_eq_some_iff.mp h
    obtain rfl := timerStart_setThread hj
    refine ⟨(schedule_tick _).trans htick, fun u hu hs => ?_, fun _ => ?_⟩
    · rw [schedule_thread, timerControlSetTime, setThread_of_ne _ _ hu, setThread_of_ne _ _ hu,
        ipcListSuspend_of_ne k w t flag hu] at hs ⊢
      exact ⟨hs, rfl⟩
    · rw [schedule_thread, setThread_self, timerControlSetTime, setThread_self]
      refine ⟨rfl, ?_⟩
      rw [← htick]
      rfl
  · cases h
    refine ⟨(schedule_tick _).trans htick, fun u hu hs => ?_, fun hp => absurd hp hpos⟩
    rw [schedule_thread, ipcListSuspend_of_ne k w t flag hu] at hs ⊢
    exact ⟨hs, rfl⟩

theorem waitOn_section {flag : IpcFlag} {errno : Err} {r : Option (BitVec 32 × BitVec 32)}
    (h : k.waitOn w flag errno timeout = some (k', r)) :
    WaitSection k timeout true k' (r.map (fun p => (p.1, some p.2))) := by
  obtain ⟨t, hc, hturn⟩ := waitOn_turn h
  cases hturn with
  | refused _ => exact .passes (wakes_setError k t errno)
  | parked hz hj => exact .parks hz hc ((wakes_setError k t .eok).parks (suspendFor_parks hj))

end Kernel

open Kernel

def MbOutcome.armed : MbOutcome → Option (BitVec 32 × Option (BitVec 32))
  | returned _ _ => none
  | blocked timeout tickDelta => some (timeout, some tickDelta)

def MqPc.armed : MqPc → Option (BitVec 32 × Option (BitVec 32))
  | waiting _ timeout tickDelta => some (timeout, some tickDelta)
  | _ => none

def MqOutcome.armed : MqOutcome → Option (BitVec 32 × Option (BitVec 32))
  | returned _ _ => none
  | inside p => p.armed

def FmqOutcome.armed : FmqOutcome → Option (BitVec 32 × Option (BitVec 32))
  | returned _ _ => none
  | blocked timeout tickDelta => some (timeout, some tickDelta)

def DqOutcome.armed : DqOutcome → Option (BitVec 32 × Option (BitVec 32))
  | returned _ _ _ => none
  | blocked timeout => some (timeout, none)

section

variable {k k' : Kernel T W} {t : T} {w : W} {timeout tickDelta : BitVec 32} {r : MbOutcome} {mb mb' : Mailbox}
  {op : MbOp W}

theorem mbLoop_section (h : mbLoop k op mb timeout = some (k', mb', r)) : WaitSection k timeout true k' r.armed := by
  cases mbLoop_turn h with
  | @waits _ p _ hj =>
    have hw := waitOn_section hj
    cases p with
    | none | some p => exact hw
  | done _ => exact .passes (wakes_resumeFirst k op.wake)

theorem mbCall_section (h : mbCall k op mb timeout = some (k', mb', r)) : WaitSection k timeout true k' r.armed := by
  unfold mbCall at h
  split_ifs at h
  · exact .returned h (Wakes.refl k) rfl
  · exact mbLoop_section h

theorem mbResume_section (h : mbResume k op t mb timeout tickDelta = some (k', mb', r)) :
    WaitSection k (k.timeLeft timeout tickDelta) true k' r.armed := by
  unfold mbResume at h
  split_ifs at h
  · exact .returned h (Wakes.refl k) rfl
  · exact mbLoop_section h

theorem mqRecvLoop_section {mq mq' : MessageQueue} {size : ℕ} {r : MqOutcome}
    (h : mqRecvLoop k w mq size timeout = some (k', mq', r)) : WaitSection k timeout true k' r.armed := by
  cases mqRecvLoop_turn h with
  | refused hj | waits hj => exact waitOn_section hj
  | takes _ _ => exact .passes (Wakes.refl k)

theorem mqRecv_section {mq mq' : MessageQueue} {size : ℕ} {r : MqOutcome}
    (h : mqRecv k w mq size timeout = some (k', mq', r)) : WaitSection k timeout true k' r.armed := by
  unfold mqRecv at h
  split_ifs at h
  · exact .returned h (Wakes.refl k) rfl
  · exact mqRecvLoop_section h

variable {op : FmqOp W} {r : FmqOutcome} {q q' : Fmq}

theorem fmqLoop_section (h : fmqLoop k op q timeout = some (k', q', r)) : WaitSection k timeout true k' r.armed := by
  cases fmqLoop_turn h with
  | @waits _ p _ hj =>
    have hw := waitOn_section hj
    cases p with
    | none | some p => exact hw
  | done _ _ => exact .passes (wakes_wakeFirst k op.wake)

theorem fmqCall_section (h : fmqCall k op q timeout = some (k', q', r)) : WaitSection k timeout true k' r.armed := by
  unfold fmqCall at h
  split_ifs at h
  · exact .returned h (Wakes.refl k) rfl
  · exact fmqLoop_section h

theorem fmqResume_section (h : fmqResume k op t q timeout tickDelta = some (k', q', r)) :
    WaitSection k (k.timeLeft timeout tickDelta) true k' r.armed := by
  unfold fmqResume at h
  split_ifs at h
  · exact .returned h (Wakes.refl k) rfl
  · exact fmqLoop_section h

theorem dqWait_section {q q' : DataQueue} {r : DqOutcome} (h : dqWait k w q timeout = some (k', q', r)) :
    WaitSection k timeout false k' r.armed := by
  unfold dqWait at h
  by_cases hz : timeout = 0
  · rw [if_pos hz] at h
    exact .returned h (Wakes.refl k) rfl
  · rw [if_neg hz] at h
    cases hc : k.current with
    | none => simp [hc] at h
    | some t =>
      simp only [hc] at h
      obtain ⟨j, hj, he⟩ := map_eq_some_iff.mp h
      cases he
      exact .parks hz hc ((wakes_setError k t .eok).parks (suspendFor_parks hj))

variable {push pop : W} {q q' : DataQueue} {item : DataItem} {r : DqOutcome}

theorem dqPush_section (h : dqPush k push pop q item timeout = some (k', q', r)) :
    WaitSection k timeout false k' r.armed := by
  unfold dqPush at h
  by_cases hf : q.full = true
  · rw [if_pos hf] at h
    exact dqWait_section h
  · rw [if_neg hf] at h
    exact .returned h (wakes_resumeFirst k pop) rfl

theorem dqPop_section (h : dqPop k push pop q timeout = some (k', q', r)) :
    WaitSection k timeout false k' r.armed := by
  unfold dqPop at h
  split_ifs at h
  · exact dqWait_section h
  · exact .returned h (wakes_resumeFirst k push) rfl
  · exact .returned h (Wakes.refl k) rfl

theorem dqPushResume_section (h : dqPushResume k push pop t q item timeout = some (k', q', r)) :
    WaitSection k timeout false k' r.armed := by
  unfold dqPushResume at h
  split_ifs at h
  · exact .returned h (Wakes.refl k) rfl
  · exact dqPush_section h

theorem dqPopResume_section (h : dqPopResume k push pop t q timeout = some (k', q', r)) :
    WaitSection k timeout false k' r.armed := by
  unfold dqPopResume at h
  split_ifs at h
  · exact .returned h (Wakes.refl k) rfl
  · exact dqPop_section h

end

end RtThread
