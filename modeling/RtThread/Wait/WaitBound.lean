import RtThread.Wait.WaitSystem

namespace RtThread

open Transition Kernel Function Option BitVec

variable {T I O : Type} [DecidableEq T] [DecidableEq O] {f : BitVec 32 → BitVec 32 → WaitPc}

def Kernel.rearm {W : Type} (k : Kernel T W) : Option (BitVec 32 × Option (BitVec 32)) → BitVec 32
  | none => 0
  | some (timeout, none) => timeout
  | some (timeout, some tickDelta) => k.timeLeft timeout tickDelta

theorem MbOutcome.armed_waitPc (r : MbOutcome)
    (hf : ∀ timeout tickDelta, (f timeout tickDelta).armed = some (timeout, some tickDelta)) :
    (r.waitPc f).bind WaitPc.armed = r.armed := by
  cases r with
  | returned e v => rfl
  | blocked timeout tickDelta => exact hf timeout tickDelta

theorem MqOutcome.armed_waitPc (r : MqOutcome) : r.waitPc.bind WaitPc.armed = r.armed := by
  cases r <;> rfl

theorem FmqOutcome.armed_waitPc (r : FmqOutcome)
    (hf : ∀ timeout tickDelta, (f timeout tickDelta).armed = some (timeout, some tickDelta)) :
    (r.waitPc f).bind WaitPc.armed = r.armed := by
  cases r with
  | returned e v => rfl
  | blocked timeout tickDelta => exact hf timeout tickDelta

theorem DqOutcome.armed_waitPc {f : BitVec 32 → WaitPc} (r : DqOutcome)
    (hf : ∀ timeout, (f timeout).armed = some (timeout, none)) : (r.waitPc f).bind WaitPc.armed = r.armed := by
  cases r with
  | returned e v n => rfl
  | blocked timeout => exact hf timeout

section

variable {k k' : WaitKernel T O} {o : O} {x x' : WaitObject} {p' : Option WaitPc}

section

omit [DecidableEq O] [DecidableEq T]

theorem Kernel.WaitSection.of_map {α β : Type} {call : Option (WaitKernel T O × α × β)} {f : α → WaitObject}
    {pc : β → Option WaitPc} {armed : β → Option (BitVec 32 × Option (BitVec 32))} {timeout : BitVec 32}
    {clocked : Bool} (h : call.map (fun (k, x, r) => (k, f x, pc r)) = some (k', x', p'))
    (hpc : ∀ r, (pc r).bind WaitPc.armed = armed r)
    (hcall : ∀ j y r, call = some (j, y, r) → WaitSection k timeout clocked j (armed r)) :
    WaitSection k timeout clocked k' (p'.bind WaitPc.armed) := by
  obtain ⟨⟨j, y, r⟩, hj, he⟩ := map_eq_some_iff.mp h
  simp only [Prod.mk.injEq] at he
  obtain ⟨rfl, -, rfl⟩ := he
  rw [hpc]
  exact hcall j y r hj

theorem mqSendBegin_section (k : WaitKernel T O) (mq : MessageQueue) (urgent : Bool) (buffer : Bytes) :
    WaitSection k 0 true k ((mqSendBegin mq urgent buffer).2.waitPc.bind WaitPc.armed) := by
  have hnone : (mqSendBegin mq urgent buffer).2.armed = none := by
    unfold mqSendBegin
    split_ifs
    · rfl
    · split <;> rfl
  rw [MqOutcome.armed_waitPc, hnone]
  exact .passes (Wakes.refl k)

end

theorem waitCall_section {r : WaitCall} (h : waitCall k o x r = some (k', x', p')) :
    WaitSection k r.timeout r.clocked k' (p'.bind WaitPc.armed) := by
  unfold waitCall at h
  split at h
  · exact .of_map h (fun r => r.armed_waitPc (fun _ _ => rfl)) (fun _ _ _ hj => mbCall_section hj)
  · exact .of_map h (fun r => r.armed_waitPc (fun _ _ => rfl)) (fun _ _ _ hj => mbCall_section hj)
  · cases h
    exact mqSendBegin_section k _ false _
  · cases h
    exact mqSendBegin_section k _ true _
  · exact .of_map h MqOutcome.armed_waitPc (fun _ _ _ hj => mqRecv_section hj)
  · exact .of_map h (fun r => r.armed_waitPc (fun _ _ => rfl)) (fun _ _ _ hj => fmqCall_section hj)
  · exact .of_map h (fun r => r.armed_waitPc (fun _ _ => rfl)) (fun _ _ _ hj => fmqCall_section hj)
  · exact .of_map h (fun r => r.armed_waitPc (fun _ => rfl)) (fun _ _ _ hj => dqPush_section hj)
  · exact .of_map h (fun r => r.armed_waitPc (fun _ => rfl)) (fun _ _ _ hj => dqPop_section hj)
  · cases h

theorem mqProceed_section {W : Type} [DecidableEq W] {k k' : Kernel T W} {w : W} {self : Option T}
    {mq mq' : MessageQueue} {p : MqPc} {r : MqOutcome} (h : mqProceed k w self mq p = some (k', mq', r)) :
    WaitSection k (k.rearm p.armed) true k' r.armed := by
  cases p with
  | filling urgent msg buffer => exact .returned h (Wakes.refl k) rfl
  | linking urgent msg buffer => exact .returned h (wakes_resumeFirst k w) rfl
  | waiting size timeout tickDelta =>
    obtain ⟨t, -, ht⟩ := bind_eq_some_iff.mp h
    unfold mqRecvResume at ht
    split_ifs at ht
    · exact .returned ht (Wakes.refl k) rfl
    · exact mqRecvLoop_section ht
  | copying msg size message | freeing msg value => exact .returned h (Wakes.refl k) rfl

theorem waitProceed_section {self : Option T} {p : WaitPc} (h : waitProceed k self o x p = some (k', x', p')) :
    WaitSection k (k.rearm p.armed) p.clocked k' (p'.bind WaitPc.armed) := by
  unfold waitProceed at h
  split at h
  · obtain ⟨t, -, ht⟩ := bind_eq_some_iff.mp h
    exact .of_map ht (fun r => r.armed_waitPc (fun _ _ => rfl)) (fun _ _ _ hj => mbResume_section hj)
  · obtain ⟨t, -, ht⟩ := bind_eq_some_iff.mp h
    exact .of_map ht (fun r => r.armed_waitPc (fun _ _ => rfl)) (fun _ _ _ hj => mbResume_section hj)
  · exact .of_map h MqOutcome.armed_waitPc (fun _ _ _ hj => mqProceed_section hj)
  · obtain ⟨t, -, ht⟩ := bind_eq_some_iff.mp h
    exact .of_map ht (fun r => r.armed_waitPc (fun _ _ => rfl)) (fun _ _ _ hj => fmqResume_section hj)
  · obtain ⟨t, -, ht⟩ := bind_eq_some_iff.mp h
    exact .of_map ht (fun r => r.armed_waitPc (fun _ _ => rfl)) (fun _ _ _ hj => fmqResume_section hj)
  · obtain ⟨t, -, ht⟩ := bind_eq_some_iff.mp h
    exact .of_map ht (fun r => r.armed_waitPc (fun _ => rfl)) (fun _ _ _ hj => dqPushResume_section hj)
  · obtain ⟨t, -, ht⟩ := bind_eq_some_iff.mp h
    exact .of_map ht (fun r => r.armed_waitPc (fun _ => rfl)) (fun _ _ _ hj => dqPopResume_section hj)
  · cases h

theorem waitProceed_handler {p : WaitPc} (h : waitProceed k none o x p = some (k', x', p')) : p.armed = none := by
  unfold waitProceed at h
  split at h
  · cases h
  · cases h
  · next mq p =>
    cases p with
    | waiting size timeout tickDelta => cases h
    | filling _ _ _ | linking _ _ _ | copying _ _ _ | freeing _ _ => rfl
  all_goals cases h

def WaitObject.Serves : WaitObject → WaitPc → Prop
  | .dataQueue q, .dqPush _ _ => q.full = false
  | .dataQueue q, .dqPop _ => q.empty = false
  | _, _ => False

instance : ∀ (x : WaitObject) (p : WaitPc), Decidable (x.Serves p)
  | .dataQueue _, .dqPush _ _ | .dataQueue _, .dqPop _ => decEq _ _
  | .dataQueue _, .mbSend _ _ _ | .dataQueue _, .mbRecv _ _ | .dataQueue _, .mq _ | .dataQueue _, .fmqSend _ _ _ _
  | .dataQueue _, .fmqRecv _ _ _ | .mailbox _, _ | .messageQueue _, _ | .fmq _, _ => isFalse not_false

theorem waitProceed_served {t : T} {p : WaitPc} {timeout : BitVec 32} (ha : p.armed = some (timeout, none))
    (hs : (k.thread t).error ≠ .eok ∨ x.Serves p) (h : waitProceed k (some t) o x p = some (k', x', p')) :
    p' = none := by
  by_cases he : (k.thread t).error = .eok
  · replace hs := hs.resolve_left (not_not.mpr he)
    unfold WaitObject.Serves at hs
    split at hs
    · simp only [waitProceed, bind_some, dqPushResume, he, ne_eq, not_true_eq_false, if_false, dqPush, hs,
        Bool.false_eq_true, map_some] at h
      cases h
      rfl
    · simp only [waitProceed, bind_some, dqPopResume, he, ne_eq, not_true_eq_false, if_false, dqPop, hs,
        Bool.false_eq_true] at h
      split_ifs at h <;> cases h <;> rfl
    · exact hs.elim
  · unfold waitProceed at h
    split at h
    · cases ha
    · cases ha
    · next mq p => cases p <;> cases ha
    · cases ha
    · cases ha
    · rw [bind_some, dqPushResume, if_pos he] at h
      cases h
      rfl
    · rw [bind_some, dqPopResume, if_pos he] at h
      cases h
      rfl
    · cases h

end

theorem waitReset_wakes {k k' : WaitKernel T O} {o : O} {x x' : WaitObject} (h : waitReset k o x = some (k', x')) :
    Wakes k k' := by
  cases x with
  | mailbox x =>
    cases h
    exact ((wakes_ipcListResumeAll k _).trans (wakes_ipcListResumeAll _ _)).trans (wakes_schedule _)
  | messageQueue x =>
    cases h
    exact (wakes_ipcListResumeAll k _).trans (wakes_schedule _)
  | fmq x => cases h
  | dataQueue x =>
    obtain rfl : dqReset k (o, .senders)
      (o, .receivers) = k' := by simpa [waitReset] using congrArg (Option.map Prod.fst) h
    have henter : Wakes k k.enterCritical := wakes_of_thread rfl rfl
    exact (((henter.trans (wakes_ipcListResumeAll _ _)).trans (wakes_ipcListResumeAll _ _)).trans
      (wakes_exitCritical _)).trans (wakes_schedule _)

namespace WaitSystem

/-- A thread in a clocked call goes on with its wait before the clock has run over half its range, and one that has
slept at a data queue was woken with an error or finds room there, for a push, or an item, for a pop. -/
def OnTime (s : WaitSystem T I O) (t : T) (o : O) (p : WaitPc) : Option (BitVec 32 × Option (BitVec 32)) → Prop
  | none => True
  | some (_, some _) => (s.count t).elapsed ≤ (s.count t).armed + 2 ^ 31
  | some (_, none) => (s.count t).spent = 0 ∨ (s.kernel.thread t).error ≠ .eok ∨ (s.object o).Serves p

instance (s : WaitSystem T I O) (t : T) (o : O) (p : WaitPc) : ∀ a, Decidable (s.OnTime t o p a)
  | none => isTrue trivial
  | some (_, some _) => Nat.decLe _ _
  | some (_, none) => instDecidableOr

def Prompt (s : WaitSystem T I O) : WaitEvent T I O → Prop
  | .proceed (.thread t) =>
    (0 : BitVec 32).slt (s.timeout t) → ∀ x ∈ s.pc (.thread t), s.OnTime t x.1 x.2 x.2.armed
  | _ => True

instance (s : WaitSystem T I O) : ∀ a, Decidable (s.Prompt a)
  | .proceed (.thread _) => instDecidableForall
  | .proceed (.handler _) | .call _ _ _ | .reset _ | .resume _ | .changePriority _ _ | .tick _ => isTrue trivial

structure Punctual (s : WaitSystem T I O) (t : T) : Prop where
  within : (s.count t).Within (s.timeout t).toNat (s.Asleep t)
  timer : s.Asleep t → (s.kernel.thread t).timer.linked = true ∧
    (s.kernel.thread t).timer.timeoutTick + BitVec.ofNat 32 (s.count t).elapsed =
      s.kernel.tick + BitVec.ofNat 32 (s.count t).armed
  armed : ∀ o p timeout, s.pc (.thread t) = some (o, p) →
    (p.armed = some (timeout, none) → timeout = s.timeout t ∧ timeout.toNat = (s.count t).armed) ∧
    ∀ tickDelta, p.armed = some (timeout, some tickDelta) → (0 : BitVec 32).slt timeout = true ∧
      timeout.toNat = (s.count t).armed ∧ tickDelta + BitVec.ofNat 32 (s.count t).elapsed = s.kernel.tick

def Inv (s : WaitSystem T I O) : Prop := ∀ t, (0 : BitVec 32).slt (s.timeout t) → s.Punctual t

variable {s s' : WaitSystem T I O} {t : T}

variable {timeout : BitVec 32} {c : Context T I} {k : WaitKernel T O}

section

omit [DecidableEq O] [DecidableEq T]

theorem Punctual.frame (h : s.Punctual t) (hpc : s'.pc (.thread t) = s.pc (.thread t))
    (htimeout : s'.timeout t = s.timeout t) (hcount : s'.count t = s.count t)
    (htick : s'.kernel.tick = s.kernel.tick) (hk : s.kernel.Keeps s'.kernel t) : s'.Punctual t := by
  have hasleep : s'.Asleep t → s.Asleep t ∧ (s'.kernel.thread t).timer = (s.kernel.thread t).timer := by
    rintro ⟨hs, hp⟩
    obtain ⟨hstat, htimer⟩ := hk hs
    exact ⟨⟨hstat, hpc ▸ hp⟩, htimer⟩
  refine ⟨?_, fun ha => ?_, ?_⟩
  · rw [hcount, htimeout]
    exact h.within.mono (fun ha => (hasleep ha).1)
  · obtain ⟨hold, htimer⟩ := hasleep ha
    rw [htimer, hcount, htick]
    exact h.timer hold
  · rw [hpc, htimeout, hcount, htick]
    exact h.armed

theorem clocked_of_armed {p : WaitPc} {tickDelta : BitVec 32} (h : p.armed = some (timeout, some tickDelta)) :
    p.clocked = true := by
  cases p with
  | dqPush _ _ | dqPop _ => cases h
  | _ => rfl

theorem Punctual.rearm (h : s.Punctual t) (ht : (0 : BitVec 32).slt (s.timeout t)) {o : O} {p : WaitPc}
    (hpc : s.pc (.thread t) = some (o, p))
    (hfull : ∀ timeout, p.armed = some (timeout, none) → (s.count t).spent = 0)
    (hclock : ∀ timeout tickDelta, p.armed = some (timeout, some tickDelta) →
      (s.count t).elapsed ≤ (s.count t).armed + 2 ^ 31) (hz : (s.kernel.dispatch t).rearm p.armed ≠ 0) :
    (0 : BitVec 32).slt ((s.kernel.dispatch t).rearm p.armed) = true ∧
      (s.count t).spent + ((s.kernel.dispatch t).rearm p.armed).toNat ≤ (s.timeout t).toNat ∧
      (p.clocked = false → (s.kernel.dispatch t).rearm p.armed = s.timeout t) := by
  cases ha : p.armed with
  | none =>
    rw [ha] at hz
    exact absurd rfl hz
  | some a =>
    obtain ⟨timeout, d⟩ := a
    rw [ha] at hz
    cases d with
    | none =>
      obtain ⟨rfl, -⟩ := (h.armed o p timeout hpc).1 ha
      refine ⟨ht, ?_, fun _ => rfl⟩
      rw [hfull _ ha, Nat.zero_add]
      rfl
    | some tickDelta =>
      obtain ⟨hpos, harmed, htick⟩ := (h.armed o p timeout hpc).2 tickDelta ha
      have hleft : ((s.kernel.dispatch t).timeLeft timeout tickDelta).toNat =
          timeout.toNat - (s.count t).elapsed := timeLeft_toNat hpos htick (harmed ▸ hclock _ _ ha)
      have hbudget := h.within.budget
      rw [← harmed] at hbudget
      refine ⟨(zero_slt_iff _).mpr ⟨?_, ?_⟩, ?_, fun hno => ?_⟩
      · exact Nat.pos_of_ne_zero (fun h0 => hz (eq_of_toNat_eq h0))
      · have hlt := ((zero_slt_iff timeout).mp hpos).2
        rw [Kernel.rearm]
        omega
      · rw [Kernel.rearm, hleft]
        exact hbudget
      · rw [clocked_of_armed ha] at hno
        cases hno

theorem Inv.wakes (h : s.Inv) (hk : Wakes s.kernel k) (object : O → WaitObject) :
    Inv { s with kernel := k, object := object } :=
  fun t ht => (h t ht).frame rfl rfl rfl hk.tick (hk.keeps t)

structure Initial (s : WaitSystem T I O) : Prop where
  pc : ∀ c, s.pc c = none
  timeout : ∀ t, s.timeout t = 0

theorem Initial.inv (h : s.Initial) : s.Inv := by
  intro t ht
  rw [h.timeout] at ht
  cases ht

end

theorem add_ofNat_succ (x : BitVec 32) (n : ℕ) : x + BitVec.ofNat 32 (n + 1) = x + BitVec.ofNat 32 n + 1 := by
  rw [ofNat_add, BitVec.add_assoc]
  rfl

theorem Punctual.asleep_of_ticked (h : s.Punctual t) {fired : List T}
    (hc : s.Checked (.tick fired)) (hk : s.ticked.timerCheck fired = some k) (hs : (k.thread t).stat = .suspend)
    (hpc : s.pc (.thread t) ≠ none) :
    s.Asleep t ∧ (k.thread t).timer = (s.kernel.thread t).timer ∧
    (s.count t).elapsed + 1 ≠ (s.count t).armed := by
  obtain ⟨hw, hfired⟩ := timerCheck_wakes hk
  obtain ⟨hstat, htimer⟩ := hw.keeps t hs
  have hold : s.Asleep t := ⟨hstat, hpc⟩
  refine ⟨hold, htimer, fun he => ?_⟩
  obtain ⟨hlinked, htimeout⟩ := h.timer hold
  have hnow : (s.kernel.thread t).timer.timeoutTick = s.kernel.tick + 1 := by
    rw [← he, add_ofNat_succ, add_right_comm] at htimeout
    exact add_right_cancel htimeout
  have hdue : s.ticked.TimerDue t := by
    refine ⟨hlinked, ?_⟩
    change (s.kernel.tick + 1 - (s.kernel.thread t).timer.timeoutTick).ult (tickMax / 2) = true
    rw [hnow, BitVec.sub_self]
    decide
  exact hfired t ((hc t).mpr hdue) hs

variable [DecidableEq I]

theorem after_count (k : WaitKernel T O) (o : O) (x : WaitObject) (p : Option WaitPc) :
    (s.after (.thread t) o (k, x, p)).count t =
      (p.bind WaitPc.armed).elim (s.count t) (fun a => (s.count t).arm a.1.toNat) := by
  simp only [after]
  cases p.bind WaitPc.armed with
  | none => rfl
  | some a => exact update_self _ _ _

theorem after_pc (c : Context T I) (k : WaitKernel T O) (o : O) (x : WaitObject) (p : Option WaitPc) :
    (s.after c o (k, x, p)).pc c = p.map (fun p => (o, p)) := update_self _ _ _

theorem punctual_after {o : O} {x : WaitObject} {p : Option WaitPc}
    {clocked : Bool} (hready : (s.kernel.thread t).stat = .ready)
    (hsection : WaitSection (s.kernel.dispatch t) timeout clocked k (p.bind WaitPc.armed))
    (hwithin : (s.count t).Within (s.timeout t).toNat False)
    (hpark : timeout ≠ 0 → p ≠ none → (0 : BitVec 32).slt timeout = true ∧
      (s.count t).spent + timeout.toNat ≤ (s.timeout t).toNat ∧ (clocked = false → timeout = s.timeout t)) :
    (s.after (.thread t) o (k, x, p)).Punctual t := by
  have hcount := after_count (s := s) (t := t) k o x p
  obtain ⟨a, ha⟩ : ∃ a, p.bind WaitPc.armed = a := ⟨_, rfl⟩
  rw [ha] at hsection hcount
  have hp' : ∀ o' p', (s.after (.thread t) o (k, x, p)).pc (.thread t) = some (o', p') → p'.armed = a := by
    intro o' p' hpc
    rw [after_pc] at hpc
    obtain ⟨q, hq, he⟩ := map_eq_some_iff.mp hpc
    rwa [hq, (Prod.mk.inj he).2] at ha
  cases hsection with
  | passes h =>
    have hawake : ¬ (s.after (.thread t) o (k, x, p)).Asleep t := by
      rintro ⟨hs, -⟩
      have hsuspend := (h.keeps t hs).1
      rw [show ((s.kernel.dispatch t).thread t).stat = .ready from hready] at hsuspend
      cases hsuspend
    refine ⟨?_, fun hs => absurd hs hawake, fun o' p' timeout' hpc => ?_⟩
    · rw [hcount]
      exact hwithin.mono hawake
    · rw [hp' o' p' hpc]
      exact ⟨nofun, nofun⟩
  | parks hz hc h =>
    cases hc
    have hne : p ≠ none := by
      rintro rfl
      cases ha
    obtain ⟨hpos, hbudget, hfull⟩ := hpark hz hne
    replace hcount : (s.after (.thread t) o (k, x, p)).count t = (s.count t).arm timeout.toNat := hcount
    obtain ⟨hlinked, htimer⟩ := h.started hpos
    refine ⟨?_, fun _ => ⟨hlinked, ?_⟩, fun o' p' timeout' hpc => ?_⟩
    · rw [hcount]
      exact .arm ((zero_slt_iff timeout).mp hpos).1 hbudget
    · rw [hcount]
      change (k.thread t).timer.timeoutTick + 0#32 = k.tick + BitVec.ofNat 32 timeout.toNat
      rw [htimer, h.tick, BitVec.add_zero, ofNat_toNat, setWidth_eq]
    · rw [hp' o' p' hpc, hcount]
      cases clocked with
      | false =>
        refine ⟨fun he => ?_, nofun⟩
        obtain rfl : timeout = timeout' := by simpa using he
        exact ⟨hfull rfl, rfl⟩
      | true =>
        refine ⟨nofun, fun tickDelta he => ?_⟩
        cases he
        refine ⟨hpos, rfl, ?_⟩
        change (s.kernel.dispatch t).startTick timeout + 0#32 = k.tick
        rw [BitVec.add_zero, startTick, if_pos hpos, h.tick]

theorem Punctual.after (h : s.Punctual t) (hne : c ≠ .thread t) {o : O}
    {x : WaitObject} {p : Option WaitPc} {clocked : Bool}
    (hsection : WaitSection (s.dispatch c) timeout clocked k (p.bind WaitPc.armed))
    (hhandler : c.self = none → timeout = 0) : (s.after c o (k, x, p)).Punctual t := by
  have hthread : (s.dispatch c).thread = s.kernel.thread := by cases c <;> rfl
  have htick : (s.dispatch c).tick = s.kernel.tick := by cases c <;> rfl
  have hk : k.tick = s.kernel.tick ∧ s.kernel.Keeps k t := by
    rw [← htick, Keeps, ← hthread]
    generalize p.bind WaitPc.armed = a at hsection
    cases hsection with
    | passes hw => exact ⟨hw.tick, hw.keeps t⟩
    | parks hz hc hp =>
      refine ⟨hp.tick, hp.keeps t ?_⟩
      rintro rfl
      cases c with
      | thread u => exact hne (congrArg _ (Option.some.inj hc))
      | handler i => exact hz (hhandler rfl)
  refine h.frame ?_ rfl ?_ hk.1 hk.2
  · exact update_of_ne (Ne.symm hne) _ _
  · simp only [WaitSystem.after]
    cases c with
    | thread u =>
      have hu : t ≠ u := fun he => hne (by rw [he])
      cases p.bind WaitPc.armed with
      | none => rfl
      | some a => exact update_of_ne hu _ _
    | handler i => cases p.bind WaitPc.armed <;> rfl

theorem Inv.proceed (h : s.Inv) (hp : s.Prompt (.proceed c)) (hs : s.step (.proceed c) = some s') : s'.Inv := by
  simp only [WaitSystem.step] at hs
  split_ifs at hs with hmay
  obtain ⟨⟨o, p⟩, hpc, hs⟩ := bind_eq_some_iff.mp hs
  obtain ⟨⟨k, x, p'⟩, hr, rfl⟩ := map_eq_some_iff.mp hs
  have hsection := waitProceed_section hr
  intro t ht
  by_cases hc : c = .thread t
  · subst hc
    have hprompt := hp ht (o, p) hpc
    refine punctual_after hmay hsection ((h t ht).within.mono False.elim) (fun hz hne => ?_)
    refine (h t ht).rearm ht hpc (fun timeout ha => ?_) (fun timeout tickDelta ha => ?_) hz
    · rw [ha] at hprompt
      exact hprompt.resolve_right (fun hserved => hne (waitProceed_served (k := s.kernel.dispatch t) ha hserved hr))
    · rw [ha] at hprompt
      exact hprompt
  · refine (h t ht).after hc hsection (fun hnone => ?_)
    rw [hnone] at hr
    rw [waitProceed_handler hr]
    rfl

theorem Inv.call (h : s.Inv) {o : O} {r : WaitCall} (hs : s.step (.call c o r) = some s') : s'.Inv := by
  simp only [WaitSystem.step] at hs
  split_ifs at hs with hmay
  obtain ⟨hready, -, -, hwait⟩ := hmay
  obtain ⟨⟨k, x, p⟩, hr, rfl⟩ := map_eq_some_iff.mp hs
  have hsection := waitCall_section hr
  intro t ht
  by_cases hc : c = .thread t
  · subst hc
    have hcount : (s.enter r.timeout (.thread t)).count t = .zero := update_self _ _ _
    have htimeout : (s.enter r.timeout (.thread t)).timeout t = r.timeout := update_self _ _ _
    replace ht : (0 : BitVec 32).slt ((s.enter r.timeout (.thread t)).timeout t) := ht
    refine punctual_after hready hsection ?_ (fun _ _ => ⟨htimeout ▸ ht, ?_, fun _ => htimeout.symm⟩)
    · rw [hcount]
      exact Countdown.within_zero _ not_false
    · rw [hcount, htimeout]
      exact (Nat.zero_add _).le
  · have hdispatch : (s.enter r.timeout c).dispatch c = s.dispatch c := by cases c <;> rfl
    rw [← hdispatch] at hsection
    have hframe : s.Punctual t → (s.enter r.timeout c).Punctual t := by
      intro hpunctual
      cases c with
      | thread u =>
        have hu : t ≠ u := fun he => hc (by rw [he])
        exact hpunctual.frame rfl (update_of_ne hu _ _) (update_of_ne hu _ _) rfl (fun hs => ⟨hs, rfl⟩)
      | handler i => exact hpunctual
    have hold : s.timeout t = (s.enter r.timeout c).timeout t := by
      cases c with
      | thread u => exact (update_of_ne (fun he => hc (by rw [he])) _ _).symm
      | handler i => rfl
    refine (hframe (h t ?_)).after hc hsection (fun hnone => ?_)
    · rw [hold]
      exact ht
    · cases c with
      | thread u => cases hnone
      | handler i => exact hwait

theorem Inv.tick (h : s.Inv) {fired : List T} (hc : s.Checked (.tick fired)) (hs : s.step (.tick fired) = some s') :
    s'.Inv := by
  obtain ⟨k, hk, rfl⟩ := map_eq_some_iff.mp hs
  have htick : k.tick = s.kernel.tick + 1 := (timerCheck_wakes hk).1.tick
  intro t ht
  have hpunctual := h t ht
  refine ⟨?_, ?_, fun o p timeout hpc => ⟨fun ha => ?_, fun tickDelta ha => ?_⟩⟩
  · refine Countdown.Within.tick ?_ (fun ⟨hs, hpc⟩ => ?_)
    · exact hpunctual.within.mono of_decide_eq_true
    · obtain ⟨hold, -, hne⟩ := hpunctual.asleep_of_ticked hc hk hs hpc
      exact ⟨decide_eq_true hold, hne⟩
  · rintro ⟨hs, hpc⟩
    obtain ⟨hold, htimer, -⟩ := hpunctual.asleep_of_ticked hc hk hs hpc
    obtain ⟨hlinked, htimeout⟩ := hpunctual.timer hold
    change (k.thread t).timer.linked = true ∧ (k.thread t).timer.timeoutTick +
      BitVec.ofNat 32 ((s.count t).elapsed + 1) = k.tick + BitVec.ofNat 32 (s.count t).armed
    rw [htimer, add_ofNat_succ, htimeout, htick, add_right_comm]
    exact ⟨hlinked, rfl⟩
  · exact (hpunctual.armed o p timeout hpc).1 ha
  · obtain ⟨hpos, harmed, hclock⟩ := (hpunctual.armed o p timeout hpc).2 tickDelta ha
    refine ⟨hpos, harmed, ?_⟩
    change tickDelta + BitVec.ofNat 32 ((s.count t).elapsed + 1) = k.tick
    rw [add_ofNat_succ, hclock, htick]

theorem Inv.step (h : s.Inv) {a : WaitEvent T I O} (hc : s.Checked a) (hp : s.Prompt a) (hs : s.step a = some s') :
    s'.Inv := by
  cases a with
  | call c o r => exact h.call hs
  | proceed c => exact h.proceed hp hs
  | reset o =>
    obtain ⟨⟨k, x⟩, hk, rfl⟩ := map_eq_some_iff.mp hs
    exact h.wakes (waitReset_wakes hk) _
  | resume t =>
    cases hs
    exact h.wakes (wakes_threadResume _ t) _
  | changePriority t priority =>
    simp only [WaitSystem.step] at hs
    split_ifs at hs
    cases hs
    exact h.wakes (wakes_threadChangePriority _ t priority) _
  | tick fired => exact h.tick hc hs

theorem timed_wait_bounded (h : Reachable step (fun s a => s.Checked a ∧ s.Prompt a) Initial s) (t : T)
    (ht : (0 : BitVec 32).slt (s.timeout t)) : (s.count t).spent ≤ (s.timeout t).toNat := by
  have hinv : s.Inv := h.invariant (fun _ hi => hi.inv) (fun _ _ _ hi ha hs => hi.step ha.1 ha.2 hs)
  exact (hinv t ht).within.spent_le

def waitStart (x : WaitObject) : WaitSystem Tid Unit Unit where
  kernel := bootKernel Tid.priority [.startup .low, .startup .mid, .schedulerStart, .suspend .mid]
  object _ := x
  pc _ := none
  timeout _ := 0
  count _ := .zero

theorem waitStart_initial (x : WaitObject) : (waitStart x).Initial := ⟨fun _ => rfl, fun _ => rfl⟩

def emptyMailbox : WaitObject := .mailbox (mbInit (fun _ => 0) 4 .fifo)

def emptyDataQueue : WaitObject := .dataQueue (dqInit (fun _ => ⟨0, 0⟩) 4 0 false)

def robbedReceiver : List (WaitEvent Tid Unit Unit) :=
  [.call (.thread .low) () (.mbRecv 3), .tick [], .call (.handler ()) () (.mbSendWait 7 0), .resume .mid,
    .call (.thread .mid) () (.mbRecv 0), .call (.thread .mid) () (.mbRecv (-1)), .proceed (.thread .low), .tick [],
    .tick [.low], .proceed (.thread .low)]

theorem timed_wait_bounded_robbed : ∃ s, run step (waitStart emptyMailbox) robbedReceiver = some s ∧
    s.timeout .low = 3 ∧ (s.count .low).spent = 3 ∧ (s.count .low).spent ≤ (s.timeout .low).toNat := by
  refine exists_some_and_and (by decide +kernel) (fun s hs htimeout _ => ?_)
  exact timed_wait_bounded (.of_run (.start (waitStart_initial emptyMailbox)) (by decide +kernel) hs) .low
    (by rw [htimeout]; decide)

def robbedPopper : List (WaitEvent Tid Unit Unit) :=
  [.call (.thread .low) () (.dqPop 3), .tick [], .tick [], .resume .mid, .call (.thread .mid) () (.dqPush ⟨1, 1⟩ 0),
    .call (.thread .mid) () (.dqPop 0), .call (.thread .mid) () (.dqPop (-1)), .proceed (.thread .low), .tick [],
    .tick []]

theorem dq_pop_outlasts_timeout : ∃ s : WaitSystem Tid Unit Unit, Reachable step Checked Initial s ∧
    s.timeout .low = 3 ∧ s.Asleep .low ∧ (s.count .low).spent = 4 := by
  obtain ⟨s, hs, ho⟩ : ∃ s, run step (waitStart emptyDataQueue) robbedPopper = some s ∧ s.timeout .low = 3 ∧
      s.Asleep .low ∧ (s.count .low).spent = 4 := by decide +kernel
  exact ⟨s, .of_run (.start (waitStart_initial _)) (by decide +kernel) hs, ho⟩

end WaitSystem

end RtThread
