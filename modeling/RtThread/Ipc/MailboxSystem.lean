import RtThread.Kernel.ReadyQueue
import RtThread.Ipc.Coverage
import RtThread.Ipc.Mailbox

namespace RtThread

open Transition Function Option Mailbox

variable {T B : Type}

inductive Side
  | receivers
  | senders
  deriving DecidableEq

def Side.other : Side → Side
  | receivers => senders
  | senders => receivers

theorem Side.eq_or_other (x y : Side) : y = x ∨ y = x.other := by
  cases x <;> cases y <;> simp [Side.other]

theorem Side.other_ne (x : Side) : x.other ≠ x := by
  cases x <;> simp [Side.other]

inductive MbReq (B : Type)
  | send (b : B) (value : BitVec 32)
  | recv (b : B)
  deriving DecidableEq

namespace MbReq

def box : MbReq B → B
  | send b _ => b
  | recv b => b

def side : MbReq B → Side
  | send _ _ => .senders
  | recv _ => .receivers

def op : MbReq B → MbOp (B × Side)
  | send b value => mbSendOp (b, .receivers) (b, .senders) value
  | recv b => mbRecvOp (b, .receivers) (b, .senders)

theorem op_wait (req : MbReq B) : req.op.wait = (req.box, req.side) := by cases req <;> rfl

theorem op_wake (req : MbReq B) : req.op.wake = (req.box, req.side.other) := by cases req <;> rfl

theorem op_refusal (req : MbReq B) : req.op.refusal ≠ .eok := by cases req <;> simp [op, mbSendOp, mbRecvOp]

variable [DecidableEq T] [DecidableEq B]

def call (k : Kernel T (B × Side)) (mb : Mailbox) (timeout : BitVec 32) :
    MbReq B → Option (Kernel T (B × Side) × Mailbox × MbOutcome)
  | send b value => mbSendWait k (b, .receivers) (b, .senders) mb value timeout
  | recv b => mbRecv k (b, .receivers) (b, .senders) mb timeout

theorem call_eq (req : MbReq B) (k : Kernel T (B × Side)) (mb : Mailbox) (timeout : BitVec 32) :
    req.call k mb timeout = mbCall k req.op mb timeout := by
  cases req <;> rfl

end MbReq

def Mailbox.owed (mb : Mailbox) : Side → ℕ
  | .receivers => mb.entry
  | .senders => mb.size - mb.entry

theorem MbReq.owed_stuck {req : MbReq B} {mb : Mailbox} (h : req.op.stuck mb = true) : mb.owed req.side = 0 := by
  cases req with
  | send b value =>
    have he : mb.entry = mb.size := by simpa [op, mbSendOp] using h
    simp [side, owed, he]
  | recv b => simpa [op, mbRecvOp, side, owed] using h

theorem Mailbox.owed_of_entry {mb mb' : Mailbox} (hle : mb'.entry ≤ mb.size) (hsize : mb'.size = mb.size)
    (hentry : mb'.entry = mb.entry + 1) :
    mb'.owed .receivers = mb.owed .receivers + 1 ∧ mb'.owed .senders + 1 = mb.owed .senders := by
  simp only [owed]
  omega

theorem MbReq.apply_ok {req : MbReq B} {mb : Mailbox} (hmb : mb.Ok) (h : req.op.stuck mb = false) :
    (req.op.apply mb).Ok ∧ (req.op.apply mb).owed req.side + 1 = mb.owed req.side ∧
      (req.op.apply mb).owed req.side.other = mb.owed req.side.other + 1 := by
  cases req with
  | send b value =>
    have hfull : mb.entry ≠ mb.size := by simpa [op, mbSendOp] using h
    obtain ⟨hok, hentry, -⟩ := hmb.store hfull value
    obtain ⟨hrecv, hsend⟩ := owed_of_entry (hok.entry_le.trans_eq (mb.store_size value))
      (mb.store_size value) hentry
    exact ⟨hok, hsend, hrecv⟩
  | recv b =>
    have hempty : mb.entry ≠ 0 := by simpa [op, mbRecvOp] using h
    obtain ⟨hok, hentry, -⟩ := hmb.fetch hempty
    obtain ⟨hrecv, hsend⟩ := owed_of_entry (hmb.entry_le.trans_eq mb.fetch_size.symm) mb.fetch_size.symm hentry.symm
    exact ⟨hok, hrecv.symm, hsend.symm⟩

variable [DecidableEq T] [DecidableEq B]

/-- `pc t` is the request of a thread inside a call, with its `timeout` and `tick_delta`. The logs hold,
since the last reset, the values of the sends and the receives that returned `RT_EOK`. -/
structure MbSystem (T B : Type) where
  kernel : Kernel T (B × Side)
  mb : B → Mailbox
  pc : T → Option (MbReq B × BitVec 32 × BitVec 32)
  sent : B → List (BitVec 32)
  received : B → List (BitVec 32)

inductive MbEvent (T B : Type)
  | call (t : T) (req : MbReq B) (timeout : BitVec 32)
  | resume (t : T)
  | send (b : B) (value : BitVec 32)
  | control (b : B) (cmd : MbCtrl)
  | timeout (t : T)
  | tick

namespace MbSystem

def Running (s : MbSystem T B) (t : T) : Prop := s.kernel.view.stat t = .ready ∧ s.pc t = none

instance (s : MbSystem T B) (t : T) : Decidable (s.Running t) := instDecidableAnd

def loc (pc : T → Option (MbReq B × BitVec 32 × BitVec 32)) (t : T) : Option (B × Side) :=
  (pc t).map (fun p => (p.1.box, p.1.side))

def logSent (s : MbSystem T B) (req : MbReq B) (e : Err) : B → List (BitVec 32) :=
  match e, req with
  | .eok, .send b value => update s.sent b (s.sent b ++ [value])
  | _, _ => s.sent

def logReceived (s : MbSystem T B) (req : MbReq B) (e : Err) (value : Option (BitVec 32)) :
    B → List (BitVec 32) :=
  match e, req, value with
  | .eok, .recv b, some value => update s.received b (s.received b ++ [value])
  | _, _, _ => s.received

def after (s : MbSystem T B) (req : MbReq B) (leave : T → Option (MbReq B × BitVec 32 × BitVec 32))
    (stay : BitVec 32 → BitVec 32 → T → Option (MbReq B × BitVec 32 × BitVec 32)) :
    Kernel T (B × Side) × Mailbox × MbOutcome → MbSystem T B × Option (Err × Option (BitVec 32))
  | (k, mb, .returned e value) =>
    ({ kernel := k, mb := update s.mb req.box mb, pc := leave
       sent := s.logSent req e, received := s.logReceived req e value }, some (e, value))
  | (k, mb, .blocked timeout tickDelta) =>
    ({ s with kernel := k, mb := update s.mb req.box mb, pc := stay timeout tickDelta }, none)

def afterThread (s : MbSystem T B) (t : T) (req : MbReq B) :
    Kernel T (B × Side) × Mailbox × MbOutcome → MbSystem T B × Option (Err × Option (BitVec 32)) :=
  s.after req (update s.pc t none)
    (fun timeout tickDelta => update s.pc t (some (req, timeout, tickDelta)))

def exec (s : MbSystem T B) : MbEvent T B → Option (MbSystem T B × Option (Err × Option (BitVec 32)))
  | .call t req timeout =>
    if s.Running t then
      (req.call (s.kernel.dispatch t) (s.mb req.box) timeout).map (s.afterThread t req)
    else none
  | .resume t =>
    match s.pc t with
    | none => none
    | some (req, timeout, tickDelta) =>
      if s.kernel.view.stat t = .ready then
        (mbResume (s.kernel.dispatch t) req.op t (s.mb req.box) timeout tickDelta).map (s.afterThread t req)
      else none
  | .send b value =>
    (mbSend s.kernel (b, .receivers) (b, .senders) (s.mb b) value).map
      (s.after (.send b value) s.pc (fun _ _ => s.pc))
  | .control b cmd =>
    let (k, mb, e) := mbControl s.kernel (b, Side.receivers) (b, Side.senders) (s.mb b) cmd
    some ({ s with
      kernel := k, mb := update s.mb b mb
      sent := if e = .eok then update s.sent b [] else s.sent
      received := if e = .eok then update s.received b [] else s.received }, some (e, none))
  | .timeout t => (s.kernel.timerExpire t).map (fun k => ({ s with kernel := k }, none))
  | .tick => some ({ s with kernel := { s.kernel with tick := s.kernel.tick + 1 } }, none)

def step (s : MbSystem T B) (c : MbEvent T B) : Option (MbSystem T B) := (s.exec c).map Prod.fst

structure Initial (s : MbSystem T B) : Prop where
  wf : s.kernel.Wf
  waiting : ∀ w, s.kernel.view.waiting w = []
  pc : ∀ t, s.pc t = none
  mb : ∀ b, ∃ pool size flag, s.mb b = mbInit pool size flag
  logs : ∀ b, s.sent b = [] ∧ s.received b = []

def Awake (s : MbSystem T B) (b : B) : Prop :=
  ∀ side, s.kernel.view.waiting (b, side) ≠ [] →
    (s.mb b).owed side ≤ (s.kernel.woken (loc s.pc) (b, side)).ncard

structure Inv (s : MbSystem T B) : Prop where
  parked : s.kernel.Parked (loc s.pc)
  ok : ∀ b, (s.mb b).Ok
  log : ∀ b, s.sent b = s.received b ++ (s.mb b).contents
  awake : ∀ b, s.Awake b

def owed (mb : B → Mailbox) (w : B × Side) : ℕ := (mb w.1).owed w.2

variable {s s' : MbSystem T B} {v : Option (BitVec 32)}

section

omit [DecidableEq B] [DecidableEq T]

theorem Initial.inv (h : s.Initial) : s.Inv := by
  have hpc : loc s.pc = fun _ => none := funext (fun t => by simp [loc, h.pc])
  refine ⟨hpc ▸ Kernel.Parked.start h.wf h.waiting, ?_, ?_, ?_⟩
  · intro b
    obtain ⟨pool, size, flag, hb⟩ := h.mb b
    rw [hb]
    exact Mailbox.Ok.init pool size flag
  · intro b
    obtain ⟨pool, size, flag, hb⟩ := h.mb b
    simp [h.logs, hb, mbInit, contents]
  · intro b side hne
    exact absurd (h.waiting _) hne

theorem Inv.covered (h : s.Inv) : s.kernel.Covered (loc s.pc) (owed s.mb) :=
  ⟨h.parked, fun w => h.awake w.1 w.2⟩

theorem Inv.setBox (h : s.Inv) (hk : s'.kernel.Covered (loc s'.pc) (owed s'.mb)) (b : B)
    (hother : ∀ b', b' ≠ b → s'.mb b' = s.mb b' ∧ s'.sent b' = s.sent b' ∧ s'.received b' = s.received b')
    (hok : (s'.mb b).Ok) (hlog : s'.sent b = s'.received b ++ (s'.mb b).contents) : s'.Inv := by
  suffices hbox : ∀ b', (s'.mb b').Ok ∧ s'.sent b' = s'.received b' ++ (s'.mb b').contents from
    ⟨hk.parked, fun b' => (hbox b').1, fun b' => (hbox b').2, fun b' side => hk.cover (b', side)⟩
  intro b'
  obtain rfl | hb := eq_or_ne b' b
  · exact ⟨hok, hlog⟩
  · obtain ⟨h1, h2, h3⟩ := hother b' hb
    rw [h1, h2, h3]
    exact ⟨h.ok b', h.log b'⟩

theorem not_woken_of_running {t : T} (h : s.pc t = none) (w : B × Side) : t ∉ s.kernel.woken (loc s.pc) w :=
  Kernel.woken_none (by simp [loc, h])

end

omit [DecidableEq B] in
theorem loc_update (pc : T → Option (MbReq B × BitVec 32 × BitVec 32)) (t : T)
    (p : Option (MbReq B × BitVec 32 × BitVec 32)) :
    loc (update pc t p) =
      update (loc pc) t (p.map (fun p => (p.1.box, p.1.side))) :=
  comp_update _ pc t p

theorem owed_update_of_ne (mb : B → Mailbox) (b : B) (q : Mailbox) {w : B × Side} (hw : ∀ side, w ≠ (b, side)) :
    owed (update mb b q) w = owed mb w := by
  have hne : w.1 ≠ b := fun he => hw w.2 (he ▸ rfl)
  rw [owed, update_of_ne hne, owed]

variable {req : MbReq B} {e : Err} {k : Kernel T (B × Side)}

section

omit [DecidableEq T]

theorem logSent_of_ne (s : MbSystem T B) (he : e ≠ .eok) : s.logSent req e = s.sent := by
  cases e <;> first | exact absurd rfl he | rfl

theorem logReceived_of_ne (s : MbSystem T B) (he : e ≠ .eok) : s.logReceived req e v = s.received := by
  cases e <;> first | exact absurd rfl he | rfl

theorem logs_of_ne (s : MbSystem T B) {b : B} (e : Err) (v : Option (BitVec 32))
    (hb : b ≠ req.box) : s.logSent req e b = s.sent b ∧ s.logReceived req e v b = s.received b := by
  cases req with
  | send b' value =>
    refine ⟨?_, ?_⟩
    · cases e <;> first | exact update_of_ne hb _ _ | rfl
    · cases e <;> rfl
  | recv b' =>
    refine ⟨?_, ?_⟩
    · cases e <;> rfl
    · cases v with
      | none => cases e <;> rfl
      | some v => cases e <;> first | exact update_of_ne hb _ _ | rfl

theorem logs_done (hok : (s.mb req.box).Ok) (hlog : s.sent req.box = s.received req.box ++ (s.mb req.box).contents)
    (hfree : req.op.stuck (s.mb req.box) = false) :
    s.logSent req .eok req.box = s.logReceived req .eok (req.op.result (s.mb req.box)) req.box ++
      (req.op.apply (s.mb req.box)).contents := by
  cases req with
  | send b value =>
    have hfull : (s.mb b).entry ≠ (s.mb b).size := by simpa [MbReq.op, mbSendOp, MbReq.box] using hfree
    have hcont := (hok.store hfull value).2.2
    simp only [MbReq.box] at hlog hcont
    simp only [logSent, logReceived, MbReq.box, MbReq.op, mbSendOp, update_self, hcont, hlog, List.append_assoc]
  | recv b =>
    have hempty : (s.mb b).entry ≠ 0 := by simpa [MbReq.op, mbRecvOp, MbReq.box] using hfree
    have hcont := (hok.fetch hempty).2.2
    simp only [MbReq.box] at hlog hcont
    simp only [logSent, logReceived, MbReq.box, MbReq.op, mbRecvOp, update_self, hlog, hcont,
      List.append_assoc, List.singleton_append]

end

theorem owed_apply_le {mb : B → Mailbox} (hmb : (mb req.box).Ok)
    (hfree : req.op.stuck (mb req.box) = false) (w : B × Side) :
    update (owed mb) (req.box, req.side) ((req.op.apply (mb req.box)).owed req.side) w ≤ owed mb w := by
  have howed : (req.op.apply (mb req.box)).owed req.side + 1 = owed mb (req.box, req.side) :=
    (MbReq.apply_ok hmb hfree).2.1
  exact update_le_self_iff.mpr (by omega) w

theorem Inv.done (h : s.Inv) {pc : T → Option (MbReq B × BitVec 32 × BitVec 32)}
    (stay : BitVec 32 → BitVec 32 → T → Option (MbReq B × BitVec 32 × BitVec 32)) (hk : k.Covered (loc pc)
      (update (owed s.mb) (req.box, req.side) ((req.op.apply (s.mb req.box)).owed req.side)))
    (hfree : req.op.stuck (s.mb req.box) = false) :
    (s.after req pc stay (k.resumeFirst req.op.wake, req.op.apply (s.mb req.box),
      .returned .eok (req.op.result (s.mb req.box)))).1.Inv := by
  obtain ⟨hok, -, howed⟩ := MbReq.apply_ok (h.ok req.box) hfree
  rw [req.op_wake]
  refine h.setBox (hk.resumeFirst ?_ ?_) req.box ?_ ?_ ?_
  · rw [update_of_ne (by simpa using req.side.other_ne)]
    simp [after, owed, howed]
  · intro w hw
    by_cases hown : w = (req.box, req.side)
    · subst hown
      simp [after, owed]
    · rw [update_of_ne hown]
      refine (owed_update_of_ne s.mb req.box _ (fun side he => ?_)).le
      obtain rfl | rfl := Side.eq_or_other req.side side
      · exact hown he
      · exact hw he
  · intro b hb
    obtain ⟨h1, h2⟩ := s.logs_of_ne .eok (req.op.result (s.mb req.box)) hb
    exact ⟨by simp [after, hb], h1, h2⟩
  · simpa [after] using hok
  · simpa [after] using logs_done (h.ok req.box) (h.log req.box) hfree

section

variable {s : MbSystem T B} {t : T} {req : MbReq B} {k : Kernel T (B × Side)}

variable (h : s.Inv) (hr : s.kernel.view.stat t = .ready)
  (hpc : ∀ w, t ∈ s.kernel.woken (loc s.pc) w → w = (req.box, req.side))

include h hr hpc

theorem Inv.effect_failed {e errno : Err} (he : e ≠ .eok)
    (hstuck : s.kernel.view.error t = .eok → req.op.stuck (s.mb req.box) = true) (hk : k.Wf)
    (hv : k.view = s.kernel.view.setError t errno) :
    (s.afterThread t req (k, s.mb req.box, .returned e none)).1.Inv := by
  -- a thread that was woken and gives up owes nothing: it found the mailbox stuck
  have hnone : ∀ w, t ∈ s.kernel.woken (loc s.pc) w → owed s.mb w = 0 := by
    intro w ht
    obtain rfl := hpc w ht
    exact MbReq.owed_stuck (hstuck ht.2.2)
  have hfail := h.covered.fail hr hnone hk hv
  refine h.setBox ?_ req.box (fun b hb => ?_) ?_ ?_
  · simpa [afterThread, after, loc_update] using hfail
  · simp [afterThread, after, logSent_of_ne s he, logReceived_of_ne s he]
  · simpa [afterThread, after] using h.ok req.box
  · simpa [afterThread, after, logSent_of_ne s he, logReceived_of_ne s he] using h.log req.box

theorem Inv.effect_parked {timeout tickDelta : BitVec 32} (hstuck : req.op.stuck (s.mb req.box) = true) (hk : k.Wf)
    (hv : k.view = s.kernel.view.parked req.op.wait (s.mb req.box).flag t) :
    (s.afterThread t req (k, s.mb req.box, .blocked timeout tickDelta)).1.Inv := by
  rw [req.op_wait] at hv
  have hblock := h.covered.block (w := (req.box, req.side)) hr (MbReq.owed_stuck hstuck) hpc hk hv
  refine h.setBox ?_ req.box (fun b hb => ?_) ?_ ?_
  · simpa [afterThread, after, loc_update] using hblock
  · simp [afterThread, after]
  · simpa [afterThread, after] using h.ok req.box
  · simpa [afterThread, after] using h.log req.box

theorem Inv.effect_done (hfree : req.op.stuck (s.mb req.box) = false) :
    (s.afterThread t req ((s.kernel.dispatch t).resumeFirst req.op.wake, req.op.apply (s.mb req.box),
      .returned .eok (req.op.result (s.mb req.box)))).1.Inv := by
  obtain ⟨-, howed, -⟩ := MbReq.apply_ok (h.ok req.box) hfree
  have hleave : s.kernel.Covered (loc (update s.pc t none))
      (update (owed s.mb) (req.box, req.side) ((req.op.apply (s.mb req.box)).owed req.side)) := by
    rw [loc_update]
    refine h.covered.leave hr (fun w ht hne => ?_) (fun w _ => owed_apply_le (h.ok req.box) hfree w)
    obtain rfl := hpc w ht
    have hcover : (s.mb req.box).owed req.side ≤ _ := h.covered.cover (req.box, req.side) hne
    rw [update_self]
    omega
  exact h.done _ (hleave.dispatch t) hfree

theorem Inv.effect {mb : Mailbox} {r : MbOutcome}
    (he : MbEffect s.kernel req.op t (s.mb req.box) k mb r) : (s.afterThread t req (k, mb, r)).1.Inv := by
  cases he with
  | failed _ he hstuck hk hv => exact h.effect_failed hr hpc he hstuck hk hv
  | parked _ _ hstuck hk hv => exact h.effect_parked hr hpc hstuck hk hv
  | done hfree => exact h.effect_done hr hpc hfree

end

section

variable {s : MbSystem T B} (h : s.Inv) {q : Kernel T (B × Side) × Mailbox × MbOutcome}

include h

theorem Inv.call {t : T} {req : MbReq B} {timeout : BitVec 32} (hrun : s.Running t)
    (hq : req.call (s.kernel.dispatch t) (s.mb req.box) timeout = some q) :
    MbEffect s.kernel req.op t (s.mb req.box) q.1 q.2.1 q.2.2 := by
  rw [req.call_eq] at hq
  exact h.parked.wf.mbCall req.op_refusal hrun.1 hq

theorem Inv.send {b : B} {value : BitVec 32}
    (hq : mbSend s.kernel (b, .receivers) (b, .senders) (s.mb b) value = some q) :
    (s.after (.send b value) s.pc (fun _ _ => s.pc) q).1.Inv ∧
      ∀ e v, q.2.2 = .returned e v → e ≠ .eok → q.2.1 = s.mb b := by
  change mbCall s.kernel (MbReq.send b value).op (s.mb b) 0 = some q at hq
  unfold mbCall mbLoop at hq
  cases hstuck : (MbReq.send b value).op.stuck (s.mb b) with
  | true =>
    rw [if_pos ⟨hstuck, rfl⟩, Option.some.injEq] at hq
    subst hq
    refine ⟨?_, fun _ _ _ _ => rfl⟩
    have he : (MbReq.send b value).op.refusal ≠ .eok := MbReq.op_refusal _
    simpa [after, logSent_of_ne s he, logReceived_of_ne s he, MbReq.box] using h
  | false =>
    simp only [hstuck, Bool.false_eq_true, false_and, if_false, Option.some.injEq] at hq
    subst hq
    refine ⟨h.done (fun _ _ => s.pc) (h.covered.mono (owed_apply_le (h.ok b) hstuck)) hstuck, ?_⟩
    intro e v hr he
    injection hr with he'
    exact absurd he'.symm he

theorem Inv.reset (b : B) : Inv { s with
      kernel := ((s.kernel.ipcListResumeAll (b, .receivers)).ipcListResumeAll (b, .senders)).schedule
      mb := update s.mb b { s.mb b with entry := 0, inOffset := 0, outOffset := 0 }
      sent := update s.sent b []
      received := update s.received b [] } := by
  obtain ⟨hparked₁, hwoken₁, hv₁⟩ := h.parked.ipcListResumeAll (b, .receivers)
  obtain ⟨hparked₂, hwoken₂, hv₂⟩ := hparked₁.resetList (b, .senders)
  generalize ((s.kernel.ipcListResumeAll (b, .receivers)).ipcListResumeAll (b, .senders)).schedule = k
    at hparked₂ hwoken₂ hv₂ ⊢
  refine h.setBox ⟨hparked₂, fun w hwait => ?_⟩ b (fun b' hb => by simp [hb]) ?_ (by simp [contents])
  · -- nobody waits on `b` any more, and nothing has changed on the other mailboxes
    have hw : ∀ side, w ≠ (b, side) := by
      rintro side rfl
      cases side <;> simp [hv₂, hv₁] at hwait
    rw [owed_update_of_ne s.mb b _ hw, hwoken₂, hwoken₁]
    refine h.covered.cover w ?_
    simpa [hv₂, hv₁, hw] using hwait
  · simpa using (h.ok b).reset

end

theorem Inv.step {c : MbEvent T B} {r : Option (Err × Option (BitVec 32))} (h : s.Inv)
    (hs : s.exec c = some (s', r)) : s'.Inv := by
  cases c with
  | call t req timeout =>
    simp only [exec] at hs
    split_ifs at hs with hrun
    obtain ⟨q, hq, he⟩ := map_eq_some_iff.mp hs
    have := h.effect hrun.1 (fun w ht => absurd ht (not_woken_of_running hrun.2 w)) (h.call hrun hq)
    rwa [he] at this
  | resume t =>
    simp only [exec] at hs
    cases hpc : s.pc t with
    | none => simp [hpc] at hs
    | some p =>
      obtain ⟨req, timeout, tickDelta⟩ := p
      simp only [hpc] at hs
      split_ifs at hs with hr
      obtain ⟨⟨k, mb, o⟩, hq, he⟩ := map_eq_some_iff.mp hs
      have hloc : ∀ w, t ∈ s.kernel.woken (loc s.pc) w → w = (req.box, req.side) := by
        intro w ht
        have hw : loc s.pc t = some w := ht.1
        simpa [loc, hpc] using hw.symm
      have := h.effect hr hloc (h.parked.wf.mbResume req.op_refusal hr hq)
      rwa [he] at this
  | send b value =>
    obtain ⟨q, hq, he⟩ := map_eq_some_iff.mp hs
    have := (h.send hq).1
    rwa [he] at this
  | control b cmd =>
    cases cmd with
    | reset =>
      cases hs
      exact h.reset b
    | other =>
      cases hs
      simpa [mbControl] using h
  | timeout t =>
    obtain ⟨k, hk, he⟩ := map_eq_some_iff.mp hs
    cases he
    have hexpire := h.covered.expire hk
    exact ⟨hexpire.parked, h.ok, h.log, fun b side => hexpire.cover (b, side)⟩
  | tick =>
    cases hs
    exact ⟨(h.covered.tick _).parked, h.ok, h.log, h.awake⟩

theorem inv_of_reachable (h : Reachable step (fun _ _ => True) Initial s) : s.Inv := by
  refine h.invariant (fun _ hs => hs.inv) ?_
  intro s c s' hi _ hs
  obtain ⟨⟨_, r⟩, hexec, rfl⟩ := map_eq_some_iff.mp hs
  exact hi.step hexec

theorem afterThread_failed {t : T} {mb : Mailbox} {o : MbOutcome} (he : e ≠ .eok)
    (heff : MbEffect s.kernel req.op t (s.mb req.box) k mb o)
    (hs : s.afterThread t req (k, mb, o) = (s', some (e, v))) :
    s'.mb = s.mb ∧ s'.sent = s.sent ∧ s'.received = s.received := by
  cases heff with
  | failed errno he' _ _ _ =>
    cases hs
    simp [logSent_of_ne s he', logReceived_of_ne s he']
  | parked _ _ _ _ _ => cases hs
  | done _ =>
    obtain ⟨-, hr⟩ := Prod.mk.inj hs
    cases hr
    exact absurd rfl he

theorem Inv.failed {c : MbEvent T B} (h : s.Inv) (hs : s.exec c = some (s', some (e, v))) (he : e ≠ .eok) :
    s'.mb = s.mb ∧ s'.sent = s.sent ∧ s'.received = s.received := by
  cases c with
  | call t req timeout =>
    simp only [exec] at hs
    split_ifs at hs with hrun
    obtain ⟨q, hq, hs'⟩ := map_eq_some_iff.mp hs
    exact afterThread_failed he (h.call hrun hq) hs'
  | resume t =>
    simp only [exec] at hs
    cases hpc : s.pc t with
    | none => simp [hpc] at hs
    | some p =>
      obtain ⟨req, timeout, tickDelta⟩ := p
      simp only [hpc] at hs
      split_ifs at hs with hr
      obtain ⟨⟨k, mb, o⟩, hq, hs'⟩ := map_eq_some_iff.mp hs
      exact afterThread_failed he (h.parked.wf.mbResume req.op_refusal hr hq) hs'
  | send b value =>
    obtain ⟨⟨k, mb, o⟩, hq, hs'⟩ := map_eq_some_iff.mp hs
    cases o with
    | returned e' v' =>
      obtain ⟨rfl, hr⟩ := Prod.mk.inj hs'
      obtain ⟨rfl, rfl⟩ := Prod.mk.inj (Option.some.inj hr)
      have hmb : mb = s.mb b := (h.send hq).2 e' v' rfl he
      simp [hmb, logSent_of_ne s he, logReceived_of_ne s he, MbReq.box]
    | blocked _ _ => cases hs'
  | control b cmd =>
    cases cmd with
    | reset =>
      obtain ⟨-, hr⟩ := Prod.mk.inj (Option.some.inj hs)
      cases hr
      exact absurd rfl he
    | other =>
      cases hs
      simp
  | timeout t =>
    obtain ⟨k, -, hs'⟩ := map_eq_some_iff.mp hs
    cases hs'
  | tick => cases hs

end MbSystem

open MbSystem

def twoMails : MbSystem Tid Unit where
  kernel := bootKernel Tid.priority [.startup .mid, .startup .low, .schedulerStart]
  mb _ := mbInit (fun _ => 0) 2 .fifo
  pc _ := none
  sent _ := []
  received _ := []

theorem twoMails_initial : twoMails.Initial := by
  have hwf : (bootKernel Tid.priority [.startup .mid, .startup .low, .schedulerStart] :
      Kernel Tid (Unit × Side)).Wf := bootKernel_wf (by decide) _
  have hw : ∀ b side, twoMails.kernel.view.waiting (b, side) = [] := by
    intro b side
    cases side with
    | receivers | senders => revert b; decide +kernel
  exact ⟨hwf, fun w => hw w.1 w.2, fun _ => rfl, fun _ => ⟨_, _, _, rfl⟩, fun _ => ⟨rfl, rfl⟩⟩

def firstMail : List (MbEvent Tid Unit) :=
  [.call .mid (.recv ()) 0xffffffff, .call .low (.recv ()) 100, .send () 7]

theorem twoMails_reachable {s : MbSystem Tid Unit} {events : List (MbEvent Tid Unit)}
    (h : run step twoMails events = some s) : Reachable step (fun _ _ => True) Initial s :=
  .of_free_run twoMails_initial h

theorem mailbox_no_lost_wakeup {s : MbSystem T B} (h : Reachable step (fun _ _ => True) Initial s) (b : B) :
    (∀ side, (s.kernel.woken (loc s.pc) (b, side)).Finite) ∧
    (s.kernel.view.waiting (b, .receivers) ≠ [] →
      (s.mb b).entry ≤ (s.kernel.woken (loc s.pc) (b, .receivers)).ncard) ∧
    (s.kernel.view.waiting (b, .senders) ≠ [] →
      (s.mb b).size - (s.mb b).entry ≤ (s.kernel.woken (loc s.pc) (b, .senders)).ncard) ∧
    (s.kernel.woken (loc s.pc) (b, .receivers) = ∅ → 0 < (s.mb b).entry →
      s.kernel.view.waiting (b, .receivers) = []) ∧
    (s.kernel.woken (loc s.pc) (b, .senders) = ∅ → (s.mb b).entry < (s.mb b).size →
      s.kernel.view.waiting (b, .senders) = []) := by
  have hi := inv_of_reachable h
  have hrecv := hi.awake b .receivers
  have hsend := hi.awake b .senders
  refine ⟨fun side => hi.parked.finite (b, side), hrecv, hsend, ?_, ?_⟩
  · intro hempty hpos
    exact hi.covered.quiet hempty hpos.ne'
  · intro hempty hlt
    exact hi.covered.quiet hempty (Nat.sub_pos_of_lt hlt).ne'

theorem mailbox_no_lost_wakeup_firstMail : ∃ s, run step twoMails firstMail = some s ∧
    s.kernel.view.waiting ((), .receivers) = [.low] ∧ (s.mb ()).entry = 1 ∧
    1 ≤ (s.kernel.woken (loc s.pc) ((), .receivers)).ncard := by
  refine exists_some_and_and (by decide +kernel) (fun s hs hwait hentry => ?_)
  have hcard := (mailbox_no_lost_wakeup (twoMails_reachable hs) ()).2.1 (by simp [hwait])
  omega

end RtThread
