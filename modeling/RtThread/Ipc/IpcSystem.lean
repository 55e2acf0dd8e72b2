import RtThread.Kernel.ReadyQueue
import RtThread.Ipc.WaitOrder

/-!
Threads that use IPC objects of every kind at once, and whose priorities are changed. A step is one
interrupt-disabled section by any ready thread, or a call of an interrupt handler.
-/

namespace RtThread

open Transition Function Option

variable {T O : Type} [DecidableEq T] [DecidableEq O]

inductive ListName
  | suspendThread
  | suspendSenderThread
  deriving DecidableEq

inductive IpcObject (T : Type)
  | semaphore (x : Semaphore)
  | mutex (x : Mutex T)
  | event (x : Event)
  | mailbox (x : Mailbox)
  | messageQueue (x : MessageQueue)

namespace IpcObject

def flag : IpcObject T → IpcFlag
  | semaphore x => x.flag
  | mutex x => x.flag
  | event x => x.flag
  | mailbox x => x.flag
  | messageQueue x => x.flag

def Ok : IpcObject T → Prop
  | mutex x => ∀ t, x.owner = some t → x.originalPriority < 32
  | _ => True

end IpcObject

inductive IpcPc
  | take
  | mbSend (value timeout tickDelta : BitVec 32)
  | mbRecv (timeout tickDelta : BitVec 32)
  | mq (p : MqPc)
  deriving DecidableEq

inductive IpcCall
  | semTake (time : BitVec 32)
  | mutexTake (time : BitVec 32)
  | mutexRelease
  | eventRecv (set : BitVec 32) (option : BitVec 8) (timeout : BitVec 32)
  | mbSendWait (value timeout : BitVec 32)
  | mbRecv (timeout : BitVec 32)
  | mqSend (buffer : Bytes)
  | mqUrgent (buffer : Bytes)
  | mqRecv (size : ℕ) (timeout : BitVec 32)
  deriving DecidableEq

def IpcCall.Valid : IpcCall → Prop
  | mqSend buffer => buffer ≠ []
  | mqUrgent buffer => buffer ≠ []
  | mqRecv size _ => size ≠ 0
  | _ => True

instance : ∀ c : IpcCall, Decidable c.Valid
  | .mqSend _ | .mqUrgent _ | .mqRecv _ _ => instDecidableNot
  | .semTake _ | .mutexTake _ | .mutexRelease | .eventRecv _ _ _ | .mbSendWait _ _ | .mbRecv _ => isTrue trivial

inductive IpcPost
  | semRelease
  | semControl (cmd : SemCtrl)
  | eventSend (set : BitVec 32)
  | eventControl (cmd : EventCtrl)
  | mbSend (value : BitVec 32)
  | mbControl (cmd : MbCtrl)
  | mqControl (cmd : MqCtrl)
  deriving DecidableEq

def Outcome.pc : Outcome → Option IpcPc
  | returned _ => none
  | blocked => some .take

def MbOutcome.pc (f : BitVec 32 → BitVec 32 → IpcPc) : MbOutcome → Option IpcPc
  | returned _ _ => none
  | blocked timeout tickDelta => some (f timeout tickDelta)

def MqOutcome.pc : MqOutcome → Option IpcPc
  | returned _ _ => none
  | inside p => some (.mq p)

abbrev IpcKernel (T O : Type) := Kernel T (O × ListName)

def ipcCall (k : IpcKernel T O) (o : O) :
    IpcObject T → IpcCall → Option (IpcKernel T O × IpcObject T × Option IpcPc)
  | .semaphore x, .semTake time =>
    (semTake k (o, .suspendThread) x time).map (fun (k, x, r) => (k, .semaphore x, r.pc))
  | .mutex x, .mutexTake time =>
    (mutexTake k (o, .suspendThread) x time).map (fun (k, x, r) => (k, .mutex x, r.pc))
  | .mutex x, .mutexRelease =>
    let (k, x, _) := mutexRelease k (o, .suspendThread) x
    some (k, .mutex x, none)
  | .event x, .eventRecv set option timeout =>
    (eventRecv k (o, .suspendThread) x set option timeout).map (fun (k, x, r, _) => (k, .event x, r.pc))
  | .mailbox x, .mbSendWait value timeout =>
    (mbSendWait k (o, .suspendThread) (o, .suspendSenderThread) x value timeout).map
      (fun (k, x, r) => (k, .mailbox x, r.pc (.mbSend value)))
  | .mailbox x, .mbRecv timeout =>
    (mbRecv k (o, .suspendThread) (o, .suspendSenderThread) x timeout).map
      (fun (k, x, r) => (k, .mailbox x, r.pc .mbRecv))
  | .messageQueue x, .mqSend buffer =>
    let (x, r) := mqSend x buffer
    some (k, .messageQueue x, r.pc)
  | .messageQueue x, .mqUrgent buffer =>
    let (x, r) := mqUrgent x buffer
    some (k, .messageQueue x, r.pc)
  | .messageQueue x, .mqRecv size timeout =>
    (mqRecv k (o, .suspendThread) x size timeout).map (fun (k, x, r) => (k, .messageQueue x, r.pc))
  | _, _ => none

def ipcPost (k : IpcKernel T O) (o : O) : IpcObject T → IpcPost → Option (IpcKernel T O × IpcObject T)
  | .semaphore x, .semRelease =>
    let (k, x, _) := semRelease k (o, .suspendThread) x
    some (k, .semaphore x)
  | .semaphore x, .semControl cmd =>
    let (k, x, _) := semControl k (o, .suspendThread) x cmd
    some (k, .semaphore x)
  | .event x, .eventSend set =>
    let (k, x, _) := eventSend k (o, .suspendThread) x set
    some (k, .event x)
  | .event x, .eventControl cmd =>
    let (k, x, _) := eventControl k (o, .suspendThread) x cmd
    some (k, .event x)
  | .mailbox x, .mbSend value =>
    (mbSend k (o, .suspendThread) (o, .suspendSenderThread) x value).map (fun (k, x, _) => (k, .mailbox x))
  | .mailbox x, .mbControl cmd =>
    let (k, x, _) := mbControl k (o, ListName.suspendThread) (o, ListName.suspendSenderThread) x cmd
    some (k, .mailbox x)
  | .messageQueue x, .mqControl cmd =>
    let (k, x, _) := mqControl k (o, .suspendThread) x cmd
    some (k, .messageQueue x)
  | _, _ => none

def ipcProceed (k : IpcKernel T O) (t : T) (o : O) :
    IpcObject T → IpcPc → Option (IpcKernel T O × IpcObject T × Option IpcPc)
  | x, .take => some (k, x, none)
  | .mailbox x, .mbSend value timeout tickDelta =>
    (mbResume k (mbSendOp (o, .suspendThread) (o, .suspendSenderThread) value) t x timeout tickDelta).map
      (fun (k, x, r) => (k, .mailbox x, r.pc (.mbSend value)))
  | .mailbox x, .mbRecv timeout tickDelta =>
    (mbResume k (mbRecvOp (o, .suspendThread) (o, .suspendSenderThread)) t x timeout tickDelta).map
      (fun (k, x, r) => (k, .mailbox x, r.pc .mbRecv))
  | .messageQueue x, .mq p =>
    (mqProceed k (o, .suspendThread) (some t) x p).map (fun (k, x, r) => (k, .messageQueue x, r.pc))
  | _, _ => none

structure IpcSystem (T O : Type) where
  kernel : IpcKernel T O
  object : O → IpcObject T
  pc : T → Option (O × IpcPc)

inductive IpcEvent (T O : Type)
  | call (t : T) (o : O) (c : IpcCall)
  | post (o : O) (c : IpcPost)
  | proceed (t : T)
  | changePriority (t : T) (priority : ℕ)
  | timeout (t : T)
  | tick

namespace IpcSystem

def Running (s : IpcSystem T O) (t : T) : Prop := s.kernel.view.stat t = .ready ∧ s.pc t = none

instance (s : IpcSystem T O) (t : T) : Decidable (s.Running t) := instDecidableAnd

def after (s : IpcSystem T O) (t : T) (o : O) : IpcKernel T O × IpcObject T × Option IpcPc → IpcSystem T O
  | (k, x, p) =>
    { kernel := k, object := update s.object o x, pc := update s.pc t (p.map (o, ·)) }

def step (s : IpcSystem T O) : IpcEvent T O → Option (IpcSystem T O)
  | .call t o c =>
    if s.Running t ∧ c.Valid then (ipcCall (s.kernel.dispatch t) o (s.object o) c).map (s.after t o) else none
  | .post o c =>
    (ipcPost s.kernel o (s.object o) c).map
      (fun (k, x) => { s with kernel := k, object := update s.object o x })
  | .proceed t =>
    match s.pc t with
    | none => none
    | some (o, p) =>
      if s.kernel.view.stat t = .ready then
        (ipcProceed (s.kernel.dispatch t) t o (s.object o) p).map (s.after t o)
      else none
  | .changePriority t priority =>
    if priority < priorityMax then some { s with kernel := s.kernel.threadChangePriority t priority } else none
  | .timeout t => (s.kernel.timerExpire t).map (fun k => { s with kernel := k })
  | .tick => some { s with kernel := { s.kernel with tick := s.kernel.tick + 1 } }

def flag (s : IpcSystem T O) (w : O × ListName) : IpcFlag := (s.object w.1).flag

structure Initial (s : IpcSystem T O) : Prop where
  wf : s.kernel.Wf
  waiting : ∀ w, s.kernel.view.waiting w = []
  pc : ∀ t, s.pc t = none
  mutex : ∀ o x, s.object o = .mutex x → ∃ flag, x = mutexInit flag

structure Inv (s : IpcSystem T O) : Prop where
  wf : s.kernel.Wf
  ok : ∀ o, (s.object o).Ok

def Ordered (s : IpcSystem T O) : Prop := s.kernel.view.Ordered s.flag

def KeepsPlace (s : IpcSystem T O) (u : T) (p : ℕ) : Prop :=
  ∀ w, s.flag w = .prio → ∀ l₁ l₂, s.kernel.view.waiting w = l₁ ++ u :: l₂ →
    (∀ a ∈ l₁, s.kernel.view.priority a ≤ p) ∧ ∀ a ∈ l₂, p ≤ s.kernel.view.priority a

def KeepsOrder (s : IpcSystem T O) : IpcEvent T O → Prop
  | .changePriority u p => s.KeepsPlace u p
  | .call t o (.mutexTake time) => ∀ x u, s.object o = .mutex x → x.value = 0 → x.owner = some u → u ≠ t →
      time ≠ 0 → s.kernel.view.priority t < s.kernel.view.priority u → s.KeepsPlace u (s.kernel.view.priority t)
  | _ => True

variable {s : IpcSystem T O}

section

omit [DecidableEq O] [DecidableEq T]

theorem Initial.inv (h : s.Initial) : s.Inv := by
  refine ⟨h.wf, fun o => ?_⟩
  cases hx : s.object o with
  | mutex x =>
    obtain ⟨flag, rfl⟩ := h.mutex o x hx
    intro t ht
    cases ht
  | semaphore _ | event _ | mailbox _ | messageQueue _ => trivial

theorem Initial.ordered (h : s.Initial) : s.Ordered := by
  intro w _
  rw [h.waiting]
  exact List.Pairwise.nil

theorem keepsOrder_call {t : T} {o : O} {c : IpcCall} (hc : ∀ time, c ≠ .mutexTake time) :
    s.KeepsOrder (.call t o c) := by
  cases c with
  | mutexTake time => exact absurd rfl (hc time)
  | _ => trivial

end

section

omit [DecidableEq T]

theorem flag_update {o : O} {x : IpcObject T} (hx : x.flag = (s.object o).flag)
    (k : IpcKernel T O) (pc : T → Option (O × IpcPc)) :
    flag { kernel := k, object := update s.object o x, pc := pc } = s.flag := by
  funext w
  by_cases hw : w.1 = o
  · simp [flag, hw, hx]
  · simp [flag, hw]

structure Section (flag : O × ListName → IpcFlag) (k : IpcKernel T O) (x : IpcObject T) (k' : IpcKernel T O)
    (x' : IpcObject T) : Prop where
  wf : k'.Wf
  change : WaitChange flag k.view k'.view
  flag_eq : x'.flag = x.flag
  ok : x'.Ok

theorem Section.inv (h : s.Inv) {o : O} {k : IpcKernel T O} {x : IpcObject T}
    (hs : Section s.flag s.kernel (s.object o) k x) (pc : T → Option (O × IpcPc)) :
    Inv { kernel := k, object := update s.object o x, pc := pc } ∧
      (s.Ordered → Ordered { kernel := k, object := update s.object o x, pc := pc }) := by
  refine ⟨⟨hs.wf, fun o' => ?_⟩, fun ho => ?_⟩
  · by_cases he : o' = o
    · subst he
      simpa using hs.ok
    · simpa [he] using h.ok o'
  · rw [Ordered, flag_update hs.flag_eq]
    exact hs.change.ordered ho

end

omit [DecidableEq O] in
theorem ordered_changePriority_iff (h : s.Inv) (ho : s.Ordered) (u : T) (p : ℕ) :
    View.Ordered { s.kernel.view with priority := update s.kernel.view.priority u p } s.flag ↔
      s.KeepsPlace u p :=
  forall_congr' (fun w => forall_congr' (fun hf =>
    KeyOrder.sorted_update_iff (ho w hf) (h.wf.view_nodup w) p))

section

variable {flag : O × ListName → IpcFlag} {k k' : IpcKernel T O} {o : O} {x x' : IpcObject T} {t : T}
  {p : Option IpcPc}

theorem mutexRelease_section {x x' : Mutex T} {e : Err} (hk : k.Wf) (hr : k.view.stat t = .ready)
    (hok : (IpcObject.mutex x).Ok) (h : mutexRelease (k.dispatch t) (o, .suspendThread) x = (k', x', e)) :
    Section flag k (.mutex x) k' (.mutex x') := by
  obtain ⟨hw, he⟩ := hk.mutexRelease (hok t) h
  obtain ⟨hc, hf⟩ := he.change (hk.not_waiting hr)
  refine ⟨hw, hc, hf, ?_⟩
  generalize k'.view = v at he
  cases he with
  | refused _ | kept _ _ => exact hok
  | @handed u l q ho _ _ hq =>
    intro _ _
    rw [hq]
    obtain rfl | hu := eq_or_ne u t
    · simpa using hok u ho
    · simpa [hu] using hk.view_priority_lt u
  | freed _ _ _ _ => exact fun _ hn => nomatch hn

theorem mbCall_section {op : MbOp (O × ListName)} {x x' : Mailbox} {r : MbOutcome} (hk : k.Wf)
    (he : MbEffect k op t x k' x' r) (hf : flag op.wait = x.flag) (hop : (op.apply x).flag = x.flag) :
    Section flag k (.mailbox x) k' (.mailbox x') := by
  obtain ⟨hw, hc, hx⟩ := he.change hk hf hop
  exact ⟨hw, hc, hx, trivial⟩

section

omit [DecidableEq T]

theorem mqSend_section {x : MessageQueue} (hk : k.Wf) (urgent : Bool) (buffer : Bytes) :
    Section flag k (.messageQueue x) (k.dispatch t) (.messageQueue (mqSendBegin x urgent buffer).1) :=
  ⟨hk.dispatch t, .same rfl rfl, (mqSendBegin_effect x urgent buffer).flag_eq, trivial⟩

theorem Section.refl (hk : k.Wf) (hok : x.Ok) : Section flag k x k x := ⟨hk, .same rfl rfl, rfl, hok⟩

theorem Section.of_map {α β : Type} {call : Option (IpcKernel T O × α × β)} {f : α → IpcObject T}
    {g : β → Option IpcPc} (h : call.map (fun (k, x, r) => (k, f x, g r)) = some (k', x', p))
    (hcall : ∀ j y r, call = some (j, y, r) → Section flag k x j (f y)) : Section flag k x k' x' := by
  obtain ⟨⟨j, y, r⟩, hj, he⟩ := map_eq_some_iff.mp h
  simp only [Prod.mk.injEq] at he
  obtain ⟨rfl, rfl, -⟩ := he
  exact hcall j y r hj

end

theorem reset_section (hk : k.Wf) (w : O × ListName) (hx : x'.flag = x.flag) (hok : x'.Ok) :
    Section flag k x (k.ipcListResumeAll w).schedule x' := by
  obtain ⟨hw, hch⟩ := hk.resetList_change w
  exact ⟨hw, hch, hx, hok⟩

theorem ipcCall_section {c : IpcCall} (hk : k.Wf) (hr : k.view.stat t = .ready)
    (hf : ∀ name, flag (o, name) = x.flag) (hok : x.Ok) (hc : ∀ time, c ≠ .mutexTake time)
    (h : ipcCall (k.dispatch t) o x c = some (k', x', p)) : Section flag k x k' x' := by
  unfold ipcCall at h
  split at h
  · refine .of_map h (fun j y r hq => ?_)
    obtain ⟨hw, heff⟩ := hk.semTake hr hq
    obtain ⟨hch, hx⟩ := heff.change (hf _)
    exact ⟨hw, hch, hx, trivial⟩
  · exact absurd rfl (hc _)
  · cases h
    exact mutexRelease_section hk hr hok rfl
  · refine .of_map (g := fun r : Outcome × Option (BitVec 32) => r.1.pc) h (fun j y r hq => ?_)
    obtain ⟨hw, heff⟩ := hk.eventRecv hr hq
    obtain ⟨hch, hx⟩ := heff.change (hf _)
    exact ⟨hw, hch, hx, trivial⟩
  · exact .of_map h (fun _ _ _ hq => mbCall_section hk (hk.mbCall (by simp [mbSendOp]) hr hq) (hf _) rfl)
  · exact .of_map h (fun _ _ _ hq =>
      mbCall_section hk (hk.mbCall (by simp [mbRecvOp]) hr hq) (hf _) (Mailbox.fetch_flag _))
  · cases h
    exact mqSend_section hk false _
  · cases h
    exact mqSend_section hk true _
  · refine .of_map h (fun j y r hq => ?_)
    obtain ⟨hw, hch⟩ := mqRecv_change hk hr (hf _) hq
    exact ⟨hw, hch, (mqRecv_effect hq).flag_eq, trivial⟩
  · cases h

theorem ipcPost_section {c : IpcPost} (hk : k.Wf) (h : ipcPost k o x c = some (k', x')) : Section flag k x k' x' := by
  unfold ipcPost at h
  split at h
  · next x =>
    cases h
    obtain ⟨hw, heff⟩ := hk.semRelease (o, .suspendThread) x
    obtain ⟨hch, hx⟩ := heff.change
    exact ⟨hw, hch, hx, trivial⟩
  · next cmd =>
    cases cmd with
    | reset value =>
      cases h
      exact reset_section hk (o, .suspendThread) rfl trivial
    | other =>
      cases h
      exact .refl hk trivial
  · next x set =>
    cases h
    obtain ⟨hw, hch, hx⟩ := hk.eventSend_change (o, .suspendThread) x set
    exact ⟨hw, hch, hx, trivial⟩
  · next cmd =>
    cases cmd with
    | reset =>
      cases h
      exact reset_section hk (o, .suspendThread) rfl trivial
    | other =>
      cases h
      exact .refl hk trivial
  · obtain ⟨⟨j, y, r⟩, hq, he⟩ := map_eq_some_iff.mp h
    cases he
    obtain ⟨hw, hch, hx⟩ := mbSend_change hk hq
    exact ⟨hw, hch, hx, trivial⟩
  · next x cmd =>
    cases h
    obtain ⟨hw, hch, hx⟩ := mbControl_change hk (o, .suspendThread) (o, .suspendSenderThread) x cmd
    exact ⟨hw, hch, hx, trivial⟩
  · next x cmd =>
    cases cmd with
    | reset =>
      cases h
      exact reset_section hk (o, .suspendThread) x.reset_flag trivial
    | other =>
      cases h
      exact .refl hk trivial
  · cases h

theorem ipcProceed_section {q : IpcPc} (hk : k.Wf) (hr : k.view.stat t = .ready)
    (hf : ∀ name, flag (o, name) = x.flag) (hok : x.Ok)
    (h : ipcProceed (k.dispatch t) t o x q = some (k', x', p)) : Section flag k x k' x' := by
  unfold ipcProceed at h
  split at h
  · cases h
    exact ⟨hk.dispatch t, .same rfl rfl, rfl, hok⟩
  · exact .of_map h (fun _ _ _ hq => mbCall_section hk (hk.mbResume (by simp [mbSendOp]) hr hq) (hf _) rfl)
  · exact .of_map h (fun _ _ _ hq =>
      mbCall_section hk (hk.mbResume (by simp [mbRecvOp]) hr hq) (hf _) (Mailbox.fetch_flag _))
  · refine .of_map h (fun j y r hq => ?_)
    obtain ⟨hw, hch, hx⟩ := mqProceed_change hk hr (hf _) hq
    exact ⟨hw, hch, hx, trivial⟩
  · cases h

end

theorem Inv.mutexTake (h : s.Inv) {t : T} {o : O} {x x' : Mutex T} {time : BitVec 32}
    {k : IpcKernel T O} {r : Outcome} (hx : s.object o = .mutex x) (hr : s.kernel.view.stat t = .ready)
    (hq : RtThread.mutexTake (s.kernel.dispatch t) (o, .suspendThread) x time = some (k, x', r)) :
    (s.after t o (k, .mutex x', r.pc)).Inv ∧ (s.Ordered →
      ((s.after t o (k, .mutex x', r.pc)).Ordered ↔ s.KeepsOrder (.call t o (.mutexTake time)))) := by
  obtain ⟨hw, heff⟩ := h.wf.mutexTake hr hq
  have hxok : (IpcObject.mutex x).Ok := hx ▸ h.ok o
  have hflag : s.flag (o, .suspendThread) = x.flag := by simp [flag, hx, IpcObject.flag]
  -- the ways in which the caller does not block leave the lists and the priorities alone
  have hstay : Section s.flag s.kernel (.mutex x) k (.mutex x') →
      (∀ u, x.value = 0 → x.owner = some u → u ≠ t → time ≠ 0 → False) →
      (s.after t o (k, .mutex x', r.pc)).Inv ∧ (s.Ordered →
        ((s.after t o (k, .mutex x', r.pc)).Ordered ↔ s.KeepsOrder (.call t o (.mutexTake time)))) := by
    intro hsec hno
    obtain ⟨hi, hord⟩ := Section.inv h (hx ▸ hsec) (update s.pc t (r.pc.map (o, ·)))
    refine ⟨hi, fun ho => iff_of_true (hord ho) ?_⟩
    intro y u hy hv hu hne ht _
    obtain rfl : x = y := by simpa [hx] using hy
    exact (hno u hv hu hne ht).elim
  generalize hv : k.view = v at heff
  cases heff with
  | nested ho =>
    refine hstay ⟨hw, .same (by rw [hv]) (by rw [hv]), rfl, hxok⟩ ?_
    intro u _ hu hne _
    exact hne (some.inj (hu.symm.trans ho))
  | acquired _ hval =>
    refine hstay ⟨hw, .same (by rw [hv]) (by rw [hv]), rfl, ?_⟩ (fun u h0 _ _ _ => by omega)
    exact fun _ _ => h.wf.view_priority_lt t
  | refused _ _ hz => exact hstay ⟨hw, .same (by rw [hv]) (by rw [hv]), rfl, hxok⟩ (fun u _ _ _ ht => ht hz)
  | @blocked u q hown hne h0 hz hq' =>
    have hsame : (s.after t o (k, .mutex x, Outcome.blocked.pc)).flag = s.flag := flag_update (by rw [hx]) _ _
    refine ⟨⟨hw, fun o' => ?_⟩, fun ho => ?_⟩
    · by_cases he : o' = o
      · subst he
        simpa [after] using hxok
      · simpa [after, he] using h.ok o'
    · have hparked : (s.after t o (k, .mutex x, Outcome.blocked.pc)).Ordered ↔
          View.Ordered { s.kernel.view with priority := q } s.flag := by
        rw [Ordered, hsame]
        exact ordered_parked_iff (t := t) (w := (o, .suspendThread)) (by simp [after, hv])
          (by simp [after, hv, hflag])
      rw [hparked, hq', ordered_changePriority_iff h ho]
      constructor
      · intro hkeep y u' hy _ hu' _ _ hlt
        obtain rfl : x = y := by simpa [hx] using hy
        obtain rfl : u = u' := some.inj (hown.symm.trans hu')
        rwa [min_eq_right hlt.le] at hkeep
      · intro hkeep
        by_cases hlt : s.kernel.view.priority t < s.kernel.view.priority u
        · rw [min_eq_right hlt.le]
          exact hkeep x u hx h0 hown hne hz hlt
        · rw [min_eq_left (not_lt.mp hlt), ← ordered_changePriority_iff h ho, update_eq_self]
          exact ho

theorem Inv.step {s' : IpcSystem T O} {a : IpcEvent T O} (h : s.Inv) (hs : s.step a = some s') :
    s'.Inv ∧ (s.Ordered → (s'.Ordered ↔ s.KeepsOrder a)) := by
  cases a with
  | call t o c =>
    simp only [IpcSystem.step] at hs
    split_ifs at hs with hrun
    obtain ⟨⟨k, x', p⟩, hq, rfl⟩ := map_eq_some_iff.mp hs
    by_cases hc : ∃ time, c = .mutexTake time
    · obtain ⟨time, rfl⟩ := hc
      cases hx : s.object o with
      | mutex x =>
        rw [hx] at hq
        obtain ⟨⟨j, y, r⟩, hj, he⟩ := map_eq_some_iff.mp hq
        cases he
        exact h.mutexTake hx hrun.1.1 hj
      | _ => rw [hx] at hq; cases hq
    · have hc' : ∀ time, c ≠ .mutexTake time := fun time he => hc ⟨time, he⟩
      have hflag : ∀ name, s.flag (o, name) = (s.object o).flag := fun _ => rfl
      have hsec := ipcCall_section h.wf hrun.1.1 hflag (h.ok o) hc' hq
      obtain ⟨hi, hord⟩ := hsec.inv h _
      exact ⟨hi, fun ho => iff_of_true (hord ho) (keepsOrder_call hc')⟩
  | post o c =>
    obtain ⟨⟨k, x'⟩, hq, rfl⟩ := map_eq_some_iff.mp hs
    obtain ⟨hi, hord⟩ := (ipcPost_section h.wf hq).inv h s.pc
    exact ⟨hi, fun ho => iff_of_true (hord ho) trivial⟩
  | proceed t =>
    simp only [IpcSystem.step] at hs
    cases hpc : s.pc t with
    | none => simp [hpc] at hs
    | some q =>
      simp only [hpc] at hs
      split_ifs at hs with hr
      obtain ⟨⟨k, x', p⟩, hq, rfl⟩ := map_eq_some_iff.mp hs
      have hflag : ∀ name, s.flag (q.1, name) = (s.object q.1).flag := fun _ => rfl
      have hsec := ipcProceed_section h.wf hr hflag (h.ok q.1) hq
      obtain ⟨hi, hord⟩ := hsec.inv h _
      exact ⟨hi, fun ho => iff_of_true (hord ho) trivial⟩
  | changePriority t priority =>
    simp only [IpcSystem.step] at hs
    split_ifs at hs with hp
    cases hs
    refine ⟨⟨h.wf.threadChangePriority t hp, h.ok⟩, fun ho => ?_⟩
    rw [Ordered, h.wf.changePriority_view]
    exact ordered_changePriority_iff h ho t priority
  | timeout t =>
    obtain ⟨k, hk, rfl⟩ := map_eq_some_iff.mp hs
    obtain ⟨hw, hch⟩ := h.wf.timerExpire_change hk
    exact ⟨⟨hw, h.ok⟩, fun ho => iff_of_true (hch.ordered ho) trivial⟩
  | tick =>
    cases hs
    exact ⟨⟨h.wf.congr rfl rfl rfl, h.ok⟩, fun ho => iff_of_true ho trivial⟩

def Scheduled (s : IpcSystem T O) : IpcEvent T O → Prop
  | .call t _ _ | .proceed t => s.kernel.highestReadyThread = some t
  | _ => True

instance (s : IpcSystem T O) : ∀ a, Decidable (s.Scheduled a)
  | .call _ _ _ | .proceed _ => decEq _ _
  | .post _ _ | .changePriority _ _ | .timeout _ | .tick => isTrue trivial

end IpcSystem

open IpcSystem

theorem waiting_ordered_iff {s : IpcSystem T O} (h : s.Initial) (events : List (IpcEvent T O)) :
    (StatesAlong step Ordered s events ↔ StepsAlong step KeepsOrder s events) ∧
      ∀ s' : IpcSystem T O, s'.Ordered → ∀ w t l, s'.flag w = .prio → s'.kernel.view.waiting w = t :: l →
        s'.kernel.ipcListResume w = (s'.kernel.threadResume t).1 ∧
          ∀ u ∈ s'.kernel.view.waiting w, s'.kernel.view.priority t ≤ s'.kernel.view.priority u := by
  refine ⟨?_, ?_⟩
  · exact statesAlong_iff_stepsAlong (fun _ _ _ hi hs => (hi.step hs).1)
      (fun _ _ _ hi ho hs => (hi.step hs).2 ho) events h.inv h.ordered
  · intro s' ho w t l hf hl
    refine ⟨Kernel.ipcListResume_cons hl, ?_⟩
    have hsorted := ho w hf
    rw [hl] at hsorted ⊢
    exact hsorted.head_le

inductive Oid
  | sem
  | lock
  | delay
  deriving DecidableEq

instance : Fintype Oid := ⟨{.sem, .lock, .delay}, fun o => by cases o <;> decide⟩

def threeObjects : IpcSystem Tid Oid where
  kernel := bootKernel Tid.priority [.startup .low, .startup .mid, .startup .high, .schedulerStart]
  object
    | .sem => .semaphore (semInit 0 .prio)
    | .lock => .mutex (mutexInit .prio)
    | .delay => .semaphore (semInit 0 .prio)
  pc _ := none

theorem threeObjects_initial : threeObjects.Initial := by
  have hwf : (bootKernel Tid.priority [.startup .low, .startup .mid, .startup .high, .schedulerStart] :
      IpcKernel Tid Oid).Wf := bootKernel_wf (by decide) _
  have hw : ∀ o name, threeObjects.kernel.view.waiting (o, name) = [] := by
    intro o name
    cases name with
    | suspendThread | suspendSenderThread => revert o; decide +kernel
  refine ⟨hwf, fun w => hw w.1 w.2, fun _ => rfl, ?_⟩
  intro o x hx
  cases o with
  | sem => cases hx
  | lock => cases hx; exact ⟨.prio, rfl⟩
  | delay => cases hx

def boostedWaiter : List (IpcEvent Tid Oid) :=
  [.call .high .delay (.semTake 100), .call .mid .sem (.semTake 0xffffffff),
    .call .low .lock (.mutexTake 0xffffffff), .call .low .sem (.semTake 0xffffffff), .timeout .high,
    .proceed .high, .call .high .lock (.mutexTake 0xffffffff)]

theorem waiting_ordered_iff_boostedWaiter : threeObjects.Initial ∧
    (StatesAlong step Ordered threeObjects boostedWaiter ↔ StepsAlong step KeepsOrder threeObjects boostedWaiter) :=
  ⟨threeObjects_initial, (waiting_ordered_iff threeObjects_initial boostedWaiter).1⟩

theorem boostedWaiter_not_ordered : ∃ s s', run step threeObjects boostedWaiter = some s ∧
    Reachable step Scheduled Initial s ∧ ¬ s.Ordered ∧ s.step (.post .sem .semRelease) = some s' ∧
    s'.kernel.view.stat .mid = .ready ∧ s'.kernel.view.waiting (.sem, .suspendThread) = [.low] ∧
    s'.kernel.view.priority .low < s'.kernel.view.priority .mid := by
  obtain ⟨s, hs, hf, hl, hmid, hlow, s', hs', hstat, hl', hless⟩ :
      ∃ s, run step threeObjects boostedWaiter = some s ∧ s.flag (.sem, .suspendThread) = .prio ∧
        s.kernel.view.waiting (.sem, .suspendThread) = [.mid, .low] ∧ s.kernel.view.priority .mid = 10 ∧
        s.kernel.view.priority .low = 5 ∧ ∃ s', s.step (.post .sem .semRelease) = some s' ∧
          s'.kernel.view.stat .mid = .ready ∧ s'.kernel.view.waiting (.sem, .suspendThread) = [.low] ∧
          s'.kernel.view.priority .low < s'.kernel.view.priority .mid := by decide +kernel
  refine ⟨s, s', hs, .of_run (.start threeObjects_initial) (by decide +kernel) hs, ?_, hs', hstat, hl', hless⟩
  intro hord
  have hsorted := hord (.sem, .suspendThread) hf
  rw [hl] at hsorted
  have := hsorted.head_le .low (by simp)
  omega

end RtThread
