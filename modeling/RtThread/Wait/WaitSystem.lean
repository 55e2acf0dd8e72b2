import RtThread.Lib.Countdown
import RtThread.Ipc.MailboxSystem
import RtThread.Wait.Sections

/-!
Threads that wait with a timeout for mailboxes, message queues, the queues of the FreeRTOS layer and data queues.
A step is one interrupt-disabled section of a call by any ready thread or by an interrupt handler, or one tick.
-/

namespace RtThread

open Transition Kernel Function

variable {T I O : Type} [DecidableEq T] [DecidableEq I] [DecidableEq O]

inductive WaitObject
  | mailbox (x : Mailbox)
  | messageQueue (x : MessageQueue)
  | fmq (x : Fmq)
  | dataQueue (x : DataQueue)

inductive WaitCall
  | mbSendWait (value timeout : BitVec 32)
  | mbRecv (timeout : BitVec 32)
  | mqSend (buffer : Bytes)
  | mqUrgent (buffer : Bytes)
  | mqRecv (size : ℕ) (timeout : BitVec 32)
  | fmqSend (value : ℕ → BitVec 8) (pos : CopyPosition) (timeout : BitVec 32)
  | fmqRecv (peek : Bool) (timeout : BitVec 32)
  | dqPush (item : DataItem) (timeout : BitVec 32)
  | dqPop (timeout : BitVec 32)

inductive WaitPc
  | mbSend (value timeout tickDelta : BitVec 32)
  | mbRecv (timeout tickDelta : BitVec 32)
  | mq (p : MqPc)
  | fmqSend (value : ℕ → BitVec 8) (pos : CopyPosition) (timeout tickDelta : BitVec 32)
  | fmqRecv (peek : Bool) (timeout tickDelta : BitVec 32)
  | dqPush (item : DataItem) (timeout : BitVec 32)
  | dqPop (timeout : BitVec 32)

namespace WaitCall

def timeout : WaitCall → BitVec 32
  | mbSendWait _ timeout => timeout
  | mbRecv timeout => timeout
  | mqSend _ => 0
  | mqUrgent _ => 0
  | mqRecv _ timeout => timeout
  | fmqSend _ _ timeout => timeout
  | fmqRecv _ timeout => timeout
  | dqPush _ timeout => timeout
  | dqPop timeout => timeout

def clocked : WaitCall → Bool
  | dqPush _ _ => false
  | dqPop _ => false
  | _ => true

def Valid : WaitCall → Prop
  | mqSend buffer => buffer ≠ []
  | mqUrgent buffer => buffer ≠ []
  | mqRecv size _ => size ≠ 0
  | _ => True

instance : ∀ r : WaitCall, Decidable r.Valid
  | .mqSend _ | .mqUrgent _ | .mqRecv _ _ => instDecidableNot
  | .mbSendWait _ _ | .mbRecv _ | .fmqSend _ _ _ | .fmqRecv _ _ | .dqPush _ _ | .dqPop _ => isTrue trivial

end WaitCall

namespace WaitPc

def armed : WaitPc → Option (BitVec 32 × Option (BitVec 32))
  | mbSend _ timeout tickDelta => some (timeout, some tickDelta)
  | mbRecv timeout tickDelta => some (timeout, some tickDelta)
  | mq p => p.armed
  | fmqSend _ _ timeout tickDelta => some (timeout, some tickDelta)
  | fmqRecv _ timeout tickDelta => some (timeout, some tickDelta)
  | dqPush _ timeout => some (timeout, none)
  | dqPop timeout => some (timeout, none)

def clocked : WaitPc → Bool
  | dqPush _ _ => false
  | dqPop _ => false
  | _ => true

end WaitPc

def MbOutcome.waitPc (f : BitVec 32 → BitVec 32 → WaitPc) : MbOutcome → Option WaitPc
  | returned _ _ => none
  | blocked timeout tickDelta => some (f timeout tickDelta)

def MqOutcome.waitPc : MqOutcome → Option WaitPc
  | returned _ _ => none
  | inside p => some (.mq p)

def FmqOutcome.waitPc (f : BitVec 32 → BitVec 32 → WaitPc) : FmqOutcome → Option WaitPc
  | returned _ _ => none
  | blocked timeout tickDelta => some (f timeout tickDelta)

def DqOutcome.waitPc (f : BitVec 32 → WaitPc) : DqOutcome → Option WaitPc
  | returned _ _ _ => none
  | blocked timeout => some (f timeout)

abbrev WaitKernel (T O : Type) := Kernel T (O × Side)

def waitCall (k : WaitKernel T O) (o : O) :
    WaitObject → WaitCall → Option (WaitKernel T O × WaitObject × Option WaitPc)
  | .mailbox x, .mbSendWait value timeout =>
    (mbSendWait k (o, .receivers) (o, .senders) x value timeout).map
      (fun (k, x, r) => (k, .mailbox x, r.waitPc (.mbSend value)))
  | .mailbox x, .mbRecv timeout =>
    (mbRecv k (o, .receivers) (o, .senders) x timeout).map (fun (k, x, r) => (k, .mailbox x, r.waitPc .mbRecv))
  | .messageQueue x, .mqSend buffer =>
    let (x, r) := mqSend x buffer
    some (k, .messageQueue x, r.waitPc)
  | .messageQueue x, .mqUrgent buffer =>
    let (x, r) := mqUrgent x buffer
    some (k, .messageQueue x, r.waitPc)
  | .messageQueue x, .mqRecv size timeout =>
    (mqRecv k (o, .receivers) x size timeout).map (fun (k, x, r) => (k, .messageQueue x, r.waitPc))
  | .fmq x, .fmqSend value pos timeout =>
    (fmqSend k (o, .receivers) (o, .senders) x value pos timeout).map
      (fun (k, x, r) => (k, .fmq x, r.waitPc (.fmqSend value pos)))
  | .fmq x, .fmqRecv peek timeout =>
    (fmqRecv k (o, .receivers) (o, .senders) x peek timeout).map
      (fun (k, x, r) => (k, .fmq x, r.waitPc (.fmqRecv peek)))
  | .dataQueue x, .dqPush item timeout =>
    (dqPush k (o, .senders) (o, .receivers) x item timeout).map
      (fun (k, x, r) => (k, .dataQueue x, r.waitPc (.dqPush item)))
  | .dataQueue x, .dqPop timeout =>
    (dqPop k (o, .senders) (o, .receivers) x timeout).map (fun (k, x, r) => (k, .dataQueue x, r.waitPc .dqPop))
  | _, _ => none

def waitProceed (k : WaitKernel T O) (self : Option T) (o : O) :
    WaitObject → WaitPc → Option (WaitKernel T O × WaitObject × Option WaitPc)
  | .mailbox x, .mbSend value timeout tickDelta => self.bind (fun t =>
    (mbResume k (mbSendOp (o, .receivers) (o, .senders) value) t x timeout tickDelta).map
      (fun (k, x, r) => (k, .mailbox x, r.waitPc (.mbSend value))))
  | .mailbox x, .mbRecv timeout tickDelta => self.bind (fun t =>
    (mbResume k (mbRecvOp (o, .receivers) (o, .senders)) t x timeout tickDelta).map
      (fun (k, x, r) => (k, .mailbox x, r.waitPc .mbRecv)))
  | .messageQueue x, .mq p =>
    (mqProceed k (o, .receivers) self x p).map (fun (k, x, r) => (k, .messageQueue x, r.waitPc))
  | .fmq x, .fmqSend value pos timeout tickDelta => self.bind (fun t =>
    (fmqResume k (fmqSendOp (o, .receivers) (o, .senders) pos value) t x timeout tickDelta).map
      (fun (k, x, r) => (k, .fmq x, r.waitPc (.fmqSend value pos))))
  | .fmq x, .fmqRecv peek timeout tickDelta => self.bind (fun t =>
    (fmqResume k (fmqRecvOp (o, .receivers) (o, .senders) peek) t x timeout tickDelta).map
      (fun (k, x, r) => (k, .fmq x, r.waitPc (.fmqRecv peek))))
  | .dataQueue x, .dqPush item timeout => self.bind (fun t =>
    (dqPushResume k (o, .senders) (o, .receivers) t x item timeout).map
      (fun (k, x, r) => (k, .dataQueue x, r.waitPc (.dqPush item))))
  | .dataQueue x, .dqPop timeout => self.bind (fun t =>
    (dqPopResume k (o, .senders) (o, .receivers) t x timeout).map
      (fun (k, x, r) => (k, .dataQueue x, r.waitPc .dqPop)))
  | _, _ => none

def waitReset (k : WaitKernel T O) (o : O) : WaitObject → Option (WaitKernel T O × WaitObject)
  | .mailbox x =>
    let (k, x, _) := mbControl k (o, Side.receivers) (o, Side.senders) x .reset
    some (k, .mailbox x)
  | .messageQueue x =>
    let (k, x, _) := mqControl k (o, Side.receivers) x .reset
    some (k, .messageQueue x)
  | .fmq _ => none
  | .dataQueue x => some (dqReset k (o, .senders) (o, .receivers), .dataQueue x)

structure WaitSystem (T I O : Type) where
  kernel : WaitKernel T O
  object : O → WaitObject
  pc : Context T I → Option (O × WaitPc)
  timeout : T → BitVec 32
  count : T → Countdown

inductive WaitEvent (T I O : Type)
  | call (c : Context T I) (o : O) (r : WaitCall)
  | proceed (c : Context T I)
  | reset (o : O)
  | resume (t : T)
  | changePriority (t : T) (priority : ℕ)
  | tick (fired : List T)

namespace WaitSystem

def May (s : WaitSystem T I O) : Context T I → Prop
  | .thread t => (s.kernel.thread t).stat = .ready
  | .handler _ => True

instance (s : WaitSystem T I O) : ∀ c, Decidable (s.May c)
  | .thread _ => decEq _ _
  | .handler _ => isTrue trivial

def dispatch (s : WaitSystem T I O) : Context T I → WaitKernel T O
  | .thread t => s.kernel.dispatch t
  | .handler _ => s.kernel

def Asleep (s : WaitSystem T I O) (t : T) : Prop :=
  (s.kernel.thread t).stat = .suspend ∧ s.pc (.thread t) ≠ none

instance (s : WaitSystem T I O) (t : T) : Decidable (s.Asleep t) :=
  instDecidableAnd

def enter (s : WaitSystem T I O) (timeout : BitVec 32) : Context T I → WaitSystem T I O
  | .thread t =>
    { s with timeout := update s.timeout t timeout, count := update s.count t .zero }
  | .handler _ => s

def recount (count : T → Countdown) : Context T I → Option (BitVec 32 × Option (BitVec 32)) → T → Countdown
  | .thread t, some (timeout, _) => update count t ((count t).arm timeout.toNat)
  | _, _ => count

def after (s : WaitSystem T I O) (c : Context T I) (o : O) :
    WaitKernel T O × WaitObject × Option WaitPc → WaitSystem T I O
  | (k, x, p) =>
    { s with
      kernel := k
      object := update s.object o x
      pc := update s.pc c (p.map (fun p => (o, p)))
      count := recount s.count c (p.bind WaitPc.armed) }

def ticked (s : WaitSystem T I O) : WaitKernel T O := { s.kernel with tick := s.kernel.tick + 1 }

def step (s : WaitSystem T I O) : WaitEvent T I O → Option (WaitSystem T I O)
  | .call c o r =>
    if s.May c ∧ (s.pc c).isNone ∧ r.Valid ∧ MqSystem.MayWait c r.timeout then
      (waitCall (s.dispatch c) o (s.object o) r).map ((s.enter r.timeout c).after c o)
    else none
  | .proceed c =>
    if s.May c then
      (s.pc c).bind (fun (o, p) => (waitProceed (s.dispatch c) c.self o (s.object o) p).map (s.after c o))
    else none
  | .reset o =>
    (waitReset s.kernel o (s.object o)).map
      (fun (k, x) => { s with kernel := k, object := update s.object o x })
  | .resume t => some { s with kernel := (s.kernel.threadResume t).1 }
  | .changePriority t priority =>
    if priority < priorityMax then some { s with kernel := s.kernel.threadChangePriority t priority } else none
  | .tick fired =>
    (s.ticked.timerCheck fired).map
      (fun k => { s with kernel := k, count := fun t => (s.count t).tick (s.Asleep t) })

def Checked (s : WaitSystem T I O) : WaitEvent T I O → Prop
  | .tick fired => ∀ t, t ∈ fired ↔ s.ticked.TimerDue t
  | _ => True

instance [Fintype T] (s : WaitSystem T I O) : ∀ a, Decidable (s.Checked a)
  | .tick _ => Fintype.decidableForallFintype
  | .call _ _ _ | .proceed _ | .reset _ | .resume _ | .changePriority _ _ => isTrue trivial

end WaitSystem

end RtThread
