import RtThread.Ipc.Semaphore
import RtThread.Ipc.Mutex
import RtThread.Port.FmqSystem

/-!
The queue handles of `libcpu.c`: semaphores, mutexes and queues of `fmq.c`, which the functions tell by their type.
-/

namespace RtThread

open Transition Function Option Prod

variable {T W B : Type} [DecidableEq T] [DecidableEq W] [DecidableEq B]

inductive QueueType
  | base | mutex | countingSemaphore | binarySemaphore | recursiveMutex
  deriving DecidableEq

inductive QueueObject (T : Type)
  | sem (x : Semaphore)
  | mutex (x : Mutex T)
  | fmq (q : Fmq)

inductive QueueResult
  | pass | full | empty
  deriving DecidableEq

def QueueResult.ofSend (e : Err) : QueueResult := if e = .eok then .pass else .full

def QueueResult.ofReceive (e : Err) : QueueResult := if e = .eok then .pass else .empty

inductive QueuePc
  | take
  | send (value : ℕ → BitVec 8) (pos : CopyPosition) (timeout tickDelta : BitVec 32)
  | receive (peek : Bool) (timeout tickDelta : BitVec 32)

inductive QueueOutcome
  | returned (r : QueueResult)
  | blocked (pc : QueuePc)

def portMaxDelay : BitVec 32 := 0xffffffff

def xQueueGenericCreate (pool : ℕ → BitVec 8) (length itemSize : BitVec 32) (type : QueueType) : QueueObject T :=
  if itemSize = 0 ∨ length = 0 then
    match type with
    | .mutex => .sem (semInit 1 .prio)
    | .recursiveMutex => .mutex (mutexInit .prio)
    | _ => .sem (semInit 0 .prio)
  else .fmq (fmqCreate pool itemSize length .prio)

def QueueOutcome.ofTake : Outcome → QueueOutcome
  | .returned e => .returned (.ofReceive e)
  | .blocked => .blocked .take

def QueueOutcome.ofFmqSend (value : ℕ → BitVec 8) (pos : CopyPosition) : FmqOutcome → QueueOutcome
  | .returned e _ => .returned (.ofSend e)
  | .blocked timeout tickDelta => .blocked (.send value pos timeout tickDelta)

def QueueOutcome.ofFmqRecv (peek : Bool) : FmqOutcome → QueueOutcome
  | .returned e _ => .returned (.ofReceive e)
  | .blocked timeout tickDelta => .blocked (.receive peek timeout tickDelta)

def xQueueGenericSend (k : Kernel T W) (recv send : W) (value : ℕ → BitVec 8) (ticks : BitVec 32)
    (pos : CopyPosition) : QueueObject T → Option (Kernel T W × QueueObject T × QueueOutcome)
  | .sem x =>
    let (k, x, e) := semRelease k recv x
    some (k, .sem x, .returned (.ofSend e))
  | .mutex x =>
    let (k, x, e) := mutexRelease k recv x
    some (k, .mutex x, .returned (.ofSend e))
  | .fmq q => (fmqSend k recv send q value pos ticks).map (fun (k, q, r) => (k, .fmq q, .ofFmqSend value pos r))

def xQueueGenericSendFromISR (k : Kernel T W) (recv send : W) (value : ℕ → BitVec 8) (pos : CopyPosition) :
    QueueObject T → Option (Kernel T W × QueueObject T × QueueOutcome)
  | .sem x =>
    let (k, x, e) := semRelease k recv x
    some (k, .sem x, .returned (.ofSend e))
  | .mutex _ => none
  | .fmq q => (fmqSend k recv send q value pos 0).map (fun (k, q, r) => (k, .fmq q, .ofFmqSend value pos r))

def xQueueGenericReceive (k : Kernel T W) (recv send : W) (ticks : BitVec 32) (peek : Bool) (x : QueueObject T) :
    Option (Kernel T W × QueueObject T × QueueOutcome) :=
  let timeout := if ticks = portMaxDelay then waitingForever else ticks
  match x with
  | .sem x => (semTake k recv x timeout).map (fun (k, x, r) => (k, .sem x, .ofTake r))
  | .mutex x => (mutexTake k recv x timeout).map (fun (k, x, r) => (k, .mutex x, .ofTake r))
  | .fmq q => (fmqRecv k recv send q peek timeout).map (fun (k, q, r) => (k, .fmq q, .ofFmqRecv peek r))

def xQueueReceiveFromISR (k : Kernel T W) (recv send : W) :
    QueueObject T → Option (Kernel T W × QueueObject T × QueueOutcome)
  | .sem x => (semTake k recv x 0).map (fun (k, x, r) => (k, .sem x, .ofTake r))
  | .mutex _ => none
  | .fmq q => (fmqRecv k recv send q false 0).map (fun (k, q, r) => (k, .fmq q, .ofFmqRecv false r))

def queueResume (k : Kernel T W) (recv send : W) (t : T) :
    QueueObject T → QueuePc → Option (Kernel T W × QueueObject T × QueueOutcome)
  | .sem x, .take => some (k, .sem x, .returned (.ofReceive (semTakeReturn k t)))
  | .mutex x, .take => some (k, .mutex x, .returned (.ofReceive (mutexTakeReturn k t)))
  | .fmq q, .send value pos timeout tickDelta =>
    (fmqResume k (fmqSendOp recv send pos value) t q timeout tickDelta).map
      (fun (k, q, r) => (k, .fmq q, .ofFmqSend value pos r))
  | .fmq q, .receive peek timeout tickDelta =>
    (fmqResume k (fmqRecvOp recv send peek) t q timeout tickDelta).map
      (fun (k, q, r) => (k, .fmq q, .ofFmqRecv peek r))
  | _, _ => none

def uxQueueMessagesWaiting : QueueObject T → ℕ
  | .sem x => x.value
  | .mutex x => x.value
  | .fmq q => q.entry

inductive QueueReq
  | send (value : ℕ → BitVec 8) (ticks : BitVec 32) (pos : CopyPosition)
  | receive (ticks : BitVec 32) (peek : Bool)

inductive QueueIsrReq
  | send (value : ℕ → BitVec 8) (pos : CopyPosition)
  | receive

def QueueReq.call (k : Kernel T (B × Side)) (b : B) (x : QueueObject T) :
    QueueReq → Option (Kernel T (B × Side) × QueueObject T × QueueOutcome)
  | .send value ticks pos => xQueueGenericSend k (b, .receivers) (b, .senders) value ticks pos x
  | .receive ticks peek => xQueueGenericReceive k (b, .receivers) (b, .senders) ticks peek x

def QueueIsrReq.call (k : Kernel T (B × Side)) (b : B) (x : QueueObject T) :
    QueueIsrReq → Option (Kernel T (B × Side) × QueueObject T × QueueOutcome)
  | .send value pos => xQueueGenericSendFromISR k (b, .receivers) (b, .senders) value pos x
  | .receive => xQueueReceiveFromISR k (b, .receivers) (b, .senders) x

structure QueueSystem (T B : Type) where
  kernel : Kernel T (B × Side)
  handle : B → QueueObject T
  pc : T → Option (B × QueuePc)

inductive QueueEvent (T B : Type)
  | call (c : Option T) (b : B) (req : QueueReq)
  | isr (b : B) (req : QueueIsrReq)
  | resume (t : T)
  | timeout (t : T)
  | tick

namespace QueueSystem

def Ready (s : QueueSystem T B) : Option T → Prop
  | some t => s.kernel.view.stat t = .ready ∧ s.pc t = none
  | none => s.kernel.current = none

instance (s : QueueSystem T B) : (c : Option T) → Decidable (s.Ready c)
  | some _ => instDecidableAnd
  | none => decEq _ _

def after (s : QueueSystem T B) (c : Option T) (b : B) :
    Kernel T (B × Side) × QueueObject T × QueueOutcome → QueueSystem T B × Option QueueResult
  | (k, x, .returned r) =>
    ({ kernel := k, handle := update s.handle b x
       pc := match c with
         | some t => update s.pc t none
         | none => s.pc }, some r)
  | (k, x, .blocked p) =>
    ({ kernel := k, handle := update s.handle b x
       pc := match c with
         | some t => update s.pc t (some (b, p))
         | none => s.pc }, none)

def exec (s : QueueSystem T B) : QueueEvent T B → Option (QueueSystem T B × Option QueueResult)
  | .call c b req =>
    if s.Ready c then (req.call { s.kernel with current := c } b (s.handle b)).map (s.after c b) else none
  | .isr b req => (req.call s.kernel b (s.handle b)).map (s.after none b)
  | .resume t =>
    match s.pc t with
    | none => none
    | some (b, p) =>
      if s.kernel.view.stat t = .ready then
        (queueResume (s.kernel.dispatch t) (b, Side.receivers) (b, Side.senders) t (s.handle b) p).map
          (s.after (some t) b)
      else none
  | .timeout t => (s.kernel.timerExpire t).map (fun k => ({ s with kernel := k }, none))
  | .tick => some ({ s with kernel := { s.kernel with tick := s.kernel.tick + 1 } }, none)

def step (s : QueueSystem T B) (e : QueueEvent T B) : Option (QueueSystem T B) := (s.exec e).map Prod.fst

def Initial (len : B → BitVec 32) (s : QueueSystem T B) : Prop :=
  ∀ b, 1 ≤ (len b).toNat ∧ ∃ pool itemSize type, s.handle b = xQueueGenericCreate pool (len b) itemSize type

def GivesFit (len : B → BitVec 32) (s : QueueSystem T B) : QueueEvent T B → Prop
  | .call _ b (.send _ _ _) => ∀ x, s.handle b = .sem x → x.value < (len b).toNat
  | .isr b (.send _ _) => ∀ x, s.handle b = .sem x → x.value < (len b).toNat
  | _ => True

end QueueSystem

def QueueObject.Within (n : ℕ) : QueueObject T → Prop
  | .sem x => x.value ≤ n
  | .mutex x => 1 ≤ n ∧ x.value ≤ 1 ∧ (x.owner ≠ none → x.value = 0)
  | .fmq q => 1 ≤ n ∧ q.Counted ∧ q.size = n % 65536

namespace QueueObject

variable {n : ℕ} {x x' : QueueObject T} {k k' : Kernel T W} {r : QueueOutcome}

variable {q : Fmq} {timeout : BitVec 32} {o : FmqOutcome} {pos : CopyPosition}

section

omit [DecidableEq T]

theorem within_create {pool : ℕ → BitVec 8} {length itemSize : BitVec 32} {type : QueueType}
    (hn : 1 ≤ length.toNat) :
    (xQueueGenericCreate pool length itemSize type : QueueObject T).Within length.toNat := by
  unfold xQueueGenericCreate
  split_ifs with h
  · cases type with
    | mutex => simpa [Within, semInit] using hn
    | recursiveMutex => exact ⟨hn, by simp [mutexInit], by simp [mutexInit]⟩
    | base | countingSemaphore | binarySemaphore => exact Nat.zero_le _
  · exact ⟨hn, Fmq.counted_create .., rfl⟩

theorem Within.messagesWaiting_le (h : x.Within n) : uxQueueMessagesWaiting x ≤ n := by
  cases x with
  | sem x => exact h
  | mutex x => exact h.2.1.trans h.1
  | fmq q =>
    obtain ⟨hn, ⟨-, hlt, hle⟩, hsize⟩ := h
    simp only [uxQueueMessagesWaiting]
    omega

theorem Within.fmq_full (h : (QueueObject.fmq q : QueueObject T).Within n) (hfull : q.entry = n) :
    q.entry = q.size := by
  obtain ⟨-, ⟨-, hlt, -⟩, hsize⟩ := h
  omega

theorem Within.mutex_full {m : Mutex T} (h : (QueueObject.mutex m).Within n) (hfull : m.value = n) :
    m.owner = none := by
  by_contra howner
  have hzero := h.2.2 howner
  have hn := h.1
  omega

end

theorem Within.mutexRelease {m : Mutex T} (h : (QueueObject.mutex m).Within n) (k : Kernel T W) (w : W) :
    (QueueObject.mutex (RtThread.mutexRelease k w m).2.1).Within n := by
  obtain ⟨hn, hle, howner⟩ := h
  unfold RtThread.mutexRelease
  cases hc : k.current with
  | none => exact ⟨hn, hle, howner⟩
  | some t =>
    by_cases ho : m.owner = some t
    · have hzero : m.value = 0 := howner (by simp [ho])
      simp only [ho, ne_eq, not_true_eq_false, if_false]
      by_cases hh : (m.hold + 255) % 256 = 0
      · rw [if_pos hh]
        generalize (if ¬m.originalPriority = k.priority t then k.threadChangePriority t m.originalPriority
          else k) = j
        cases j.lists (.wait w) with
        | nil => exact ⟨hn, by simp [hzero], fun hne => absurd rfl hne⟩
        | cons u l => exact ⟨hn, hle, fun _ => hzero⟩
      · rw [if_neg hh]
        exact ⟨hn, hle, fun _ => hzero⟩
    · simp only [ho, ne_eq, not_false_eq_true, if_true]
      exact ⟨hn, hle, howner⟩

theorem Within.mutexTake {m m' : Mutex T} (h : (QueueObject.mutex m).Within n) {w : W} {time : BitVec 32}
    {o : Outcome} (hs : RtThread.mutexTake k w m time = some (k', m', o)) : (QueueObject.mutex m').Within n := by
  obtain ⟨hn, hle, howner⟩ := h
  unfold RtThread.mutexTake at hs
  cases hc : k.current with
  | none =>
    obtain ⟨-, rfl, -⟩ : k = k' ∧ m = m' ∧ _ := by simpa [hc] using hs
    exact ⟨hn, hle, howner⟩
  | some t =>
    simp only [hc] at hs
    split_ifs at hs with ho hv hz
    · cases hs
      exact ⟨hn, hle, howner⟩
    · cases hs
      exact ⟨hn, by simp only; omega, fun _ => by simp only; omega⟩
    · cases hs
      exact ⟨hn, hle, howner⟩
    · cases hx : m.owner with
      | none => simp [hx] at hs
      | some u =>
        simp only [hx] at hs
        obtain ⟨i, -, he⟩ := map_eq_some_iff.mp hs
        cases he
        exact ⟨hn, hle, howner⟩

theorem Within.semTake {y y' : Semaphore} (h : (QueueObject.sem y : QueueObject T).Within n) {w : W}
    {time : BitVec 32} {o : Outcome} (hs : RtThread.semTake k w y time = some (k', y', o)) :
    (QueueObject.sem y' : QueueObject T).Within n := by
  unfold RtThread.semTake at hs
  split_ifs at hs with hv hz
  · cases hs
    exact (Nat.sub_le _ _).trans h
  · cases hs
    exact h
  · cases hc : k.current with
    | none => simp [hc] at hs
    | some t =>
      simp only [hc] at hs
      obtain ⟨i, -, he⟩ := map_eq_some_iff.mp hs
      cases he
      exact h

theorem Within.semRelease {y : Semaphore} (hfit : y.value < n) (k : Kernel T W) (w : W) :
    (QueueObject.sem (RtThread.semRelease k w y).2.1 : QueueObject T).Within n := by
  unfold RtThread.semRelease
  split
  · exact hfit.le
  · exact (Nat.mod_le _ _).trans hfit

section

variable (h : (QueueObject.fmq q : QueueObject T).Within n)

include h

theorem Within.fmqLoop {req : FmqReq B} {q' : Fmq}
    {k k' : Kernel T (B × Side)} (hs : RtThread.fmqLoop k req.op q timeout = some (k', q', o)) :
    (QueueObject.fmq q' : QueueObject T).Within n := by
  obtain ⟨hn, hc, hsize⟩ := h
  cases fmqLoop_turn hs with
  | waits _ _ => exact ⟨hn, hc, hsize⟩
  | done hfree hp =>
    have hpassed := FmqReq.passed hc hfree hp
    exact ⟨hn, hpassed.counted, hpassed.size.trans hsize⟩

theorem Within.fmqCall (req : FmqReq B) {q' : Fmq}
    {k k' : Kernel T (B × Side)} (hs : RtThread.fmqCall k req.op q timeout = some (k', q', o)) :
    (QueueObject.fmq q' : QueueObject T).Within n := by
  unfold RtThread.fmqCall at hs
  split_ifs at hs with hz
  · cases hs
    exact h
  · exact h.fmqLoop hs

theorem Within.fmqResume (req : FmqReq B) {q' : Fmq} {k k' : Kernel T (B × Side)} {t : T} {tickDelta : BitVec 32}
    (hs : RtThread.fmqResume k req.op t q timeout tickDelta = some (k', q', o)) :
    (QueueObject.fmq q' : QueueObject T).Within n := by
  unfold RtThread.fmqResume at hs
  split_ifs at hs with hz
  · cases hs
    exact h
  · exact h.fmqLoop hs

end

section Calls

variable {b : B} {k k' : Kernel T (B × Side)}

variable (h : x.Within n)

include h

theorem Within.send (value : ℕ → BitVec 8) (ticks : BitVec 32) (pos : CopyPosition)
    (hfit : ∀ y, x = .sem y → y.value < n)
    (hs : xQueueGenericSend k (b, .receivers) (b, .senders) value ticks pos x = some (k', x', r)) : x'.Within n := by
  cases x with
  | sem y =>
    cases hs
    exact Within.semRelease (hfit y rfl) k _
  | mutex m =>
    cases hs
    exact h.mutexRelease k _
  | fmq q =>
    obtain ⟨⟨j, p, o⟩, hp, he⟩ := map_eq_some_iff.mp hs
    cases he
    exact h.fmqCall (.send b pos value) hp

theorem Within.sendFromISR {value : ℕ → BitVec 8} {pos : CopyPosition} (hfit : ∀ y, x = .sem y → y.value < n)
    (hs : xQueueGenericSendFromISR k (b, .receivers) (b, .senders) value pos x = some (k', x', r)) : x'.Within n := by
  cases x with
  | sem y => exact h.send value 0 pos hfit hs
  | mutex m => cases hs
  | fmq q => exact h.send value 0 pos hfit hs

theorem Within.receive (ticks : BitVec 32) (peek : Bool)
    (hs : xQueueGenericReceive k (b, .receivers) (b, .senders) ticks peek x = some (k', x', r)) : x'.Within n := by
  cases x with
  | sem y =>
    obtain ⟨⟨j, p, o⟩, hp, he⟩ := map_eq_some_iff.mp hs
    cases he
    exact h.semTake hp
  | mutex m =>
    obtain ⟨⟨j, p, o⟩, hp, he⟩ := map_eq_some_iff.mp hs
    cases he
    exact h.mutexTake hp
  | fmq q =>
    obtain ⟨⟨j, p, o⟩, hp, he⟩ := map_eq_some_iff.mp hs
    cases he
    exact h.fmqCall (.recv b peek) hp

theorem Within.receiveFromISR
    (hs : xQueueReceiveFromISR k (b, .receivers) (b, .senders) x = some (k', x', r)) : x'.Within n := by
  cases x with
  | sem y => exact h.receive 0 false hs
  | mutex m => cases hs
  | fmq q => exact h.receive 0 false hs

theorem Within.resume {t : T} {p : QueuePc}
    (hs : queueResume k (b, .receivers) (b, .senders) t x p = some (k', x', r)) : x'.Within n := by
  cases x with
  | sem y =>
    cases p with
    | take =>
      cases hs
      exact h
    | send value pos timeout tickDelta | receive peek timeout tickDelta => cases hs
  | mutex m =>
    cases p with
    | take =>
      cases hs
      exact h
    | send value pos timeout tickDelta | receive peek timeout tickDelta => cases hs
  | fmq q =>
    cases p with
    | take => cases hs
    | send value pos timeout tickDelta =>
      obtain ⟨⟨j, p, o⟩, hp, he⟩ := map_eq_some_iff.mp hs
      cases he
      exact h.fmqResume (.send b pos value) hp
    | receive peek timeout tickDelta =>
      obtain ⟨⟨j, p, o⟩, hp, he⟩ := map_eq_some_iff.mp hs
      cases he
      exact h.fmqResume (.recv b peek) hp

end Calls

theorem fmqSend_full (k : Kernel T W) (recv send : W) (value : ℕ → BitVec 8)
    (hfull : q.entry = q.size) (hpos : pos ≠ .overwrite) :
    fmqSend k recv send q value pos 0 = some (k, q, .returned .efull none) := by
  have hstuck : (fmqSendOp recv send pos value).stuck q = true := by simp [fmqSendOp, hfull, hpos]
  rw [fmqSend, RtThread.fmqCall, if_pos ⟨hstuck, rfl⟩]
  rfl

theorem Within.send_full (h : x.Within n) (hnot : ∀ y, x ≠ .sem y) (hfull : uxQueueMessagesWaiting x = n)
    (hcaller : (∃ q, x = .fmq q) ∨ k.current ≠ none) (recv send : W) (value : ℕ → BitVec 8)
    (hpos : pos ≠ .overwrite) :
    ∃ k', xQueueGenericSend k recv send value 0 pos x = some (k', x, .returned .full) ∧
      k'.view.waiting = k.view.waiting := by
  cases x with
  | sem y => exact absurd rfl (hnot y)
  | mutex m =>
    obtain ⟨t, ht⟩ : ∃ t, k.current = some t := by
      rcases hcaller with ⟨q, hq⟩ | hc
      · cases hq
      · exact ne_none_iff_exists'.mp hc
    have howner : m.owner = none := h.mutex_full hfull
    refine ⟨k.setError t .error, ?_, by simp⟩
    simp [xQueueGenericSend, RtThread.mutexRelease, ht, howner, QueueResult.ofSend]
  | fmq q =>
    refine ⟨k, ?_, rfl⟩
    rw [xQueueGenericSend, fmqSend_full k recv send value (h.fmq_full hfull) hpos]
    rfl

variable (h : (QueueObject.fmq q : QueueObject T).Within n) (hfull : q.entry = n)

include h hfull

theorem Within.overwrite_full {recv send : W} {value : ℕ → BitVec 8} {ticks : BitVec 32}
    (hs : xQueueGenericSend k recv send value ticks .overwrite (.fmq q) = some (k', x', r)) :
    r = .returned .pass ∧ uxQueueMessagesWaiting x' = n := by
  obtain ⟨⟨j, p, o⟩, hp, he⟩ := map_eq_some_iff.mp hs
  cases he
  have hfree : (fmqSendOp recv send .overwrite value).stuck q = false := by simp [fmqSendOp]
  simp only [fmqSend, RtThread.fmqCall, RtThread.fmqLoop, hfree, Bool.false_eq_true, false_and, if_false] at hp
  obtain ⟨⟨p', v⟩, hput, heq⟩ := map_eq_some_iff.mp hp
  cases heq
  refine ⟨rfl, ?_⟩
  obtain ⟨u, hu, hu'⟩ := map_eq_some_iff.mp hput
  obtain ⟨rfl, -⟩ : u = p' ∧ none = v := mk.inj hu'
  obtain ⟨-, hentry⟩ := Fmq.put_counters hu
  have hpos := h.1
  have hlt := h.2.1.entry_lt
  rw [if_neg (by simp; omega)] at hentry
  simp only [uxQueueMessagesWaiting]
  omega

theorem Within.wait_full {recv send : W} {value : ℕ → BitVec 8} {ticks : BitVec 32} (hpos : pos ≠ .overwrite)
    (hticks : ticks ≠ 0) (hs : xQueueGenericSend k recv send value ticks pos (.fmq q) = some (k', x', r)) :
    (∃ p, r = .blocked p) ∧ x' = .fmq q := by
  obtain ⟨⟨j, p, o⟩, hp, he⟩ := map_eq_some_iff.mp hs
  cases he
  have hstuck : (fmqSendOp recv send pos value).stuck q = true := by
    simp [fmqSendOp, h.fmq_full hfull, hpos]
  simp only [fmqSend, RtThread.fmqCall, RtThread.fmqLoop, hstuck, hticks, and_false, if_false, if_true] at hp
  obtain ⟨⟨i, w⟩, hwait, heq⟩ := map_eq_some_iff.mp hp
  cases heq
  refine ⟨?_, rfl⟩
  obtain ⟨t, -, hturn⟩ := Kernel.waitOn_turn hwait
  cases hturn with
  | refused hz => exact absurd hz hticks
  | parked _ _ => exact ⟨_, rfl⟩

end QueueObject

namespace QueueSystem

variable {len : B → BitVec 32} {s : QueueSystem T B}

omit [DecidableEq T] in
theorem within_update {handle : B → QueueObject T}
    (h : ∀ b, (handle b).Within (len b).toNat) {b : B} {x : QueueObject T} (hx : x.Within (len b).toNat) (b' : B) :
    (update handle b x b').Within (len b').toNat := by
  by_cases hb : b' = b
  · subst hb
    rwa [update_self]
  · rw [update_of_ne hb]
    exact h b'

theorem after_handle (s : QueueSystem T B) (c : Option T) (b : B) (k : Kernel T (B × Side)) (x : QueueObject T)
    (r : QueueOutcome) : (s.after c b (k, x, r)).1.handle = update s.handle b x := by
  cases r <;> rfl

theorem step_within {s' : QueueSystem T B} {e : QueueEvent T B}
    (h : ∀ b, (s.handle b).Within (len b).toNat) (hfit : s.GivesFit len e) (hs : s.step e = some s') (b : B) :
    (s'.handle b).Within (len b).toNat := by
  obtain ⟨⟨_, r⟩, hexec, rfl⟩ := map_eq_some_iff.mp hs
  cases e with
  | call c b' req =>
    simp only [exec] at hexec
    split_ifs at hexec with hready
    obtain ⟨⟨k, x, o⟩, hx, he⟩ := map_eq_some_iff.mp hexec
    rw [← congrArg fst he, after_handle]
    refine within_update h ?_ b
    cases req with
    | send value ticks pos => exact (h b').send value ticks pos hfit hx
    | receive ticks peek => exact (h b').receive ticks peek hx
  | isr b' req =>
    obtain ⟨⟨k, x, o⟩, hx, he⟩ := map_eq_some_iff.mp hexec
    rw [← congrArg fst he, after_handle]
    refine within_update h ?_ b
    cases req with
    | send value pos => exact (h b').sendFromISR hfit hx
    | receive => exact (h b').receiveFromISR hx
  | resume t =>
    simp only [exec] at hexec
    cases hpc : s.pc t with
    | none => simp [hpc] at hexec
    | some p =>
      simp only [hpc] at hexec
      split_ifs at hexec with hready
      obtain ⟨⟨k, x, o⟩, hx, he⟩ := map_eq_some_iff.mp hexec
      rw [← congrArg fst he, after_handle]
      exact within_update h ((h p.1).resume hx) b
  | timeout t =>
    obtain ⟨k, -, he⟩ := map_eq_some_iff.mp hexec
    rw [← congrArg fst he]
    exact h b
  | tick =>
    rw [← congrArg fst (Option.some.inj hexec)]
    exact h b

theorem within_of_reachable
    (h : Reachable step (GivesFit len) (Initial len) s) : ∀ b, (s.handle b).Within (len b).toNat := by
  refine h.invariant (I := fun s => ∀ b, (s.handle b).Within (len b).toNat) ?_
    (fun s e t hs hfit ht => step_within hs hfit ht)
  intro s hs b
  obtain ⟨hpos, pool, itemSize, type, hb⟩ := hs b
  rw [hb]
  exact QueueObject.within_create hpos

def Unchanged (s s' : QueueSystem T B) : Prop :=
  s'.handle = s.handle ∧ s'.pc = s.pc ∧ s'.kernel.view.waiting = s.kernel.view.waiting

structure AnswersFull (s : QueueSystem T B) (b : B) : Prop where
  refused : ∀ c value pos, s.Ready c → pos ≠ .overwrite → ((∃ q, s.handle b = .fmq q) ∨ c ≠ none) →
    ∃ s', s.exec (.call c b (.send value 0 pos)) = some (s', some .full) ∧ s.Unchanged s'
  refusedFromISR : ∀ q value pos, s.handle b = .fmq q → pos ≠ .overwrite →
    ∃ s', s.exec (.isr b (.send value pos)) = some (s', some .full) ∧ s.Unchanged s'
  waits : ∀ q c value ticks pos s' r, s.handle b = .fmq q → pos ≠ .overwrite → ticks ≠ 0 →
    s.exec (.call c b (.send value ticks pos)) = some (s', r) → r = none ∧ s'.handle = s.handle
  overwrites : ∀ q c value ticks s' r, s.handle b = .fmq q →
    s.exec (.call c b (.send value ticks .overwrite)) = some (s', r) →
    r = some .pass ∧ uxQueueMessagesWaiting (s'.handle b) = uxQueueMessagesWaiting (s.handle b)
  overwritesFromISR : ∀ q value s' r, s.handle b = .fmq q →
    s.exec (.isr b (.send value .overwrite)) = some (s', r) →
    r = some .pass ∧ uxQueueMessagesWaiting (s'.handle b) = uxQueueMessagesWaiting (s.handle b)

theorem after_full (s : QueueSystem T B) {c : Option T} (hc : s.Ready c) (b : B) (k : Kernel T (B × Side))
    (hk : k.view.waiting = s.kernel.view.waiting) :
    ∃ s', s.after c b (k, s.handle b, .returned .full) = (s', some .full) ∧ s.Unchanged s' := by
  refine ⟨_, rfl, update_eq_self .., ?_, hk⟩
  cases c with
  | none => rfl
  | some t =>
    have hpc : s.pc t = none := hc.2
    simp [← hpc]

theorem after_overwrite {s' : QueueSystem T B} {c : Option T} {b : B} {k : Kernel T (B × Side)} {x : QueueObject T}
    {r : Option QueueResult} (hs : s.after c b (k, x, .returned .pass) = (s', r))
    (hx : uxQueueMessagesWaiting x = uxQueueMessagesWaiting (s.handle b)) :
    r = some .pass ∧ uxQueueMessagesWaiting (s'.handle b) = uxQueueMessagesWaiting (s.handle b) := by
  cases hs
  exact ⟨rfl, by simp only [update_self, hx]⟩

theorem answersFull {n : ℕ} {b : B} (h : (s.handle b).Within n)
    (hfull : uxQueueMessagesWaiting (s.handle b) = n) (hnot : ∀ x, s.handle b ≠ .sem x) : s.AnswersFull b := by
  refine ⟨?_, ?_, ?_, ?_, ?_⟩
  · intro c value pos hc hpos hcaller
    obtain ⟨k, hk, hwait⟩ := h.send_full hnot hfull (k := { s.kernel with current := c }) hcaller
      (b, .receivers) (b, .senders) value hpos
    obtain ⟨s', hs', hsame⟩ := s.after_full hc b k hwait
    exact ⟨s', by simp only [exec, if_pos hc, QueueReq.call, hk, map_some, hs'], hsame⟩
  · intro q value pos hq hpos
    have hfmq : q.entry = q.size := QueueObject.Within.fmq_full (hq ▸ h) (by rw [hq] at hfull; exact hfull)
    refine ⟨s, ?_, rfl, rfl, rfl⟩
    simp only [exec, QueueIsrReq.call, hq, xQueueGenericSendFromISR,
      QueueObject.fmqSend_full s.kernel _ _ value hfmq hpos, map_some]
    simp [after, QueueOutcome.ofFmqSend, QueueResult.ofSend, ← hq]
  · intro q c value ticks pos s' r hq hpos hticks hs
    rw [hq] at h hfull
    simp only [exec] at hs
    split_ifs at hs with hc
    obtain ⟨⟨k, x, o⟩, hx, he⟩ := map_eq_some_iff.mp hs
    rw [hq] at hx
    obtain ⟨⟨p, rfl⟩, rfl⟩ := h.wait_full hfull hpos hticks hx
    cases he
    exact ⟨rfl, by rw [← hq]; exact update_eq_self ..⟩
  · intro q c value ticks s' r hq hs
    rw [hq] at h hfull
    simp only [exec] at hs
    split_ifs at hs with hc
    obtain ⟨⟨k, x, o⟩, hx, he⟩ := map_eq_some_iff.mp hs
    rw [hq] at hx
    obtain ⟨rfl, hcount⟩ := h.overwrite_full hfull hx
    exact after_overwrite he (by rw [hcount, hq, hfull])
  · intro q value s' r hq hs
    rw [hq] at h hfull
    obtain ⟨⟨k, x, o⟩, hx, he⟩ := map_eq_some_iff.mp hs
    rw [hq] at hx
    obtain ⟨rfl, hcount⟩ := h.overwrite_full hfull hx
    exact after_overwrite he (by rw [hcount, hq, hfull])

/-- A handle never has more units than its length, as long as no semaphore is given one that it has no room for. -/
theorem queue_handle_within_length {len : B → BitVec 32} {s : QueueSystem T B}
    (h : Reachable step (GivesFit len) (Initial len) s) (b : B) :
    uxQueueMessagesWaiting (s.handle b) ≤ (len b).toNat ∧
      (uxQueueMessagesWaiting (s.handle b) = (len b).toNat → (∀ x, s.handle b ≠ .sem x) → s.AnswersFull b) := by
  have hw := within_of_reachable h b
  exact ⟨hw.messagesWaiting_le, answersFull hw⟩

inductive Hid
  | signal
  | slot
  deriving DecidableEq

def signalAndSlot : QueueSystem Tid Hid where
  kernel := bootKernel Tid.priority [.startup .low, .startup .mid, .schedulerStart]
  handle
    | .signal => xQueueGenericCreate (fun _ => 0) 1 0 .binarySemaphore
    | .slot => xQueueGenericCreate (fun _ => 0) 1 4 .base
  pc _ := none

theorem signalAndSlot_initial : signalAndSlot.Initial (fun _ => 1) := by
  intro b
  cases b with
  | signal => exact ⟨by decide, fun _ => 0, 0, .binarySemaphore, rfl⟩
  | slot => exact ⟨by decide, fun _ => 0, 4, .base, rfl⟩

theorem queue_handle_within_length_slot : ∃ s : QueueSystem Tid Hid,
    Reachable step (GivesFit fun _ => 1) (Initial fun _ => 1) s ∧ uxQueueMessagesWaiting (s.handle .slot) = 1 ∧
      ∃ s', s.exec (.isr .slot (.send (fun _ => 7) .back)) = some (s', some .full) ∧ s.Unchanged s' := by
  have hrun : ((run step signalAndSlot [.call (some .mid) .slot (.send (fun _ => 5) 0 .back)]).any (fun s =>
      decide (uxQueueMessagesWaiting (s.handle .slot) = 1) &&
        (match s.handle .slot with | .fmq _ => true | _ => false))) = true := by
    decide +kernel
  obtain ⟨s, hs, htest⟩ := (Option.any_eq_true _ _).mp hrun
  obtain ⟨hcount, hkind⟩ := (Bool.and_eq_true _ _).mp htest
  obtain ⟨q, hq⟩ : ∃ q, s.handle .slot = .fmq q := by
    cases hx : s.handle .slot with
    | fmq q => exact ⟨q, rfl⟩
    | sem x | mutex x => simp [hx] at hkind
  have hreach : Reachable step (GivesFit fun _ => 1) (Initial fun _ => 1) s := by
    refine .of_run (.start signalAndSlot_initial) ?_ hs
    refine fun t _ => ⟨fun x hx => ?_, trivial⟩
    cases hx
  have hone : uxQueueMessagesWaiting (s.handle .slot) = 1 := of_decide_eq_true hcount
  have hnot (x : Semaphore) : s.handle .slot ≠ .sem x := by simp [hq]
  exact ⟨s, hreach, hone,
    ((queue_handle_within_length hreach .slot).2 hone hnot).refusedFromISR q _ .back hq (by simp)⟩

theorem queue_handle_exceeds_length :
    (∃ s : QueueSystem Tid Hid, Reachable step (fun _ _ => True) (Initial fun _ => 1) s ∧
      run step signalAndSlot [.isr .signal (.send (fun _ => 0) .back), .isr .signal (.send (fun _ => 0) .back)] =
        some s ∧ uxQueueMessagesWaiting (s.handle .signal) = 2) ∧
    ∃ s s' : QueueSystem Tid Hid, Reachable step (fun _ _ => True) (Initial fun _ => 1) s ∧
      uxQueueMessagesWaiting (s.handle .slot) = 1 ∧
      s.exec (.isr .slot (.send (fun _ => 7) .overwrite)) = some (s', some .pass) := by
  obtain ⟨s, hs, htwo⟩ : ∃ s, run step signalAndSlot
      [.isr .signal (.send (fun _ => 0) .back), .isr .signal (.send (fun _ => 0) .back)] = some s ∧
      uxQueueMessagesWaiting (s.handle .signal) = 2 := by decide +kernel
  obtain ⟨u, hu, hone, ⟨u', r⟩, hexec, rfl⟩ :
      ∃ s, run step signalAndSlot [.isr .slot (.send (fun _ => 5) .back)] = some s ∧
        uxQueueMessagesWaiting (s.handle .slot) = 1 ∧
        ∃ p, s.exec (.isr .slot (.send (fun _ => 7) .overwrite)) = some p ∧ p.2 = some .pass := by decide +kernel
  have hreach {es : List (QueueEvent Tid Hid)} {s : QueueSystem Tid Hid} (hs : run step signalAndSlot es = some s) :
      Reachable step (fun _ _ => True) (Initial fun _ => 1) s :=
    .of_free_run signalAndSlot_initial hs
  exact ⟨⟨s, hreach hs, hs, htwo⟩, u, u', hreach hu, hone, hexec⟩

end QueueSystem

end RtThread
