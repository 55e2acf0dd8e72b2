import RtThread.Lib.Pool
import RtThread.Ipc.TimedWait

namespace RtThread

open Pool Function List Option

abbrev Bytes := List (BitVec 8)

structure MessageQueue where
  next : ℕ → Option ℕ
  data : ℕ → Bytes
  msgSize : ℕ
  maxMsgs : ℕ
  entry : ℕ
  head : Option ℕ
  tail : Option ℕ
  free : Option ℕ
  flag : IpcFlag

inductive MqPc
  | filling (urgent : Bool) (msg : ℕ) (buffer : Bytes)
  | linking (urgent : Bool) (msg : ℕ) (buffer : Bytes)
  | waiting (size : ℕ) (timeout tickDelta : BitVec 32)
  | copying (msg size : ℕ) (message : Bytes)
  | freeing (msg : ℕ) (value : Bytes)
  deriving DecidableEq

inductive MqOutcome
  | returned (e : Err) (value : Bytes)
  | inside (p : MqPc)
  deriving DecidableEq

inductive MqCtrl
  | reset
  | other
  deriving DecidableEq

def mqInitLoop (next : ℕ → Option ℕ) : ℕ → (ℕ → Option ℕ) × Option ℕ
  | 0 => (next, none)
  | temp + 1 =>
    let (next, free) := mqInitLoop next temp
    (update next temp free, some temp)

def mqSetup (next : ℕ → Option ℕ) (data : ℕ → Bytes) (msgSize maxMsgs : ℕ) (flag : IpcFlag) :
    MessageQueue where
  next := (mqInitLoop next maxMsgs).1
  data := data
  msgSize := msgSize
  maxMsgs := maxMsgs
  entry := 0
  head := none
  tail := none
  free := (mqInitLoop next maxMsgs).2
  flag := flag

def mqAlign (msgSize : BitVec 32) : ℕ := ((msgSize + 3) &&& ~~~3).toNat % 65536

def mqInit (next : ℕ → Option ℕ) (data : ℕ → Bytes) (msgSize poolSize : BitVec 32) (flag : IpcFlag) :
    MessageQueue :=
  mqSetup next data (mqAlign msgSize) (poolSize.toNat / (mqAlign msgSize + 4) % 65536) flag

def mqCreate (next : ℕ → Option ℕ) (data : ℕ → Bytes) (msgSize maxMsgs : BitVec 32) (flag : IpcFlag) :
    MessageQueue :=
  mqSetup next data (mqAlign msgSize) (maxMsgs.toNat % 65536) flag

namespace MessageQueue

open MessageQueue

def takeFree (mq : MessageQueue) : Option (ℕ × MessageQueue) :=
  mq.free.map (fun msg => (msg, { mq with free := mq.next msg }))

def fill (mq : MessageQueue) (urgent : Bool) (msg : ℕ) (buffer : Bytes) : MessageQueue :=
  { mq with
    -- `rt_mq_urgent` sets the header only when it links the block
    next := if urgent then mq.next else update mq.next msg none
    data := update mq.data msg (buffer ++ (mq.data msg).drop buffer.length) }

def linkBack (mq : MessageQueue) (msg : ℕ) : MessageQueue :=
  { mq with
    next := match mq.tail with
      | some last => update mq.next last (some msg)
      | none => mq.next
    tail := some msg
    head := match mq.head with
      | some first => some first
      | none => some msg
    entry := (mq.entry + 1) % 65536 }

def linkFront (mq : MessageQueue) (msg : ℕ) : MessageQueue :=
  { mq with
    next := update mq.next msg mq.head
    head := some msg
    tail := match mq.tail with
      | some last => some last
      | none => some msg
    entry := (mq.entry + 1) % 65536 }

def link (mq : MessageQueue) (urgent : Bool) (msg : ℕ) : MessageQueue :=
  if urgent then mq.linkFront msg else mq.linkBack msg

def unlink (mq : MessageQueue) (msg : ℕ) : MessageQueue :=
  { mq with
    head := mq.next msg
    tail := if mq.tail = some msg then none else mq.tail }

def takeHead (mq : MessageQueue) : Option (ℕ × MessageQueue) :=
  mq.head.map (fun msg => (msg, { mq.unlink msg with entry := (mq.entry + 65535) % 65536 }))

def putFree (mq : MessageQueue) (msg : ℕ) : MessageQueue :=
  { mq with next := update mq.next msg mq.free, free := some msg }

def resetLoop : ℕ → MessageQueue → MessageQueue
  | 0, mq => mq
  | fuel + 1, mq =>
    match mq.head with
    | none => mq
    | some msg => resetLoop fuel ((mq.unlink msg).putFree msg)

def reset (mq : MessageQueue) : MessageQueue := { resetLoop mq.maxMsgs mq with entry := 0 }

structure Layout (mq : MessageQueue) (free msgs : List ℕ) : Prop where
  freeChain : Links mq.next mq.free free
  msgChain : Links mq.next mq.head msgs
  nodup : (free ++ msgs).Nodup
  tail : mq.tail = msgs.getLast?

variable {mq : MessageQueue} {free msgs : List ℕ} {msg : ℕ}

theorem Layout.notMem (h : mq.Layout free msgs) : ∀ b ∈ free, b ∉ msgs :=
  fun _ hb hb' => (disjoint_of_nodup_append h.nodup) hb hb'

theorem Layout.setup (next : ℕ → Option ℕ) (data : ℕ → Bytes) (msgSize maxMsgs : ℕ) (flag : IpcFlag) :
    (mqSetup next data msgSize maxMsgs flag).Layout (List.range maxMsgs).reverse [] := by
  have hfree : ∀ n, Links (mqInitLoop next n).1 (mqInitLoop next n).2 (List.range n).reverse := by
    intro n
    induction n with
    | zero => rfl
    | succ n ih =>
      rw [range_succ, List.reverse_append]
      exact ih.push (by simp)
  exact ⟨hfree maxMsgs, rfl, by simpa [nodup_reverse] using nodup_range, rfl⟩

section

variable (h : mq.Layout free msgs)

include h

theorem Layout.takeFree {mq' : MessageQueue} (hm : mq.takeFree = some (msg, mq')) :
    mq' = { mq with free := mq.next msg } ∧ ∃ rest, free = msg :: rest ∧ mq'.Layout rest msgs := by
  obtain ⟨b, hb, he⟩ := map_eq_some_iff.mp hm
  cases he
  obtain ⟨rest, rfl, hrest⟩ := h.freeChain.pop hb
  exact ⟨rfl, rest, rfl, hrest, h.msgChain, (nodup_cons.mp h.nodup).2, h.tail⟩

section

variable (hb : msg ∉ free ++ msgs)

include hb

theorem Layout.fill (urgent : Bool) (buffer : Bytes) : (mq.fill urgent msg buffer).Layout free msgs := by
  obtain ⟨hf, hm⟩ : msg ∉ free ∧ msg ∉ msgs := by simpa using hb
  cases urgent with
  | true => exact ⟨h.freeChain, h.msgChain, h.nodup, h.tail⟩
  | false => exact ⟨h.freeChain.update hf none, h.msgChain.update hm none, h.nodup, h.tail⟩

theorem Layout.linkFront : (mq.linkFront msg).Layout free (msg :: msgs) := by
  obtain ⟨hf, hm⟩ : msg ∉ free ∧ msg ∉ msgs := by simpa using hb
  refine ⟨h.freeChain.update hf _, h.msgChain.push hm, ?_, ?_⟩
  · exact nodup_middle.mpr (nodup_cons.mpr ⟨hb, h.nodup⟩)
  · rw [getLast?_cons, ← h.tail]
    cases htail : mq.tail <;> simp [MessageQueue.linkFront, htail]

theorem Layout.linkBack (hn : mq.next msg = none) : (mq.linkBack msg).Layout free (msgs ++ [msg]) := by
  obtain ⟨-, hm⟩ : msg ∉ free ∧ msg ∉ msgs := by simpa using hb
  have hnodup : (free ++ (msgs ++ [msg])).Nodup := by
    rw [← List.append_assoc]
    exact List.Nodup.append h.nodup (nodup_singleton msg) (by simpa using hb)
  have hhead := h.msgChain.head
  cases hlast : msgs.getLast? with
  | none =>
    obtain rfl := getLast?_eq_none_iff.mp hlast
    have htail : mq.tail = none := h.tail
    refine ⟨?_, ?_, hnodup, rfl⟩
    · simpa [MessageQueue.linkBack, htail] using h.freeChain
    · simpa [MessageQueue.linkBack, htail, hhead, Links] using hn
  | some last =>
    have htail : mq.tail = some last := h.tail.trans hlast
    have hmem : last ∈ msgs := mem_of_getLast? hlast
    have hchain := h.msgChain.append (List.Nodup.of_append_right h.nodup) hlast hm hn
    refine ⟨?_, ?_, hnodup, by simp [MessageQueue.linkBack]⟩
    · have := h.freeChain.update (fun hl => h.notMem last hl hmem) (some msg)
      simpa [MessageQueue.linkBack, htail] using this
    · cases hfirst : mq.head with
      | none =>
        rw [hfirst] at hhead
        rw [head?_eq_none_iff.mp hhead.symm] at hmem
        exact absurd hmem not_mem_nil
      | some first => simpa [MessageQueue.linkBack, htail, hfirst] using hchain

end

theorem Layout.unlink (hm : mq.head = some msg) :
    ∃ rest, msgs = msg :: rest ∧ (mq.unlink msg).Layout free rest ∧ msg ∉ free ++ rest := by
  obtain ⟨rest, rfl, hrest⟩ := h.msgChain.pop hm
  obtain ⟨hnot, hnodup⟩ := nodup_cons.mp (nodup_middle.mp h.nodup)
  refine ⟨rest, rfl, ⟨h.freeChain, hrest, hnodup, ?_⟩, hnot⟩
  have htail := h.tail
  cases hlast : rest.getLast? with
  | none =>
    obtain rfl := getLast?_eq_none_iff.mp hlast
    have hmsg : mq.tail = some msg := htail
    simp [unlink, hmsg]
  | some last =>
    have hne : last ≠ msg := fun he =>
      hnot (mem_append_right _ (he ▸ mem_of_getLast? hlast))
    rw [getLast?_cons, hlast] at htail
    simp [unlink, htail, hne]

theorem Layout.takeHead {mq' : MessageQueue} (hm : mq.takeHead = some (msg, mq')) :
    ∃ rest, msgs = msg :: rest ∧ mq'.Layout free rest ∧ msg ∉ free ++ rest ∧ mq'.next = mq.next ∧
      mq'.data = mq.data ∧ mq'.maxMsgs = mq.maxMsgs ∧ mq'.entry = (mq.entry + 65535) % 65536 := by
  obtain ⟨b, hb, he⟩ := map_eq_some_iff.mp hm
  cases he
  obtain ⟨rest, rfl, hlayout, hnot⟩ := h.unlink hb
  generalize (mq.entry + 65535) % 65536 = n
  exact ⟨rest, rfl, ⟨hlayout.freeChain, hlayout.msgChain, hlayout.nodup, hlayout.tail⟩, hnot, rfl,
    rfl, rfl, rfl⟩

theorem Layout.putFree (hb : msg ∉ free ++ msgs) : (mq.putFree msg).Layout (msg :: free) msgs := by
  obtain ⟨hf, hm⟩ : msg ∉ free ∧ msg ∉ msgs := by simpa using hb
  exact ⟨h.freeChain.push hf, h.msgChain.update hm _, nodup_cons.mpr ⟨hb, h.nodup⟩, h.tail⟩

theorem Layout.resetLoop {fuel : ℕ} (hf : msgs.length ≤ fuel) :
    (resetLoop fuel mq).Layout (msgs.reverse ++ free) [] := by
  induction fuel generalizing mq free msgs with
  | zero =>
    obtain rfl := length_eq_zero_iff.mp (Nat.le_zero.mp hf)
    exact h
  | succ fuel ih =>
    unfold resetLoop
    cases hm : mq.head with
    | none =>
      obtain rfl := head?_eq_none_iff.mp (h.msgChain.head.symm.trans hm)
      exact h
    | some msg =>
      -- the block that was unlinked last heads the empty list, hence the reversed order
      obtain ⟨rest, rfl, hrest, hnot⟩ := h.unlink hm
      have := ih (hrest.putFree hnot) (Nat.le_of_succ_le_succ hf)
      simpa using this

theorem Layout.resetLoop_next (fuel : ℕ) {b : ℕ} (hb : b ∉ msgs) :
    (MessageQueue.resetLoop fuel mq).next b = mq.next b := by
  induction fuel generalizing mq free msgs with
  | zero => rfl
  | succ fuel ih =>
    unfold MessageQueue.resetLoop
    cases hm : mq.head with
    | none => rfl
    | some msg =>
      obtain ⟨rest, rfl, hrest, hnot⟩ := h.unlink hm
      obtain ⟨hne, hb'⟩ := ne_and_not_mem_of_not_mem_cons hb
      rw [ih (hrest.putFree hnot) hb']
      exact update_of_ne hne _ _

end

theorem resetLoop_fields (fuel : ℕ) (mq : MessageQueue) :
    (resetLoop fuel mq).data = mq.data ∧ (resetLoop fuel mq).maxMsgs = mq.maxMsgs ∧
      (resetLoop fuel mq).flag = mq.flag := by
  induction fuel generalizing mq with
  | zero => exact ⟨rfl, rfl, rfl⟩
  | succ fuel ih =>
    unfold resetLoop
    cases mq.head with
    | none => exact ⟨rfl, rfl, rfl⟩
    | some msg => exact ih _

theorem reset_flag (mq : MessageQueue) : mq.reset.flag = mq.flag := (resetLoop_fields mq.maxMsgs mq).2.2

end MessageQueue

variable {T W : Type} [DecidableEq T] [DecidableEq W]

def mqSendBegin (mq : MessageQueue) (urgent : Bool) (buffer : Bytes) : MessageQueue × MqOutcome :=
  if mq.msgSize < buffer.length then (mq, .returned .error [])
  else
    match mq.takeFree with
    | none => (mq, .returned .efull [])
    | some (msg, mq) => (mq, .inside (.filling urgent msg buffer))

def mqSend (mq : MessageQueue) (buffer : Bytes) : MessageQueue × MqOutcome := mqSendBegin mq false buffer

def mqUrgent (mq : MessageQueue) (buffer : Bytes) : MessageQueue × MqOutcome := mqSendBegin mq true buffer

def mqRecvLoop (k : Kernel T W) (w : W) (mq : MessageQueue) (size : ℕ) (timeout : BitVec 32) :
    Option (Kernel T W × MessageQueue × MqOutcome) :=
  if mq.entry = 0 then
    (k.waitOn w mq.flag .etimeout timeout).map (fun
      | (k, none) => (k, mq, .returned .etimeout [])
      | (k, some (timeout, tickDelta)) => (k, mq, .inside (.waiting size timeout tickDelta)))
  else mq.takeHead.map (fun (msg, mq) => (k, mq, .inside (.copying msg size (mq.data msg))))

def mqRecv (k : Kernel T W) (w : W) (mq : MessageQueue) (size : ℕ) (timeout : BitVec 32) :
    Option (Kernel T W × MessageQueue × MqOutcome) :=
  if mq.entry = 0 ∧ timeout = 0 then some (k, mq, .returned .etimeout []) else mqRecvLoop k w mq size timeout

def mqRecvResume (k : Kernel T W) (w : W) (t : T) (mq : MessageQueue) (size : ℕ) (timeout tickDelta : BitVec 32) :
    Option (Kernel T W × MessageQueue × MqOutcome) :=
  if (k.thread t).error ≠ .eok then some (k, mq, .returned (k.thread t).error [])
  else mqRecvLoop k w mq size (k.timeLeft timeout tickDelta)

def mqProceed (k : Kernel T W) (w : W) (self : Option T) (mq : MessageQueue) :
    MqPc → Option (Kernel T W × MessageQueue × MqOutcome)
  | .filling urgent msg buffer => some (k, mq.fill urgent msg buffer, .inside (.linking urgent msg buffer))
  | .linking urgent msg _ => some (k.resumeFirst w, mq.link urgent msg, .returned .eok [])
  | .waiting size timeout tickDelta => self.bind (fun t => mqRecvResume k w t mq size timeout tickDelta)
  | .copying msg size _ =>
    some (k, mq, .inside (.freeing msg ((mq.data msg).take (if mq.msgSize < size then mq.msgSize else size))))
  | .freeing msg value => some (k, mq.putFree msg, .returned .eok value)

def mqControl (k : Kernel T W) (w : W) (mq : MessageQueue) : MqCtrl → Kernel T W × MessageQueue × Err
  | .reset => ((k.ipcListResumeAll w).schedule, mq.reset, .eok)
  | .other => (k, mq, .error)

inductive MqSendEffect (mq : MessageQueue) (urgent : Bool) (buffer : Bytes) : MessageQueue → MqOutcome → Prop
  | failed (e : Err) : MqSendEffect mq urgent buffer mq (.returned e [])
  | begun {msg : ℕ} {mq' : MessageQueue} (hm : mq.takeFree = some (msg, mq')) :
      MqSendEffect mq urgent buffer mq' (.inside (.filling urgent msg buffer))

theorem mqSendBegin_effect (mq : MessageQueue) (urgent : Bool) (buffer : Bytes) :
    MqSendEffect mq urgent buffer (mqSendBegin mq urgent buffer).1 (mqSendBegin mq urgent buffer).2 := by
  unfold mqSendBegin
  split_ifs
  · exact .failed _
  · cases hm : mq.takeFree with
    | none => exact .failed _
    | some p => exact .begun hm

inductive MqTurn (k : Kernel T W) (w : W) (mq : MessageQueue) (size : ℕ) (timeout : BitVec 32) :
    Kernel T W → MessageQueue → MqOutcome → Prop
  | refused {k' : Kernel T W} (hw : k.waitOn w mq.flag .etimeout timeout = some (k', none)) :
      MqTurn k w mq size timeout k' mq (.returned .etimeout [])
  | waits {k' : Kernel T W} {p : BitVec 32 × BitVec 32}
      (hw : k.waitOn w mq.flag .etimeout timeout = some (k', some p)) :
      MqTurn k w mq size timeout k' mq (.inside (.waiting size p.1 p.2))
  | takes {msg : ℕ} {mq' : MessageQueue} (hentry : mq.entry ≠ 0) (hm : mq.takeHead = some (msg, mq')) :
      MqTurn k w mq size timeout k mq' (.inside (.copying msg size (mq'.data msg)))

theorem mqRecvLoop_turn {k k' : Kernel T W} {w : W} {mq mq' : MessageQueue} {size : ℕ} {timeout : BitVec 32}
    {o : MqOutcome} (h : mqRecvLoop k w mq size timeout = some (k', mq', o)) :
    MqTurn k w mq size timeout k' mq' o := by
  unfold mqRecvLoop at h
  split_ifs at h with hentry
  · obtain ⟨⟨j, p⟩, hj, he⟩ := map_eq_some_iff.mp h
    cases p with
    | none =>
      cases he
      exact .refused hj
    | some p =>
      cases he
      exact .waits hj
  · obtain ⟨⟨msg, m⟩, hm, he⟩ := map_eq_some_iff.mp h
    cases he
    exact .takes hentry hm

inductive MqRecvEffect (mq : MessageQueue) : MessageQueue → MqOutcome → Prop
  | returned (e : Err) : MqRecvEffect mq mq (.returned e [])
  | waiting (size : ℕ) (timeout tickDelta : BitVec 32) :
      MqRecvEffect mq mq (.inside (.waiting size timeout tickDelta))
  | taken {msg : ℕ} {mq' : MessageQueue} (size : ℕ) (hentry : mq.entry ≠ 0) (hm : mq.takeHead = some (msg, mq')) :
      MqRecvEffect mq mq' (.inside (.copying msg size (mq'.data msg)))

section

variable {k k' : Kernel T W} {w : W} {mq mq' : MessageQueue} {size : ℕ} {timeout tickDelta : BitVec 32}
  {o : MqOutcome}

theorem mqRecvLoop_effect (h : mqRecvLoop k w mq size timeout = some (k', mq', o)) : MqRecvEffect mq mq' o := by
  cases mqRecvLoop_turn h with
  | refused _ => exact .returned _
  | waits _ => exact .waiting _ _ _
  | takes hentry hm => exact .taken size hentry hm

theorem mqRecv_effect (h : mqRecv k w mq size timeout = some (k', mq', o)) : MqRecvEffect mq mq' o := by
  unfold mqRecv at h
  split_ifs at h
  · cases h
    exact .returned _
  · exact mqRecvLoop_effect h

theorem mqRecvResume_effect {t : T} (h : mqRecvResume k w t mq size timeout tickDelta = some (k', mq', o)) :
    MqRecvEffect mq mq' o := by
  unfold mqRecvResume at h
  split_ifs at h
  · cases h
    exact .returned _
  · exact mqRecvLoop_effect h

end

end RtThread
