import RtThread.Ipc.Mailbox

/-! The queues of `fmq.c`: a mailbox whose pool holds items of any size, with three ways to send. -/

namespace RtThread

open List Option Nat

structure Fmq where
  item : ℕ
  block : ℕ
  pool : ℕ → BitVec 8
  size : ℕ
  entry : ℕ
  inOffset : ℕ
  outOffset : ℕ
  flag : IpcFlag

inductive CopyPosition
  | back | front | overwrite
  deriving DecidableEq

def fmqCreate (pool : ℕ → BitVec 8) (item size : BitVec 32) (flag : IpcFlag) : Fmq :=
  { item := item.toNat
    block := (size.toNat % 65536 * item.toNat + 4) % 2 ^ 32
    pool
    size := size.toNat % 65536
    entry := 0
    inOffset := 0
    outOffset := 0
    flag }

namespace Fmq

def offset (q : Fmq) (k : ℕ) : ℕ := k * q.item % 2 ^ 32

def Inside (q : Fmq) (k : ℕ) : Prop := 4 + q.offset k + q.item ≤ q.block

instance (q : Fmq) (k : ℕ) : Decidable (q.Inside k) := Nat.decLe _ _

def bytes (q : Fmq) (value : ℕ → BitVec 8) : List (BitVec 8) := (List.range q.item).map value

def write (q : Fmq) (k : ℕ) (value : ℕ → BitVec 8) : Option Fmq :=
  if q.Inside k then
    some { q with
      pool := fun a => if q.offset k ≤ a ∧ a < q.offset k + q.item then value (a - q.offset k) else q.pool a }
  else none

def read (q : Fmq) (k : ℕ) : Option (List (BitVec 8)) :=
  if q.Inside k then some (q.bytes (fun j => q.pool (q.offset k + j))) else none

def put (q : Fmq) (pos : CopyPosition) (value : ℕ → BitVec 8) : Option Fmq :=
  if q.entry = 0 ∨ pos = .back then
    (q.write q.inOffset value).map (fun q =>
      { q with
        inOffset := if q.size ≤ (q.inOffset + 1) % 65536 then 0 else (q.inOffset + 1) % 65536
        entry := (q.entry + 1) % 65536 })
  else if pos = .overwrite then
    (q.write q.outOffset value).map (fun q => { q with entry := ((q.entry + 65535) % 65536 + 1) % 65536 })
  else
    let q := { q with outOffset := if q.outOffset = 0 then q.size - 1 else q.outOffset - 1 }
    (q.write q.outOffset value).map (fun q => { q with entry := (q.entry + 1) % 65536 })

def take (q : Fmq) (peek : Bool) : Option (Fmq × List (BitVec 8)) :=
  (q.read q.outOffset).map (fun v =>
    (if peek then q else
      { q with
        outOffset := if q.size ≤ (q.outOffset + 1) % 65536 then 0 else (q.outOffset + 1) % 65536
        entry := (q.entry + 65535) % 65536 }, v))

end Fmq

variable {T W : Type} [DecidableEq T] [DecidableEq W]

inductive FmqOutcome
  | returned (e : Err) (value : Option (List (BitVec 8)))
  | blocked (timeout tickDelta : BitVec 32)
  deriving DecidableEq

def FmqOutcome.ofWait (e : Err) : Option (BitVec 32 × BitVec 32) → FmqOutcome
  | none => .returned e none
  | some (timeout, tickDelta) => .blocked timeout tickDelta

structure FmqOp (W : Type) where
  stuck : Fmq → Bool
  wait : W
  wake : Option W
  errno : Err
  refusal : Err
  apply : Fmq → Option (Fmq × Option (List (BitVec 8)))

def fmqSendOp (recv send : W) (pos : CopyPosition) (value : ℕ → BitVec 8) : FmqOp W where
  stuck q := q.entry = q.size ∧ pos ≠ .overwrite
  wait := send
  wake := some recv
  errno := .eok
  refusal := .efull
  apply q := (q.put pos value).map (fun q => (q, none))

def fmqRecvOp (recv send : W) (peek : Bool) : FmqOp W where
  stuck q := q.entry = 0
  wait := recv
  wake := if peek then none else some send
  errno := .etimeout
  refusal := .etimeout
  apply q := (q.take peek).map (fun r => (r.1, some r.2))

def Kernel.wakeFirst (k : Kernel T W) : Option W → Kernel T W
  | none => k
  | some w => k.resumeFirst w

def fmqLoop (k : Kernel T W) (op : FmqOp W) (q : Fmq) (timeout : BitVec 32) :
    Option (Kernel T W × Fmq × FmqOutcome) :=
  if op.stuck q then
    (k.waitOn op.wait q.flag op.errno timeout).map (fun (k, p) => (k, q, .ofWait op.refusal p))
  else (op.apply q).map (fun (q, v) => (k.wakeFirst op.wake, q, .returned .eok v))

def fmqCall (k : Kernel T W) (op : FmqOp W) (q : Fmq) (timeout : BitVec 32) :
    Option (Kernel T W × Fmq × FmqOutcome) :=
  if op.stuck q ∧ timeout = 0 then some (k, q, .returned op.refusal none) else fmqLoop k op q timeout

def fmqResume (k : Kernel T W) (op : FmqOp W) (t : T) (q : Fmq) (timeout tickDelta : BitVec 32) :
    Option (Kernel T W × Fmq × FmqOutcome) :=
  if (k.thread t).error ≠ .eok then some (k, q, .returned (k.thread t).error none)
  else fmqLoop k op q (k.timeLeft timeout tickDelta)

inductive FmqTurn (k : Kernel T W) (op : FmqOp W) (q : Fmq) (timeout : BitVec 32) :
    Kernel T W → Fmq → FmqOutcome → Prop
  | waits {k' : Kernel T W} {p : Option (BitVec 32 × BitVec 32)} (hstuck : op.stuck q = true)
      (hw : k.waitOn op.wait q.flag op.errno timeout = some (k', p)) :
      FmqTurn k op q timeout k' q (.ofWait op.refusal p)
  | done {q' : Fmq} {v : Option (List (BitVec 8))} (hfree : op.stuck q = false) (hq : op.apply q = some (q', v)) :
      FmqTurn k op q timeout (k.wakeFirst op.wake) q' (.returned .eok v)

theorem fmqLoop_turn {k k' : Kernel T W} {op : FmqOp W} {q q' : Fmq} {timeout : BitVec 32} {r : FmqOutcome}
    (h : fmqLoop k op q timeout = some (k', q', r)) : FmqTurn k op q timeout k' q' r := by
  unfold fmqLoop at h
  split_ifs at h with hstuck
  · obtain ⟨⟨j, p⟩, hj, he⟩ := map_eq_some_iff.mp h
    cases he
    exact .waits hstuck hj
  · obtain ⟨⟨j, v⟩, hj, he⟩ := map_eq_some_iff.mp h
    cases he
    exact .done (by simpa using hstuck) hj

def fmqSend (k : Kernel T W) (recv send : W) (q : Fmq) (value : ℕ → BitVec 8) (pos : CopyPosition)
    (timeout : BitVec 32) : Option (Kernel T W × Fmq × FmqOutcome) :=
  fmqCall k (fmqSendOp recv send pos value) q timeout

def fmqRecv (k : Kernel T W) (recv send : W) (q : Fmq) (peek : Bool) (timeout : BitVec 32) :
    Option (Kernel T W × Fmq × FmqOutcome) :=
  fmqCall k (fmqRecvOp recv send peek) q timeout

inductive DequeOp (α : Type)
  | send (pos : CopyPosition) (v : α)
  | recv
  | peek

def DequeOp.step {α : Type} (n : ℕ) : DequeOp α → List α → List α × Err × Option α
  | .send .back v, l => if l.length < n then (l ++ [v], .eok, none) else (l, .efull, none)
  | .send .front v, l => if l.length < n then (v :: l, .eok, none) else (l, .efull, none)
  | .send .overwrite v, [] => ([v], .eok, none)
  | .send .overwrite v, _ :: l => (v :: l, .eok, none)
  | .recv, [] => ([], .etimeout, none)
  | .recv, x :: l => (l, .eok, some x)
  | .peek, [] => ([], .etimeout, none)
  | .peek, x :: l => (x :: l, .eok, some x)

namespace Fmq

def slot (q : Fmq) (k : ℕ) : List (BitVec 8) := q.bytes (fun j => q.pool (k * q.item + j))

def contents (q : Fmq) : List (List (BitVec 8)) := Ring.contents q.slot q.size q.outOffset q.entry

structure Ok (q : Fmq) : Prop where
  size_lt : q.size < 65536
  fits : q.size * q.item + 4 ≤ q.block
  block_lt : q.block < 2 ^ 32
  ring : Ring.Valid q.size q.outOffset q.inOffset q.entry

variable {q : Fmq}

theorem cell_end_le {k k' : ℕ} (item : ℕ) (h : k < k') : k * item + item ≤ k' * item := by
  rw [← succ_mul]
  exact mul_le_mul_right item h

section

variable (h : q.Ok) {k : ℕ} (hk : k < q.size)

include h hk

theorem Ok.offset_eq : q.offset k = k * q.item ∧ q.Inside k := by
  have hend := cell_end_le q.item hk
  have hfits := h.fits
  have hblock := h.block_lt
  have heq : q.offset k = k * q.item := mod_eq_of_lt (by omega)
  refine ⟨heq, ?_⟩
  rw [Inside]
  omega

theorem Ok.write (value : ℕ → BitVec 8) : ∃ pool, q.write k value = some { q with pool } ∧
      slot { q with pool } = Function.update q.slot k (q.bytes value) := by
  obtain ⟨hoff, hin⟩ := h.offset_eq hk
  refine ⟨_, by rw [Fmq.write, if_pos hin], ?_⟩
  funext k'
  simp only [slot, bytes, hoff, Function.update_apply]
  split_ifs with he
  · subst he
    refine map_congr_left (fun j hj => ?_)
    have hj' := mem_range.mp hj
    rw [if_pos ⟨by omega, by omega⟩, Nat.add_sub_cancel_left]
  · refine map_congr_left (fun j hj => ?_)
    have hj' := mem_range.mp hj
    rw [if_neg]
    rcases Nat.lt_or_gt_of_ne he with hlt | hgt
    · have := cell_end_le q.item hlt
      omega
    · have := cell_end_le q.item hgt
      omega

theorem Ok.read : q.read k = some (q.slot k) := by
  obtain ⟨hoff, hin⟩ := h.offset_eq hk
  rw [Fmq.read, if_pos hin, hoff]
  rfl

end

structure Filled (q q' : Fmq) (l : List (List (BitVec 8))) : Prop where
  ok : q'.Ok
  size : q'.size = q.size
  item : q'.item = q.item
  block : q'.block = q.block
  flag : q'.flag = q.flag
  contents : q'.contents = l

theorem Ok.filled (h : q.Ok) {pool : ℕ → BitVec 8} {entry inOffset outOffset : ℕ}
    (hring : Ring.Valid q.size outOffset inOffset entry) {l : List (List (BitVec 8))}
    (hl : Ring.contents (slot { q with pool }) q.size outOffset entry = l) :
    Filled q { q with pool, entry, inOffset, outOffset } l :=
  ⟨⟨h.size_lt, h.fits, h.block_lt, hring⟩, rfl, rfl, rfl, rfl, hl⟩

theorem Ok.putBack (h : q.Ok) (hlt : q.entry < q.size) {pos : CopyPosition} (hpos : q.entry = 0 ∨ pos = .back)
    (value : ℕ → BitVec 8) : ∃ q', q.put pos value = some q' ∧ Filled q q' (q.contents ++ [q.bytes value]) := by
  obtain ⟨pool, hwrite, hslot⟩ := h.write h.ring.last_lt value
  have hentry : (q.entry + 1) % 65536 = q.entry + 1 := mod_eq_of_lt (by have := h.size_lt; omega)
  have hin := Mailbox.wrap_eq_succ h.size_lt h.ring.last_lt
  refine ⟨_, by rw [put, if_pos hpos, hwrite]; rfl, ?_⟩
  simp only [hentry, hin]
  refine h.filled (h.ring.push hlt) ?_
  rw [hslot]
  exact h.ring.contents_push hlt q.slot _

theorem write_outOffset (q : Fmq) (o k : ℕ) (value : ℕ → BitVec 8) :
    write { q with outOffset := o } k value = (q.write k value).map (fun q => { q with outOffset := o }) := by
  by_cases h : q.Inside k
  · have h' : Inside { q with outOffset := o } k := h
    rw [write, write, if_pos h, if_pos h']
    rfl
  · have h' : ¬Inside { q with outOffset := o } k := h
    rw [write, write, if_neg h, if_neg h']
    rfl

theorem Ok.putFront (h : q.Ok) (hlt : q.entry < q.size) (hne : q.entry ≠ 0) (value : ℕ → BitVec 8) :
    ∃ q', q.put .front value = some q' ∧ Filled q q' (q.bytes value :: q.contents) := by
  have hv := h.ring.pushFront hlt
  obtain ⟨pool, hwrite, hslot⟩ := h.write hv.first_lt value
  have hentry : (q.entry + 1) % 65536 = q.entry + 1 := mod_eq_of_lt (by have := h.size_lt; omega)
  have hput : q.put .front value = some { q with
      pool, entry := q.entry + 1, outOffset := Ring.pred q.size q.outOffset } := by
    rw [put, if_neg (by simp [hne])]
    change (Fmq.write { q with outOffset := Ring.pred q.size q.outOffset } (Ring.pred q.size q.outOffset)
      value).map _ = _
    simp only [write_outOffset, hwrite, map_some, hentry]
  refine ⟨_, hput, h.filled hv ?_⟩
  rw [hslot]
  exact h.ring.contents_pushFront hlt q.slot _

theorem Ok.putOver (h : q.Ok) (hne : q.entry ≠ 0) (value : ℕ → BitVec 8) :
    ∃ q', q.put .overwrite value = some q' ∧ Filled q q' (q.bytes value :: q.contents.tail) := by
  obtain ⟨n, hn⟩ : ∃ n, q.entry = n + 1 := ⟨q.entry - 1, by omega⟩
  obtain ⟨pool, hwrite, hslot⟩ := h.write h.ring.first_lt value
  have hle := h.ring.len_le
  have hentry : ((q.entry + 65535) % 65536 + 1) % 65536 = q.entry := by have := h.size_lt; omega
  have hring := h.ring
  rw [hn] at hring
  refine ⟨_, by rw [put, if_neg (by simp [hne]), hwrite]; rfl, ?_⟩
  simp only [hentry]
  refine h.filled h.ring ?_
  rw [hslot, contents, hn, hring.contents_pop q.slot]
  exact hring.contents_replace q.slot _

theorem Ok.takeFirst (h : q.Ok) (hne : q.entry ≠ 0) :
    ∃ v l q', q.contents = v :: l ∧ q.take false = some (q', v) ∧ Filled q q' l ∧
      q.take true = some (q, v) := by
  obtain ⟨n, hn⟩ : ∃ n, q.entry = n + 1 := ⟨q.entry - 1, by omega⟩
  have hle := h.ring.len_le
  have hentry : (q.entry + 65535) % 65536 = n := by have := h.size_lt; omega
  have hout := Mailbox.wrap_eq_succ h.size_lt h.ring.first_lt
  have hring := h.ring
  rw [hn] at hring
  have hread := h.read h.ring.first_lt
  refine ⟨q.slot q.outOffset, Ring.contents q.slot q.size (Ring.succ q.size q.outOffset) n, _, ?_,
    by rw [take, hread]; rfl, ?_, by rw [take, hread]; rfl⟩
  · rw [contents, hn]
    exact hring.contents_pop q.slot
  · simp only [Bool.false_eq_true, if_false, hentry, hout]
    exact h.filled hring.pop rfl

theorem length_contents (q : Fmq) : q.contents.length = q.entry := Ring.length_contents _ _ _ _

theorem Ok.put (h : q.Ok) (pos : CopyPosition) (hfree : q.entry = q.size → pos = .overwrite)
    (value : ℕ → BitVec 8) :
    ∃ q' l, q.put pos value = some q' ∧ Filled q q' l ∧
      (DequeOp.send pos (q.bytes value)).step q.size q.contents = (l, .eok, none) := by
  have hsize : 0 < q.size := zero_lt_of_lt h.ring.first_lt
  have hlen := q.length_contents
  by_cases hzero : q.entry = 0
  -- an empty queue is filled from the back, whatever the position
  · have hnil : q.contents = [] := length_eq_zero_iff.mp (hlen.trans hzero)
    obtain ⟨q', hput, hq'⟩ := h.putBack (hzero ▸ hsize) (Or.inl hzero : q.entry = 0 ∨ pos = .back) value
    refine ⟨q', _, hput, hq', ?_⟩
    rw [hnil]
    cases pos <;> simp [DequeOp.step, hsize]
  · cases pos with
    | back =>
      have hlt : q.entry < q.size := lt_of_le_of_ne h.ring.len_le (fun he => by simp at hfree; exact hfree he)
      obtain ⟨q', hput, hq'⟩ := h.putBack hlt (Or.inr rfl) value
      exact ⟨q', _, hput, hq', by simp [DequeOp.step, hlen, hlt]⟩
    | front =>
      have hlt : q.entry < q.size := lt_of_le_of_ne h.ring.len_le (fun he => by simp at hfree; exact hfree he)
      obtain ⟨q', hput, hq'⟩ := h.putFront hlt hzero value
      exact ⟨q', _, hput, hq', by simp [DequeOp.step, hlen, hlt]⟩
    | overwrite =>
      obtain ⟨q', hput, hq'⟩ := h.putOver hzero value
      refine ⟨q', _, hput, hq', ?_⟩
      obtain ⟨v, l, hcons⟩ : ∃ v l, q.contents = v :: l :=
        exists_cons_of_ne_nil (fun hnil => hzero (by rw [← hlen, hnil]; rfl))
      rw [hcons]
      rfl

end Fmq

end RtThread
