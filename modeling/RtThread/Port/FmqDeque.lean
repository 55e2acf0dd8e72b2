import RtThread.Kernel.ReadyQueue
import RtThread.Port.Fmq

namespace RtThread

open Transition Fmq Nat

variable {T W : Type} [DecidableEq T] [DecidableEq W]

structure FmqState (T W : Type) where
  kernel : Kernel T W
  queue : Fmq

inductive FmqCall
  | send (pos : CopyPosition) (value : ℕ → BitVec 8)
  | recv
  | peek

def FmqCall.toDeque (q : Fmq) : FmqCall → DequeOp (List (BitVec 8))
  | .send pos value => .send pos (q.bytes value)
  | .recv => .recv
  | .peek => .peek

namespace FmqState

def call (recv send : W) (s : FmqState T W) (c : FmqCall) :
    Option (FmqState T W × Err × Option (List (BitVec 8))) :=
  let r := match c with
    | .send pos value => fmqSend s.kernel recv send s.queue value pos 0
    | .recv => fmqRecv s.kernel recv send s.queue false 0
    | .peek => fmqRecv s.kernel recv send s.queue true 0
  match r with
  | some (k, q, .returned e v) => some (⟨k, q⟩, e, v)
  | _ => none

def step (recv send : W) (s : FmqState T W) (c : FmqCall) : Option (FmqState T W) :=
  (s.call recv send c).map Prod.fst

variable {recv send : W} {s : FmqState T W}

def Answers (recv send : W) (s : FmqState T W) (c : FmqCall) : Prop :=
  ∃ t e v, s.call recv send c = some (t, e, v) ∧
    (t.queue.contents, e, v) = (c.toDeque s.queue).step s.queue.size s.queue.contents ∧
    (e ≠ .eok ∨ c = .peek → t.queue = s.queue)

variable {q : Fmq}

theorem fmqCall_refused (k : Kernel T W) {op : FmqOp W} (h : op.stuck q = true) :
    fmqCall k op q 0 = some (k, q, .returned op.refusal none) := by
  rw [fmqCall, if_pos ⟨h, rfl⟩]

theorem fmqCall_done (k : Kernel T W) {op : FmqOp W} (h : op.stuck q = false) (timeout : BitVec 32) :
    fmqCall k op q timeout =
      (op.apply q).map (fun (q, v) => (k.wakeFirst op.wake, q, .returned .eok v)) := by
  rw [fmqCall, if_neg (by simp [h]), fmqLoop, if_neg (by simp [h])]

theorem call_send (recv send : W) (s : FmqState T W) (pos : CopyPosition) (value : ℕ → BitVec 8) (h : s.queue.Ok) :
    ∃ t e, s.call recv send (.send pos value) = some (t, e, none) ∧ t.queue.Ok ∧
      (t.queue.contents, e, none) = (DequeOp.send pos (s.queue.bytes value)).step s.queue.size s.queue.contents ∧
      (e ≠ .eok → t.queue = s.queue) := by
  cases hstuck : (fmqSendOp recv send pos value).stuck s.queue with
  | true =>
    obtain ⟨hfull, hpos⟩ : s.queue.entry = s.queue.size ∧ pos ≠ .overwrite := by
      simpa [fmqSendOp] using hstuck
    refine ⟨s, .efull, ?_, h, ?_, fun _ => rfl⟩
    · simp only [call, fmqSend, fmqCall_refused _ hstuck]
      rfl
    · have hlen := s.queue.length_contents
      cases pos with
      | overwrite => exact absurd rfl hpos
      | back | front => simp [DequeOp.step, hlen, hfull]
  | false =>
    have hfree : s.queue.entry = s.queue.size → pos = .overwrite := by
      simpa [fmqSendOp] using hstuck
    obtain ⟨q', l, hput, hq', hspec⟩ := h.put pos hfree value
    refine ⟨⟨s.kernel.wakeFirst (some recv), q'⟩, .eok, ?_, hq'.ok, ?_, fun he => absurd rfl he⟩
    · simp only [call, fmqSend, fmqCall_done _ hstuck]
      simp [fmqSendOp, hput]
    · rw [hspec, ← hq'.contents]

theorem call_recv (recv send : W) (s : FmqState T W) (peek : Bool) (h : s.queue.Ok) :
    ∃ t e v, s.call recv send (if peek then .peek else .recv) = some (t, e, v) ∧ t.queue.Ok ∧
      (t.queue.contents, e, v) =
        (if peek then DequeOp.peek else DequeOp.recv).step s.queue.size s.queue.contents ∧
      (e ≠ .eok ∨ peek = true → t.queue = s.queue) := by
  have hlen := s.queue.length_contents
  have hcall : s.call recv send (if peek then .peek else .recv) =
      match fmqCall s.kernel (fmqRecvOp recv send peek) s.queue 0 with
      | some (k, q, .returned e v) => some (⟨k, q⟩, e, v)
      | _ => none := by
    cases peek <;> rfl
  rw [hcall]
  cases hstuck : (fmqRecvOp recv send peek).stuck s.queue with
  | true =>
    have hzero : s.queue.entry = 0 := by simpa [fmqRecvOp] using hstuck
    have hnil : s.queue.contents = [] := List.length_eq_zero_iff.mp (hlen.trans hzero)
    refine ⟨s, .etimeout, none, by rw [fmqCall_refused _ hstuck]; rfl, h, ?_, fun _ => rfl⟩
    rw [hnil]
    cases peek <;> rfl
  | false =>
    have hne : s.queue.entry ≠ 0 := by simpa [fmqRecvOp] using hstuck
    obtain ⟨v, l, q', hcont, htake, hq', hpeek⟩ := h.takeFirst hne
    rw [fmqCall_done _ hstuck, hcont]
    cases peek with
    | true =>
      refine ⟨s, .eok, some v, by simp [fmqRecvOp, hpeek, Kernel.wakeFirst], h, by rw [hcont]; rfl, fun _ => rfl⟩
    | false =>
      refine ⟨⟨s.kernel.wakeFirst (some send), q'⟩, .eok, some v, by simp [fmqRecvOp, htake], hq'.ok, ?_, ?_⟩
      · rw [hq'.contents]
        rfl
      · rintro (he | he)
        · exact absurd rfl he
        · cases he

theorem answers_of_ok (h : s.queue.Ok) (c : FmqCall) :
    s.Answers recv send c ∧ ∀ t, s.step recv send c = some t → t.queue.Ok := by
  have hgoal : ∃ t e v, s.call recv send c = some (t, e, v) ∧ t.queue.Ok ∧
      (t.queue.contents, e, v) = (c.toDeque s.queue).step s.queue.size s.queue.contents ∧
      (e ≠ .eok ∨ c = .peek → t.queue = s.queue) := by
    cases c with
    | send pos value =>
      obtain ⟨t, e, hcall, hok, hspec, hfail⟩ := call_send recv send s pos value h
      exact ⟨t, e, none, hcall, hok, hspec, by simpa using hfail⟩
    | recv =>
      obtain ⟨t, e, v, hcall, hok, hspec, hfail⟩ := call_recv recv send s false h
      exact ⟨t, e, v, hcall, hok, hspec, by simpa using hfail⟩
    | peek =>
      obtain ⟨t, e, v, hcall, hok, hspec, hfail⟩ := call_recv recv send s true h
      exact ⟨t, e, v, hcall, hok, hspec, by simpa using hfail⟩
  obtain ⟨t, e, v, hcall, hok, hspec, hfail⟩ := hgoal
  refine ⟨⟨t, e, v, hcall, hspec, hfail⟩, fun u hu => ?_⟩
  rw [step, hcall] at hu
  exact Option.some.inj hu ▸ hok

structure IsDeque (recv send : W) (s : FmqState T W) : Prop where
  length : s.queue.contents.length = s.queue.entry
  bound : s.queue.entry ≤ s.queue.size
  ring : s.queue.inOffset = (s.queue.outOffset + s.queue.entry) % s.queue.size
  inside : ∀ i < s.queue.entry, s.queue.Inside ((s.queue.outOffset + i) % s.queue.size)
  apart : ∀ i j, i < j → j < s.queue.entry →
    s.queue.offset ((s.queue.outOffset + i) % s.queue.size) + s.queue.item ≤
        s.queue.offset ((s.queue.outOffset + j) % s.queue.size) ∨
      s.queue.offset ((s.queue.outOffset + j) % s.queue.size) + s.queue.item ≤
        s.queue.offset ((s.queue.outOffset + i) % s.queue.size)
  answers : ∀ c, s.Answers recv send c

theorem isDeque_of_ok (h : s.queue.Ok) : s.IsDeque recv send := by
  have hcell (i : ℕ) : (s.queue.outOffset + i) % s.queue.size < s.queue.size :=
    mod_lt _ (zero_lt_of_lt h.ring.first_lt)
  refine ⟨s.queue.length_contents, h.ring.len_le, h.ring.last_eq, fun i _ => (h.offset_eq (hcell i)).2, ?_,
    fun c => (answers_of_ok h c).1⟩
  intro i j hij hj
  rw [(h.offset_eq (hcell i)).1, (h.offset_eq (hcell j)).1]
  have hne : (s.queue.outOffset + i) % s.queue.size ≠ (s.queue.outOffset + j) % s.queue.size :=
    Ring.add_mod_ne hij (hj.trans_le h.ring.len_le)
  rcases lt_or_gt_of_ne hne with hlt | hgt
  · exact Or.inl (cell_end_le _ hlt)
  · exact Or.inr (cell_end_le _ hgt)

theorem created_ok {pool : ℕ → BitVec 8} {item size : BitVec 32} {flag : IpcFlag} (hsize : 1 ≤ size.toNat)
    (hlt : size.toNat ≤ 65535) (hfits : size.toNat * item.toNat + 4 < 2 ^ 32) :
    (fmqCreate pool item size flag).Ok := by
  have hmod : size.toNat % 65536 = size.toNat := mod_eq_of_lt (by omega)
  refine ⟨mod_lt _ (by decide), ?_, mod_lt _ (by decide), ?_⟩
  · simp only [fmqCreate, hmod]
    rw [mod_eq_of_lt hfits]
  · simp only [fmqCreate, hmod]
    exact Ring.Valid.empty hsize

structure Sent (q₀ : Fmq) (j : ℕ) (q : Fmq) : Prop where
  size : q.size = q₀.size
  item : q.item = q₀.item
  block : q.block = q₀.block
  entry : q.entry = j
  inOffset : q.inOffset = j

theorem Sent.inside_iff {q₀ : Fmq} {j : ℕ} (h : Sent q₀ j q) : q.Inside q.inOffset ↔ q₀.Inside j := by
  rw [Fmq.Inside, Fmq.Inside, offset, offset, h.item, h.block, h.inOffset]

theorem Sent.sendBack {q₀ : Fmq} {j : ℕ} (h : Sent q₀ j s.queue) (hlt : j < q₀.size) (hsize : q₀.size < 65536)
    {value : ℕ → BitVec 8} (ha : s.Answers recv send (.send .back value)) :
    q₀.Inside j ∧ (j + 1 < q₀.size →
      ∃ t, s.step recv send (.send .back value) = some t ∧ Sent q₀ (j + 1) t.queue) := by
  have hstuck : (fmqSendOp recv send .back value).stuck s.queue = false := by
    have hne : ¬s.queue.entry = s.queue.size := by rw [h.entry, h.size]; omega
    simp [fmqSendOp, hne]
  have hcall : s.call recv send (.send .back value) =
      (s.queue.put .back value).map (fun q => (⟨s.kernel.wakeFirst (some recv), q⟩, .eok, none)) := by
    simp only [call, fmqSend, fmqCall_done _ hstuck]
    cases hput : s.queue.put .back value <;> simp [fmqSendOp, hput]
  obtain ⟨t, e, v, hsome, -, -⟩ := ha
  rw [hcall] at hsome
  obtain ⟨q, hput, -⟩ := Option.map_eq_some_iff.mp hsome
  have hput' := hput
  rw [put, if_pos (Or.inr rfl), write] at hput'
  split_ifs at hput' with hin
  · refine ⟨h.inside_iff.mp hin, fun hnext => ⟨_, by rw [step, hcall, hput]; rfl, ?_⟩⟩
    cases hput'
    have hmod : (s.queue.inOffset + 1) % 65536 = j + 1 := by rw [h.inOffset]; omega
    have hentry : (s.queue.entry + 1) % 65536 = j + 1 := by rw [h.entry]; omega
    have hnot : ¬s.queue.size ≤ j + 1 := by rw [h.size]; omega
    exact ⟨h.size, h.item, h.block, hentry, by simp only [hmod, if_neg hnot]⟩
  · cases hput'

theorem run_sent {q₀ : Fmq} (k : Kernel T W) (hsize : q₀.size < 65536) (hq₀ : Sent q₀ 0 q₀)
    (value : ℕ → BitVec 8)
    (h : ∀ cs, StatesAlong (step recv send) (IsDeque recv send) ⟨k, q₀⟩ cs) (j : ℕ) (hj : j < q₀.size) :
    ∃ t, run (step recv send) ⟨k, q₀⟩ (List.replicate j (.send .back value)) = some t ∧
    Sent q₀ j t.queue := by
  induction j with
  | zero => exact ⟨_, rfl, hq₀⟩
  | succ j ih =>
    obtain ⟨t, hrun, ht⟩ := ih (by omega)
    obtain ⟨u, hstep, hu⟩ := (ht.sendBack (by omega) hsize (((h _).of_run hrun).answers _)).2 hj
    refine ⟨u, ?_, hu⟩
    rw [List.replicate_succ', run_concat, hrun]
    exact hstep

theorem cells_fit (hsize : 0 < q.size) (hblock : q.block < 2 ^ 32)
    (h : ∀ j < q.size, q.Inside j) : q.size * q.item + 4 ≤ q.block := by
  have hcell (j : ℕ) (hj : j < q.size) : (j + 1) * q.item + 4 ≤ q.block := by
    -- a cell begins where the one before it ends, which is below `2 ^ 32`
    induction j with
    | zero =>
      have h0 := h 0 hj
      simp only [Fmq.Inside, offset, Nat.zero_mul, Nat.zero_mod] at h0
      omega
    | succ j ih =>
      have hj := h (j + 1) hj
      rw [Fmq.Inside, offset] at hj
      rw [Nat.succ_mul]
      omega
  have hlast := hcell (q.size - 1) (by omega)
  rwa [Nat.sub_add_cancel hsize] at hlast

theorem fmq_refines_deque_iff (recv send : W) (k : Kernel T W) (pool : ℕ → BitVec 8) (item size : BitVec 32)
    (flag : IpcFlag) (hsize : 1 ≤ size.toNat) (hlt : size.toNat ≤ 65535) :
    (∀ cs, StatesAlong (step recv send) (IsDeque recv send) ⟨k, fmqCreate pool item size flag⟩ cs) ↔
      size.toNat * item.toNat + 4 < 2 ^ 32 := by
  have hmod : size.toNat % 65536 = size.toNat := mod_eq_of_lt (by omega)
  constructor
  · intro h
    have hfits : (fmqCreate pool item size flag).size * (fmqCreate pool item size flag).item + 4 ≤
        (fmqCreate pool item size flag).block := by
      refine cells_fit (by simp only [fmqCreate]; omega) (mod_lt _ (by decide)) (fun j hj => ?_)
      have hbound : (fmqCreate pool item size flag).size < 65536 := mod_lt _ (by decide)
      obtain ⟨t, hrun, ht⟩ := run_sent k hbound ⟨rfl, rfl, rfl, rfl, rfl⟩ (fun _ => 0) h j hj
      exact (ht.sendBack hj hbound (((h _).of_run hrun).answers (.send .back fun _ => 0))).1
    simp only [fmqCreate, hmod] at hfits
    exact hfits.trans_lt (mod_lt _ (by decide))
  · intro hfits cs
    exact .of_invariant (fun s => isDeque_of_ok) (fun s c t hs => (answers_of_ok hs c).2 t)
      (created_ok hsize hlt hfits) cs

theorem fmq_refines_deque_iff_words :
    1 ≤ (8 : BitVec 32).toNat ∧ (8 : BitVec 32).toNat ≤ 65535 ∧
      ∀ cs, StatesAlong (step true false) (IsDeque true false)
        ⟨bootKernel Tid.priority [], fmqCreate (fun _ => 0) 4 8 .prio⟩ cs :=
  ⟨by decide, by decide,
    (fmq_refines_deque_iff true false _ _ 4 8 .prio (by decide) (by decide)).mpr (by decide)⟩

theorem fmq_block_too_small :
    (fmqCreate (fun _ => 0) 65537 65535 .prio).block = 3 ∧
      FmqState.call true false ⟨bootKernel Tid.priority [], fmqCreate (fun _ => 0) 65537 65535 .prio⟩
        (.send .back fun _ => 0) = none ∧
      ¬StatesAlong (step true false) (IsDeque true false)
        ⟨bootKernel Tid.priority [], fmqCreate (fun _ => 0) 65537 65535 .prio⟩ [] := by
  have hnone : FmqState.call true false
      ⟨bootKernel Tid.priority [], fmqCreate (fun _ => 0) 65537 65535 .prio⟩ (.send .back fun _ => 0) = none :=
    Option.isNone_iff_eq_none.mp (by decide +kernel)
  refine ⟨by decide +kernel, hnone, fun h => ?_⟩
  obtain ⟨t, e, v, hcall, -⟩ := h.head.answers (.send .back fun _ => 0)
  cases hcall

end FmqState

end RtThread
