import RtThread.Kernel.ReadyQueue
import RtThread.Drivers.DataQueue

namespace RtThread

open Transition List Option Bool Nat

variable {T W : Type}

inductive DqCall
  | push (item : DataItem)
  | pop
  | peak
  deriving DecidableEq

structure DqRecord where
  call : DqCall
  stored : List DataItem
  failed : Bool
  item : Option DataItem
  deriving DecidableEq

def DqRecord.Right (size : ℕ) (r : DqRecord) : Prop :=
  match r.call with
  | .push _ => r.failed = true ↔ r.stored.length = size
  | .pop | .peak => (r.failed = true ↔ r.stored = []) ∧ r.item = r.stored.head?

structure DqRun (T W : Type) where
  kernel : Kernel T W
  queue : DataQueue
  pushed : List DataItem
  popped : List DataItem
  records : List DqRecord

namespace DqRun

def stored (s : DqRun T W) : List DataItem := s.pushed.drop s.popped.length

def answer : Kernel T W × DataQueue × DqOutcome → Option (Kernel T W × DataQueue × Bool × Option DataItem)
  | (k, q, .returned e item _) => some (k, q, e ≠ .eok, item)
  | (_, _, .blocked _) => none

variable {s t : DqRun T W} {item : DataItem}

variable {q : DataQueue} {n : ℕ}

def held (q : DataQueue) (n : ℕ) : List DataItem :=
  (List.range n).map (fun i => q.queue ((q.getIndex + i) % 65536 % q.size))

structure IsFifo (s : DqRun T W) : Prop where
  bounded : s.stored.length ≤ s.queue.size
  held_eq : held s.queue s.stored.length = s.stored
  inOrder : s.popped <+: s.pushed
  right : ∀ r ∈ s.records, r.Right s.queue.size

theorem IsFifo.pushed_eq (h : s.IsFifo) : s.pushed = s.popped ++ s.stored :=
  (prefix_iff_eq_append.mp h.inOrder).symm

def after (s : DqRun T W) (c : DqCall) : Kernel T W × DataQueue × Bool × Option DataItem → DqRun T W
  | (k, q, failed, item) =>
    { kernel := k
      queue := q
      pushed := match c with
        | .push item => if failed then s.pushed else s.pushed ++ [item]
        | .pop | .peak => s.pushed
      popped := match c with
        | .pop => s.popped ++ item.toList
        | .push _ | .peak => s.popped
      records := s.records ++ [{ call := c, stored := s.stored, failed, item }] }

theorem stored_pop (hf : s.IsFifo) {x y : DataItem} {l : List DataItem} (hs : s.stored = x :: l) {k : Kernel T W} :
    (s.after .pop (k, q, false, some y)).stored = l := by
  have hpushed := hf.pushed_eq
  rw [hs] at hpushed
  simp [stored, after, hpushed]

structure Inv (s : DqRun T W) : Prop where
  size_pos : 0 < s.queue.size
  size_lt : s.queue.size < 65536
  get_lt : s.queue.getIndex < 65536
  put_eq : s.queue.putIndex = (s.queue.getIndex + s.stored.length) % 65536

def start (k : Kernel T W) (queue : ℕ → DataItem) (size lwm : BitVec 16) (evtNotify : Bool) : DqRun T W where
  kernel := k
  queue := dqInit queue size lwm evtNotify
  pushed := []
  popped := []
  records := []

theorem start_inv (k : Kernel T W) (queue : ℕ → DataItem) {size : BitVec 16} (h : 1 ≤ size.toNat)
    (lwm : BitVec 16)
    (evtNotify : Bool) : (start k queue size lwm evtNotify).Inv :=
  ⟨h, size.isLt, zero_lt_succ _, rfl⟩

theorem start_isFifo (k : Kernel T W) (queue : ℕ → DataItem) (size lwm : BitVec 16) (evtNotify : Bool) :
    (start k queue size lwm evtNotify).IsFifo :=
  ⟨zero_le _, rfl, prefix_rfl, nofun⟩

variable [DecidableEq T] [DecidableEq W]

def call (push pop : W) (s : DqRun T W) : DqCall → Option (Kernel T W × DataQueue × Bool × Option DataItem)
  | .push item => (dqPush s.kernel push pop s.queue item 0).bind answer
  | .pop => (dqPop s.kernel push pop s.queue 0).bind answer
  | .peak => some (s.kernel, s.queue, (dqPeak s.queue).isNone, dqPeak s.queue)

def step (push pop : W) (s : DqRun T W) (c : DqCall) : Option (DqRun T W) :=
  (s.call push pop c).map (s.after c)

def Fits (s : DqRun T W) : DqCall → Prop
  | .push item =>
    (s.stored.length = s.queue.size → s.queue.getIndex ≤ s.queue.putIndex) ∧
      (s.stored.length < s.queue.size → ∀ i (h : i < s.stored.length),
        (s.queue.getIndex + i) % 65536 % s.queue.size = s.queue.putIndex % s.queue.size → s.stored[i] = item)
  | .pop | .peak => True

section

variable (h : s.Inv) (hb : s.stored.length ≤ s.queue.size)

include h hb

omit [DecidableEq T] [DecidableEq W]

theorem Inv.full_iff : s.queue.full = true ↔ s.stored.length = s.queue.size ∧
    s.queue.getIndex ≤ s.queue.putIndex := by
  have hsize := h.size_lt
  have hput := h.put_eq
  rw [DataQueue.full, decide_eq_true_iff, DataQueue.length]
  omega

theorem Inv.empty_iff : s.queue.empty = true ↔ s.stored = [] := by
  have hsize := h.size_lt
  have hget := h.get_lt
  have hput := h.put_eq
  rw [← length_eq_zero_iff]
  simp only [DataQueue.empty, decide_eq_true_eq]
  omega

end

theorem step_push_full (push pop : W) (item : DataItem) (h : s.queue.full = true) :
    s.step push pop (.push item) = some (s.after (.push item) (s.kernel, s.queue, true, none)) := by
  simp [step, call, dqPush, dqWait, answer, h]

theorem step_push (push pop : W) (item : DataItem) (h : s.queue.full = false) :
    ∃ k, s.step push pop (.push item) = some (s.after (.push item) (k, s.queue.put item, false, none)) := by
  exact ⟨s.kernel.resumeFirst pop, by simp [step, call, dqPush, answer, h]⟩

theorem step_pop_empty (push pop : W) (h : s.queue.empty = true) :
    s.step push pop .pop = some (s.after .pop (s.kernel, s.queue, true, none)) := by
  simp [step, call, dqPop, dqWait, answer, h]

theorem step_pop (push pop : W) (h : s.queue.empty = false) :
    ∃ k, s.step push pop .pop = some (s.after .pop (k, s.queue.get, false, some s.queue.front)) := by
  by_cases hl : s.queue.get.length ≤ s.queue.lwm
  · exact ⟨s.kernel.resumeFirst push, by simp [step, call, dqPop, answer, h, hl]⟩
  · exact ⟨s.kernel, by simp [step, call, dqPop, answer, h, hl]⟩

theorem held_put (hput : q.putIndex = (q.getIndex + n) % 65536) : held (q.put item) (n + 1) =
      (List.range n).map (fun i => if (q.getIndex + i) % 65536 % q.size = q.putIndex % q.size then item
        else q.queue ((q.getIndex + i) % 65536 % q.size)) ++ [item] := by
  simp only [held, DataQueue.put, range_succ, map_append, map_singleton, ← hput, Function.update_apply, if_true]

theorem held_get : held q (n + 1) = q.queue (q.getIndex % 65536 % q.size) :: held q.get n := by
  simp only [held, DataQueue.get, range_succ_eq_map, map_cons, List.map_map, add_zero]
  congr 1
  apply map_congr_left
  intro i _
  simp only [Function.comp_apply, mod_add_mod, succ_eq_add_one]
  rw [add_assoc, add_comm 1]

section

variable (h : s.IsFifo)

include h

omit [DecidableEq T] [DecidableEq W]

theorem IsFifo.popped_le : s.popped.length ≤ s.pushed.length := h.inOrder.length_le

theorem stored_push {k : Kernel T W} {r : Option DataItem} :
    (s.after (.push item) (k, q, false, r)).stored = s.stored ++ [item] := by
  simp [stored, after, drop_append_of_le_length h.popped_le]

theorem held_put_eq_iff (item : DataItem) (hput : s.queue.putIndex = (s.queue.getIndex + s.stored.length) % 65536) :
    held (s.queue.put item) (s.stored.length + 1) = s.stored ++ [item] ↔
      ∀ i (hi : i < s.stored.length),
        (s.queue.getIndex + i) % 65536 % s.queue.size = s.queue.putIndex % s.queue.size → s.stored[i] = item := by
  have hget : ∀ i (hi : i < s.stored.length),
      s.stored[i] = s.queue.queue ((s.queue.getIndex + i) % 65536 % s.queue.size) := by
    intro i hi
    rw [getElem_of_eq h.held_eq.symm hi]
    simp [held]
  rw [held_put hput, List.append_left_inj]
  nth_rewrite 2 [← h.held_eq]
  simp only [held, map_inj_left, mem_range]
  refine forall₂_congr (fun i hi => ?_)
  rw [hget i hi]
  split_ifs with hp
  · exact ⟨fun he _ => he.symm, fun he => (he hp).symm⟩
  · exact iff_of_true rfl (fun he => absurd he hp)

theorem IsFifo.right_append {r : DqRecord} (hr : r.Right s.queue.size) :
    ∀ x ∈ s.records ++ [r], x.Right s.queue.size :=
  forall_mem_append.mpr ⟨h.right, forall_mem_singleton.mpr hr⟩

end

theorem Inv.isFifo_push_iff (h : s.Inv) (hf : s.IsFifo) {push pop : W}
    (ht : s.step push pop (.push item) = some t) : t.IsFifo ↔ s.Fits (.push item) := by
  have hb := hf.bounded
  have hiff := h.full_iff hb
  by_cases hfull : s.queue.full = true
  · -- the push is refused, as it has to be
    obtain ⟨hlen, hle⟩ := hiff.mp hfull
    rw [step_push_full push pop item hfull, Option.some.injEq] at ht
    subst ht
    refine iff_of_true ?_ ⟨fun _ => hle, fun hlt => absurd hlen hlt.ne⟩
    exact ⟨hb, hf.held_eq, hf.inOrder, hf.right_append (iff_of_true rfl hlen)⟩
  · obtain ⟨k, hk⟩ := step_push push pop item (not_eq_true _ ▸ hfull)
    rw [hk, Option.some.injEq] at ht
    subst ht
    have hstored : (s.after (.push item) (k, s.queue.put item, false, none)).stored = s.stored ++ [item] :=
      stored_push hf
    have hlen : (s.stored ++ [item]).length = s.stored.length + 1 := length_append
    by_cases hn : s.stored.length = s.queue.size
    · refine iff_of_false (fun h' => ?_) (fun hfit => hfull (hiff.mpr ⟨hn, hfit.1 hn⟩))
      have hbound : s.stored.length + 1 ≤ s.queue.size := hlen ▸ hstored ▸ h'.bounded
      omega
    · have hlt : s.stored.length < s.queue.size := lt_of_le_of_ne hb hn
      have hheld := held_put_eq_iff hf item h.put_eq
      constructor
      · intro h'
        have heq := h'.held_eq
        rw [hstored, hlen] at heq
        exact ⟨fun hn' => absurd hn' hn, fun _ => hheld.mp heq⟩
      · intro hfit
        refine ⟨?_, ?_, hf.inOrder.trans (prefix_append _ _), ?_⟩
        · rw [hstored, hlen]
          exact hlt
        · rw [hstored, hlen]
          exact hheld.mpr (hfit.2 hlt)
        · exact hf.right_append (iff_of_false false_ne_true hn)

section

variable (h : s.Inv) (hf : s.IsFifo) {x : DataItem} {l : List DataItem} (hs : s.stored = x :: l)

include h hf hs

omit [DecidableEq T] [DecidableEq W]

theorem Inv.not_empty : s.queue.empty = false := by
  rw [← not_eq_true, h.empty_iff hf.bounded, hs]
  exact cons_ne_nil x l

theorem Inv.held_cons : s.queue.front = x ∧ held s.queue.get l.length = l := by
  have hheld := hf.held_eq
  rwa [hs, length_cons, held_get, mod_eq_of_lt h.get_lt, List.cons.injEq] at hheld

end

section

variable (h : s.Inv) (hf : s.IsFifo)

include h hf

theorem Inv.isFifo_pop {push pop : W} (ht : s.step push pop .pop = some t) : t.IsFifo := by
  have hempty := h.empty_iff hf.bounded
  cases hs : s.stored with
  | nil =>
    rw [step_pop_empty push pop (hempty.mpr hs), Option.some.injEq] at ht
    subst ht
    have hsame : (s.after .pop (s.kernel, s.queue, true, none)).stored = s.stored := by simp [stored, after]
    refine ⟨by rw [hsame]; exact hf.bounded, by rw [hsame]; exact hf.held_eq, ?_, ?_⟩
    · simpa [after] using hf.inOrder
    · exact hf.right_append ⟨iff_of_true rfl hs, by rw [hs]; rfl⟩
  | cons x l =>
    obtain ⟨k, hk⟩ := step_pop push pop (h.not_empty hf hs)
    rw [hk, Option.some.injEq] at ht
    subst ht
    obtain ⟨hfront, hheld⟩ := h.held_cons hf hs
    have hpushed := hf.pushed_eq
    rw [hs] at hpushed
    have hrest : (s.after .pop (k, s.queue.get, false, some s.queue.front)).stored = l := stored_pop hf hs
    have hlen : l.length + 1 ≤ s.queue.size := by
      have := hf.bounded
      rwa [hs] at this
    refine ⟨?_, ?_, ?_, ?_⟩
    · rw [hrest]
      exact le_of_succ_le hlen
    · rw [hrest]
      exact hheld
    · simp [after, hpushed, hfront]
    · refine hf.right_append ⟨iff_of_false false_ne_true ?_, ?_⟩
      · simp [hs]
      · simp [hs, hfront]

theorem Inv.isFifo_peak {push pop : W} (ht : s.step push pop .peak = some t) : t.IsFifo := by
  have hempty := h.empty_iff hf.bounded
  rw [step, call, map_some, Option.some.injEq] at ht
  subst ht
  refine ⟨hf.bounded, hf.held_eq, hf.inOrder, hf.right_append ?_⟩
  cases hs : s.stored with
  | nil => simp [DqRecord.Right, dqPeak, hempty.mpr hs]
  | cons x l =>
    simp [DqRecord.Right, dqPeak, h.not_empty hf hs, (h.held_cons hf hs).1]

variable {push pop : W} {c : DqCall} (ht : s.step push pop c = some t)

include ht

theorem Inv.isFifo_iff : t.IsFifo ↔ s.Fits c := by
  cases c with
  | push item => exact h.isFifo_push_iff hf ht
  | pop => exact iff_of_true (h.isFifo_pop hf ht) trivial
  | peak => exact iff_of_true (h.isFifo_peak hf ht) trivial

theorem Inv.step : t.Inv := by
  have hput := h.put_eq
  cases c with
  | push item =>
    cases hfull : s.queue.full with
    | true =>
      rw [step_push_full push pop item hfull, Option.some.injEq] at ht
      exact ht ▸ ⟨h.size_pos, h.size_lt, h.get_lt, hput⟩
    | false =>
      obtain ⟨k, hk⟩ := step_push push pop item hfull
      rw [hk, Option.some.injEq] at ht
      subst ht
      refine ⟨h.size_pos, h.size_lt, h.get_lt, ?_⟩
      rw [stored_push hf, length_append]
      show (s.queue.putIndex + 1) % 65536 = (s.queue.getIndex + (s.stored.length + 1)) % 65536
      omega
  | pop =>
    cases hs : s.stored with
    | nil =>
      rw [step_pop_empty push pop ((h.empty_iff hf.bounded).mpr hs), Option.some.injEq] at ht
      subst ht
      refine ⟨h.size_pos, h.size_lt, h.get_lt, ?_⟩
      simpa [stored, after] using hput
    | cons x l =>
      obtain ⟨k, hk⟩ := step_pop push pop (h.not_empty hf hs)
      rw [hk, Option.some.injEq] at ht
      subst ht
      refine ⟨h.size_pos, h.size_lt, mod_lt _ (by decide), ?_⟩
      rw [hs, length_cons] at hput
      rw [stored_pop hf hs]
      show s.queue.putIndex = ((s.queue.getIndex + 1) % 65536 + l.length) % 65536
      omega
  | peak =>
    rw [DqRun.step, call, map_some, Option.some.injEq] at ht
    exact ht ▸ ⟨h.size_pos, h.size_lt, h.get_lt, hput⟩

end

theorem data_queue_fifo_iff (push pop : W) (k : Kernel T W) (queue : ℕ → DataItem) (size lwm : BitVec 16)
    (evtNotify : Bool) (hsize : 1 ≤ size.toNat) (calls : List DqCall) :
    StatesAlong (step push pop) IsFifo (start k queue size lwm evtNotify) calls ↔
      StepsAlong (step push pop) Fits (start k queue size lwm evtNotify) calls :=
  statesAlong_iff_stepsAlong_of_kept (fun _ _ _ hi hf _ ht => hi.step hf ht) (fun _ _ _ hi hf ht => hi.isFifo_iff hf ht)
    calls (start_inv k queue hsize lwm evtNotify) (start_isFifo k queue size lwm evtNotify)

def anyItem : DataItem := { dataPtr := 0, dataSize := 0 }

theorem data_queue_fifo_iff_two :
    1 ≤ (2 : BitVec 16).toNat ∧
      (StatesAlong (step true false) IsFifo (start (initKernel (fun _ : Unit => 8)) (fun _ => anyItem) 2 1 true)
          [.push anyItem, .push anyItem, .push anyItem, .peak, .pop, .pop, .pop] ↔
        StepsAlong (step true false) Fits (start (initKernel (fun _ : Unit => 8)) (fun _ => anyItem) 2 1 true)
          [.push anyItem, .push anyItem, .push anyItem, .peak, .pop, .pop, .pop]) :=
  ⟨by decide, data_queue_fifo_iff true false _ _ 2 1 true (by decide) _⟩

structure Used (n : ℕ) (s : DqRun T W) : Prop where
  inv : s.Inv
  isFifo : s.IsFifo
  size_eq : s.queue.size = 1
  stored_eq : s.stored = []
  get_eq : s.queue.getIndex = n % 65536

theorem Used.push (h : s.Used n) (push pop : W) :
    ∃ t, s.step push pop (.push anyItem) = some t ∧ t.Inv ∧ t.IsFifo ∧ t.stored = [anyItem] ∧
    t.queue.size = 1 ∧
      t.queue.getIndex = n % 65536 := by
  have hroom : s.queue.full = false := by
    rw [← not_eq_true, h.inv.full_iff h.isFifo.bounded, h.stored_eq, h.size_eq]
    exact fun hc => absurd hc.1 (by decide)
  have hfits : s.Fits (.push anyItem) := by simp [Fits, h.stored_eq, h.size_eq]
  obtain ⟨k, hk⟩ := step_push push pop anyItem hroom
  refine ⟨_, hk, h.inv.step h.isFifo hk, (h.inv.isFifo_iff h.isFifo hk).mpr hfits, ?_, h.size_eq, h.get_eq⟩
  rw [stored_push h.isFifo, h.stored_eq]
  rfl

theorem Used.pair (h : s.Used n) (push pop : W) :
    ∃ t, run (step push pop) s [.push anyItem, .pop] = some t ∧ t.Used (n + 1) := by
  obtain ⟨u, hpush, hinv, hfifo, hstored, hsize, hget⟩ := h.push push pop
  obtain ⟨k, hpop⟩ := step_pop push pop (hinv.not_empty hfifo hstored)
  refine ⟨_, by rw [run, hpush, bind_some, run, hpop, bind_some, run], hinv.step hfifo hpop,
    hinv.isFifo_pop hfifo hpop, hsize, stored_pop hfifo hstored, ?_⟩
  show (u.queue.getIndex + 1) % 65536 = (n + 1) % 65536
  rw [hget, mod_add_mod]

theorem Used.pairs (n : ℕ) {m : ℕ} (h : s.Used m) (push pop : W) :
    ∃ t, run (step push pop) s (List.replicate n [.push anyItem, .pop]).flatten = some t ∧ t.Used (m + n) := by
  induction n generalizing s m with
  | zero => exact ⟨s, rfl, h⟩
  | succ n ih =>
    obtain ⟨u, hu, hused⟩ := h.pair push pop
    obtain ⟨t, ht, hused'⟩ := ih hused
    refine ⟨t, ?_, by rwa [add_assoc, add_comm 1] at hused'⟩
    rw [List.replicate_succ, flatten_cons, run_append hu, ht]

theorem data_queue_overfull :
    ∃ s, run (step true false) (start (initKernel (fun _ : Unit => 8)) (fun _ => anyItem) 1 1 true)
        ((List.replicate 65535 [.push anyItem, .pop]).flatten ++ [.push anyItem, .push anyItem]) = some s ∧
      s.queue.size = 1 ∧ s.stored = [anyItem, anyItem] ∧ ¬ s.IsFifo := by
  have hstart : (start (initKernel (fun _ : Unit => 8)) (fun _ => anyItem) 1 1 true : DqRun Unit Bool).Used 0 :=
    ⟨start_inv _ _ (by decide) _ _, start_isFifo _ _ _ _ _, rfl, rfl, rfl⟩
  obtain ⟨u, hu, hused⟩ := hstart.pairs 65535 true false
  obtain ⟨v, hpush, hinv, hfifo, hstored, hsize, hget⟩ := hused.push true false
  have hput := hinv.put_eq
  rw [hget, hstored] at hput
  -- the put index has wrapped to 0, so the difference of the indices is not 1
  have hroom : v.queue.full = false := by
    rw [← not_eq_true, hinv.full_iff hfifo.bounded, hget, hput]
    exact fun hc => absurd hc.2 (by decide)
  obtain ⟨k, hk⟩ := step_push true false anyItem hroom
  have htwo : (v.after (.push anyItem) (k, v.queue.put anyItem, false, none)).stored = [anyItem, anyItem] := by
    rw [stored_push hfifo, hstored]
    rfl
  refine ⟨v.after (.push anyItem) (k, v.queue.put anyItem, false, none), ?_, hsize, htwo, ?_⟩
  · rw [run_append hu, run, hpush, bind_some, run, hk, bind_some, run]
  · intro h
    have hbound := h.bounded
    rw [htwo] at hbound
    have : [anyItem, anyItem].length ≤ 1 := hsize ▸ hbound
    exact absurd this (by decide)

end DqRun

end RtThread
