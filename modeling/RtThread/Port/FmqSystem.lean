import RtThread.Ipc.MailboxSystem
import RtThread.Port.Fmq

namespace RtThread

open Transition Function Option Fmq

variable {T W B : Type} [DecidableEq T] [DecidableEq W] [DecidableEq B]

inductive FmqEffect (k : Kernel T W) (op : FmqOp W) (t : T) (q : Fmq) : Kernel T W → Fmq → FmqOutcome → Prop
  | failed {k' : Kernel T W} {e : Err} (errno : Err) (hstuck : k.view.error t = .eok → op.stuck q = true)
      (hk : k'.Wf) (hv : k'.view = k.view.setError t errno) :
      FmqEffect k op t q k' q (.returned e none)
  | parked {k' : Kernel T W} (timeout tickDelta : BitVec 32) (hstuck : op.stuck q = true) (hk : k'.Wf)
      (hv : k'.view = k.view.parked op.wait q.flag t) :
      FmqEffect k op t q k' q (.blocked timeout tickDelta)
  | done {q' : Fmq} {v : Option (List (BitVec 8))} (hfree : op.stuck q = false) (hq : op.apply q = some (q', v)) :
      FmqEffect k op t q ((k.dispatch t).wakeFirst op.wake) q' (.returned .eok v)

namespace Kernel.Wf

variable {k k' : Kernel T W} {op : FmqOp W} {t : T} {q q' : Fmq} {timeout tickDelta : BitVec 32}
  {r : FmqOutcome}

variable (hk : k.Wf) (hr : k.view.stat t = .ready)

include hk hr

theorem fmqLoop (h : RtThread.fmqLoop (k.dispatch t) op q timeout = some (k', q', r)) : FmqEffect k op t q k' q' r := by
  cases fmqLoop_turn h with
  | waits hstuck hj =>
    obtain ⟨hw, heff⟩ := hk.waitOn hr hj
    cases heff with
    | refused hv => exact .failed _ (fun _ => hstuck) hw hv
    | parked p hv => exact .parked p.1 p.2 hstuck hw hv
  | done hfree hq => exact .done hfree hq

theorem fmqCall (h : RtThread.fmqCall (k.dispatch t) op q timeout = some (k', q', r)) : FmqEffect k op t q k' q' r := by
  unfold RtThread.fmqCall at h
  split_ifs at h with hz
  · cases h
    refine .failed (k.view.error t) (fun _ => hz.1) (hk.dispatch t) ?_
    rw [View.setError_self, dispatch_view]
  · exact hk.fmqLoop hr h

theorem fmqResume (h : RtThread.fmqResume (k.dispatch t) op t q timeout tickDelta = some (k', q', r)) :
    FmqEffect k op t q k' q' r := by
  unfold RtThread.fmqResume at h
  split_ifs at h with he
  · cases h
    refine .failed (k.view.error t) (fun hok => absurd hok he) (hk.dispatch t) ?_
    rw [View.setError_self, dispatch_view]
  · exact hk.fmqLoop hr h

end Kernel.Wf

inductive FmqReq (B : Type)
  | send (b : B) (pos : CopyPosition) (value : ℕ → BitVec 8)
  | recv (b : B) (peek : Bool)

namespace FmqReq

def box : FmqReq B → B
  | send b _ _ => b
  | recv b _ => b

def side : FmqReq B → Side
  | send _ _ _ => .senders
  | recv _ _ => .receivers

def op : FmqReq B → FmqOp (B × Side)
  | send b pos value => fmqSendOp (b, .receivers) (b, .senders) pos value
  | recv b peek => fmqRecvOp (b, .receivers) (b, .senders) peek

def call (k : Kernel T (B × Side)) (q : Fmq) (timeout : BitVec 32) :
    FmqReq B → Option (Kernel T (B × Side) × Fmq × FmqOutcome)
  | send b pos value => fmqSend k (b, .receivers) (b, .senders) q value pos timeout
  | recv b peek => fmqRecv k (b, .receivers) (b, .senders) q peek timeout

theorem call_eq (req : FmqReq B) (k : Kernel T (B × Side)) (q : Fmq) (timeout : BitVec 32) :
    req.call k q timeout = fmqCall k req.op q timeout := by
  cases req <;> rfl

omit [DecidableEq B]

theorem op_wait (req : FmqReq B) : req.op.wait = (req.box, req.side) := by cases req <;> rfl

def Parks : FmqReq B → Prop
  | send _ pos _ => pos ≠ .overwrite
  | recv _ _ => True

theorem parks_of_stuck {req : FmqReq B} {q : Fmq} (h : req.op.stuck q = true) : req.Parks := by
  cases req with
  | send b pos value =>
    have hfull : q.entry = q.size ∧ pos ≠ .overwrite := by simpa [op, fmqSendOp] using h
    exact hfull.2
  | recv b peek => trivial

def Peeks : FmqReq B → Prop
  | send _ _ _ => False
  | recv _ peek => peek = true

end FmqReq

namespace Fmq

variable {q q' : Fmq}

def owed (q : Fmq) : Side → ℕ
  | .receivers => q.entry
  | .senders => q.size - q.entry

structure Counted (q : Fmq) : Prop where
  size_lt : q.size < 65536
  entry_lt : q.entry < 65536
  entry_le : q.size = 0 ∨ q.entry ≤ q.size

theorem counted_create (pool : ℕ → BitVec 8) (item size : BitVec 32) (flag : IpcFlag) :
    (fmqCreate pool item size flag).Counted :=
  ⟨Nat.mod_lt _ (by decide), by simp [fmqCreate], Or.inr (Nat.zero_le _)⟩

theorem write_counters {k : ℕ} {value : ℕ → BitVec 8} (h : q.write k value = some q') :
    q'.size = q.size ∧ q'.entry = q.entry := by
  unfold write at h
  split_ifs at h
  cases h
  exact ⟨rfl, rfl⟩

theorem put_counters {pos : CopyPosition} {value : ℕ → BitVec 8} (h : q.put pos value = some q') :
    q'.size = q.size ∧
      q'.entry = if q.entry = 0 ∨ pos ≠ .overwrite then (q.entry + 1) % 65536
        else ((q.entry + 65535) % 65536 + 1) % 65536 := by
  by_cases hback : q.entry = 0 ∨ pos = .back
  · rw [put, if_pos hback] at h
    obtain ⟨p, hp, rfl⟩ := map_eq_some_iff.mp h
    obtain ⟨hsize, hentry⟩ := write_counters hp
    have hcond : q.entry = 0 ∨ pos ≠ .overwrite := hback.imp_right (fun he => by simp [he])
    exact ⟨hsize, by rw [if_pos hcond, ← hentry]⟩
  · rw [put, if_neg hback] at h
    by_cases hover : pos = .overwrite
    · rw [if_pos hover] at h
      obtain ⟨p, hp, rfl⟩ := map_eq_some_iff.mp h
      obtain ⟨hsize, hentry⟩ := write_counters hp
      have hcond : ¬(q.entry = 0 ∨ pos ≠ .overwrite) := by
        rintro (hz | hne)
        · exact hback (Or.inl hz)
        · exact hne hover
      exact ⟨hsize, by rw [if_neg hcond, ← hentry]⟩
    · rw [if_neg hover] at h
      obtain ⟨p, hp, rfl⟩ := map_eq_some_iff.mp h
      obtain ⟨hsize, hentry⟩ := write_counters hp
      exact ⟨hsize, by rw [if_pos (Or.inr hover), ← hentry]⟩

theorem take_counters {peek : Bool} {v : List (BitVec 8)} (h : q.take peek = some (q', v)) :
    (peek = true → q' = q) ∧
      (peek = false → q'.size = q.size ∧ q'.entry = (q.entry + 65535) % 65536) := by
  obtain ⟨u, -, he⟩ := map_eq_some_iff.mp h
  cases he
  exact ⟨fun hp => by simp [hp], fun hp => by simp [hp]⟩

end Fmq

namespace FmqReq

omit [DecidableEq B]

theorem owed_stuck {req : FmqReq B} {q : Fmq} (h : req.op.stuck q = true) : q.owed req.side = 0 := by
  cases req with
  | send b pos value =>
    have hfull : q.entry = q.size ∧ pos ≠ .overwrite := by simpa [op, fmqSendOp] using h
    simp [side, owed, hfull.1]
  | recv b peek => simpa [op, fmqRecvOp, side, owed] using h

structure Passed (req : FmqReq B) (q q' : Fmq) : Prop where
  counted : q'.Counted
  size : q'.size = q.size
  same : req.Peeks → q' = q
  uses : req.Parks → ¬req.Peeks → q'.owed req.side ≤ q.owed req.side - 1
  own : q'.owed req.side ≤ q.owed req.side
  other : q'.owed req.side.other ≤ q.owed req.side.other + 1

theorem passed {req : FmqReq B} {q q' : Fmq} {v : Option (List (BitVec 8))} (hq : q.Counted)
    (hfree : req.op.stuck q = false) (h : req.op.apply q = some (q', v)) : req.Passed q q' := by
  obtain ⟨hsize, hentry, hle⟩ := hq
  cases req with
  | send b pos value =>
    obtain ⟨p, hp, he⟩ := map_eq_some_iff.mp h
    cases he
    obtain ⟨hs, hn⟩ := put_counters hp
    have hfull : q.entry = q.size → pos = .overwrite := by simpa [op, fmqSendOp] using hfree
    by_cases hpos : pos = .overwrite
    · by_cases hz : q.entry = 0
      · rw [if_pos (Or.inl hz)] at hn
        refine ⟨⟨by omega, by omega, by omega⟩, hs, False.elim, fun hparks => absurd hpos hparks, ?_, ?_⟩
        all_goals simp only [side, Side.other, owed]; omega
      · rw [if_neg (by simp [hz, hpos])] at hn
        refine ⟨⟨by omega, by omega, by omega⟩, hs, False.elim, fun hparks => absurd hpos hparks, ?_, ?_⟩
        all_goals simp only [side, Side.other, owed]; omega
    · rw [if_pos (Or.inr hpos)] at hn
      have hne : q.entry ≠ q.size := fun he => hpos (hfull he)
      refine ⟨⟨by omega, by omega, by omega⟩, hs, False.elim, fun _ _ => ?_, ?_, ?_⟩
      all_goals simp only [side, Side.other, owed]; omega
  | recv b peek =>
    obtain ⟨⟨p, u⟩, hp, he⟩ := map_eq_some_iff.mp h
    obtain ⟨rfl, -⟩ : p = q' ∧ some u = v := Prod.mk.inj he
    obtain ⟨hsame, hchange⟩ := take_counters hp
    have hne : q.entry ≠ 0 := by simpa [op, fmqRecvOp] using hfree
    cases hpeek : peek with
    | true =>
      rw [hsame hpeek]
      exact ⟨⟨hsize, hentry, hle⟩, rfl, fun _ => rfl, fun _ hnot => absurd rfl hnot, le_rfl, Nat.le_succ _⟩
    | false =>
      obtain ⟨hs, hn⟩ := hchange hpeek
      refine ⟨⟨by omega, by omega, by omega⟩, hs, fun hp => (by cases hp), fun _ _ => ?_, ?_, ?_⟩
      all_goals simp only [side, Side.other, owed]; omega

end FmqReq

structure FmqSystem (T B : Type) where
  kernel : Kernel T (B × Side)
  queue : B → Fmq
  pc : T → Option (FmqReq B × BitVec 32 × BitVec 32)

inductive FmqEvent (T B : Type)
  | call (t : T) (req : FmqReq B) (timeout : BitVec 32)
  | resume (t : T)
  | isr (req : FmqReq B)
  | timeout (t : T)
  | tick

namespace FmqSystem

def Running (s : FmqSystem T B) (t : T) : Prop := s.kernel.view.stat t = .ready ∧ s.pc t = none

instance (s : FmqSystem T B) (t : T) : Decidable (s.Running t) := instDecidableAnd

def loc (pc : T → Option (FmqReq B × BitVec 32 × BitVec 32)) (t : T) : Option (B × Side) :=
  (pc t).map (fun p => (p.1.box, p.1.side))

def after (s : FmqSystem T B) (req : FmqReq B) (leave : T → Option (FmqReq B × BitVec 32 × BitVec 32))
    (stay : BitVec 32 → BitVec 32 → T → Option (FmqReq B × BitVec 32 × BitVec 32)) :
    Kernel T (B × Side) × Fmq × FmqOutcome → FmqSystem T B
  | (k, q, .returned _ _) => { kernel := k, queue := update s.queue req.box q, pc := leave }
  | (k, q, .blocked timeout tickDelta) =>
    { kernel := k, queue := update s.queue req.box q, pc := stay timeout tickDelta }

def afterThread (s : FmqSystem T B) (t : T) (req : FmqReq B) :
    Kernel T (B × Side) × Fmq × FmqOutcome → FmqSystem T B :=
  s.after req (update s.pc t none)
    (fun timeout tickDelta => update s.pc t (some (req, timeout, tickDelta)))

def step (s : FmqSystem T B) : FmqEvent T B → Option (FmqSystem T B)
  | .call t req timeout =>
    if s.Running t then
      (req.call (s.kernel.dispatch t) (s.queue req.box) timeout).map (s.afterThread t req)
    else none
  | .resume t =>
    match s.pc t with
    | none => none
    | some (req, timeout, tickDelta) =>
      if s.kernel.view.stat t = .ready then
        (fmqResume (s.kernel.dispatch t) req.op t (s.queue req.box) timeout tickDelta).map (s.afterThread t req)
      else none
  | .isr req => (req.call s.kernel (s.queue req.box) 0).map (s.after req s.pc (fun _ _ => s.pc))
  | .timeout t => (s.kernel.timerExpire t).map (fun k => { s with kernel := k })
  | .tick => some { s with kernel := { s.kernel with tick := s.kernel.tick + 1 } }

structure Initial (s : FmqSystem T B) : Prop where
  wf : s.kernel.Wf
  waiting : ∀ w, s.kernel.view.waiting w = []
  pc : ∀ t, s.pc t = none
  queue : ∀ b, ∃ pool item size flag, s.queue b = fmqCreate pool item size flag

def PeekSafe (s : FmqSystem T B) : FmqEvent T B → Prop
  | .resume t => ∀ p, s.pc t = some p → p.1.Peeks → s.kernel.view.error t = .eok →
      s.kernel.view.waiting (p.1.box, .receivers) = [] ∨
        (s.queue p.1.box).entry < (s.kernel.woken (loc s.pc) (p.1.box, .receivers)).ncard
  | _ => True

def owed (queue : B → Fmq) (w : B × Side) : ℕ := (queue w.1).owed w.2

structure Inv (s : FmqSystem T B) : Prop where
  covered : s.kernel.Covered (loc s.pc) (owed s.queue)
  counted : ∀ b, (s.queue b).Counted
  parks : ∀ t p, s.pc t = some p → p.1.Parks

variable {s : FmqSystem T B}

section

omit [DecidableEq B] [DecidableEq T]

theorem Initial.inv (h : s.Initial) : s.Inv := by
  have hpc : loc s.pc = fun _ => none := funext (fun t => by simp [loc, h.pc])
  refine ⟨hpc ▸ Kernel.Covered.start h.wf h.waiting _, fun b => ?_, fun t p hp => ?_⟩
  · obtain ⟨pool, item, size, flag, hb⟩ := h.queue b
    rw [hb]
    exact counted_create pool item size flag
  · rw [h.pc t] at hp
    cases hp

theorem woken_eq_empty {w : B × Side}
    (h : ∀ t, s.pc t = none ∨ s.kernel.view.stat t ≠ .ready) : s.kernel.woken (loc s.pc) w = ∅ := by
  refine Set.eq_empty_of_forall_notMem (fun t ht => ?_)
  rcases h t with hpc | hstat
  · exact Kernel.woken_none (by simp [loc, hpc]) ht
  · exact hstat ht.2.1

end

section

omit [DecidableEq B]

theorem loc_update (pc : T → Option (FmqReq B × BitVec 32 × BitVec 32)) (t : T)
    (p : Option (FmqReq B × BitVec 32 × BitVec 32)) :
    loc (update pc t p) = update (loc pc) t (p.map (fun p => (p.1.box, p.1.side))) :=
  comp_update _ pc t p

theorem parks_update {pc : T → Option (FmqReq B × BitVec 32 × BitVec 32)} {t : T}
    {p : Option (FmqReq B × BitVec 32 × BitVec 32)} (h : ∀ u r, pc u = some r → r.1.Parks)
    (hp : ∀ r, p = some r → r.1.Parks) : ∀ u r, update pc t p u = some r → r.1.Parks :=
  (forall_update_iff pc (fun _ p => ∀ r, p = some r → r.1.Parks)).mpr ⟨hp, fun u _ => h u⟩

end

theorem counted_update {queue : B → Fmq} (h : ∀ b, (queue b).Counted) {b : B} {q : Fmq} (hq : q.Counted) :
    ∀ b', (update queue b q b').Counted :=
  (forall_update_iff queue (fun _ q => q.Counted)).mpr ⟨hq, fun b' _ => h b'⟩

theorem owed_update_of_ne (queue : B → Fmq) {b : B} {side : Side} {w : B × Side} (q : Fmq) (hw : w ≠ (b, side))
    (hw' : w ≠ (b, side.other)) : owed (update queue b q) w = owed queue w := by
  have hb : w.1 ≠ b := by
    intro hb
    rcases Side.eq_or_other side w.2 with he | he
    · exact hw (Prod.ext hb he)
    · exact hw' (Prod.ext hb he)
  rw [owed, owed, update_of_ne hb]

theorem covered_wake {k : Kernel T (B × Side)} {pc : T → Option (B × Side)} {queue : B → Fmq} {req : FmqReq B}
    {q' : Fmq} (hk : k.Covered pc (update (owed queue) (req.box, req.side) (q'.owed req.side)))
    (hp : req.Passed (queue req.box) q') : (k.wakeFirst req.op.wake).Covered pc (owed (update queue req.box q')) := by
  have hne : ((req.box, req.side.other) : B × Side) ≠ (req.box, req.side) := by
    simpa using req.side.other_ne
  have hself : ∀ w, w ≠ (req.box, req.side.other) → owed (update queue req.box q') w ≤
      update (owed queue) (req.box, req.side) (q'.owed req.side) w := by
    intro w hw
    by_cases he : w = (req.box, req.side)
    · subst he
      simp [owed]
    · rw [update_of_ne he, owed_update_of_ne queue q' he hw]
  have hresume : (k.resumeFirst (req.box, req.side.other)).Covered pc (owed (update queue req.box q')) := by
    refine hk.resumeFirst ?_ hself
    rw [update_of_ne hne]
    simpa [owed] using hp.other
  cases req with
  | send b pos value => exact hresume
  | recv b peek =>
    cases peek with
    | false => exact hresume
    | true =>
      have hsame : q' = queue b := hp.same rfl
      refine hk.mono (fun w => ?_)
      by_cases he : w = (b, .senders)
      · subst he
        simp [owed, hsame, FmqReq.box, FmqReq.side]
      · exact hself w he

section Effect

variable {s : FmqSystem T B} {t : T} {req : FmqReq B} {k : Kernel T (B × Side)}

theorem Inv.effect (h : s.Inv) {q : Fmq} {r : FmqOutcome} (hr : s.kernel.view.stat t = .ready)
    (hpc : ∀ w, t ∈ s.kernel.woken (loc s.pc) w → w = (req.box, req.side))
    (hparks : t ∈ s.kernel.woken (loc s.pc) (req.box, req.side) → req.Parks)
    (hpeek : t ∈ s.kernel.woken (loc s.pc) (req.box, req.side) → req.Peeks →
      s.kernel.view.waiting (req.box, req.side) = [] ∨
        (s.queue req.box).owed req.side < (s.kernel.woken (loc s.pc) (req.box, req.side)).ncard)
    (he : FmqEffect s.kernel req.op t (s.queue req.box) k q r) : (s.afterThread t req (k, q, r)).Inv := by
  have hgone : loc (update s.pc t none) = update (loc s.pc) t none := loc_update s.pc t none
  have hparks' := parks_update (t := t) (p := none) h.parks (fun r hr => by cases hr)
  cases he with
  | failed errno hstuck hk hv =>
    refine ⟨?_, counted_update h.counted (h.counted _), hparks'⟩
    simp only [afterThread, after, hgone, update_eq_self]
    refine h.covered.fail hr (fun w ht => ?_) hk hv
    rw [hpc w ht]
    exact FmqReq.owed_stuck (hstuck ht.2.2)
  | parked timeout tickDelta hstuck hk hv =>
    refine ⟨?_, counted_update h.counted (h.counted _), parks_update h.parks (fun r hr => ?_)⟩
    · have hloc : loc (update s.pc t (some (req, timeout, tickDelta))) =
          update (loc s.pc) t (some (req.box, req.side)) := loc_update s.pc t _
      simp only [afterThread, after, hloc, update_eq_self]
      rw [req.op_wait] at hv
      exact h.covered.block hr (FmqReq.owed_stuck hstuck) hpc hk hv
    · cases hr
      exact FmqReq.parks_of_stuck hstuck
  | done hfree hq =>
    have hp := FmqReq.passed (h.counted req.box) hfree hq
    refine ⟨?_, counted_update h.counted hp.counted, hparks'⟩
    simp only [afterThread, after, hgone]
    refine covered_wake (Kernel.Covered.dispatch (h.covered.leave hr ?_ ?_) t) hp
    · intro w ht hne
      obtain rfl := hpc w ht
      rw [update_self]
      by_cases hpk : req.Peeks
      · rw [hp.same hpk]
        have := (hpeek ht hpk).resolve_left hne
        omega
      · have := hp.uses (hparks ht) hpk
        have hcover : (s.queue req.box).owed req.side ≤ _ := h.covered.cover (req.box, req.side) hne
        omega
    · exact fun w _ => update_le_self_iff.mpr hp.own w

end Effect

theorem Inv.isr (h : s.Inv) {req : FmqReq B} {r : Kernel T (B × Side) × Fmq × FmqOutcome}
    (hr : req.call s.kernel (s.queue req.box) 0 = some r) : (s.after req s.pc (fun _ _ => s.pc) r).Inv := by
  rw [req.call_eq, fmqCall, fmqLoop] at hr
  cases hstuck : req.op.stuck (s.queue req.box) with
  | true =>
    rw [if_pos ⟨hstuck, rfl⟩] at hr
    cases hr
    simpa [after] using h
  | false =>
    simp only [hstuck, Bool.false_eq_true, false_and, if_false] at hr
    obtain ⟨⟨q', v⟩, hq, rfl⟩ := map_eq_some_iff.mp hr
    have hp := FmqReq.passed (h.counted req.box) hstuck hq
    exact ⟨covered_wake (h.covered.mono (update_le_self_iff.mpr hp.own)) hp, counted_update h.counted hp.counted,
      h.parks⟩

theorem Inv.step {s' : FmqSystem T B} {c : FmqEvent T B} (h : s.Inv) (hc : s.PeekSafe c)
    (hs : s.step c = some s') : s'.Inv := by
  cases c with
  | call t req timeout =>
    simp only [FmqSystem.step] at hs
    split_ifs at hs with hrun
    obtain ⟨⟨k, q, r⟩, hq, rfl⟩ := map_eq_some_iff.mp hs
    have hnot (w : B × Side) : t ∉ s.kernel.woken (loc s.pc) w := Kernel.woken_none (by simp [loc, hrun.2])
    rw [req.call_eq] at hq
    exact h.effect hrun.1 (fun w ht => absurd ht (hnot w)) (fun ht => absurd ht (hnot _))
      (fun ht => absurd ht (hnot _)) (h.covered.parked.wf.fmqCall hrun.1 hq)
  | resume t =>
    simp only [FmqSystem.step] at hs
    cases hpc : s.pc t with
    | none => simp [hpc] at hs
    | some p =>
      obtain ⟨req, timeout, tickDelta⟩ := p
      simp only [hpc] at hs
      split_ifs at hs with hr
      obtain ⟨⟨k, q, r⟩, hq, rfl⟩ := map_eq_some_iff.mp hs
      refine h.effect hr ?_ (fun _ => h.parks t _ hpc) ?_ (h.covered.parked.wf.fmqResume hr hq)
      · intro w ht
        have hw : loc s.pc t = some w := ht.1
        simpa [loc, hpc] using hw.symm
      · intro ht hpeek
        cases req with
        | send b pos value => exact absurd hpeek False.elim
        | recv b peek => exact hc _ hpc hpeek ht.2.2
  | isr req =>
    obtain ⟨r, hr, rfl⟩ := map_eq_some_iff.mp hs
    exact h.isr hr
  | timeout t =>
    obtain ⟨k, hk, rfl⟩ := map_eq_some_iff.mp hs
    exact ⟨h.covered.expire hk, h.counted, h.parks⟩
  | tick =>
    cases hs
    exact ⟨h.covered.tick _, h.counted, h.parks⟩

theorem inv_of_reachable (h : Reachable step PeekSafe Initial s) : s.Inv :=
  h.invariant (fun _ hs => hs.inv) (fun _ _ _ hi hc hs => hi.step hc hs)

theorem fmq_no_lost_wakeup {s : FmqSystem T B} (h : Reachable step PeekSafe Initial s) (b : B) :
    (s.kernel.woken (loc s.pc) (b, .receivers) = ∅ → 0 < (s.queue b).entry →
      s.kernel.view.waiting (b, .receivers) = []) ∧
    (s.kernel.woken (loc s.pc) (b, .senders) = ∅ → (s.queue b).entry < (s.queue b).size →
      s.kernel.view.waiting (b, .senders) = []) := by
  have hi := inv_of_reachable h
  refine ⟨fun hw hpos => hi.covered.quiet hw ?_, fun hw hlt => hi.covered.quiet hw ?_⟩
  · simp only [owed, Fmq.owed]
    omega
  · simp only [owed, Fmq.owed]
    omega

def threeTasks : FmqSystem Tid Unit where
  kernel := bootKernel Tid.priority [.startup .low, .startup .mid, .startup .high, .schedulerStart]
  queue _ := fmqCreate (fun _ => 0) 4 2 .prio
  pc _ := none

theorem threeTasks_initial : threeTasks.Initial := by
  have hwf : (bootKernel Tid.priority [.startup .low, .startup .mid, .startup .high, .schedulerStart] :
      Kernel Tid (Unit × Side)).Wf := bootKernel_wf (by decide) _
  have hw : ∀ b side, threeTasks.kernel.view.waiting (b, side) = [] := by
    intro b side
    cases side with
    | receivers | senders => revert b; decide +kernel
  exact ⟨hwf, fun w => hw w.1 w.2, fun _ => rfl, fun _ => ⟨_, _, _, _, rfl⟩⟩

theorem fmq_no_lost_wakeup_lonePeeker : ∃ s : FmqSystem Tid Unit, Reachable step PeekSafe Initial s ∧
    (s.queue ()).entry = 1 ∧ s.kernel.view.waiting ((), .receivers) = [] := by
  obtain ⟨s, hs, hquiet, u, hu, hentry, hlow, hmid, hhigh⟩ : ∃ s, run step threeTasks
          [.call .mid (.recv () true) 0xffffffff, .call .high (.send () .back fun _ => 7) 0] = some s ∧
        s.kernel.view.waiting ((), .receivers) = [] ∧ ∃ u, s.step (.resume .mid) = some u ∧
          (u.queue ()).entry = 1 ∧ u.pc .low = none ∧ u.pc .mid = none ∧ u.pc .high = none := by decide +kernel
  have hsafe : s.PeekSafe (.resume .mid) := fun _ _ _ _ => Or.inl hquiet
  have hreach : Reachable step PeekSafe Initial u := by
    refine .next (.of_run (.start threeTasks_initial) ?_ hs) hsafe hu
    exact fun _ _ => ⟨trivial, fun _ _ => ⟨trivial, trivial⟩⟩
  have hwoken : u.kernel.woken (loc u.pc) ((), .receivers) = ∅ :=
    woken_eq_empty (fun t => by cases t <;> simp [hlow, hmid, hhigh])
  exact ⟨u, hreach, hentry, (fmq_no_lost_wakeup hreach ()).1 hwoken (by omega)⟩

theorem fmq_peek_loses_wakeup : ∃ s : FmqSystem Tid Unit, Reachable step (fun _ _ => True) Initial s ∧
    (∀ w, s.kernel.woken (loc s.pc) w = ∅) ∧ (s.queue ()).entry = 1 ∧
    s.kernel.view.waiting ((), .receivers) = [.low] := by
  obtain ⟨s, hs, hentry, hwait, hlow, hmid, hhigh⟩ : ∃ s, run step threeTasks
      [.call .mid (.recv () true) 0xffffffff, .call .low (.recv () false) 0xffffffff,
        .call .high (.send () .back fun _ => 7) 0, .resume .mid] = some s ∧ (s.queue ()).entry = 1 ∧
        s.kernel.view.waiting ((), .receivers) = [.low] ∧
      s.kernel.view.stat .low ≠ .ready ∧ s.pc .mid = none ∧ s.pc .high = none := by decide +kernel
  have hreach : Reachable step (fun _ _ => True) Initial s := .of_free_run threeTasks_initial hs
  refine ⟨s, hreach, fun w => woken_eq_empty (fun t => ?_), hentry, hwait⟩
  cases t with
  | low => exact Or.inr hlow
  | mid => exact Or.inl hmid
  | high => exact Or.inl hhigh

end FmqSystem

end RtThread
