import RtThread.Kernel.ReadyQueue
import RtThread.Ipc.MessageQueue

namespace RtThread

open Transition Pool Function List Option MessageQueue MqPc

variable {T I : Type} [DecidableEq T] [DecidableEq I]

inductive Context (T I : Type)
  | thread (t : T)
  | handler (i : I)
  deriving DecidableEq

def Context.self : Context T I → Option T
  | thread t => some t
  | handler _ => none

def MqPc.held : MqPc → Option ℕ
  | filling _ msg _ => some msg
  | linking _ msg _ => some msg
  | waiting _ _ _ => none
  | copying msg _ _ => some msg
  | freeing msg _ => some msg

inductive MqEntry
  | linked (urgent : Bool) (message : Bytes)
  | taken (message : Bytes)
  | reset
  deriving DecidableEq

def dequeStep (q : List Bytes) : MqEntry → Option (List Bytes)
  | .linked true message => some (message :: q)
  | .linked false message => some (q ++ [message])
  | .taken message => if q.head? = some message then some q.tail else none
  | .reset => some []

structure MqSystem (T I : Type) where
  kernel : Kernel T Unit
  mq : MessageQueue
  pc : Context T I → Option MqPc
  log : List MqEntry

inductive MqEvent (T I : Type)
  | send (c : Context T I) (urgent : Bool) (buffer : Bytes)
  | recv (c : Context T I) (size : ℕ) (timeout : BitVec 32)
  | proceed (c : Context T I)
  | control (cmd : MqCtrl)
  | timeout (t : T)
  | tick

namespace MqSystem

def May (s : MqSystem T I) : Context T I → Prop
  | .thread t => s.kernel.view.stat t = .ready
  | .handler _ => True

instance (s : MqSystem T I) : ∀ c, Decidable (s.May c)
  | .thread _ => decEq _ _
  | .handler _ => isTrue trivial

def dispatch (s : MqSystem T I) : Context T I → Kernel T Unit
  | .thread t => s.kernel.dispatch t
  | .handler _ => s.kernel

def MayWait : Context T I → BitVec 32 → Prop
  | .thread _, _ => True
  | .handler _, timeout => timeout = 0

instance : ∀ (c : Context T I) timeout, Decidable (MayWait c timeout)
  | .thread _, _ => isTrue trivial
  | .handler _, _ => decEq _ _

def recordTaken (log : List MqEntry) : MqOutcome → List MqEntry
  | .inside (.copying _ _ message) => log ++ [.taken message]
  | _ => log

def record (s : MqSystem T I) (c : Context T I) (o : MqOutcome) : List MqEntry :=
  match s.pc c with
  | some (.linking urgent msg _) => s.log ++ [.linked urgent (s.mq.data msg)]
  | _ => recordTaken s.log o

def after (s : MqSystem T I) (c : Context T I) :
    Kernel T Unit × MessageQueue × MqOutcome → MqSystem T I × Option (Err × Bytes)
  | (k, mq, .returned e value) =>
    ({ kernel := k, mq := mq, pc := update s.pc c none, log := s.record c (.returned e value) },
      some (e, value))
  | (k, mq, .inside p) =>
    ({ kernel := k, mq := mq, pc := update s.pc c (some p), log := s.record c (.inside p) }, none)

def exec (s : MqSystem T I) : MqEvent T I → Option (MqSystem T I × Option (Err × Bytes))
  | .send c urgent buffer =>
    if s.May c ∧ s.pc c = none ∧ buffer ≠ [] then
      some (s.after c (s.dispatch c, (if urgent then mqUrgent else mqSend) s.mq buffer))
    else none
  | .recv c size timeout =>
    if s.May c ∧ s.pc c = none ∧ size ≠ 0 ∧ MayWait c timeout then
      (mqRecv (s.dispatch c) () s.mq size timeout).map (s.after c)
    else none
  | .proceed c =>
    if s.May c then
      (s.pc c).bind (fun p => (mqProceed (s.dispatch c) () c.self s.mq p).map (s.after c))
    else none
  | .control cmd =>
    let (k, mq, e) := mqControl s.kernel () s.mq cmd
    some ({ s with
      kernel := k, mq := mq, log := if e = .eok then s.log ++ [.reset] else s.log }, some (e, []))
  | .timeout t => (s.kernel.timerExpire t).map (fun k => ({ s with kernel := k }, none))
  | .tick => some ({ s with kernel := { s.kernel with tick := s.kernel.tick + 1 } }, none)

def step (s : MqSystem T I) (a : MqEvent T I) : Option (MqSystem T I) := (s.exec a).map Prod.fst

structure Initial (s : MqSystem T I) : Prop where
  mq : (∃ next data msgSize poolSize flag, s.mq = mqInit next data msgSize poolSize flag) ∨
    ∃ next data msgSize maxMsgs flag, s.mq = mqCreate next data msgSize maxMsgs flag
  pc : ∀ c, s.pc c = none
  log : s.log = []

end MqSystem

inductive Place (T I : Type)
  | free
  | queued
  | held (c : Context T I)

def lies (free msgs : List ℕ) (pc : Context T I → Option MqPc) (b : ℕ) : Place T I → Prop
  | .free => b ∈ free
  | .queued => b ∈ msgs
  | .held c => (pc c).bind MqPc.held = some b

section

variable {free msgs free' msgs' : List ℕ} {pc : Context T I → Option MqPc} {n b : ℕ} {c : Context T I}
  {p : Option MqPc} {x : Place T I}

theorem lies_update_of_ne {c' : Context T I} (hc : c' ≠ c) :
    lies free' msgs' (update pc c p) b (.held c') ↔ lies free msgs pc b (.held c') := by
  simp [lies, hc]

theorem lies_update_self : lies free msgs (update pc c p) b (.held c) ↔ p.bind MqPc.held = some b := by
  simp [lies]

theorem lies_held_iff (hp : p.bind MqPc.held = some b ↔ (pc c).bind MqPc.held = some b) (c' : Context T I) :
    lies free' msgs' (update pc c p) b (.held c') ↔ lies free msgs pc b (.held c') := by
  by_cases hcc : c' = c
  · subst hcc
    exact lies_update_self.trans hp
  · exact lies_update_of_ne hcc

variable (h : Placed (· < n) (lies free msgs pc))

include h

theorem placed_acquire (hc : (pc c).bind MqPc.held = none)
    (hp : p.bind MqPc.held = some b) (hx : lies free msgs pc b x) (hchain : ∀ c', x ≠ .held c')
    (hfree : ∀ a, a ∈ free' ↔ a ∈ free ∧ a ≠ b) (hmsgs : ∀ a, a ∈ msgs' ↔ a ∈ msgs ∧ a ≠ b) :
    Placed (· < n) (lies free' msgs' (update pc c p)) := by
  refine h.move (y := .held c) hx ?_ ?_
  · intro z
    cases z with
    | free => simp [lies, hfree]
    | queued => simp [lies, hmsgs]
    | held c' =>
      by_cases hcc : c' = c
      · subst hcc
        simpa [lies_update_self] using hp
      · refine ⟨fun hl => absurd (h.eq hx ((lies_update_of_ne hcc).mp hl)) (hchain c'), fun he => ?_⟩
        injection he with he'
        exact absurd he' hcc
  · intro a z ha
    cases z with
    | free => simp [lies, hfree, ha]
    | queued => simp [lies, hmsgs, ha]
    | held c' => exact lies_held_iff (by simp [hc, hp, Ne.symm ha]) c'

theorem placed_deposit (hc : (pc c).bind MqPc.held = some b)
    (hp : p.bind MqPc.held = none) (hchain : ∀ c', x ≠ .held c')
    (hfree : ∀ a, a ∈ free' ↔ a ∈ free ∨ a = b ∧ x = .free)
    (hmsgs : ∀ a, a ∈ msgs' ↔ a ∈ msgs ∨ a = b ∧ x = .queued) :
    Placed (· < n) (lies free' msgs' (update pc c p)) := by
  have hheld : lies free msgs pc b (.held c) := hc
  have hf : b ∉ free := fun hb => nomatch h.eq (y := .free) hheld hb
  have hm : b ∉ msgs := fun hb => nomatch h.eq (y := .queued) hheld hb
  refine h.move (y := x) hheld ?_ ?_
  · intro z
    cases z with
    | free => simp [lies, hfree, hf, eq_comm]
    | queued => simp [lies, hmsgs, hm, eq_comm]
    | held c' =>
      refine ⟨fun hl => ?_, fun he => absurd he.symm (hchain c')⟩
      by_cases hcc : c' = c
      · subst hcc
        rw [lies_update_self, hp] at hl
        cases hl
      · injection h.eq hheld ((lies_update_of_ne hcc).mp hl) with he
        exact absurd he.symm hcc
  · intro a z ha
    cases z with
    | free => simp [lies, hfree, ha]
    | queued => simp [lies, hmsgs, ha]
    | held c' => exact lies_held_iff (by simp [hc, hp, Ne.symm ha]) c'

theorem placed_keep (hp : p.bind MqPc.held = (pc c).bind MqPc.held) :
    Placed (· < n) (lies free msgs (update pc c p)) := by
  have heq : lies free msgs (update pc c p) = lies free msgs pc := by
    funext a z
    cases z with
    | free | queued => rfl
    | held c' => exact propext (lies_held_iff (by rw [hp]) c')
  rwa [heq]

omit [DecidableEq I] [DecidableEq T]

theorem placed_reset : Placed (· < n) (lies (msgs.reverse ++ free) [] pc) := by
  refine h.relocate (fun _ x => match x with | .queued => .free | x => x) ?_
  intro a z
  constructor
  · intro hz
    cases z with
    | free =>
      rcases mem_append.mp hz with hq | hf
      · exact ⟨.queued, mem_reverse.mp hq, rfl⟩
      · exact ⟨.free, hf, rfl⟩
    | queued => exact absurd hz not_mem_nil
    | held c => exact ⟨.held c, hz, rfl⟩
  · rintro ⟨x, hx, rfl⟩
    cases x with
    | free => exact mem_append_right _ hx
    | queued => exact mem_append_left _ (mem_reverse.mpr hx)
    | held c => exact hx

end

def MqPc.Ok (mq : MessageQueue) : MqPc → Prop
  | linking urgent msg buffer =>
    (urgent = false → mq.next msg = none) ∧ (mq.data msg).take buffer.length = buffer
  | copying msg _ message => mq.data msg = message
  | _ => True

theorem MqPc.Ok.congr {mq mq' : MessageQueue} {p : MqPc} (h : p.Ok mq)
    (he : ∀ b, p.held = some b → mq'.next b = mq.next b ∧ mq'.data b = mq.data b) : p.Ok mq' := by
  cases p with
  | linking urgent msg buffer =>
    obtain ⟨hn, hd⟩ := he msg rfl
    exact ⟨fun hu => hn.trans (h.1 hu), by rw [hd]; exact h.2⟩
  | copying msg size message => exact (he msg rfl).2.trans h
  | filling _ _ _ | waiting _ _ _ | freeing _ _ => trivial

namespace MqSystem

structure Consistent (s : MqSystem T I) (free msgs : List ℕ) : Prop where
  layout : s.mq.Layout free msgs
  placed : Placed (· < s.mq.maxMsgs) (lies free msgs s.pc)
  small : s.mq.maxMsgs < 65536
  entry : s.mq.entry = msgs.length
  inFlight : ∀ c p, s.pc c = some p → p.Ok s.mq
  order : run dequeStep [] s.log = some (msgs.map s.mq.data)

def Inv (s : MqSystem T I) : Prop := ∃ free msgs, s.Consistent free msgs

variable {s : MqSystem T I}

section

variable {free msgs : List ℕ} {c : Context T I} {b : ℕ} (h : s.Consistent free msgs) (k : Kernel T Unit)
  (hb : lies free msgs s.pc b (.held c))

section

omit [DecidableEq I] [DecidableEq T]

theorem Initial.inv (h : s.Initial) : s.Inv := by
  obtain ⟨next, data, msgSize, maxMsgs, flag, hmq, hsmall⟩ : ∃ next data msgSize maxMsgs flag,
      s.mq = mqSetup next data msgSize maxMsgs flag ∧ maxMsgs < 65536 := by
    rcases h.mq with ⟨next, data, msgSize, poolSize, flag, hmq⟩ | ⟨next, data, msgSize, maxMsgs, flag, hmq⟩
    · exact ⟨_, _, _, _, _, hmq, Nat.mod_lt _ (by omega)⟩
    · exact ⟨_, _, _, _, _, hmq, Nat.mod_lt _ (by omega)⟩
  have hmax : s.mq.maxMsgs = maxMsgs := by rw [hmq]; rfl
  refine ⟨(List.range maxMsgs).reverse, [], hmq ▸ .setup next data msgSize maxMsgs flag, ?_, ?_, ?_, ?_, ?_⟩
  · rw [hmax]
    refine ⟨fun b hb => ⟨.free, by simpa [lies] using hb, ?_⟩, ?_⟩
    · intro z hz
      cases z with
      | free => rfl
      | queued => exact absurd hz not_mem_nil
      | held c => simp [lies, h.pc] at hz
    · intro b z hz
      cases z with
      | free => simpa [lies] using hz
      | queued => exact absurd hz not_mem_nil
      | held c => simp [lies, h.pc] at hz
  · rw [hmax]; exact hsmall
  · rw [hmq]; rfl
  · intro c p hp
    rw [h.pc] at hp
    cases hp
  · rw [h.log]; rfl

theorem record_of_free (hpc : (s.pc c).bind MqPc.held = none) (o : MqOutcome) :
    s.record c o = recordTaken s.log o := by
  unfold record
  split
  · next hl => simp [hl, held] at hpc
  · rfl

include h

theorem Consistent.length_le : msgs.length ≤ s.mq.maxMsgs := by
  have hsub : msgs ⊆ List.range s.mq.maxMsgs := fun b hb =>
    mem_range.mpr (h.placed.valid b .queued hb)
  simpa using (subperm_of_subset (List.Nodup.of_append_right h.layout.nodup) hsub).length_le

theorem Consistent.of_kernel : Consistent { s with kernel := k } free msgs :=
  ⟨h.layout, h.placed, h.small, h.entry, h.inFlight, h.order⟩

include hb

theorem Consistent.length_lt : msgs.length < s.mq.maxMsgs := by
  have hnot : b ∉ msgs := fun hm => nomatch h.placed.eq (y := .queued) hb hm
  have hsub : b :: msgs ⊆ List.range s.mq.maxMsgs := by
    intro a ha
    rcases mem_cons.mp ha with rfl | ha
    · exact mem_range.mpr (h.placed.valid a _ hb)
    · exact mem_range.mpr (h.placed.valid a .queued ha)
  have hnd := nodup_cons.mpr ⟨hnot, List.Nodup.of_append_right h.layout.nodup⟩
  simpa using (subperm_of_subset hnd hsub).length_le

theorem Consistent.held_notMem : b ∉ free ++ msgs := by
  intro hmem
  rcases mem_append.mp hmem with hf | hm
  · exact nomatch h.placed.eq (y := .free) hb hf
  · exact nomatch h.placed.eq (y := .queued) hb hm

theorem Consistent.held_ne {c' : Context T I} {b' : ℕ} (hc : c' ≠ c) (hb' : lies free msgs s.pc b' (.held c')) :
    b' ≠ b := by
  rintro rfl
  injection h.placed.eq hb hb' with he
  exact hc he.symm

omit hb

theorem Consistent.reset : Inv { s with kernel := k, mq := s.mq.reset, log := s.log ++ [.reset] } := by
  obtain ⟨hdata, hmax, -⟩ := MessageQueue.resetLoop_fields s.mq.maxMsgs s.mq
  have hlayout := h.layout.resetLoop h.length_le
  refine ⟨msgs.reverse ++ free, [], ⟨hlayout.freeChain, hlayout.msgChain, hlayout.nodup, hlayout.tail⟩, ?_, ?_,
    rfl, ?_, ?_⟩
  · simp only [MessageQueue.reset, hmax]
    exact placed_reset h.placed
  · simp only [MessageQueue.reset, hmax]
    exact h.small
  · intro c p hpc
    have hp : s.pc c = some p := hpc
    refine (h.inFlight c p hp).congr (fun b hb => ⟨?_, congrFun hdata b⟩)
    have hheld : lies free msgs s.pc b (.held c) := by simp [lies, hp, hb]
    exact h.layout.resetLoop_next _ (fun hm => h.held_notMem hheld (mem_append_right _ hm))
  · rw [run_concat, h.order]
    rfl

end

include h

variable {mq : MessageQueue} {urgent : Bool} {buffer : Bytes}

theorem Consistent.inFlight_update {p : Option MqPc} (hp : ∀ q, p = some q → q.Ok mq)
    (hkeep : ∀ c' b, c' ≠ c → lies free msgs s.pc b (.held c') →
      mq.next b = s.mq.next b ∧ mq.data b = s.mq.data b) : ∀ c' q, update s.pc c p c' = some q → q.Ok mq := by
  refine (forall_update_iff s.pc (fun _ p => ∀ q, p = some q → q.Ok mq)).mpr ⟨hp, fun c' hc q hq => ?_⟩
  exact (h.inFlight c' q hq).congr (fun b hb => hkeep c' b hc (by simp [lies, hq, hb]))

theorem Consistent.keep {p : Option MqPc} (hp : p.bind held = (s.pc c).bind held)
    (hok : ∀ q, p = some q → q.Ok s.mq) : Inv { s with kernel := k, pc := update s.pc c p } :=
  ⟨free, msgs, h.layout, placed_keep h.placed hp, h.small, h.entry,
    h.inFlight_update hok (fun _ _ _ _ => ⟨rfl, rfl⟩), h.order⟩

theorem Consistent.send {o : MqOutcome} (hpc : s.pc c = none) (he : MqSendEffect s.mq urgent buffer mq o) :
    (s.after c (k, mq, o)).1.Inv := by
  have hnone : (s.pc c).bind held = none := by simp [hpc]
  cases he with
  | failed e =>
    rw [after, record_of_free hnone]
    exact h.keep k (by simp [hnone]) (fun q hq => nomatch hq)
  | @begun msg _ hm =>
    obtain ⟨rfl, rest, rfl, hlayout⟩ := h.layout.takeFree hm
    have hnot := nodup_cons.mp h.layout.nodup
    refine ⟨rest, msgs, hlayout, ?_, h.small, h.entry, ?_, ?_⟩
    · refine placed_acquire h.placed hnone rfl (x := .free) mem_cons_self (fun _ => nofun) ?_ ?_
      · intro a
        have : msg ∉ rest := fun hr => hnot.1 (mem_append_left _ hr)
        grind
      · intro a
        have : msg ∉ msgs := fun hr => hnot.1 (mem_append_right _ hr)
        grind
    · exact h.inFlight_update (fun q hq => by cases hq; trivial) (fun _ _ _ _ => ⟨rfl, rfl⟩)
    · simp only [after, record_of_free hnone, recordTaken, h.order]

theorem Consistent.fill {msg : ℕ} (hpc : s.pc c = some (.filling urgent msg buffer)) :
    (s.after c (k, s.mq.fill urgent msg buffer, .inside (.linking urgent msg buffer))).1.Inv := by
  have hheld : lies free msgs s.pc msg (.held c) := by simp [lies, hpc, held]
  have hnot := h.held_notMem hheld
  refine ⟨free, msgs, h.layout.fill hnot urgent buffer, ?_, h.small, h.entry, ?_, ?_⟩
  · exact placed_keep h.placed (by simp [hpc, held])
  · refine h.inFlight_update (fun q hq => ?_) (fun c' b hc hb => ?_)
    · cases hq
      refine ⟨fun hu => ?_, ?_⟩
      · simp [after, MessageQueue.fill, hu]
      · simp [after, MessageQueue.fill]
    · have hne := h.held_ne hheld hc hb
      refine ⟨?_, by simp [after, MessageQueue.fill, hne]⟩
      cases urgent <;> simp [after, MessageQueue.fill, hne]
  · simp only [after, record, recordTaken, hpc, h.order]
    congr 1
    refine map_congr_left (fun b hb => ?_)
    have hne : b ≠ msg := fun he => hnot (mem_append_right _ (he ▸ hb))
    simp [MessageQueue.fill, hne]

theorem Consistent.link {msg : ℕ} (hpc : s.pc c = some (.linking urgent msg buffer)) :
    (s.after c (k, s.mq.link urgent msg, .returned .eok [])).1.Inv := by
  have hheld : lies free msgs s.pc msg (.held c) := by simp [lies, hpc, held]
  have hnot := h.held_notMem hheld
  have hlt := h.length_lt hheld
  have hentry : (s.mq.entry + 1) % 65536 = msgs.length + 1 := by
    rw [h.entry]
    exact Nat.mod_eq_of_lt (by have := h.small; omega)
  cases urgent with
  | true =>
    refine ⟨free, msg :: msgs, h.layout.linkFront hnot, ?_, h.small, hentry, ?_, ?_⟩
    · exact placed_deposit h.placed (x := .queued) hheld rfl (fun _ => nofun) (by simp) (by simp [or_comm])
    · refine h.inFlight_update (fun q hq => nomatch hq) (fun c' b hc hb => ⟨?_, rfl⟩)
      exact update_of_ne (h.held_ne hheld hc hb) _ _
    · simp only [after, record, hpc, run_concat, h.order]
      rfl
  | false =>
    have hnext := (h.inFlight c _ hpc).1 rfl
    refine ⟨free, msgs ++ [msg], h.layout.linkBack hnot hnext, ?_, h.small, ?_, ?_, ?_⟩
    · exact placed_deposit h.placed (x := .queued) hheld rfl (fun _ => nofun) (by simp) (by simp)
    · rw [length_append]
      exact hentry
    · refine h.inFlight_update (fun q hq => nomatch hq) (fun c' b hc hb => ⟨?_, rfl⟩)
      have hb' := h.held_notMem hb
      have htail := h.layout.tail
      cases hlast : s.mq.tail with
      | none => simp [after, link, linkBack, hlast]
      | some last =>
        have hne : b ≠ last := by
          rintro rfl
          exact hb' (mem_append_right _ (mem_of_getLast? (htail.symm.trans hlast)))
        simp [after, link, linkBack, hlast, hne]
    · simp only [after, record, hpc, run_concat, h.order]
      simp [dequeStep, link, linkBack]

theorem Consistent.recv {o : MqOutcome}
    (hpc : (s.pc c).bind MqPc.held = none) (he : MqRecvEffect s.mq mq o) : (s.after c (k, mq, o)).1.Inv := by
  cases he with
  | returned e =>
    rw [after, record_of_free hpc]
    exact h.keep k (by simp [hpc]) (fun q hq => nomatch hq)
  | waiting size timeout tickDelta =>
    rw [after, record_of_free hpc]
    exact h.keep k (by simp [hpc, held]) (fun q hq => by cases hq; trivial)
  | @taken msg _ size hentry hm =>
    obtain ⟨rest, rfl, hlayout, hnot, hnext, hdata, hmax, hentry'⟩ := h.layout.takeHead hm
    refine ⟨free, rest, hlayout, ?_, hmax ▸ h.small, ?_, ?_, ?_⟩
    · simp only [after, hmax]
      refine placed_acquire h.placed hpc rfl (x := .queued) mem_cons_self (fun _ => nofun) ?_ ?_
      · intro a
        grind
      · intro a
        grind
    · have hlen : s.mq.entry = rest.length + 1 := h.entry
      have hle : rest.length + 1 ≤ s.mq.maxMsgs := h.length_le
      have hsmall := h.small
      simp only [after, hentry', hlen]
      omega
    · exact h.inFlight_update (fun q hq => by cases hq; rfl) (fun _ b _ _ => ⟨congrFun hnext b, congrFun hdata b⟩)
    · simp only [after, record_of_free hpc, recordTaken, run_concat, h.order]
      simp [dequeStep, hdata]

theorem Consistent.copy {msg size : ℕ} {message : Bytes}
    (value : Bytes) (hpc : s.pc c = some (.copying msg size message)) :
    (s.after c (k, s.mq, .inside (.freeing msg value))).1.Inv := by
  simp only [after, record, recordTaken, hpc]
  exact h.keep k (by simp [hpc, held]) (fun q hq => by cases hq; trivial)

theorem Consistent.putFree {msg : ℕ} {value : Bytes} (hpc : s.pc c = some (.freeing msg value)) :
    (s.after c (k, s.mq.putFree msg, .returned .eok value)).1.Inv := by
  have hheld : lies free msgs s.pc msg (.held c) := by simp [lies, hpc, held]
  refine ⟨msg :: free, msgs, h.layout.putFree (h.held_notMem hheld), ?_, h.small, h.entry, ?_, ?_⟩
  · exact placed_deposit h.placed (x := .free) hheld rfl (fun _ => nofun) (by simp [or_comm]) (by simp)
  · refine h.inFlight_update (fun q hq => nomatch hq) (fun c' b hc hb => ⟨?_, rfl⟩)
    exact update_of_ne (h.held_ne hheld hc hb) _ _
  · simp only [after, record, recordTaken, hpc, h.order]
    rfl

theorem Consistent.proceed {k : Kernel T Unit} {p : MqPc}
    {q : Kernel T Unit × MessageQueue × MqOutcome} (hpc : s.pc c = some p)
    (hq : mqProceed k () c.self s.mq p = some q) : (s.after c q).1.Inv := by
  cases p with
  | filling urgent msg buffer =>
    cases hq
    exact h.fill _ hpc
  | linking urgent msg buffer =>
    cases hq
    exact h.link _ hpc
  | waiting size timeout tickDelta =>
    obtain ⟨t, -, hr⟩ := bind_eq_some_iff.mp hq
    have hnone : (s.pc c).bind held = none := by simp [hpc, held]
    exact h.recv q.1 hnone (mqRecvResume_effect hr)
  | copying msg size message =>
    cases hq
    exact h.copy _ _ hpc
  | freeing msg value =>
    cases hq
    exact h.putFree _ hpc

end

theorem Inv.step {s' : MqSystem T I} {a : MqEvent T I} {r : Option (Err × Bytes)} (h : s.Inv)
    (hs : s.exec a = some (s', r)) : s'.Inv := by
  obtain ⟨free, msgs, hi⟩ := h
  cases a with
  | send c urgent buffer =>
    simp only [exec] at hs
    split_ifs at hs with hc hu
    · obtain rfl : (s.after c (s.dispatch c, mqUrgent s.mq buffer)).1 = s' := congrArg Prod.fst (Option.some.inj hs)
      exact hi.send _ hc.2.1 (mqSendBegin_effect s.mq true buffer)
    · obtain rfl : (s.after c (s.dispatch c, mqSend s.mq buffer)).1 = s' := congrArg Prod.fst (Option.some.inj hs)
      exact hi.send _ hc.2.1 (mqSendBegin_effect s.mq false buffer)
  | recv c size timeout =>
    simp only [exec] at hs
    split_ifs at hs with hc
    obtain ⟨q, hq, he⟩ := map_eq_some_iff.mp hs
    have hnone : (s.pc c).bind held = none := by simp [hc.2.1]
    have := hi.recv q.1 hnone (mqRecv_effect hq)
    rwa [he] at this
  | proceed c =>
    simp only [exec] at hs
    split_ifs at hs
    obtain ⟨p, hp, hs⟩ := bind_eq_some_iff.mp hs
    obtain ⟨q, hq, he⟩ := map_eq_some_iff.mp hs
    have := hi.proceed hp hq
    rwa [he] at this
  | control cmd =>
    cases cmd with
    | reset =>
      cases hs
      exact hi.reset _
    | other =>
      cases hs
      exact ⟨free, msgs, hi.of_kernel _⟩
  | timeout t =>
    obtain ⟨k, -, he⟩ := map_eq_some_iff.mp hs
    cases he
    exact ⟨free, msgs, hi.of_kernel _⟩
  | tick =>
    cases hs
    exact ⟨free, msgs, hi.of_kernel _⟩

theorem inv_of_reachable (h : Reachable step (fun _ _ => True) Initial s) : s.Inv := by
  refine h.invariant (fun _ hs => hs.inv) ?_
  intro s a s' hi _ hs
  obtain ⟨⟨_, r⟩, hexec, rfl⟩ := map_eq_some_iff.mp hs
  exact hi.step hexec

end MqSystem

open MqSystem

theorem mq_conserves_blocks_and_order {s : MqSystem T I} (h : Reachable step (fun _ _ => True) Initial s) :
    ∃ free msgs : List ℕ,
      (Links s.mq.next s.mq.free free ∧ Links s.mq.next s.mq.head msgs ∧ free.Nodup ∧ msgs.Nodup ∧
        Placed (· < s.mq.maxMsgs) (lies free msgs s.pc)) ∧
      s.mq.entry = msgs.length ∧
      (s.mq.tail = msgs.getLast? ∧ (s.mq.tail = none ↔ s.mq.head = none)) ∧
      run dequeStep [] s.log = some (msgs.map s.mq.data) ∧
      (∀ c urgent msg buffer, s.pc c = some (.linking urgent msg buffer) →
        (s.mq.data msg).take buffer.length = buffer) ∧
      ∀ c msg size message, s.pc c = some (.copying msg size message) → s.mq.data msg = message := by
  obtain ⟨free, msgs, hi⟩ := inv_of_reachable h
  obtain ⟨hfree, hmsgs, -⟩ := nodup_append.mp hi.layout.nodup
  refine ⟨free, msgs, ⟨hi.layout.freeChain, hi.layout.msgChain, hfree, hmsgs, hi.placed⟩, hi.entry,
    ⟨hi.layout.tail, ?_⟩, hi.order, ?_, ?_⟩
  · rw [hi.layout.tail, hi.layout.msgChain.head, getLast?_eq_none_iff, head?_eq_none_iff]
  · intro c urgent msg buffer hpc
    exact (hi.inFlight c _ hpc).2
  · intro c msg size message hpc
    exact hi.inFlight c _ hpc

def twoMessages : MqSystem Tid Unit where
  kernel := bootKernel Tid.priority [.startup .mid, .startup .low, .schedulerStart]
  mq := mqCreate (fun _ => none) (fun _ => [0, 0, 0, 0]) 3 2 .fifo
  pc _ := none
  log := []

theorem twoMessages_initial : twoMessages.Initial := ⟨.inr ⟨_, _, _, _, _, rfl⟩, fun _ => rfl, rfl⟩

def overtaken : List (MqEvent Tid Unit) :=
  [.send (.thread .mid) false [1, 2], .proceed (.thread .mid), .send (.handler ()) true [7],
    .proceed (.handler ()), .proceed (.thread .mid), .proceed (.handler ()), .recv (.thread .low) 4 0]

theorem mq_conserves_blocks_and_order_overtaken : ∃ s, run step twoMessages overtaken = some s ∧
    s.log = [.linked false [1, 2, 0, 0], .linked true [7, 0, 0, 0], .taken [7, 0, 0, 0]] ∧
    s.mq.entry = 1 ∧ ∃ free msgs, Placed (· < s.mq.maxMsgs) (lies free msgs s.pc) ∧
      s.mq.entry = msgs.length ∧ run dequeStep [] s.log = some (msgs.map s.mq.data) := by
  refine exists_some_and_and (by decide +kernel) (fun s hs _ _ => ?_)
  have hreach : Reachable step (fun _ _ => True) Initial s := .of_free_run twoMessages_initial hs
  obtain ⟨free, msgs, ⟨_, _, _, _, hplaced⟩, hlen, _, horder, _⟩ := mq_conserves_blocks_and_order hreach
  exact ⟨free, msgs, hplaced, hlen, horder⟩

end RtThread
