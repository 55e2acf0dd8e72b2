import RtThread.Ipc.MqSystem

/-!
`mq_send`, `mq_receive` and `mq_timedreceive` of `mqueue.c` over the message queue of the kernel.
-/

namespace RtThread

open Transition Function Option List MqSystem

inductive MqErrno
  | ebadf | etimedout | ebadmsg
  deriving DecidableEq

def posixMqReceive (result : Err) (msgLen : ℕ) : Except MqErrno ℕ :=
  if result = .eok then .ok msgLen else .error .ebadf

def posixMqTimedreceive (result : Err) (msgLen : ℕ) : Except MqErrno ℕ :=
  if result = .eok then .ok msgLen
  else if result = .etimeout then .error .etimedout
  else .error .ebadmsg

structure MqReturn (T : Type) where
  receiver : T
  turn : ℕ
  length : ℕ
  buffer : Bytes
  deriving DecidableEq

structure PosixMq (T : Type) where
  sys : MqSystem T Empty
  msgLen : T → ℕ
  timed : T → Bool
  sent : List (T × Bytes)
  takes : ℕ
  turn : T → ℕ
  returns : List (MqReturn T)

inductive PosixMqEvent (T : Type)
  | send (t : T) (msg : Bytes)
  | receive (t : T) (msgLen : ℕ)
  | timedreceive (t : T) (msgLen : ℕ) (tick : BitVec 32)
  | proceed (t : T)
  | timeout (t : T)
  | tick

namespace PosixMq

variable {T : Type} [DecidableEq T]

def took (sys : MqSystem T Empty) (t : T) : Bool :=
  match sys.pc (.thread t) with
  | some (.copying _ _ _) => true
  | _ => false

def sentAfter (s : PosixMq T) (t : T) : List (T × Bytes) :=
  match s.sys.pc (.thread t) with
  | some (.linking _ _ buffer) => s.sent ++ [(t, buffer)]
  | _ => s.sent

def returnsAfter (s : PosixMq T) (t : T) (r : Option (Err × Bytes)) : List (MqReturn T) :=
  match s.sys.pc (.thread t), r with
  | some (.freeing _ _), some (e, value) =>
    match (if s.timed t then posixMqTimedreceive else posixMqReceive) e (s.msgLen t) with
    | .ok length => s.returns ++ [⟨t, s.turn t, length, value⟩]
    | .error _ => s.returns
  | _, _ => s.returns

def advance (s : PosixMq T) (t : T) (q : MqSystem T Empty × Option (Err × Bytes)) : PosixMq T :=
  { s with
    sys := q.1
    sent := s.sentAfter t
    takes := if took q.1 t then s.takes + 1 else s.takes
    turn := if took q.1 t then update s.turn t s.takes else s.turn
    returns := s.returnsAfter t q.2 }

def begin (s : PosixMq T) (t : T) (timed : Bool) (msgLen : ℕ) : PosixMq T :=
  { s with msgLen := update s.msgLen t msgLen, timed := update s.timed t timed }

def step (s : PosixMq T) : PosixMqEvent T → Option (PosixMq T)
  | .send t msg => (s.sys.exec (.send (.thread t) false msg)).map (s.advance t)
  | .receive t msgLen =>
    (s.sys.exec (.recv (.thread t) msgLen waitingForever)).map ((s.begin t false msgLen).advance t)
  | .timedreceive t msgLen tick => (s.sys.exec (.recv (.thread t) msgLen tick)).map ((s.begin t true msgLen).advance t)
  | .proceed t => (s.sys.exec (.proceed (.thread t))).map (s.advance t)
  | .timeout t => (s.sys.exec (.timeout t)).map (fun q => { s with sys := q.1 })
  | .tick => (s.sys.exec .tick).map (fun q => { s with sys := q.1 })

structure Initial (s : PosixMq T) : Prop where
  sys : s.sys.Initial
  sent : s.sent = []
  takes : s.takes = 0
  returns : s.returns = []

/-- Every receive that has returned gives the length and the bytes of the message of its turn, and one receiver gets
the messages in the order in which they were sent. -/
structure Delivered (s : PosixMq T) : Prop where
  whole : ∀ r ∈ s.returns, ∃ m, s.sent[r.turn]? = some m ∧ r.length = m.2.length ∧
    r.buffer.take r.length = m.2
  ordered : ∀ t, ((s.returns.filter (·.receiver = t)).map (·.turn)).Pairwise (· < ·)

def FitsAt (s : PosixMq T) (t : T) : Option MqPc → Prop
  | some (.freeing _ _) => ∀ m, s.sent[s.turn t]? = some m → s.msgLen t = m.2.length
  | _ => True

def Fits (s : PosixMq T) : PosixMqEvent T → Prop
  | .proceed t => s.FitsAt t (s.sys.pc (.thread t))
  | _ => True

instance (s : PosixMq T) (t : T) : ∀ p, Decidable (s.FitsAt t p)
  | some (.freeing _ _) => Option.decidableForallMem _
  | none | some (.filling _ _ _) | some (.linking _ _ _) | some (.waiting _ _ _) | some (.copying _ _ _) =>
    isTrue trivial

instance (s : PosixMq T) : ∀ a, Decidable (s.Fits a)
  | .proceed t => inferInstanceAs (Decidable (s.FitsAt t _))
  | .send _ _ | .receive _ _ | .timedreceive _ _ _ | .timeout _ | .tick => isTrue trivial

def Carries (n : ℕ) (m d : Bytes) : Prop := m.length ≤ n ∧ d.take m.length = m

def linkedOf (log : List MqEntry) : List Bytes :=
  log.filterMap (fun
    | .linked _ d => some d
    | _ => none)

def takenOf (log : List MqEntry) : List Bytes :=
  log.filterMap (fun
    | .taken d => some d
    | _ => none)

def Plain : MqEntry → Prop
  | .linked urgent _ => urgent = false
  | .taken _ => True
  | .reset => False

theorem linkedOf_eq {log : List MqEntry} {q : List Bytes} (hplain : ∀ e ∈ log, Plain e)
    (h : run dequeStep [] log = some q) : linkedOf log = takenOf log ++ q := by
  induction log using reverseRecOn generalizing q with
  | nil =>
    cases h
    rfl
  | append_singleton log e ih =>
    rw [run_concat] at h
    obtain ⟨q', hq', he⟩ := bind_eq_some_iff.mp h
    have hlog := ih (fun e he => hplain e (mem_append_left _ he)) hq'
    have hp := hplain e (mem_append_right _ (mem_singleton_self e))
    simp only [linkedOf, takenOf, filterMap_append] at hlog ⊢
    cases e with
    | linked urgent d =>
      obtain rfl : urgent = false := hp
      cases he
      simp [hlog]
    | taken d =>
      simp only [dequeStep] at he
      split_ifs at he with hd
      obtain ⟨rest, rfl⟩ : ∃ rest, q' = d :: rest := head?_eq_some_iff.mp hd
      cases he
      simp [hlog]
    | reset => exact absurd hp id

def CallOk (s : PosixMq T) (t : T) : MqPc → Prop
  | .filling urgent _ buffer => urgent = false ∧ buffer.length ≤ s.sys.mq.msgSize
  | .linking urgent _ buffer => urgent = false ∧ buffer.length ≤ s.sys.mq.msgSize
  | .waiting size _ _ => size = s.msgLen t
  | .copying _ size d =>
    size = s.msgLen t ∧ s.turn t < s.takes ∧ (∀ r ∈ s.returns, r.receiver = t → r.turn < s.turn t) ∧
      ∃ m, s.sent[s.turn t]? = some m ∧ Carries s.sys.mq.msgSize m.2 d
  | .freeing _ value =>
    s.turn t < s.takes ∧ (∀ r ∈ s.returns, r.receiver = t → r.turn < s.turn t) ∧
      ∃ m d, s.sent[s.turn t]? = some m ∧ Carries s.sys.mq.msgSize m.2 d ∧
        value = d.take (if s.sys.mq.msgSize < s.msgLen t then s.sys.mq.msgSize else s.msgLen t)

structure Inv (s : PosixMq T) : Prop where
  sys : s.sys.Inv
  plain : ∀ e ∈ s.sys.log, Plain e
  sent : List.Forall₂ (fun m d => Carries s.sys.mq.msgSize m.2 d) s.sent (linkedOf s.sys.log)
  takes : s.takes = (takenOf s.sys.log).length
  early : ∀ r ∈ s.returns, r.turn < s.takes
  calls : ∀ t p, s.sys.pc (.thread t) = some p → s.CallOk t p
  ordered : ∀ t, ((s.returns.filter (·.receiver = t)).map (·.turn)).Pairwise (· < ·)

section

variable {s s' : PosixMq T} {t : T} {p : MqPc}

section

omit [DecidableEq T]

theorem CallOk.mono (h : s.CallOk t p) (hsize : s'.sys.mq.msgSize = s.sys.mq.msgSize) (hlen : s'.msgLen t = s.msgLen t)
    (hturn : s'.turn t = s.turn t) (htakes : s.takes ≤ s'.takes) (hsent : s.sent <+: s'.sent)
    (hreturns : ∀ r ∈ s'.returns, r.receiver = t → r ∈ s.returns) : s'.CallOk t p := by
  have hget : ∀ m, s.sent[s.turn t]? = some m → s'.sent[s'.turn t]? = some m := by
    intro m hm
    obtain ⟨rest, hrest⟩ := hsent
    rw [hturn, ← hrest, List.getElem?_append_left (List.getElem?_eq_some_iff.mp hm).1]
    exact hm
  cases p with
  | filling urgent msg buffer | linking urgent msg buffer => exact ⟨h.1, hsize ▸ h.2⟩
  | waiting size timeout tickDelta => exact h.trans hlen.symm
  | copying msg size d =>
    obtain ⟨hn, hlt, hr, m, hm, hd⟩ := h
    refine ⟨hn.trans hlen.symm, ?_, ?_, m, hget m hm, hsize ▸ hd⟩
    · rw [hturn]
      exact hlt.trans_le htakes
    · intro r hr' he
      rw [hturn]
      exact hr r (hreturns r hr' he) he
  | freeing msg value =>
    obtain ⟨hlt, hr, m, d, hm, hd, hv⟩ := h
    refine ⟨?_, ?_, m, d, hget m hm, hsize ▸ hd, ?_⟩
    · rw [hturn]
      exact hlt.trans_le htakes
    · intro r hr' he
      rw [hturn]
      exact hr r (hreturns r hr' he) he
    · rw [hsize, hlen]
      exact hv

structure Aside (s s' : PosixMq T) (t : T) : Prop where
  size : s'.sys.mq.msgSize = s.sys.mq.msgSize
  pc : ∀ u, u ≠ t → s'.sys.pc (.thread u) = s.sys.pc (.thread u)
  len : ∀ u, u ≠ t → s'.msgLen u = s.msgLen u
  turn : ∀ u, u ≠ t → s'.turn u = s.turn u
  takes : s.takes ≤ s'.takes
  sent : s.sent <+: s'.sent
  returns : ∀ r ∈ s'.returns, r.receiver ≠ t → r ∈ s.returns

theorem Aside.calls (h : Aside s s' t) (hs : ∀ u p, s.sys.pc (.thread u) = some p → s.CallOk u p)
    (hself : ∀ p, s'.sys.pc (.thread t) = some p → s'.CallOk t p) :
    ∀ u p, s'.sys.pc (.thread u) = some p → s'.CallOk u p := by
  intro u p hp
  obtain rfl | hu := eq_or_ne u t
  · exact hself p hp
  · rw [h.pc u hu] at hp
    apply (hs u p hp).mono h.size (h.len u hu) (h.turn u hu) h.takes h.sent
    intro r hr he
    exact h.returns r hr (fun hrt => hu (he.symm.trans hrt))

end

theorem Inv.quiet (h : s.Inv) (ha : Aside s s' t) (hsys : s'.sys.Inv) (hlog : s'.sys.log = s.sys.log)
    (hsent : s'.sent = s.sent) (htakes : s'.takes = s.takes) (hreturns : s'.returns = s.returns)
    (hself : ∀ p, s'.sys.pc (.thread t) = some p → s'.CallOk t p) : s'.Inv where
  sys := hsys
  plain := hlog ▸ h.plain
  sent := by
    rw [hsent, hlog, ha.size]
    exact h.sent
  takes := by
    rw [htakes, hlog]
    exact h.takes
  early := by
    rw [hreturns, htakes]
    exact h.early
  calls := ha.calls h.calls hself
  ordered := by
    rw [hreturns]
    exact h.ordered

theorem Inv.link (h : s.Inv) (ha : Aside s s' t) (hsys : s'.sys.Inv) {d m : Bytes}
    (hlog : s'.sys.log = s.sys.log ++ [.linked false d]) (hsent : s'.sent = s.sent ++ [(t, m)])
    (hm : Carries s.sys.mq.msgSize m d) (htakes : s'.takes = s.takes) (hreturns : s'.returns = s.returns)
    (hself : ∀ p, s'.sys.pc (.thread t) = some p → s'.CallOk t p) : s'.Inv where
  sys := hsys
  plain := by
    rw [hlog]
    exact forall_mem_append.mpr ⟨h.plain, forall_mem_singleton.mpr rfl⟩
  sent := by
    rw [hsent, hlog, ha.size, linkedOf, filterMap_append]
    exact rel_append h.sent (.cons hm .nil)
  takes := by
    rw [htakes, hlog, takenOf]
    simpa [takenOf] using h.takes
  early := by
    rw [hreturns, htakes]
    exact h.early
  calls := ha.calls h.calls hself
  ordered := by
    rw [hreturns]
    exact h.ordered

theorem Inv.next_sent (h : s.Inv) {sys' : MqSystem T Empty} (hsys : sys'.Inv) {d : Bytes}
    (hlog : sys'.log = s.sys.log ++ [.taken d]) :
    ∃ m, s.sent[s.takes]? = some m ∧ Carries s.sys.mq.msgSize m.2 d := by
  obtain ⟨free, msgs, hc⟩ := hsys
  have hplain : ∀ e ∈ sys'.log, Plain e := by
    rw [hlog]
    exact List.forall_mem_append.mpr ⟨h.plain, List.forall_mem_singleton.mpr trivial⟩
  have hfifo := linkedOf_eq hplain hc.order
  rw [hlog] at hfifo
  have hlinked : linkedOf s.sys.log = takenOf s.sys.log ++ d :: msgs.map sys'.mq.data := by
    simpa [linkedOf, takenOf] using hfifo
  have hget : (linkedOf s.sys.log)[s.takes]? = some d := by
    rw [hlinked, h.takes]
    simp
  have hlt : s.takes < s.sent.length := by
    rw [h.sent.length_eq]
    exact (List.getElem?_eq_some_iff.mp hget).1
  refine ⟨s.sent[s.takes], List.getElem?_eq_getElem hlt, ?_⟩
  have hrel := h.sent.get hlt (h.sent.length_eq ▸ hlt)
  rw [← (List.getElem?_eq_some_iff.mp hget).2]
  exact hrel

end

section

variable {s s' : PosixMq T} {t : T} {p : MqPc}

variable (h : s.Inv) (ha : Aside s s' t) (hsys : s'.sys.Inv)

include h ha hsys

theorem Inv.take {d : Bytes} {msg size : ℕ}
    (hlog : s'.sys.log = s.sys.log ++ [.taken d]) (hpc : s'.sys.pc (.thread t) = some (.copying msg size d))
    (hsize : size = s'.msgLen t) (hsent : s'.sent = s.sent) (htakes : s'.takes = s.takes + 1)
    (hturn : s'.turn t = s.takes) (hreturns : s'.returns = s.returns) : s'.Inv where
  sys := hsys
  plain := by
    rw [hlog]
    exact forall_mem_append.mpr ⟨h.plain, forall_mem_singleton.mpr trivial⟩
  sent := by
    rw [hsent, hlog, ha.size, linkedOf]
    simpa [linkedOf] using h.sent
  takes := by
    rw [htakes, hlog, takenOf]
    simpa [takenOf] using h.takes
  early := by
    rw [hreturns, htakes]
    exact fun r hr => Nat.lt_succ_of_lt (h.early r hr)
  calls := by
    apply ha.calls h.calls
    intro p hp
    obtain rfl := Option.some.inj (hpc.symm.trans hp)
    obtain ⟨m, hm, hd⟩ := h.next_sent hsys hlog
    refine ⟨hsize, ?_, ?_, m, ?_, ha.size ▸ hd⟩
    · rw [hturn, htakes]
      exact Nat.lt_succ_self _
    · rw [hturn, hreturns]
      exact fun r hr _ => h.early r hr
    · rw [hturn, hsent]
      exact hm
  ordered := by
    rw [hreturns]
    exact h.ordered

theorem Inv.ret {msg n : ℕ} {value : Bytes}
    (hpc : s.sys.pc (.thread t) = some (.freeing msg value)) (hpc' : s'.sys.pc (.thread t) = none)
    (hlog : s'.sys.log = s.sys.log) (hsent : s'.sent = s.sent) (htakes : s'.takes = s.takes)
    (hreturns : s'.returns = s.returns ++ [⟨t, s.turn t, n, value⟩]) : s'.Inv where
  sys := hsys
  plain := hlog ▸ h.plain
  sent := by
    rw [hsent, hlog, ha.size]
    exact h.sent
  takes := by
    rw [htakes, hlog]
    exact h.takes
  early := by
    rw [hreturns, htakes]
    intro r hr
    rcases mem_append.mp hr with hr | hr
    · exact h.early r hr
    · rw [mem_singleton.mp hr]
      exact (h.calls t _ hpc).1
  calls := by
    apply ha.calls h.calls
    intro p hp
    rw [hpc'] at hp
    cases hp
  ordered := by
    intro u
    rw [hreturns, filter_append, map_append]
    obtain rfl | hu := eq_or_ne t u
    · rw [pairwise_append]
      refine ⟨h.ordered t, by simp, ?_⟩
      intro i hi j hj
      obtain ⟨r, hr, rfl⟩ := mem_map.mp hi
      obtain ⟨hr, hrt⟩ := mem_filter.mp hr
      obtain rfl : j = s.turn t := by simpa using hj
      exact (h.calls t _ hpc).2.1 r hr (of_decide_eq_true hrt)
    · simpa [hu] using h.ordered u

end

inductive SendOutcome (mq : MessageQueue) (buffer : Bytes) : MessageQueue → MqOutcome → Prop
  | failed (e : Err) : SendOutcome mq buffer mq (.returned e [])
  | begun {mq' : MessageQueue} {msg : ℕ} (hsize : mq'.msgSize = mq.msgSize) (hle : buffer.length ≤ mq.msgSize) :
      SendOutcome mq buffer mq' (.inside (.filling false msg buffer))

theorem mqSend_outcome (mq : MessageQueue) (buffer : Bytes) :
    SendOutcome mq buffer (mqSend mq buffer).1 (mqSend mq buffer).2 := by
  unfold mqSend mqSendBegin
  split_ifs with hlt
  · exact .failed _
  · cases hm : mq.takeFree with
    | none => exact .failed _
    | some q =>
      obtain ⟨msg, -, rfl⟩ := map_eq_some_iff.mp hm
      exact .begun rfl (not_lt.mp hlt)

inductive RecvOutcome (mq : MessageQueue) (size : ℕ) : MessageQueue → MqOutcome → Prop
  | returned (e : Err) : RecvOutcome mq size mq (.returned e [])
  | waiting (timeout tickDelta : BitVec 32) : RecvOutcome mq size mq (.inside (.waiting size timeout tickDelta))
  | taken {mq' : MessageQueue} {msg : ℕ} {d : Bytes} (hsize : mq'.msgSize = mq.msgSize) :
      RecvOutcome mq size mq' (.inside (.copying msg size d))

section

variable {k k' : Kernel T Unit} {mq mq' : MessageQueue} {size : ℕ} {timeout tickDelta : BitVec 32} {o : MqOutcome}

theorem mqRecvLoop_outcome (h : mqRecvLoop k () mq size timeout = some (k', mq', o)) : RecvOutcome mq size mq' o := by
  cases mqRecvLoop_turn h with
  | refused _ => exact .returned _
  | waits _ => exact .waiting _ _
  | takes _ hm =>
    obtain ⟨msg, -, he⟩ := map_eq_some_iff.mp hm
    cases he
    exact .taken rfl

theorem mqRecv_outcome (h : mqRecv k () mq size timeout = some (k', mq', o)) : RecvOutcome mq size mq' o := by
  unfold mqRecv at h
  split_ifs at h
  · cases h
    exact .returned _
  · exact mqRecvLoop_outcome h

theorem mqRecvResume_outcome {t : T} (h : mqRecvResume k () t mq size timeout tickDelta = some (k', mq', o)) :
    RecvOutcome mq size mq' o := by
  unfold mqRecvResume at h
  split_ifs at h
  · cases h
    exact .returned _
  · exact mqRecvLoop_outcome h

end

section

variable {s : PosixMq T} {t : T} {k : Kernel T Unit} {mq : MessageQueue} {o : MqOutcome}

def next (s : PosixMq T) (t : T) (k : Kernel T Unit) (mq : MessageQueue) (o : MqOutcome) : PosixMq T :=
  s.advance t (s.sys.after (.thread t) (k, mq, o))

theorem next_pc_returned (e : Err) (value : Bytes) :
    (s.next t k mq (.returned e value)).sys.pc = update s.sys.pc (.thread t) none := rfl

theorem next_pc_inside (p : MqPc) :
    (s.next t k mq (.inside p)).sys.pc = update s.sys.pc (.thread t) (some p) := rfl

theorem next_mq : (s.next t k mq o).sys.mq = mq := by
  cases o with
  | returned e value | inside p => rfl

theorem next_pc_of_ne {u : T} (hu : u ≠ t) : (s.next t k mq o).sys.pc (.thread u) = s.sys.pc (.thread u) := by
  have hne : (Context.thread u : Context T Empty) ≠ .thread t := fun he => hu (Context.thread.inj he)
  cases o with
  | returned e value | inside p => exact update_of_ne hne _ _

section

omit [DecidableEq T]

theorem mem_returnsAfter {r : MqReturn T} {x : Option (Err × Bytes)} (hr : r ∈ s.returnsAfter t x)
    (hne : r.receiver ≠ t) : r ∈ s.returns := by
  unfold returnsAfter at hr
  split at hr
  · split at hr
    · rcases mem_append.mp hr with hr | hr
      · exact hr
      · rw [mem_singleton.mp hr] at hne
        exact absurd rfl hne
    · exact hr
  · exact hr

theorem sent_prefix_sentAfter (s : PosixMq T) (t : T) : s.sent <+: s.sentAfter t := by
  unfold sentAfter
  split
  · exact prefix_append _ _
  · exact prefix_refl _

theorem returnsAfter_of_not_freeing (h : ∀ msg value, s.sys.pc (.thread t) ≠ some (.freeing msg value))
    (x : Option (Err × Bytes)) : s.returnsAfter t x = s.returns := by
  unfold returnsAfter
  split
  · next msg value e v hp => exact absurd hp (h msg value)
  · rfl

theorem returnsAfter_of_freeing {msg : ℕ} {value : Bytes} (hpc : s.sys.pc (.thread t) = some (.freeing msg value))
    (v : Bytes) : s.returnsAfter t (some (.eok, v)) = s.returns ++ [⟨t, s.turn t, s.msgLen t, v⟩] := by
  have hresult : (if s.timed t then posixMqTimedreceive else posixMqReceive) Err.eok (s.msgLen t) =
      .ok (s.msgLen t) := by
    split_ifs
    · rfl
    · rfl
  simp only [returnsAfter, hpc, hresult]

end

theorem next_eq_of_quiet (htook : took (s.sys.after (.thread t) (k, mq, o)).1 t = false)
    (hsent : s.sentAfter t = s.sent)
    (hreturns : ∀ x, s.returnsAfter t x = s.returns) :
    s.next t k mq o = { s with sys := (s.sys.after (.thread t) (k, mq, o)).1 } := by
  simp only [next, advance, htook, hsent, hreturns, Bool.false_eq_true, if_false]

theorem next_aside (hsize : mq.msgSize = s.sys.mq.msgSize) : Aside s (s.next t k mq o) t where
  size := by
    rw [next_mq]
    exact hsize
  pc := fun u hu => next_pc_of_ne hu
  len := fun u _ => rfl
  turn := by
    intro u hu
    simp only [next, advance]
    split_ifs
    · exact update_of_ne hu _ _
    · rfl
  takes := by
    simp only [next, advance]
    split_ifs
    · exact Nat.le_succ _
    · exact le_refl _
  sent := sent_prefix_sentAfter s t
  returns := fun r hr hne => mem_returnsAfter hr hne

end

section

variable {s : PosixMq T} {t : T} {k : Kernel T Unit} {mq : MessageQueue} {o : MqOutcome}

theorem Inv.next_send (h : s.Inv) {buffer : Bytes} (hpc : s.sys.pc (.thread t) = none)
    (hsys : (s.next t k mq o).sys.Inv) (ho : SendOutcome s.sys.mq buffer mq o) : (s.next t k mq o).Inv := by
  cases ho with
  | failed e =>
    apply h.quiet (next_aside rfl) hsys
    all_goals simp [next, advance, MqSystem.after, MqSystem.record, MqSystem.recordTaken, sentAfter,
      returnsAfter, took, hpc]
  | begun hsize hle =>
    apply h.quiet (next_aside hsize) hsys
    · simp [next, advance, MqSystem.after, MqSystem.record, MqSystem.recordTaken, hpc]
    · simp [next, advance, sentAfter, hpc]
    · simp [next, advance, MqSystem.after, took]
    · simp [next, advance, returnsAfter, hpc]
    · intro p hp
      rw [next_pc_inside, update_self] at hp
      cases hp
      refine ⟨rfl, ?_⟩
      rw [next_mq, hsize]
      exact hle

theorem Inv.next_recv (h : s.Inv) {size : ℕ}
    (hpc : ∀ p, s.sys.pc (.thread t) = some p → ∃ a b, p = .waiting size a b)
    (hlen : size = s.msgLen t) (hsys : (s.next t k mq o).sys.Inv) (ho : RecvOutcome s.sys.mq size mq o) :
    (s.next t k mq o).Inv := by
  have hlog : ∀ o', s.sys.record (.thread t) o' = MqSystem.recordTaken s.sys.log o' := by
    intro o'
    unfold MqSystem.record
    split
    · next urgent msg buffer hp =>
      obtain ⟨a, b, he⟩ := hpc _ hp
      cases he
    · rfl
  have hsent : s.sentAfter t = s.sent := by
    unfold sentAfter
    split
    · next urgent msg buffer hp =>
      obtain ⟨a, b, he⟩ := hpc _ hp
      cases he
    · rfl
  have hreturns : ∀ x, s.returnsAfter t x = s.returns := by
    apply returnsAfter_of_not_freeing
    intro msg value hp
    obtain ⟨a, b, he⟩ := hpc _ hp
    cases he
  cases ho with
  | returned e =>
    apply h.quiet (next_aside rfl) hsys
    · exact hlog _
    · exact hsent
    · simp [next, advance, MqSystem.after, took]
    · exact hreturns _
    · intro p hp
      rw [next_pc_returned, update_self] at hp
      cases hp
  | waiting timeout tickDelta =>
    apply h.quiet (next_aside rfl) hsys
    · exact hlog _
    · exact hsent
    · simp [next, advance, MqSystem.after, took]
    · exact hreturns _
    · intro p hp
      rw [next_pc_inside, update_self] at hp
      cases hp
      exact hlen
  | taken hsize =>
    apply h.take (next_aside hsize) hsys
    · exact hlog _
    · rw [next_pc_inside, update_self]
    · exact hlen
    · exact hsent
    · simp [next, advance, MqSystem.after, took]
    · simp [next, advance, MqSystem.after, took]
    · exact hreturns _

theorem Inv.next_proceed (h : s.Inv) {p : MqPc} (hpc : s.sys.pc (.thread t) = some p)
    (hq : mqProceed (s.sys.dispatch (.thread t)) () (some t) s.sys.mq p = some (k, mq, o))
    (hsys : (s.next t k mq o).sys.Inv) : (s.next t k mq o).Inv := by
  have hcall := h.calls t p hpc
  cases p with
  | filling urgent msg buffer =>
    cases hq
    apply h.quiet (next_aside _) hsys
    · simp [next, advance, MqSystem.after, MqSystem.record, MqSystem.recordTaken, hpc]
    · simp [next, advance, sentAfter, hpc]
    · simp [next, advance, MqSystem.after, took]
    · simp [next, advance, returnsAfter, hpc]
    · intro p hp
      rw [next_pc_inside, update_self] at hp
      cases hp
      exact hcall
    · rfl
  | linking urgent msg buffer =>
    cases hq
    obtain ⟨rfl, hle⟩ := hcall
    obtain ⟨free, msgs, hc⟩ := h.sys
    have hdata := (hc.inFlight (.thread t) _ hpc).2
    apply h.link (d := s.sys.mq.data msg) (m := buffer) (next_aside _) hsys
    · simp [next, advance, MqSystem.after, MqSystem.record, hpc]
    · simp [next, advance, sentAfter, hpc]
    · exact ⟨hle, hdata⟩
    · simp [next, advance, MqSystem.after, took]
    · simp [next, advance, returnsAfter, hpc]
    · intro p hp
      rw [next_pc_returned, update_self] at hp
      cases hp
    · rfl
  | waiting size timeout tickDelta =>
    have hwaiting : ∀ p, s.sys.pc (.thread t) = some p → ∃ a b, p = .waiting size a b := by
      intro p hp
      rw [hpc] at hp
      exact ⟨timeout, tickDelta, (Option.some.inj hp).symm⟩
    exact h.next_recv hwaiting hcall hsys (mqRecvResume_outcome hq)
  | copying msg size d =>
    cases hq
    obtain ⟨hlen, hlt, hr, m, hm, hd⟩ := hcall
    obtain ⟨free, msgs, hc⟩ := h.sys
    have hdata : s.sys.mq.data msg = d := hc.inFlight (.thread t) _ hpc
    apply h.quiet (next_aside rfl) hsys
    · simp [next, advance, MqSystem.after, MqSystem.record, MqSystem.recordTaken, hpc]
    · simp [next, advance, sentAfter, hpc]
    · simp [next, advance, MqSystem.after, took]
    · simp [next, advance, returnsAfter, hpc]
    · intro p hp
      rw [next_pc_inside, update_self] at hp
      cases hp
      rw [next_eq_of_quiet]
      · refine ⟨hlt, hr, m, d, hm, hd, ?_⟩
        rw [hdata, hlen]
        rfl
      · simp [MqSystem.after, took]
      · simp [sentAfter, hpc]
      · exact returnsAfter_of_not_freeing (by simp [hpc])
  | freeing msg value =>
    cases hq
    apply h.ret (next_aside _) hsys hpc
    · rw [next_pc_returned, update_self]
    · simp [next, advance, MqSystem.after, MqSystem.record, MqSystem.recordTaken, hpc]
    · simp [next, advance, sentAfter, hpc]
    · simp [next, advance, MqSystem.after, took]
    · exact returnsAfter_of_freeing hpc value
    · rfl

end

section

variable {s s' : PosixMq T} {t : T}

theorem Inv.begin (h : s.Inv) (hpc : s.sys.pc (.thread t) = none) (timed : Bool) (msgLen : ℕ) :
    (s.begin t timed msgLen).Inv := by
  refine ⟨h.sys, h.plain, h.sent, h.takes, h.early, ?_, h.ordered⟩
  intro u p hp
  have hu : u ≠ t := by
    rintro rfl
    exact absurd (hpc.symm.trans hp) (some_ne_none p).symm
  refine CallOk.mono (h.calls u p hp) rfl ?_ rfl (le_refl _) (prefix_refl _) (fun r hr _ => hr)
  exact update_of_ne hu _ _

inductive Moves (s : PosixMq T) : PosixMqEvent T → PosixMq T → Prop
  | send {t : T} {msg : Bytes} {k : Kernel T Unit} {mq : MessageQueue} {o : MqOutcome}
      (hpc : s.sys.pc (.thread t) = none) (ho : SendOutcome s.sys.mq msg mq o) :
      Moves s (.send t msg) (s.next t k mq o)
  | receive {t : T} {a : PosixMqEvent T} {timed : Bool} {msgLen : ℕ} {k : Kernel T Unit} {mq : MessageQueue}
      {o : MqOutcome} (ha : ∀ u, a ≠ .proceed u) (hpc : s.sys.pc (.thread t) = none)
      (ho : RecvOutcome s.sys.mq msgLen mq o) : Moves s a ((s.begin t timed msgLen).next t k mq o)
  | proceed {t : T} {p : MqPc} {k : Kernel T Unit} {mq : MessageQueue} {o : MqOutcome}
      (hpc : s.sys.pc (.thread t) = some p)
      (hq : mqProceed (s.sys.dispatch (.thread t)) () (some t) s.sys.mq p = some (k, mq, o)) :
      Moves s (.proceed t) (s.next t k mq o)
  | kernel {a : PosixMqEvent T} (k : Kernel T Unit) (ha : ∀ u, a ≠ .proceed u) :
      Moves s a { s with sys := { s.sys with kernel := k } }

variable {a : PosixMqEvent T}

theorem step_moves (h : s.step a = some s') : Moves s a s' := by
  cases a with
  | send t msg =>
    obtain ⟨q, hq, rfl⟩ := map_eq_some_iff.mp h
    simp only [exec, Bool.false_eq_true, if_false] at hq
    split_ifs at hq with hc
    cases hq
    exact .send hc.2.1 (mqSend_outcome s.sys.mq msg)
  | receive t msgLen | timedreceive t msgLen tick =>
    obtain ⟨q, hq, rfl⟩ := map_eq_some_iff.mp h
    simp only [exec] at hq
    split_ifs at hq with hc
    obtain ⟨⟨k, mq, o⟩, hrecv, rfl⟩ := map_eq_some_iff.mp hq
    exact .receive (by simp) hc.2.1 (mqRecv_outcome hrecv)
  | proceed t =>
    obtain ⟨q, hq, rfl⟩ := map_eq_some_iff.mp h
    simp only [exec] at hq
    split_ifs at hq with hc
    obtain ⟨p, hp, hq⟩ := bind_eq_some_iff.mp hq
    obtain ⟨⟨k, mq, o⟩, hproceed, rfl⟩ := map_eq_some_iff.mp hq
    exact .proceed hp hproceed
  | timeout t =>
    obtain ⟨q, hq, rfl⟩ := map_eq_some_iff.mp h
    obtain ⟨k, -, rfl⟩ := map_eq_some_iff.mp hq
    exact .kernel k (by simp)
  | tick =>
    cases h
    exact .kernel _ (by simp)

theorem step_sys (h : s.sys.Inv) (hs : s.step a = some s') : s'.sys.Inv := by
  cases a with
  | send t msg | receive t msgLen | timedreceive t msgLen tick | proceed t | timeout t =>
    obtain ⟨⟨sys, r⟩, hq, rfl⟩ := map_eq_some_iff.mp hs
    exact h.step hq
  | tick =>
    cases hs
    exact h.step (a := .tick) rfl

theorem Inv.step (h : s.Inv) (hs : s.step a = some s') : s'.Inv := by
  have hsys := step_sys h.sys hs
  cases step_moves hs with
  | send hpc ho => exact h.next_send hpc hsys ho
  | receive ha hpc ho =>
    apply (h.begin hpc _ _).next_recv _ _ hsys ho
    · intro p hp
      exact absurd (hpc.symm.trans hp) (some_ne_none p).symm
    · exact (update_self _ _ s.msgLen).symm
  | proceed hpc hq => exact h.next_proceed hpc hq hsys
  | kernel k ha => exact ⟨hsys, h.plain, h.sent, h.takes, h.early, h.calls, h.ordered⟩

end

section

variable {s s' : PosixMq T} {t : T} {a : PosixMqEvent T}

theorem Delivered.of_returns (h : s.Delivered) (hinv : s'.Inv) (hsent : s.sent <+: s'.sent)
    (hreturns : s'.returns = s.returns) : s'.Delivered := by
  refine ⟨?_, hinv.ordered⟩
  rw [hreturns]
  intro r hr
  obtain ⟨m, hm, hr⟩ := h.whole r hr
  obtain ⟨rest, hrest⟩ := hsent
  refine ⟨m, ?_, hr⟩
  rw [← hrest, List.getElem?_append_left (List.getElem?_eq_some_iff.mp hm).1]
  exact hm

theorem Inv.delivered_ret (h : s.Inv) (hd : s.Delivered) (hinv : s'.Inv) {msg : ℕ} {value : Bytes}
    (hpc : s.sys.pc (.thread t) = some (.freeing msg value)) (hsent : s'.sent = s.sent)
    (hreturns : s'.returns = s.returns ++ [⟨t, s.turn t, s.msgLen t, value⟩]) :
    s'.Delivered ↔ ∀ m, s.sent[s.turn t]? = some m → s.msgLen t = m.2.length := by
  obtain ⟨-, -, m, d, hm, ⟨hle, hmd⟩, hvalue⟩ := h.calls t _ hpc
  constructor
  · intro hd' m' hm'
    have hlast : ⟨t, s.turn t, s.msgLen t, value⟩ ∈ s'.returns := by
      rw [hreturns]
      exact mem_append_right _ (mem_singleton_self _)
    obtain ⟨m'', hm'', hlen, -⟩ := hd'.whole _ hlast
    rw [hsent] at hm''
    rw [Option.some.inj (hm'.symm.trans hm'')]
    exact hlen
  · intro hfits
    have hlen := hfits m hm
    refine ⟨?_, hinv.ordered⟩
    rw [hreturns, hsent]
    intro r hr
    rcases mem_append.mp hr with hr | hr
    · exact hd.whole r hr
    · rw [mem_singleton.mp hr]
      refine ⟨m, hm, hlen, ?_⟩
      rw [hlen, if_neg (not_lt.mpr hle)] at hvalue
      rw [hlen, hvalue, hmd, take_length]

theorem Inv.delivered_step (h : s.Inv) (hd : s.Delivered) (hs : s.step a = some s') : s'.Delivered ↔ s.Fits a := by
  have hinv := h.step hs
  have hmoves := step_moves hs
  have hquiet : s.sent <+: s'.sent → s'.returns = s.returns → s.Fits a → (s'.Delivered ↔ s.Fits a) :=
    fun hsent hreturns hfits => iff_of_true (hd.of_returns hinv hsent hreturns) hfits
  cases hmoves with
  | send hpc ho =>
    apply hquiet (sent_prefix_sentAfter _ _) _ trivial
    exact returnsAfter_of_not_freeing (by simp [hpc]) _
  | receive ha hpc ho =>
    apply hquiet
    · exact sent_prefix_sentAfter (s.begin _ _ _) _
    · apply returnsAfter_of_not_freeing
      intro msg value hp
      exact absurd (hpc.symm.trans hp) (some_ne_none _).symm
    · cases a with
      | proceed u => exact absurd rfl (ha u)
      | _ => trivial
  | @proceed t p k mq o hpc hq =>
    cases p with
    | freeing msg value =>
      cases hq
      have hfits : s.Fits (.proceed t) ↔ ∀ m, s.sent[s.turn t]? = some m → s.msgLen t = m.2.length := by
        simp only [Fits, hpc, FitsAt]
      rw [hfits]
      apply h.delivered_ret hd hinv hpc
      · simp [next, advance, sentAfter, hpc]
      · exact returnsAfter_of_freeing hpc value
    | _ =>
      apply hquiet (sent_prefix_sentAfter _ _)
      · exact returnsAfter_of_not_freeing (by simp [hpc]) _
      · simp only [Fits, hpc, FitsAt]
  | kernel k ha =>
    apply hquiet (prefix_refl _) rfl
    cases a with
    | proceed u => exact absurd rfl (ha u)
    | _ => trivial

theorem Initial.inv (h : s.Initial) : s.Inv where
  sys := h.sys.inv
  plain := by
    rw [h.sys.log]
    simp
  sent := by
    rw [h.sent, h.sys.log]
    exact .nil
  takes := by
    rw [h.takes, h.sys.log]
    rfl
  early := by
    rw [h.returns]
    simp
  calls := by
    intro t p hp
    rw [h.sys.pc] at hp
    cases hp
  ordered := by
    rw [h.returns]
    simp

theorem Initial.delivered (h : s.Initial) : s.Delivered :=
  ⟨by simp [h.returns], h.inv.ordered⟩

end

theorem mq_delivers_whole_iff {s : PosixMq T} (h : s.Initial) (events : List (PosixMqEvent T)) :
    StatesAlong step Delivered s events ↔ StepsAlong step Fits s events := by
  apply statesAlong_iff_stepsAlong (I := Inv)
  · intro s a t hs ht
    exact hs.step ht
  · intro s a t hs hd ht
    exact hs.delivered_step hd ht
  · exact h.inv
  · exact h.delivered

def fourBytes : PosixMq Tid where
  sys := {
    kernel := bootKernel Tid.priority [.startup .mid, .startup .low, .schedulerStart]
    mq := mqCreate (fun _ => none) (fun _ => [0, 0, 0, 0]) 4 2 .fifo
    pc := fun _ => none
    log := [] }
  msgLen _ := 0
  timed _ := false
  sent := []
  takes := 0
  turn _ := 0
  returns := []

theorem fourBytes_initial : fourBytes.Initial :=
  ⟨⟨.inr ⟨_, _, _, _, _, rfl⟩, fun _ => rfl, rfl⟩, rfl, rfl, rfl⟩

def passMessage (msg : Bytes) : List (PosixMqEvent Tid) :=
  [.send .mid msg, .proceed .mid, .proceed .mid, .receive .low 4, .proceed .low, .proceed .low]

theorem mq_delivers_whole_iff_four : (∃ s, run step fourBytes (passMessage [1, 2, 3, 4]) = some s ∧
      s.returns = [⟨.low, 0, 4, [1, 2, 3, 4]⟩]) ∧
    StatesAlong step Delivered fourBytes (passMessage [1, 2, 3, 4]) := by
  exact ⟨by decide +kernel, (mq_delivers_whole_iff fourBytes_initial _).mpr (by decide +kernel)⟩

theorem mq_receive_returns_buffer_length : ∃ s, run step fourBytes (passMessage [1, 2]) = some s ∧
    s.sent = [(.mid, [1, 2])] ∧ s.returns = [⟨.low, 0, 4, [1, 2, 0, 0]⟩] ∧ ¬ s.Delivered := by
  refine exists_some_and_and (by decide +kernel) (fun s _ hsent hreturns h => ?_)
  obtain ⟨m, hm, hlen, -⟩ := h.whole ⟨.low, 0, 4, [1, 2, 0, 0]⟩ (by rw [hreturns]; exact mem_singleton_self _)
  rw [hsent] at hm
  cases hm
  exact absurd hlen (by decide)

end PosixMq

end RtThread
