import RtThread.Ipc.Parking

namespace RtThread

open Function

structure Event where
  set : BitVec 32
  flag : IpcFlag
  deriving DecidableEq

inductive EventCtrl
  | reset
  | other
  deriving DecidableEq

def eventFlagAnd : BitVec 8 := 0x01

def eventFlagOr : BitVec 8 := 0x02

def eventFlagClear : BitVec 8 := 0x04

variable {T W : Type} [DecidableEq T] [DecidableEq W]

def eventInit (flag : IpcFlag) : Event := { set := 0, flag }

def eventSendStatus (k : Kernel T W) (t : T) (set : BitVec 32) : Kernel T W × Err :=
  if (k.thread t).eventInfo &&& eventFlagAnd ≠ 0 then
    (k, if (k.thread t).eventSet &&& set = (k.thread t).eventSet then .eok else .error)
  else if (k.thread t).eventInfo &&& eventFlagOr ≠ 0 then
    if (k.thread t).eventSet &&& set ≠ 0 then
      (k.setThread t (fun th => { th with eventSet := th.eventSet &&& set }), .eok)
    else (k, .error)
  else (k, .error)

def eventSendTurn (t : T) : Kernel T W × BitVec 32 × Bool → Kernel T W × BitVec 32 × Bool
  | (k, set, needSchedule) =>
    let (k, status) := eventSendStatus k t set
    if status = .eok then
      -- for an OR receiver `event_set` is by now the mask that it got
      let set := if (k.thread t).eventInfo &&& eventFlagClear ≠ 0 then set &&& ~~~(k.thread t).eventSet else set
      ((k.threadResume t).1, set, true)
    else (k, set, needSchedule)

def eventSendLoop : List T → Kernel T W × BitVec 32 × Bool → Kernel T W × BitVec 32 × Bool
  | [], acc => acc
  | t :: l, acc => eventSendLoop l (eventSendTurn t acc)

def eventSend (k : Kernel T W) (w : W) (event : Event) (set : BitVec 32) : Kernel T W × Event × Err :=
  if set = 0 then (k, event, .error)
  else
    let (k, set, needSchedule) := eventSendLoop (k.lists (.wait w)) (k, event.set ||| set, false)
    (if needSchedule then k.schedule else k, { event with set }, .eok)

def eventRecvStatus (event : Event) (set : BitVec 32) (option : BitVec 8) : Option Err :=
  if option &&& eventFlagAnd ≠ 0 then some (if event.set &&& set = set then .eok else .error)
  else if option &&& eventFlagOr ≠ 0 then some (if event.set &&& set ≠ 0 then .eok else .error)
  else none

def eventRecv (k : Kernel T W) (w : W) (event : Event) (set : BitVec 32) (option : BitVec 8)
    (timeout : BitVec 32) : Option (Kernel T W × Event × Outcome × Option (BitVec 32)) :=
  match k.current with
  | none => none
  | some t =>
    if set = 0 then some (k, event, .returned .error, none)
    else
      let k := k.setError t .eok
      match eventRecvStatus event set option with
      | none => none
      | some .eok =>
        let recved := event.set &&& set
        let event := { event with
          set := if option &&& eventFlagClear ≠ 0 then event.set &&& ~~~set else event.set }
        some (k, event, .returned (k.thread t).error, some recved)
      | some _ =>
        if timeout = 0 then
          let k := k.setError t .etimeout
          some (k, event, .returned (k.thread t).error, none)
        else
          let k := k.setThread t (fun th => { th with eventSet := set, eventInfo := option })
          (k.suspendFor w t event.flag timeout).map (fun k => (k, event, .blocked, none))

def eventRecvReturn (k : Kernel T W) (t : T) : Err × Option (BitVec 32) :=
  if (k.thread t).error ≠ .eok then ((k.thread t).error, none)
  else ((k.thread t).error, some (k.thread t).eventSet)

def eventControl (k : Kernel T W) (w : W) (event : Event) : EventCtrl → Kernel T W × Event × Err
  | .reset => ((k.ipcListResumeAll w).schedule, { event with set := 0 }, .eok)
  | .other => (k, event, .error)

def Satisfied (set want : BitVec 32) (option : BitVec 8) : Prop :=
  (option &&& eventFlagAnd ≠ 0 ∧ set &&& want = want) ∨
    (option &&& eventFlagAnd = 0 ∧ option &&& eventFlagOr ≠ 0 ∧ set &&& want ≠ 0)

instance (set want : BitVec 32) (option : BitVec 8) : Decidable (Satisfied set want option) :=
  instDecidableOr

def remaining (set want : BitVec 32) (option : BitVec 8) : BitVec 32 :=
  if option &&& eventFlagClear ≠ 0 then set &&& ~~~want else set

def serve (want : T → BitVec 32) (option : T → BitVec 8) :
    BitVec 32 → List T → BitVec 32 × List (T × BitVec 32)
  | set, [] => (set, [])
  | set, t :: l =>
    if Satisfied set (want t) (option t) then
      let (rest, served) := serve want option (remaining set (want t) (option t)) l
      (rest, (t, set &&& want t) :: served)
    else serve want option set l

theorem and_trans {a b c : BitVec 32} (h : a &&& b = b) (h' : b &&& c = c) : a &&& c = c := by
  calc a &&& c = a &&& (b &&& c) := by rw [h']
    _ = c := by rw [← BitVec.and_assoc, h, h']

theorem remaining_and (set want : BitVec 32) (option : BitVec 8) :
    set &&& remaining set want option = remaining set want option := by
  unfold remaining
  split_ifs
  · rw [← BitVec.and_assoc, BitVec.and_self]
  · exact BitVec.and_self

theorem Satisfied.mono {set set' want : BitVec 32} {option : BitVec 8} (h : Satisfied set want option)
    (hs : set' &&& set = set) : Satisfied set' want option := by
  rcases h with ⟨ha, he⟩ | ⟨ha, ho, he⟩
  · exact Or.inl ⟨ha, and_trans hs he⟩
  · refine Or.inr ⟨ha, ho, fun hz => he ?_⟩
    calc set &&& want = (set' &&& set) &&& want := by rw [hs]
      _ = set &&& (set' &&& want) := by rw [BitVec.and_comm set' set, BitVec.and_assoc]
      _ = 0 := by rw [hz]; exact BitVec.and_zero

variable {l : List T}

section

omit [DecidableEq T]

theorem serve_subset (want : T → BitVec 32) (option : T → BitVec 8) (set : BitVec 32) (l : List T) :
    set &&& (serve want option set l).1 = (serve want option set l).1 := by
  induction l generalizing set with
  | nil => exact BitVec.and_self
  | cons t l ih =>
    unfold serve
    split_ifs with h
    · exact and_trans (remaining_and set (want t) (option t)) (ih _)
    · exact ih set

theorem serve_unsatisfied (want : T → BitVec 32) (option : T → BitVec 8) (set : BitVec 32) {t : T}
    (ht : t ∈ l) (hs : t ∉ (serve want option set l).2.map Prod.fst) :
    ¬ Satisfied (serve want option set l).1 (want t) (option t) := by
  induction l generalizing set with
  | nil => cases ht
  | cons u l ih =>
    have hsub := serve_subset want option set (u :: l)
    unfold serve at hs hsub ⊢
    split_ifs at hs hsub ⊢ with h
    · simp only [List.map_cons, List.mem_cons, not_or] at hs
      exact ih _ ((List.mem_cons.mp ht).resolve_left hs.1) hs.2
    · rcases List.mem_cons.mp ht with rfl | ht'
      · exact fun hsat => h (hsat.mono hsub)
      · exact ih set ht' hs

theorem serve_mem {want : T → BitVec 32} {option : T → BitVec 8} {set : BitVec 32} {t : T}
    (h : t ∈ (serve want option set l).2.map Prod.fst) : t ∈ l := by
  induction l generalizing set with
  | nil => simp [serve] at h
  | cons u l ih =>
    unfold serve at h
    split_ifs at h
    · rcases List.mem_cons.mp h with rfl | h'
      · exact List.mem_cons_self
      · exact List.mem_cons_of_mem u (ih h')
    · exact List.mem_cons_of_mem u (ih h)

theorem serve_congr {want want' : T → BitVec 32} {option option' : T → BitVec 8}
    (h : ∀ t ∈ l, want' t = want t ∧ option' t = option t) (set : BitVec 32) :
    serve want' option' set l = serve want option set l := by
  induction l generalizing set with
  | nil => rfl
  | cons t l ih =>
    obtain ⟨hw, ho⟩ := h t List.mem_cons_self
    have hrest := fun set => ih (fun u hu => h u (List.mem_cons_of_mem t hu)) set
    simp only [serve, hw, ho, hrest]

end

def WellAsked (want : BitVec 32) (option : BitVec 8) : Prop :=
  want ≠ 0 ∧ (option &&& eventFlagAnd ≠ 0 ∨ option &&& eventFlagOr ≠ 0)

namespace Kernel

structure Delivered (k : Kernel T W) (served : List (T × BitVec 32)) (k' : Kernel T W) : Prop where
  wf : k'.Wf
  error : k'.view.error = k.view.error
  priority : k'.view.priority = k.view.priority
  initPriority : k'.view.initPriority = k.view.initPriority
  eventInfo : k'.view.eventInfo = k.view.eventInfo
  resumed : ∀ t m, (t, m) ∈ served → k'.view.stat t = .ready ∧ k'.view.eventSet t = m
  other : ∀ t, t ∉ served.map Prod.fst →
    k'.view.stat t = k.view.stat t ∧ k'.view.eventSet t = k.view.eventSet t
  waiting : ∀ w, k'.view.waiting w = (k.view.waiting w).filter (fun t => t ∉ served.map Prod.fst)

variable {k k' : Kernel T W} {t : T} {set : BitVec 32} {option : BitVec 8} {served : List (T × BitVec 32)}

section

omit [DecidableEq W]

theorem Wf.delivered_nil (hk : k.Wf) : Delivered k [] k :=
  ⟨hk, rfl, rfl, rfl, rfl, fun _ _ h => by simp at h, fun _ _ => ⟨rfl, rfl⟩, fun w => by simp⟩

theorem Delivered.cons {j : Kernel T W} {m : BitVec 32}
    (hk : k.Wf) (hj : j.view = { k.view with
      stat := update k.view.stat t .ready
      eventSet := update k.view.eventSet t m
      waiting := fun w => (k.view.waiting w).erase t })
    (h : Delivered j served k') (ht : t ∉ served.map Prod.fst) : Delivered k ((t, m) :: served) k' := by
  refine ⟨h.wf, ?_, ?_, ?_, ?_, ?_, ?_, ?_⟩
  · rw [h.error, hj]
  · rw [h.priority, hj]
  · rw [h.initPriority, hj]
  · rw [h.eventInfo, hj]
  · intro u n hu
    rcases List.mem_cons.mp hu with he | hu'
    · obtain ⟨rfl, rfl⟩ := Prod.mk.inj he
      obtain ⟨h1, h2⟩ := h.other u ht
      rw [h1, h2, hj]
      simp
    · exact h.resumed u n hu'
  · intro u hu
    simp only [List.map_cons, List.mem_cons, not_or] at hu
    obtain ⟨h1, h2⟩ := h.other u hu.2
    rw [h1, h2, hj]
    simp [hu.1]
  · intro w
    rw [h.waiting, hj]
    simp only [(hk.view_nodup w).erase_eq_filter, List.filter_filter, List.map_cons, List.mem_cons, not_or]
    refine List.filter_congr (fun u _ => ?_)
    by_cases hu : u = t <;> simp [hu]

theorem eventSendStatus_unsatisfied (h : ¬ Satisfied set (k.view.eventSet t) (k.view.eventInfo t)) :
    eventSendStatus k t set = (k, .error) := by
  simp only [Satisfied, view, not_or, not_and, not_not, ne_eq] at h
  unfold eventSendStatus
  by_cases ha : (k.thread t).eventInfo &&& eventFlagAnd = 0
  · rw [if_neg (not_not.mpr ha)]
    by_cases ho : (k.thread t).eventInfo &&& eventFlagOr = 0
    · rw [if_neg (not_not.mpr ho)]
    · rw [if_pos ho, BitVec.and_comm, if_neg (not_not.mpr (h.2 ha ho))]
  · rw [if_pos ha, BitVec.and_comm, if_neg (h.1 ha)]

theorem eventSendStatus_satisfied (h : Satisfied set (k.view.eventSet t) (k.view.eventInfo t)) :
    eventSendStatus k t set =
      (k.setThread t (fun th => { th with eventSet := th.eventSet &&& set }), .eok) := by
  simp only [Satisfied, view] at h
  unfold eventSendStatus
  rcases h with ⟨ha, he⟩ | ⟨ha, ho, he⟩
  · rw [BitVec.and_comm] at he
    have hk : k.setThread t (fun th => { th with eventSet := th.eventSet &&& set }) = k := by
      simp only [setThread, he, update_eq_self]
    rw [if_pos ha, if_pos he, hk]
  · rw [BitVec.and_comm] at he
    rw [if_neg (not_not.mpr ha), if_pos ho, if_pos he]

theorem Delivered.schedule (h : Delivered k served k') : Delivered k served k'.schedule := by
  refine ⟨h.wf.schedule, ?_, ?_, ?_, ?_, ?_, ?_, ?_⟩ <;> rw [schedule_view]
  exacts [h.error, h.priority, h.initPriority, h.eventInfo, h.resumed, h.other, h.waiting]

end

theorem eventSendTurn_unsatisfied (b : Bool) (h : ¬ Satisfied set (k.view.eventSet t) (k.view.eventInfo t)) :
    eventSendTurn t (k, set, b) = (k, set, b) := by
  simp [eventSendTurn, eventSendStatus_unsatisfied h]

theorem and_not_and (set want : BitVec 32) : set &&& ~~~(want &&& set) = set &&& ~~~want := by
  ext i hi
  simp only [BitVec.getElem_and, BitVec.getElem_not]
  cases set[i] <;> simp

theorem Wf.eventSendTurn_satisfied (hk : k.Wf) (b : Bool)
    (hs : k.view.stat t = .suspend) (h : Satisfied set (k.view.eventSet t) (k.view.eventInfo t)) :
    ∃ j, eventSendTurn t (k, set, b) = (j, remaining set (k.view.eventSet t) (k.view.eventInfo t), true) ∧
      j.Wf ∧ j.view = { k.view with
        stat := update k.view.stat t .ready
        eventSet := update k.view.eventSet t (set &&& k.view.eventSet t)
        waiting := fun w => (k.view.waiting w).erase t } := by
  have hw : (k.setThread t (fun th => { th with eventSet := th.eventSet &&& set })).Wf :=
    hk.setThread t rfl rfl rfl rfl
  have hv : (k.setThread t (fun th => { th with eventSet := th.eventSet &&& set })).view =
      { k.view with eventSet := update k.view.eventSet t (set &&& k.view.eventSet t) } := by
    rw [view_thread (k.setThread_thread t _), BitVec.and_comm]
    simp [view]
  obtain ⟨hj, hjv⟩ := hw.threadResume_view (by rw [hv]; exact hs)
  refine ⟨_, ?_, hj, by rw [hjv, hv]⟩
  simp only [eventSendTurn, eventSendStatus_satisfied h, setThread_self, if_true]
  rw [and_not_and]
  rfl

theorem Wf.eventSendLoop (hk : k.Wf) {l : List T} (hl : l.Nodup) (set : BitVec 32) (b : Bool)
    (hs : ∀ t ∈ l, k.view.stat t = .suspend) :
    (RtThread.eventSendLoop l (k, set, b)).2.1 = (serve k.view.eventSet k.view.eventInfo set l).1 ∧
      Delivered k (serve k.view.eventSet k.view.eventInfo set l).2 (RtThread.eventSendLoop l (k, set, b)).1 := by
  induction l generalizing k set b with
  | nil => exact ⟨rfl, hk.delivered_nil⟩
  | cons t l ih =>
    obtain ⟨hnot, hl'⟩ := List.nodup_cons.mp hl
    by_cases hsat : Satisfied set (k.view.eventSet t) (k.view.eventInfo t)
    -- serving `t` changes the record of no thread behind it, so the rest is served as from `k`
    · obtain ⟨j, hturn, hj, hjv⟩ := hk.eventSendTurn_satisfied b (hs t List.mem_cons_self) hsat
      have hne : ∀ u ∈ l, u ≠ t := fun u hu he => hnot (he ▸ hu)
      have hsame : ∀ u ∈ l, j.view.eventSet u = k.view.eventSet u ∧ j.view.eventInfo u = k.view.eventInfo u :=
        fun u hu => by simp [hjv, hne u hu]
      have hcongr := serve_congr hsame (remaining set (k.view.eventSet t) (k.view.eventInfo t))
      obtain ⟨h1, h2⟩ := ih hj hl' (remaining set (k.view.eventSet t) (k.view.eventInfo t)) true
        (fun u hu => by simpa [hjv, hne u hu] using hs u (List.mem_cons_of_mem t hu))
      rw [hcongr] at h1 h2
      simp only [RtThread.eventSendLoop, hturn, serve, if_pos hsat]
      exact ⟨h1, h2.cons hk hjv (fun hm => hnot (serve_mem hm))⟩
    · simp only [RtThread.eventSendLoop, eventSendTurn_unsatisfied b hsat, serve, if_neg hsat]
      exact ih hk hl' set b (fun u hu => hs u (List.mem_cons_of_mem t hu))

theorem Wf.eventSend (hk : k.Wf) (w : W) (event : Event) (hset : set ≠ 0) :
    (RtThread.eventSend k w event set).2 = ({ event with
      set := (serve k.view.eventSet k.view.eventInfo (event.set ||| set) (k.view.waiting w)).1 }, .eok) ∧
      Delivered k (serve k.view.eventSet k.view.eventInfo (event.set ||| set) (k.view.waiting w)).2
        (RtThread.eventSend k w event set).1 := by
  obtain ⟨h1, h2⟩ := hk.eventSendLoop (hk.view_nodup w) (event.set ||| set) false (fun t ht => hk.view_suspend ht)
  have hlist : k.lists (.wait w) = k.view.waiting w := rfl
  simp only [RtThread.eventSend, if_neg hset, hlist, h1, true_and]
  split_ifs
  · exact h2.schedule
  · exact h2

inductive RecvEffect (k : Kernel T W) (w : W) (event : Event) (t : T) (set : BitVec 32) (option : BitVec 8)
    (timeout : BitVec 32) : Kernel T W → Event → Outcome → Option (BitVec 32) → Prop
  | rejected {k' : Kernel T W} (hz : set = 0) (hk : k'.view = k.view) :
      RecvEffect k w event t set option timeout k' event (.returned .error) none
  | served {k' : Kernel T W} (hw : WellAsked set option) (hs : Satisfied event.set set option)
      (hk : k'.view = k.view.setError t .eok) :
      RecvEffect k w event t set option timeout k' { event with set := remaining event.set set option }
        (.returned .eok) (some (event.set &&& set))
  | refused {k' : Kernel T W} (hw : WellAsked set option) (hs : ¬ Satisfied event.set set option)
      (hz : timeout = 0) (hk : k'.view = k.view.setError t .etimeout) :
      RecvEffect k w event t set option timeout k' event (.returned .etimeout) none
  | blocked {k' : Kernel T W} (hw : WellAsked set option) (hs : ¬ Satisfied event.set set option)
      (hz : timeout ≠ 0) (hk : k'.view = { k.view.parked w event.flag t with
        eventSet := update k.view.eventSet t set, eventInfo := update k.view.eventInfo t option }) :
      RecvEffect k w event t set option timeout k' event .blocked none

theorem eventRecvStatus_of_valid (event : Event) (set : BitVec 32)
    (h : option &&& eventFlagAnd ≠ 0 ∨ option &&& eventFlagOr ≠ 0) :
    eventRecvStatus event set option = some (if Satisfied event.set set option then .eok else .error) := by
  unfold Satisfied eventRecvStatus
  by_cases ha : option &&& eventFlagAnd = 0
  · have ho := h.resolve_left (not_not.mpr ha)
    simp only [ha, ho, ne_eq, not_true_eq_false, not_false_eq_true, if_true, if_false, false_and, true_and, false_or]
  · simp only [ha, ne_eq, not_false_eq_true, if_true, true_and, false_and, or_false]

theorem eventRecvStatus_of_invalid (event : Event) (set : BitVec 32)
    (h : ¬ (option &&& eventFlagAnd ≠ 0 ∨ option &&& eventFlagOr ≠ 0)) :
    eventRecvStatus event set option = none := by
  rw [not_or] at h
  rw [eventRecvStatus, if_neg h.1, if_neg h.2]

theorem Wf.eventRecv (hk : k.Wf) {w : W} {event event' : Event}
    {timeout : BitVec 32} {r : Outcome} {recved : Option (BitVec 32)} (hr : k.view.stat t = .ready)
    (h : RtThread.eventRecv (k.dispatch t) w event set option timeout = some (k', event', r, recved)) :
    k'.Wf ∧ RecvEffect k w event t set option timeout k' event' r recved := by
  have hd : (k.dispatch t).current = some t := rfl
  have hj : ((k.dispatch t).setError t .eok).Wf := (hk.dispatch t).setError t .eok
  have hjv : ((k.dispatch t).setError t .eok).view = k.view.setError t .eok := by simp
  simp only [RtThread.eventRecv, hd] at h
  by_cases hz : set = 0
  · rw [if_pos hz] at h
    cases h
    exact ⟨hk.dispatch t, .rejected hz rfl⟩
  rw [if_neg hz] at h
  generalize (k.dispatch t).setError t .eok = j at h hj hjv
  by_cases hopt : option &&& eventFlagAnd ≠ 0 ∨ option &&& eventFlagOr ≠ 0
  swap
  · simp [eventRecvStatus_of_invalid event set hopt] at h
  have hask : WellAsked set option := ⟨hz, hopt⟩
  rw [eventRecvStatus_of_valid event set hopt] at h
  by_cases hs : Satisfied event.set set option
  · have herr : (j.thread t).error = .eok := by
      change j.view.error t = .eok
      rw [hjv]; simp
    rw [if_pos hs] at h
    simp only [herr, Option.some.injEq, Prod.mk.injEq] at h
    obtain ⟨rfl, rfl, rfl, rfl⟩ := h
    exact ⟨hj, .served hask hs hjv⟩
  · rw [if_neg hs] at h
    by_cases ht : timeout = 0
    · have herr : ((j.setError t .etimeout).thread t).error = .etimeout := by simp [Kernel.setError]
      simp only [if_pos ht, herr, Option.some.injEq, Prod.mk.injEq] at h
      obtain ⟨rfl, rfl, rfl, rfl⟩ := h
      have hv : (j.setError t .etimeout).view = k.view.setError t .etimeout := by
        simp [hjv]
      exact ⟨hj.setError t _, .refused hask hs ht hv⟩
    · simp only [if_neg ht] at h
      obtain ⟨i, hi, he⟩ := Option.map_eq_some_iff.mp h
      cases he
      have hw : (j.setThread t (fun th => { th with eventSet := set, eventInfo := option })).Wf :=
        hj.setThread t rfl rfl rfl rfl
      have hv : (j.setThread t (fun th => { th with eventSet := set, eventInfo := option })).view = { j.view with
            eventSet := update j.view.eventSet t set
            eventInfo := update j.view.eventInfo t option } := by
        rw [view_thread (j.setThread_thread t _)]
        simp [view]
      obtain ⟨hi', hiv⟩ := hw.suspendFor_view (by rw [hv, hjv]; exact hr) hi
      exact ⟨hi', .blocked hask hs ht (by rw [hiv, hv, hjv])⟩

end Kernel

end RtThread
