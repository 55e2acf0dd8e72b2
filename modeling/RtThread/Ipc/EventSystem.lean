import RtThread.Kernel.ReadyQueue
import RtThread.Ipc.Event

namespace RtThread

open Transition Kernel Function

variable {T W : Type} [DecidableEq T] [DecidableEq W]

def pollEach (w : W) : List T → Kernel T W → Event → Option (Kernel T W × Event × List (T × BitVec 32))
  | [], k, event => some (k, event, [])
  | t :: l, k, event =>
    match eventRecv (k.dispatch t) w event (k.view.eventSet t) (k.view.eventInfo t) 0 with
    | some (k, event, .returned .eok, some recved) =>
      (pollEach w l (k.listRemove t) event).map (fun (k, event, served) => (k, event, (t, recved) :: served))
    | some (k, event, _, _) => pollEach w l k event
    | none => none

variable {option : BitVec 8}

section

variable {event : Event} {want : BitVec 32} (k : Kernel T W) (w : W) (t : T) (hask : WellAsked want option)

include k w t hask

theorem eventRecv_served (hs : Satisfied event.set want option) :
    eventRecv (k.dispatch t) w event want option 0 = some ((k.dispatch t).setError t .eok,
      { event with set := remaining event.set want option }, .returned .eok, some (event.set &&& want)) := by
  have hd : (k.dispatch t).current = some t := rfl
  simp only [eventRecv, hd, if_neg hask.1, eventRecvStatus_of_valid event want hask.2, if_pos hs]
  simp [setError, remaining]

theorem eventRecv_refused (hs : ¬ Satisfied event.set want option) : eventRecv (k.dispatch t) w event want option 0 =
      some (((k.dispatch t).setError t .eok).setError t .etimeout, event, .returned .etimeout, none) := by
  have hd : (k.dispatch t).current = some t := rfl
  simp only [eventRecv, hd, if_neg hask.1, eventRecvStatus_of_valid event want hask.2, if_neg hs]
  simp [setError]

end

theorem eventRecv_isSome (k : Kernel T W) (w : W) (event : Event) (t : T) (bits : BitVec 32)
    {timeout : BitVec 32} (hopt : option &&& eventFlagAnd ≠ 0 ∨ option &&& eventFlagOr ≠ 0)
    (htime : timeout ≠ 0x7fffffff) : (eventRecv (k.dispatch t) w event bits option timeout).isSome := by
  have hd : (k.dispatch t).current = some t := rfl
  simp only [eventRecv, hd, eventRecvStatus_of_valid event bits hopt]
  by_cases hz : bits = 0
  · rw [if_pos hz]
    rfl
  · rw [if_neg hz]
    by_cases hs : Satisfied event.set bits option
    · rw [if_pos hs]
      rfl
    · rw [if_neg hs]
      by_cases ht : timeout = 0
      · rw [if_pos ht]
        rfl
      · rw [if_neg ht, Option.isSome_map]
        exact suspendFor_isSome _ _ _ _ htime

theorem pollEach_eq_serve {k : Kernel T W} {w : W} {l : List T} (event : Event) (hl : l.Nodup)
    (hn : (k.lists (.wait w)).Nodup) (hask : ∀ t ∈ l, WellAsked (k.view.eventSet t) (k.view.eventInfo t)) :
    ∃ k', pollEach w l k event = some (k', { event with
        set := (serve k.view.eventSet k.view.eventInfo event.set l).1 },
        (serve k.view.eventSet k.view.eventInfo event.set l).2) ∧
      k'.lists (.wait w) = (k.lists (.wait w)).filter (fun t =>
        t ∉ (serve k.view.eventSet k.view.eventInfo event.set l).2.map Prod.fst) := by
  induction l generalizing k event with
  | nil => exact ⟨k, rfl, by simp [serve]⟩
  | cons t l ih =>
    obtain ⟨-, hl'⟩ := List.nodup_cons.mp hl
    have hself := hask t List.mem_cons_self
    have hrest : ∀ u ∈ l, WellAsked (k.view.eventSet u) (k.view.eventInfo u) := fun u hu =>
      hask u (List.mem_cons_of_mem t hu)
    by_cases hs : Satisfied event.set (k.view.eventSet t) (k.view.eventInfo t)
    · let j := ((k.dispatch t).setError t .eok).listRemove t
      have hview : j.view.eventSet = k.view.eventSet ∧ j.view.eventInfo = k.view.eventInfo := by
        have hjv : ((k.dispatch t).setError t .eok).view.eventSet = k.view.eventSet ∧
            ((k.dispatch t).setError t .eok).view.eventInfo = k.view.eventInfo := by simp
        exact hjv
      have hlist : j.lists (.wait w) = (k.lists (.wait w)).erase t := rfl
      obtain ⟨k', hk', hw'⟩ := ih
        { event with set := remaining event.set (k.view.eventSet t) (k.view.eventInfo t) } hl'
        (by rw [hlist]; exact hn.erase t) (by rw [hview.1, hview.2]; exact hrest)
      rw [hview.1, hview.2] at hk' hw'
      refine ⟨k', ?_, ?_⟩
      · simp only [pollEach, eventRecv_served k w t hself hs, serve, if_pos hs]
        rw [hk']
        rfl
      -- taking `t` out first or filtering it out with the others is the same
      · rw [hw', hlist, hn.erase_eq_filter, List.filter_filter]
        simp only [serve, if_pos hs]
        refine List.filter_congr (fun u _ => ?_)
        by_cases hu : u = t <;> simp [hu]
    · let j := ((k.dispatch t).setError t .eok).setError t .etimeout
      have hview : j.view.eventSet = k.view.eventSet ∧ j.view.eventInfo = k.view.eventInfo := by simp [j]
      obtain ⟨k', hk', hw'⟩ := ih (k := j) event hl' hn (by rw [hview.1, hview.2]; exact hrest)
      rw [hview.1, hview.2] at hk' hw'
      refine ⟨k', ?_, ?_⟩
      · simp only [pollEach, eventRecv_refused k w t hself hs, serve, if_neg hs]
        exact hk'
      · simp only [serve, if_neg hs]
        exact hw'

def Kernel.Receiving (k : Kernel T W) (t : T) : Prop :=
  WellAsked (k.view.eventSet t) (k.view.eventInfo t) ∧ k.view.error t = .eok

def SendAgrees (k : Kernel T W) (w : W) (event : Event) (set : BitVec 32) : Prop :=
  ∃ k₁ k₂ event' served, eventSend k w event set = (k₁, event', .eok) ∧
    pollEach w (k.view.waiting w) k { event with set := event.set ||| set } = some (k₂, event', served) ∧
    k₁.view.waiting w = k₂.view.waiting w ∧
    (∀ t ∈ k.view.waiting w, k₁.view.stat t = .ready ↔ t ∈ served.map Prod.fst) ∧
    ∀ t m, (t, m) ∈ served → eventRecvReturn k₁ t = (.eok, some m)

theorem Kernel.Wf.sendAgrees {k : Kernel T W} (hk : k.Wf) (w : W) (event : Event) {set : BitVec 32}
    (hset : set ≠ 0) (hrecv : ∀ t ∈ k.view.waiting w, k.Receiving t) : SendAgrees k w event set := by
  obtain ⟨hsend, hdel⟩ := hk.eventSend w event hset
  obtain ⟨k₂, hpoll, hw₂⟩ := pollEach_eq_serve { event with set := event.set ||| set } (hk.view_nodup w)
    (hk.view_nodup w) (fun t ht => (hrecv t ht).1)
  refine ⟨_, k₂, _, _, Prod.ext rfl hsend, hpoll, ?_, ?_, ?_⟩
  · rw [hdel.waiting]
    exact hw₂.symm
  · intro t ht
    constructor
    · intro hr
      by_contra hnot
      rw [(hdel.other t hnot).1, hk.view_suspend ht] at hr
      cases hr
    · intro hm
      obtain ⟨⟨_, m⟩, hm', rfl⟩ := List.mem_map.mp hm
      exact (hdel.resumed _ m hm').1
  · intro t m hm
    have ht : t ∈ k.view.waiting w := serve_mem (List.mem_map.mpr ⟨(t, m), hm, rfl⟩)
    have herr : ((RtThread.eventSend k w event set).1.thread t).error = .eok :=
      (congrFun hdel.error t).trans (hrecv t ht).2
    have hes : ((RtThread.eventSend k w event set).1.thread t).eventSet = m := (hdel.resumed t m hm).2
    simp [eventRecvReturn, herr, hes]

structure EventSystem (T W : Type) where
  kernel : Kernel T W
  event : W → Event
  pc : T → Option W

inductive EventCall (T W : Type)
  | send (w : W) (set : BitVec 32)
  | recv (t : T) (w : W) (set : BitVec 32) (option : BitVec 8) (timeout : BitVec 32)
  | recvReturn (t : T)
  | control (w : W) (cmd : EventCtrl)
  | timeout (t : T)

namespace EventSystem

def Running (s : EventSystem T W) (t : T) : Prop := s.kernel.view.stat t = .ready ∧ s.pc t = none

instance (s : EventSystem T W) (t : T) : Decidable (s.Running t) := instDecidableAnd

def update (s : EventSystem T W) (w : W) (k : Kernel T W) (event : Event) : EventSystem T W :=
  { s with kernel := k, event := Function.update s.event w event }

def afterRecv (s : EventSystem T W) (t : T) (w : W) :
    Kernel T W × Event × Outcome × Option (BitVec 32) → EventSystem T W
  | (k, event, .returned _, _) => s.update w k event
  | (k, event, .blocked, _) => { s.update w k event with pc := Function.update s.pc t (some w) }

def step (s : EventSystem T W) : EventCall T W → Option (EventSystem T W)
  | .send w set =>
    let (k, event, _) := eventSend s.kernel w (s.event w) set
    some (s.update w k event)
  | .recv t w set option timeout =>
    if s.Running t then
      (eventRecv (s.kernel.dispatch t) w (s.event w) set option timeout).map (s.afterRecv t w)
    else none
  | .recvReturn t =>
    if s.kernel.view.stat t = .ready ∧ (s.pc t).isSome then
      some { s with pc := Function.update s.pc t none }
    else none
  | .control w cmd =>
    let (k, event, _) := eventControl s.kernel w (s.event w) cmd
    some (s.update w k event)
  | .timeout t => (s.kernel.timerExpire t).map (fun k => { s with kernel := k })

structure Initial (s : EventSystem T W) : Prop where
  wf : s.kernel.Wf
  waiting : ∀ w, s.kernel.view.waiting w = []
  pc : ∀ t, s.pc t = none
  event : ∀ w, ∃ flag, s.event w = eventInit flag

structure Inv (s : EventSystem T W) : Prop where
  parked : s.kernel.Parked s.pc
  asked : ∀ w t, t ∈ s.kernel.view.waiting w → WellAsked (s.kernel.view.eventSet t) (s.kernel.view.eventInfo t)
  unsatisfied : ∀ w t, t ∈ s.kernel.view.waiting w →
    ¬ Satisfied (s.event w).set (s.kernel.view.eventSet t) (s.kernel.view.eventInfo t)

variable {s : EventSystem T W} {k : Kernel T W}

omit [DecidableEq T] [DecidableEq W] in
theorem Initial.inv (h : s.Initial) : s.Inv := by
  have hpc : s.pc = fun _ => none := funext h.pc
  refine ⟨hpc ▸ Kernel.Parked.start h.wf h.waiting, ?_, ?_⟩ <;>
  · intro w t ht; simp [h.waiting] at ht

omit [DecidableEq T] in
theorem Inv.shrink (h : s.Inv) {w : W} {event : Event} {pc : T → Option W} (hk : k.Parked pc)
    (hw : ∀ w' t, t ∈ k.view.waiting w' → t ∈ s.kernel.view.waiting w' ∧
      k.view.eventSet t = s.kernel.view.eventSet t ∧ k.view.eventInfo t = s.kernel.view.eventInfo t)
    (hset : ∀ t ∈ k.view.waiting w, (s.event w).set &&& event.set = event.set) :
    Inv { s.update w k event with pc := pc } := by
  refine ⟨hk, ?_, ?_⟩
  · intro w' t ht
    obtain ⟨h1, h2, h3⟩ := hw w' t ht
    simp only [update, h2, h3]
    exact h.asked w' t h1
  · intro w' t ht
    obtain ⟨h1, h2, h3⟩ := hw w' t ht
    simp only [update, h2, h3]
    by_cases hww : w' = w
    · subst hww
      rw [update_self]
      exact fun hsat => h.unsatisfied w' t h1 (hsat.mono (hset t ht))
    · rw [update_of_ne hww]
      exact h.unsatisfied w' t h1

omit [DecidableEq W] in
theorem parked_delivered {k' : Kernel T W} {pc : T → Option W} {served : List (T × BitVec 32)}
    (h : k.Parked pc) (hd : k.Delivered served k') : k'.Parked pc := by
  refine ⟨hd.wf, ?_, ?_⟩
  · intro t w ht
    rw [hd.waiting] at ht
    rw [hd.error]
    exact h.inCall t w (List.mem_of_mem_filter ht)
  · intro w
    refine ((h.finite w).union (served.map Prod.fst).finite_toSet).subset ?_
    rintro t ⟨hpc, hr, he⟩
    by_cases ht : t ∈ served.map Prod.fst
    · exact Or.inr ht
    · exact Or.inl ⟨hpc, (hd.other t ht).1 ▸ hr, congrFun hd.error t ▸ he⟩

theorem Inv.send (h : s.Inv) (w : W) (set : BitVec 32) :
    (s.update w (eventSend s.kernel w (s.event w) set).1 (eventSend s.kernel w (s.event w) set).2.1).Inv := by
  by_cases hset : set = 0
  · have hsend : eventSend s.kernel w (s.event w) set = (s.kernel, s.event w, .error) := by
      simp [eventSend, hset]
    rw [hsend]
    simpa [update] using h
  obtain ⟨hsend, hd⟩ := h.parked.wf.eventSend w (s.event w) hset
  rw [hsend]
  refine ⟨parked_delivered h.parked hd, ?_, ?_⟩
  all_goals
    intro w' t ht
    have ht' := ht
    simp only [update, hd.waiting, List.mem_filter, decide_eq_true_eq] at ht'
    obtain ⟨hmem, hnot⟩ := ht'
    simp only [update, (hd.other t hnot).2, hd.eventInfo]
  · exact h.asked w' t hmem
  · by_cases hw : w' = w
    · subst hw
      rw [update_self]
      exact serve_unsatisfied _ _ _ hmem hnot
    · rw [update_of_ne hw]
      exact h.unsatisfied w' t hmem

theorem Inv.recv (h : s.Inv) {t : T} {w : W} {set : BitVec 32} {option : BitVec 8}
    {timeout : BitVec 32} {event : Event} {r : Outcome} {recved : Option (BitVec 32)} (hrun : s.Running t) (hk : k.Wf)
    (he : s.kernel.RecvEffect w (s.event w) t set option timeout k event r recved) :
    (s.afterRecv t w (k, event, r, recved)).Inv := by
  have hown : ∀ {e : Err}, k.view = s.kernel.view.setError t e → (s.event w).set &&& event.set = event.set →
      (s.update w k event).Inv := by
    intro e hv hset
    obtain ⟨hparked, -⟩ := h.parked.own hk hrun.2 hrun.1 (by rw [hv]) (by rw [hv]) (by rw [hv])
    exact h.shrink hparked (fun w' u hu => by rw [hv] at hu ⊢; exact ⟨hu, rfl, rfl⟩) (fun _ _ => hset)
  cases he with
  | rejected hz hv =>
    refine hown (e := s.kernel.view.error t) ?_ BitVec.and_self
    rw [hv, View.setError_self]
  | served hask hs hv => exact hown hv (remaining_and _ _ _)
  | refused hask hs hz hv => exact hown hv BitVec.and_self
  | blocked hask hs hz hv =>
    obtain ⟨hparked, -⟩ := h.parked.block (w := w) hk hrun.1 (by rw [hv]) (by rw [hv])
      (fun u => by simp [hv, mem_enqueue]) (fun w' hw => by simp [hv, hw])
    have hmem : ∀ w' u, u ∈ k.view.waiting w' → u ≠ t → u ∈ s.kernel.view.waiting w' := by
      intro w' u hu hut
      by_cases hw : w' = w
      · subst hw; simpa [hv, mem_enqueue, hut] using hu
      · simpa [hv, hw] using hu
    have hself : ∀ w', t ∈ k.view.waiting w' → w' = w := fun w' ht =>
      hk.view_unique ht (by simp [hv, mem_enqueue])
    refine ⟨hparked, ?_, ?_⟩
    · intro w' u hu
      by_cases hut : u = t
      · subst hut; simpa [afterRecv, update, hv] using hask
      · simpa [afterRecv, update, hv, hut] using h.asked w' u (hmem w' u hu hut)
    · intro w' u hu
      obtain rfl | hut := eq_or_ne u t
      · obtain rfl := hself w' hu
        simpa [afterRecv, update, hv] using hs
      · simpa [afterRecv, update, hv, hut] using h.unsatisfied w' u (hmem w' u hu hut)

theorem Inv.reset (h : s.Inv) (w : W) (event : Event) :
    (s.update w (s.kernel.ipcListResumeAll w).schedule event).Inv := by
  obtain ⟨hparked, -, hv⟩ := h.parked.resetList w
  generalize (s.kernel.ipcListResumeAll w).schedule = k at hparked hv ⊢
  refine h.shrink hparked ?_ ?_
  · intro w' t ht
    rw [hv] at ht ⊢
    have hne : w' ≠ w := fun he => by simp [he] at ht
    exact ⟨by simpa [hne] using ht, rfl, rfl⟩
  · intro t ht
    simp [hv] at ht

theorem Inv.timeout (h : s.Inv) {t : T} (hk : s.kernel.timerExpire t = some k) : Inv { s with kernel := k } := by
  obtain ⟨hparked, -, hv⟩ := h.parked.expire hk
  refine ⟨hparked, ?_, ?_⟩
  all_goals
    intro w u hu
    have hu' : u ∈ s.kernel.view.waiting w := by
      rw [hv] at hu
      exact List.mem_of_mem_erase hu
    rw [hv]
  · exact h.asked w u hu'
  · exact h.unsatisfied w u hu'

theorem Inv.step {s' : EventSystem T W} {c : EventCall T W} (h : s.Inv) (hs : s.step c = some s') : s'.Inv := by
  cases c with
  | send w set => cases hs; exact h.send w set
  | recv t w set option timeout =>
    simp only [EventSystem.step] at hs
    split_ifs at hs with hrun
    obtain ⟨⟨k, event, r, recved⟩, hk, rfl⟩ := Option.map_eq_some_iff.mp hs
    obtain ⟨hw, heff⟩ := h.parked.wf.eventRecv hrun.1 hk
    exact h.recv hrun hw heff
  | recvReturn t =>
    simp only [EventSystem.step] at hs
    split_ifs at hs with hr
    cases hs
    exact ⟨(h.parked.leave hr.1).1, h.asked, h.unsatisfied⟩
  | control w cmd =>
    cases cmd with
    | reset => cases hs; exact h.reset w _
    | other =>
      cases hs
      simpa [eventControl, update] using h
  | timeout t =>
    obtain ⟨k, hk, rfl⟩ := Option.map_eq_some_iff.mp hs
    exact h.timeout hk

theorem inv_of_reachable (h : Reachable EventSystem.step (fun _ _ => True) Initial s) : s.Inv :=
  h.invariant (fun _ h => h.inv) (fun _ _ _ h _ hstep => h.step hstep)

end EventSystem

open EventSystem

theorem event_paths_agree :
    (∀ (k : Kernel T W) (w : W) (event : Event) (set : BitVec 32), k.Wf → set ≠ 0 →
      (∀ t ∈ k.view.waiting w, k.Receiving t) → SendAgrees k w event set) ∧
    ∀ s : EventSystem T W, Reachable EventSystem.step (fun _ _ => True) Initial s →
      ∀ w t, t ∈ s.kernel.view.waiting w → s.kernel.Receiving t ∧
        ¬ Satisfied (s.event w).set (s.kernel.view.eventSet t) (s.kernel.view.eventInfo t) := by
  refine ⟨fun k w event set hk hset hrecv => hk.sendAgrees w event hset hrecv, ?_⟩
  intro s hs w t ht
  have hi := inv_of_reachable hs
  exact ⟨⟨hi.asked w t ht, (hi.parked.inCall t w ht).2⟩, hi.unsatisfied w t ht⟩

def twoReceivers : EventSystem Tid Unit where
  kernel := bootKernel Tid.priority [.startup .mid, .startup .low, .schedulerStart]
  event _ := eventInit .fifo
  pc _ := none

theorem twoReceivers_initial : twoReceivers.Initial := by
  have hwf : (bootKernel Tid.priority [.startup .mid, .startup .low, .schedulerStart] : Kernel Tid Unit).Wf :=
    bootKernel_wf (by decide) _
  exact ⟨hwf, by decide +kernel, fun _ => rfl, fun _ => ⟨.fifo, rfl⟩⟩

def bothWait : List (EventCall Tid Unit) :=
  [.recv .mid () 3 (eventFlagAnd ||| eventFlagClear) 0xffffffff, .recv .low () 6 eventFlagOr 100]

theorem event_paths_agree_bothWait : ∃ s, run EventSystem.step twoReceivers bothWait = some s ∧
    s.kernel.view.waiting () = [.mid, .low] ∧ SendAgrees s.kernel () (s.event ()) 7 := by
  refine exists_some_and (by decide +kernel) (fun s hs _ => ?_)
  have hreach : Reachable EventSystem.step (fun _ _ => True) Initial s := .of_free_run twoReceivers_initial hs
  exact event_paths_agree.1 s.kernel () (s.event ()) 7 (inv_of_reachable hreach).parked.wf (by decide)
    (fun t ht => (event_paths_agree.2 s hreach () t ht).1)

end RtThread
