import RtThread.Ipc.EventSystem

namespace RtThread

open Transition Function Option

variable {T W : Type} [DecidableEq T] [DecidableEq W]

def xEventGroupSetBits (k : Kernel T W) (w : W) (event : Event) (bits : BitVec 32) :
    Kernel T W × Event × BitVec 32 :=
  let (k, event, e) := eventSend k w event bits
  (k, event, if e ≠ .eok then 0 else event.set)

def eventBits : Outcome → Option (BitVec 32) → Option (BitVec 32)
  | .returned e, recved => some (if e ≠ .eok then 0 else recved.getD 0)
  | .blocked, _ => none

def xEventGroupClearBits (k : Kernel T W) (w : W) (event : Event) (bits : BitVec 32) :
    Option (Kernel T W × Event × Option (BitVec 32)) :=
  (eventRecv k w event bits (eventFlagOr ||| eventFlagClear) 0).map
    (fun (k, event, r, recved) => (k, event, eventBits r recved))

def waitOption (clearOnExit waitForAllBits : Bool) : BitVec 8 :=
  (if clearOnExit then eventFlagClear else 0) ||| (if waitForAllBits then eventFlagAnd else eventFlagOr)

def xEventGroupWaitBits (k : Kernel T W) (w : W) (event : Event) (bits : BitVec 32)
    (clearOnExit waitForAllBits : Bool) (ticks : BitVec 32) :
    Option (Kernel T W × Event × Option (BitVec 32)) :=
  (eventRecv k w event bits (waitOption clearOnExit waitForAllBits) ticks).map
    (fun (k, event, r, recved) => (k, event, eventBits r recved))

def waitBitsReturn (k : Kernel T W) (t : T) : BitVec 32 :=
  if (eventRecvReturn k t).1 ≠ .eok then 0 else (eventRecvReturn k t).2.getD 0

section Serve

variable (want : T → BitVec 32) (option : T → BitVec 8)

def turn (t : T) : BitVec 32 → List T → Option (BitVec 32)
  | _, [] => none
  | set, u :: l =>
    if Satisfied set (want u) (option u) then
      if u = t then some set else turn t (remaining set (want u) (option u)) l
    else turn t set l

def clears (full : BitVec 32) (t : T) : BitVec 32 :=
  if Satisfied full (want t) (option t) ∧ option t &&& eventFlagClear ≠ 0 then want t else 0

def taken (full : BitVec 32) : List T → BitVec 32
  | [] => 0
  | t :: l => clears want option full t ||| taken full l

def Unspoiled (full : BitVec 32) : BitVec 32 → List T → Prop
  | _, [] => True
  | gone, t :: l =>
    (Satisfied full (want t) (option t) → Satisfied (full &&& ~~~gone) (want t) (option t)) ∧
      Unspoiled full (gone ||| clears want option full t) l

variable {want option}

variable {l : List T} {full : BitVec 32}

theorem turn_eq_some {t : T} {set left : BitVec 32} (h : turn want option t set l = some left) :
    (t, left &&& want t) ∈ (serve want option set l).2 ∧ set &&& left = left := by
  induction l generalizing set with
  | nil => cases h
  | cons u l ih =>
    unfold turn at h
    unfold serve
    split_ifs at h ⊢ with hs hu
    · subst hu
      cases h
      exact ⟨List.mem_cons_self, BitVec.and_self⟩
    · obtain ⟨hmem, hsub⟩ := ih h
      exact ⟨List.mem_cons_of_mem _ hmem, and_trans (remaining_and set (want u) (option u)) hsub⟩
    · exact ih h

theorem turn_eq_none {t : T} {set : BitVec 32} (h : turn want option t set l = none) :
    t ∉ (serve want option set l).2.map Prod.fst := by
  induction l generalizing set with
  | nil => simp [serve]
  | cons u l ih =>
    unfold turn at h
    unfold serve
    split_ifs at h ⊢ with hs hu
    · simp only [List.map_cons, List.mem_cons, not_or]
      exact ⟨fun he => hu he.symm, ih h⟩
    · exact ih h

theorem and_not_or (a b c : BitVec 32) : a &&& ~~~b &&& ~~~c = a &&& ~~~(b ||| c) := by
  rw [BitVec.and_assoc, BitVec.not_or]

theorem and_not_subset (a b : BitVec 32) : a &&& (a &&& ~~~b) = a &&& ~~~b := by
  rw [← BitVec.and_assoc, BitVec.and_self]

omit [DecidableEq T]

theorem remaining_clears {t : T} (h : Satisfied full (want t) (option t)) (gone : BitVec 32) :
    remaining (full &&& ~~~gone) (want t) (option t) = full &&& ~~~(gone ||| clears want option full t) := by
  unfold remaining clears
  by_cases hc : option t &&& eventFlagClear ≠ 0
  · rw [if_pos hc, if_pos ⟨h, hc⟩, and_not_or]
  · rw [if_neg hc, if_neg (fun hand => hc hand.2)]
    simp

theorem clears_unsatisfied {t : T} (h : ¬Satisfied full (want t) (option t)) :
    clears want option full t = 0 := if_neg (fun hand => h hand.1)

theorem serve_all_iff (want : T → BitVec 32) (option : T → BitVec 8) (full : BitVec 32) (hl : l.Nodup)
    (gone : BitVec 32) :
    (∀ t ∈ l, Satisfied full (want t) (option t) →
      t ∈ (serve want option (full &&& ~~~gone) l).2.map Prod.fst) ↔
      Unspoiled want option full gone l := by
  induction l generalizing gone with
  | nil => simp [Unspoiled]
  | cons u l ih =>
    obtain ⟨hnot, hl'⟩ := List.nodup_cons.mp hl
    have hne (t : T) (ht : t ∈ l) : t ≠ u := fun he => hnot (he ▸ ht)
    unfold serve Unspoiled
    by_cases hfull : Satisfied full (want u) (option u)
    · by_cases hnow : Satisfied (full &&& ~~~gone) (want u) (option u)
      · rw [if_pos hnow, remaining_clears hfull, ← ih hl']
        simp only [List.map_cons, List.mem_cons, forall_eq_or_imp, true_or, implies_true, true_and]
        refine ⟨fun h => ⟨fun _ => hnow, fun t ht hs => (h t ht hs).resolve_left (hne t ht)⟩,
          fun h t ht hs => Or.inr (h.2 t ht hs)⟩
      · rw [if_neg hnow]
        refine iff_of_false (fun h => ?_) (fun h => hnow (h.1 hfull))
        exact hnot (serve_mem (h u List.mem_cons_self hfull))
    · -- with fewer bits it is not satisfied either, so it is passed over on both sides
      have hnow : ¬Satisfied (full &&& ~~~gone) (want u) (option u) :=
        fun h => hfull (h.mono (and_not_subset full gone))
      rw [if_neg hnow, clears_unsatisfied hfull]
      simp only [BitVec.ofNat_eq_ofNat, BitVec.or_zero, ← ih hl', List.mem_cons, forall_eq_or_imp, hfull,
        false_implies, true_and]

theorem serve_rest {gone : BitVec 32} (h : Unspoiled want option full gone l) :
    (serve want option (full &&& ~~~gone) l).1 = full &&& ~~~(gone ||| taken want option full l) := by
  induction l generalizing gone with
  | nil => simp [serve, taken]
  | cons u l ih =>
    obtain ⟨hhead, htail⟩ := h
    unfold serve taken
    by_cases hfull : Satisfied full (want u) (option u)
    · rw [if_pos (hhead hfull), remaining_clears hfull]
      simp only [ih htail, BitVec.or_assoc]
    · have hnow : ¬Satisfied (full &&& ~~~gone) (want u) (option u) :=
        fun h => hfull (h.mono (and_not_subset full gone))
      rw [if_neg hnow]
      rw [clears_unsatisfied hfull] at htail ⊢
      simpa using ih (show Unspoiled want option full gone l by simpa using htail)

end Serve

/-- `want t` are the bits that the suspended thread `t` has asked for, `seen t` the value of its group in the
`xEventGroupSetBits` that released it: with the new bits, and what was left at the turn of `t`. -/
structure EventGroups (T W : Type) where
  base : EventSystem T W
  want : T → BitVec 32
  seen : T → BitVec 32 × BitVec 32

inductive GroupCall (T W : Type)
  | setBits (w : W) (bits : BitVec 32)
  | clearBits (t : T) (w : W) (bits : BitVec 32)
  | waitBits (t : T) (w : W) (bits : BitVec 32) (clearOnExit waitForAllBits : Bool) (ticks : BitVec 32)
  | waitReturn (t : T)
  | timeout (t : T)

namespace EventGroups

def value (s : EventGroups T W) (w : W) : BitVec 32 := (s.base.event w).set

def recordTurns (s : EventGroups T W) (w : W) (full : BitVec 32) (t : T) : BitVec 32 × BitVec 32 :=
  match turn s.base.kernel.view.eventSet s.base.kernel.view.eventInfo t full (s.base.kernel.view.waiting w) with
  | some left => (full, left)
  | none => s.seen t

def afterRecv (s : EventGroups T W) (t : T) (w : W) (bits : BitVec 32) :
    Kernel T W × Event × Option (BitVec 32) → EventGroups T W × Option (BitVec 32)
  | (k, event, some v) => ({ s with base := s.base.update w k event }, some v)
  | (k, event, none) =>
    ({ s with
      base := { s.base.update w k event with pc := update s.base.pc t (some w) }
      want := update s.want t bits }, none)

def exec (s : EventGroups T W) : GroupCall T W → Option (EventGroups T W × Option (BitVec 32))
  | .setBits w bits =>
    let (k, event, v) := xEventGroupSetBits s.base.kernel w (s.base.event w) bits
    some ({ s with base := s.base.update w k event, seen := s.recordTurns w (s.value w ||| bits) }, some v)
  | .clearBits t w bits =>
    if s.base.Running t then
      (xEventGroupClearBits (s.base.kernel.dispatch t) w (s.base.event w) bits).map (s.afterRecv t w bits)
    else none
  | .waitBits t w bits clearOnExit waitForAllBits ticks =>
    if s.base.Running t then
      (xEventGroupWaitBits (s.base.kernel.dispatch t) w (s.base.event w) bits clearOnExit waitForAllBits ticks).map
        (s.afterRecv t w bits)
    else none
  | .waitReturn t =>
    if s.base.kernel.view.stat t = .ready ∧ (s.base.pc t).isSome then
      some ({ s with base := { s.base with pc := update s.base.pc t none } },
        some (waitBitsReturn s.base.kernel t))
    else none
  | .timeout t => (s.base.kernel.timerExpire t).map (fun k => ({ s with base := { s.base with kernel := k } }, none))

def step (s : EventGroups T W) (c : GroupCall T W) : Option (EventGroups T W) := (s.exec c).map Prod.fst

def Initial (s : EventGroups T W) : Prop := s.base.Initial

def Met (v bits : BitVec 32) : Bool → Prop
  | true => v &&& bits = bits
  | false => v &&& bits ≠ 0

instance (v bits : BitVec 32) : (waitForAllBits : Bool) → Decidable (Met v bits waitForAllBits)
  | true => decEq _ _
  | false => instDecidableNot

def Contract (s : EventGroups T W) (c : GroupCall T W) (s' : EventGroups T W) (r : Option (BitVec 32)) : Prop :=
  match c with
  | .setBits w bits =>
    let k := s.base.kernel.view
    (∀ t ∈ k.waiting w, Satisfied (s.value w ||| bits) (k.eventSet t) (k.eventInfo t) →
      s'.base.kernel.view.stat t = .ready ∧ t ∉ s'.base.kernel.view.waiting w) ∧
    s'.value w = (s.value w ||| bits) &&& ~~~taken k.eventSet k.eventInfo (s.value w ||| bits) (k.waiting w)
  | .clearBits _ w bits => s'.value w = s.value w &&& ~~~bits ∧ r = some (s.value w)
  | .waitBits _ w bits clearOnExit waitForAllBits ticks =>
    if Met (s.value w) bits waitForAllBits then
      s'.value w = (if clearOnExit then s.value w &&& ~~~bits else s.value w) ∧ r = some (s.value w)
    else s'.value w = s.value w ∧ r = if ticks = 0 then some (s.value w) else none
  | .waitReturn t => ∀ w, s.base.pc t = some w → s'.value w = s.value w ∧
      r = some (if s.base.kernel.view.error t = .eok then (s.seen t).1 else s.value w)
  | .timeout _ => True

def Meets (s : EventGroups T W) : GroupCall T W → Prop
  | .setBits w bits =>
    Unspoiled s.base.kernel.view.eventSet s.base.kernel.view.eventInfo (s.value w ||| bits) 0
      (s.base.kernel.view.waiting w)
  | .clearBits _ w bits => s.value w &&& bits = s.value w
  | .waitBits _ w bits _ waitForAllBits ticks =>
    if Met (s.value w) bits waitForAllBits then s.value w &&& bits = s.value w
    else if ticks = 0 then s.value w = 0
    else bits ≠ 0
  | .waitReturn t => ∀ w, s.base.pc t = some w →
      if s.base.kernel.view.error t = .eok then
        (s.seen t).2 = (s.seen t).1 ∧ (s.seen t).1 &&& s.want t = (s.seen t).1
      else s.value w = 0
  | .timeout _ => True

def Enabled (s : EventGroups T W) : GroupCall T W → Prop
  | .setBits _ _ => True
  | .clearBits t _ _ => s.base.Running t
  | .waitBits t _ _ _ _ ticks => s.base.Running t ∧ ticks ≠ 0x7fffffff
  | .waitReturn t => s.base.kernel.view.stat t = .ready ∧ (s.base.pc t).isSome
  | .timeout _ => False

variable {s s' : EventGroups T W} {c : GroupCall T W} {r : Option (BitVec 32)} {bits : BitVec 32}

theorem exec_base (h : s.exec c = some (s', r)) : ∃ c', s.base.step c' = some s'.base := by
  have hrecv {t : T} {w : W} {bits : BitVec 32} {option : BitVec 8} {ticks : BitVec 32} (hrun : s.base.Running t)
      (h : ((eventRecv (s.base.kernel.dispatch t) w (s.base.event w) bits option ticks).map
        (fun (k, event, r, recved) => (k, event, eventBits r recved))).map (s.afterRecv t w bits) = some (s', r)) :
      ∃ c', s.base.step c' = some s'.base := by
    refine ⟨.recv t w bits option ticks, ?_⟩
    rw [map_map] at h
    obtain ⟨⟨k, event, o, recved⟩, hk, he⟩ := map_eq_some_iff.mp h
    simp only [EventSystem.step, if_pos hrun, hk, map_some]
    cases o with
    | returned e | blocked =>
      cases he
      rfl
  cases c with
  | setBits w bits =>
    cases h
    exact ⟨.send w bits, rfl⟩
  | clearBits t w bits | waitBits t w bits clearOnExit waitForAllBits ticks =>
    simp only [exec] at h
    split_ifs at h with hrun
    exact hrecv hrun h
  | waitReturn t =>
    simp only [exec] at h
    split_ifs at h with hr
    cases h
    exact ⟨.recvReturn t, by simp only [EventSystem.step, if_pos hr]⟩
  | timeout t =>
    obtain ⟨k, hk, he⟩ := map_eq_some_iff.mp h
    cases he
    exact ⟨.timeout t, by simp only [EventSystem.step, hk, map_some]⟩

theorem satisfied_waitOption (v bits : BitVec 32) (clearOnExit waitForAllBits : Bool) :
    Satisfied v bits (waitOption clearOnExit waitForAllBits) ↔ Met v bits waitForAllBits := by
  cases clearOnExit <;> cases waitForAllBits <;>
    simp [Satisfied, waitOption, Met, eventFlagAnd, eventFlagOr, eventFlagClear]

theorem remaining_waitOption (v bits : BitVec 32) (clearOnExit waitForAllBits : Bool) :
    remaining v bits (waitOption clearOnExit waitForAllBits) =
      if clearOnExit then v &&& ~~~bits else v := by
  cases clearOnExit <;> cases waitForAllBits <;>
    simp [remaining, waitOption, eventFlagAnd, eventFlagOr, eventFlagClear]

theorem satisfied_clear (v bits : BitVec 32) :
    Satisfied v bits (eventFlagOr ||| eventFlagClear) ↔ v &&& bits ≠ 0 := by
  simp [Satisfied, eventFlagAnd, eventFlagOr, eventFlagClear]

theorem remaining_clear (v bits : BitVec 32) : remaining v bits (eventFlagOr ||| eventFlagClear) = v &&& ~~~bits := by
  simp [remaining, eventFlagOr, eventFlagClear]

theorem and_not_of_disjoint {v : BitVec 32} (h : v &&& bits = 0) : v &&& ~~~bits = v := by
  ext i hi
  have hbit : (v &&& bits)[i] = false := by rw [h]; simp
  simp only [BitVec.getElem_and, BitVec.getElem_not] at hbit ⊢
  cases hv : v[i] <;> simp_all

theorem and_not_zero (v : BitVec 32) : v &&& ~~~0 = v := and_not_of_disjoint BitVec.and_zero

structure Inv (s : EventGroups T W) : Prop where
  base : s.base.Inv
  asked : ∀ w t, t ∈ s.base.kernel.view.waiting w → s.want t = s.base.kernel.view.eventSet t
  handed : ∀ t w, s.base.pc t = some w → s.base.kernel.view.stat t = .ready →
    s.base.kernel.view.error t = .eok →
    s.base.kernel.view.eventSet t = (s.seen t).2 &&& s.want t ∧ (s.seen t).1 &&& (s.seen t).2 = (s.seen t).2

omit [DecidableEq T] [DecidableEq W] in
theorem Initial.inv (h : s.Initial) : s.Inv := by
  refine ⟨EventSystem.Initial.inv h, fun w t ht => ?_, fun t w hpc => ?_⟩
  · rw [EventSystem.Initial.waiting h w] at ht
    cases ht
  · rw [EventSystem.Initial.pc h t] at hpc
    cases hpc

theorem Inv.setBits_effect (h : s.Inv) (w : W) (bits : BitVec 32) :
    let k := s.base.kernel.view
    let served := serve k.eventSet k.eventInfo (s.value w ||| bits) (k.waiting w)
    (xEventGroupSetBits s.base.kernel w (s.base.event w) bits).2.1.set = served.1 ∧
      s.base.kernel.Delivered served.2 (xEventGroupSetBits s.base.kernel w (s.base.event w) bits).1 := by
  by_cases hbits : bits = 0
  · have hserve {l : List T} (hl : ∀ t ∈ l, t ∈ s.base.kernel.view.waiting w) :
        serve s.base.kernel.view.eventSet s.base.kernel.view.eventInfo (s.value w) l = (s.value w, []) := by
      induction l with
      | nil => rfl
      | cons t l ih =>
        have hnot : ¬Satisfied (s.value w) (s.base.kernel.view.eventSet t) (s.base.kernel.view.eventInfo t) :=
          h.base.unsatisfied w t (hl t List.mem_cons_self)
        rw [serve, if_neg hnot]
        exact ih (fun u hu => hl u (List.mem_cons_of_mem t hu))
    have hset : xEventGroupSetBits s.base.kernel w (s.base.event w) bits = (s.base.kernel, s.base.event w, 0) := by
      simp [xEventGroupSetBits, eventSend, hbits]
    have hzero : s.value w ||| bits = s.value w := by simp [hbits]
    simp only [hset, hzero, hserve (fun t ht => ht)]
    exact ⟨rfl, h.base.parked.wf.delivered_nil⟩
  · obtain ⟨hsend, hdel⟩ := h.base.parked.wf.eventSend w (s.base.event w) hbits
    exact ⟨congrArg (fun p => p.1.set) hsend, hdel⟩

theorem Inv.setBits (h : s.Inv) (w : W) (bits : BitVec 32) {k : Kernel T W} {event : Event}
    (hbase : (s.base.update w k event).Inv)
    (hdel : s.base.kernel.Delivered (serve s.base.kernel.view.eventSet s.base.kernel.view.eventInfo
      (s.value w ||| bits) (s.base.kernel.view.waiting w)).2 k) :
    Inv { s with base := s.base.update w k event, seen := s.recordTurns w (s.value w ||| bits) } := by
  refine ⟨hbase, fun w' t ht => ?_, fun t w' hpc hready herr => ?_⟩
  · simp only [EventSystem.update] at ht ⊢
    rw [hdel.waiting, List.mem_filter] at ht
    rw [(hdel.other t (by simpa using ht.2)).2]
    exact h.asked w' t ht.1
  · simp only [EventSystem.update] at hpc hready herr ⊢
    rw [recordTurns]
    cases hturn : turn s.base.kernel.view.eventSet s.base.kernel.view.eventInfo t (s.value w ||| bits)
        (s.base.kernel.view.waiting w) with
    | some left =>
      obtain ⟨hmem, hsub⟩ := turn_eq_some hturn
      have hwait : t ∈ s.base.kernel.view.waiting w := serve_mem (List.mem_map_of_mem hmem)
      refine ⟨?_, hsub⟩
      rw [(hdel.resumed t _ hmem).2, h.asked w t hwait]
    | none =>
      obtain ⟨hstat, hset⟩ := hdel.other t (turn_eq_none hturn)
      rw [hset]
      exact h.handed t w' hpc (hstat ▸ hready) (congrFun hdel.error t ▸ herr)

theorem Inv.recv (h : s.Inv) {t : T} {w : W} {option : BitVec 8}
    {ticks : BitVec 32} {k : Kernel T W} {event : Event} {o : Outcome} {recved : Option (BitVec 32)}
    (hrun : s.base.Running t) (he : s.base.kernel.RecvEffect w (s.base.event w) t bits option ticks k event o recved)
    (hbase : (s.afterRecv t w bits (k, event, eventBits o recved)).1.base.Inv) :
    (s.afterRecv t w bits (k, event, eventBits o recved)).1.Inv := by
  have hown {e : Err} {event : Event} (hbase : (s.base.update w k event).Inv)
      (hv : k.view = s.base.kernel.view.setError t e) :
      Inv { s with base := s.base.update w k event } := by
    refine ⟨hbase, fun w' u hu => ?_, fun u w' hpc hready herr => ?_⟩
    · simp only [EventSystem.update, hv] at hu ⊢
      exact h.asked w' u hu
    · simp only [EventSystem.update, hv] at hpc hready herr ⊢
      have hne : u ≠ t := fun he => by rw [he, hrun.2] at hpc; cases hpc
      rw [update_of_ne hne] at herr
      exact h.handed u w' hpc hready herr
  cases he with
  | rejected hz hv =>
    refine hown (e := s.base.kernel.view.error t) hbase ?_
    rw [hv, View.setError_self]
  | served hask hs hv | refused hask hs hz hv => exact hown hbase hv
  | blocked hask hs hz hv =>
    refine ⟨hbase, fun w' u hu => ?_, fun u w' hpc hready herr => ?_⟩
    · obtain rfl | hut := eq_or_ne u t
      · simp [afterRecv, eventBits, EventSystem.update, hv]
      · simp only [afterRecv, eventBits, EventSystem.update, hv] at hu ⊢
        rw [update_of_ne hut, update_of_ne hut]
        refine h.asked w' u ?_
        by_cases hw : w' = w
        · subst hw
          simpa [mem_enqueue, hut] using hu
        · simpa [hw] using hu
    · simp only [afterRecv, eventBits, EventSystem.update, hv] at hpc hready herr ⊢
      have hut : u ≠ t := fun he => by simp [he] at hready
      rw [update_of_ne hut] at hpc hready herr ⊢
      rw [update_of_ne hut]
      exact h.handed u w' hpc hready herr

theorem Inv.exec (h : s.Inv) (hs : s.exec c = some (s', r)) : s'.Inv := by
  obtain ⟨c', hc'⟩ := exec_base hs
  have hbase : s'.base.Inv := h.base.step hc'
  have hrecv {t : T} {w : W} {bits : BitVec 32} {option : BitVec 8} {ticks : BitVec 32} (hrun : s.base.Running t)
      (hs : ((eventRecv (s.base.kernel.dispatch t) w (s.base.event w) bits option ticks).map
        (fun (k, event, r, recved) => (k, event, eventBits r recved))).map (s.afterRecv t w bits) = some (s', r)) :
      s'.Inv := by
    rw [map_map] at hs
    obtain ⟨⟨k, event, o, recved⟩, hk, he⟩ := map_eq_some_iff.mp hs
    obtain ⟨-, heff⟩ := h.base.parked.wf.eventRecv hrun.1 hk
    obtain rfl : (s.afterRecv t w bits (k, event, eventBits o recved)).1 = s' := congrArg Prod.fst he
    exact h.recv hrun heff hbase
  cases c with
  | setBits w bits =>
    cases hs
    exact h.setBits w bits hbase (h.setBits_effect w bits).2
  | clearBits t w bits | waitBits t w bits clearOnExit waitForAllBits ticks =>
    simp only [EventGroups.exec] at hs
    split_ifs at hs with hrun
    exact hrecv hrun hs
  | waitReturn t =>
    simp only [EventGroups.exec] at hs
    split_ifs at hs with hr
    cases hs
    refine ⟨hbase, h.asked, fun u w hpc hready herr => ?_⟩
    have hut : u ≠ t := fun he => by simp [he] at hpc
    exact h.handed u w (by simpa [hut] using hpc) hready herr
  | timeout t =>
    obtain ⟨k, hk, he⟩ := map_eq_some_iff.mp hs
    cases he
    obtain ⟨-, -, hv⟩ := h.base.parked.expire hk
    refine ⟨hbase, fun w u hu => ?_, fun u w hpc hready herr => ?_⟩
    · simp only [hv] at hu ⊢
      exact h.asked w u (List.mem_of_mem_erase hu)
    · simp only [hv] at hready herr ⊢
      have hut : u ≠ t := fun he => by simp [he] at herr
      rw [update_of_ne hut] at hready herr
      exact h.handed u w hpc hready herr

theorem inv_of_reachable (h : Reachable step (fun _ _ => True) Initial s) : s.Inv := by
  refine h.invariant (fun _ hs => hs.inv) ?_
  intro s c s' hi _ hs
  obtain ⟨⟨_, r⟩, hexec, rfl⟩ := map_eq_some_iff.mp hs
  exact hi.exec hexec

theorem exec_setBits (s : EventGroups T W) (w : W) (bits : BitVec 32) :
    s.exec (.setBits w bits) = some
      ({ s with
        base := s.base.update w (xEventGroupSetBits s.base.kernel w (s.base.event w) bits).1
          (xEventGroupSetBits s.base.kernel w (s.base.event w) bits).2.1
        seen := s.recordTurns w (s.value w ||| bits) },
      some (xEventGroupSetBits s.base.kernel w (s.base.event w) bits).2.2) := rfl

theorem Inv.setBits_iff {w : W} (h : s.Inv) (hs : s.exec (.setBits w bits) = some (s', r)) :
    s.Contract (.setBits w bits) s' r ↔ s.Meets (.setBits w bits) := by
  rw [exec_setBits, some.injEq] at hs
  obtain ⟨rfl, -⟩ := hs
  obtain ⟨hset, hdel⟩ := h.setBits_effect w bits
  have hnodup := h.base.parked.wf.view_nodup w
  have hgone : (s.value w ||| bits) &&& ~~~0 = s.value w ||| bits := and_not_zero _
  have hall := serve_all_iff s.base.kernel.view.eventSet s.base.kernel.view.eventInfo (s.value w ||| bits) hnodup 0
  rw [hgone] at hall
  have hreleased (t : T) (ht : t ∈ s.base.kernel.view.waiting w) :
      ((xEventGroupSetBits s.base.kernel w (s.base.event w) bits).1.view.stat t = .ready ∧
        t ∉ (xEventGroupSetBits s.base.kernel w (s.base.event w) bits).1.view.waiting w) ↔
      t ∈ (serve s.base.kernel.view.eventSet s.base.kernel.view.eventInfo (s.value w ||| bits)
        (s.base.kernel.view.waiting w)).2.map Prod.fst := by
    constructor
    · rintro ⟨hready, -⟩
      by_contra hnot
      rw [(hdel.other t hnot).1, h.base.parked.wf.view_suspend ht] at hready
      cases hready
    · intro hmem
      obtain ⟨⟨_, m⟩, hm, rfl⟩ := List.mem_map.mp hmem
      refine ⟨(hdel.resumed _ m hm).1, ?_⟩
      rw [hdel.waiting]
      simpa using fun _ => ⟨m, hm⟩
  simp only [Contract, Meets, EventSystem.update]
  constructor
  · intro hc
    exact hall.mp (fun t ht hsat => (hreleased t ht).mp (hc.1 t ht hsat))
  · intro hm
    refine ⟨fun t ht hsat => (hreleased t ht).mpr (hall.mpr hm t ht hsat), ?_⟩
    have hrest := serve_rest hm
    rw [hgone] at hrest
    simp only [value, update_self]
    rw [hset]
    simpa [value] using hrest

theorem Inv.clearBits_iff {t : T} {w : W} (h : s.Inv) (hs : s.exec (.clearBits t w bits) = some (s', r)) :
    s.Contract (.clearBits t w bits) s' r ↔ s.Meets (.clearBits t w bits) := by
  simp only [EventGroups.exec, xEventGroupClearBits, map_map] at hs
  split_ifs at hs with hrun
  obtain ⟨⟨k, event, o, recved⟩, hk, he⟩ := map_eq_some_iff.mp hs
  obtain ⟨-, heff⟩ := h.base.parked.wf.eventRecv hrun.1 hk
  simp only [Contract, Meets]
  cases heff with
  | rejected hz hv =>
    cases he
    rw [hz, and_not_zero]
    simp [value, EventSystem.update]
  | served hask hsat hv =>
    cases he
    simp [value, EventSystem.update, remaining_clear]
  | refused hask hsat hz hv =>
    cases he
    have hzero : s.value w &&& bits = 0 := by
      by_contra hne
      exact hsat ((satisfied_clear _ _).mpr hne)
    rw [hzero, and_not_of_disjoint hzero]
    simp [value, EventSystem.update]
  | blocked hask hsat hz hv => exact absurd rfl hz

theorem Inv.waitBits_iff {t : T} {w : W} {clearOnExit waitForAllBits : Bool} {ticks : BitVec 32} (h : s.Inv)
    (hs : s.exec (.waitBits t w bits clearOnExit waitForAllBits ticks) = some (s', r)) :
    s.Contract (.waitBits t w bits clearOnExit waitForAllBits ticks) s' r ↔
      s.Meets (.waitBits t w bits clearOnExit waitForAllBits ticks) := by
  simp only [EventGroups.exec, xEventGroupWaitBits, map_map] at hs
  split_ifs at hs with hrun
  obtain ⟨⟨k, event, o, recved⟩, hk, he⟩ := map_eq_some_iff.mp hs
  obtain ⟨-, heff⟩ := h.base.parked.wf.eventRecv hrun.1 hk
  simp only [Contract, Meets]
  cases heff with
  | rejected hz hv =>
    cases he
    simp only [hz, and_not_zero, ite_self]
    by_cases hmet : Met (s.value w) 0 waitForAllBits
    · rw [if_pos hmet, if_pos hmet]
      simp [value, EventSystem.update]
    · rw [if_neg hmet, if_neg hmet]
      by_cases ht : ticks = 0
      · simp [value, EventSystem.update, ht, eq_comm]
      · rw [if_neg ht, if_neg ht]
        simp
  | served hask hsat hv =>
    cases he
    have hmet : Met (s.value w) bits waitForAllBits := (satisfied_waitOption _ _ _ _).mp hsat
    rw [if_pos hmet, if_pos hmet]
    simp [value, EventSystem.update, remaining_waitOption]
  | refused hask hsat hz hv =>
    cases he
    have hmet : ¬Met (s.value w) bits waitForAllBits := fun hm => hsat ((satisfied_waitOption _ _ _ _).mpr hm)
    rw [if_neg hmet, if_neg hmet, if_pos hz, if_pos hz]
    simp [value, EventSystem.update, eq_comm]
  | blocked hask hsat hz hv =>
    cases he
    have hmet : ¬Met (s.value w) bits waitForAllBits := fun hm => hsat ((satisfied_waitOption _ _ _ _).mpr hm)
    rw [if_neg hmet, if_neg hmet, if_neg hz, if_neg hz]
    simpa [value, EventSystem.update] using hask.1

theorem Inv.waitReturn_iff {t : T} (h : s.Inv)
    (hs : s.exec (.waitReturn t) = some (s', r)) : s.Contract (.waitReturn t) s' r ↔ s.Meets (.waitReturn t) := by
  simp only [EventGroups.exec] at hs
  split_ifs at hs with hr
  cases hs
  refine forall₂_congr (fun w hpc => ?_)
  by_cases herr : s.base.kernel.view.error t = .eok
  · obtain ⟨hgot, hsub⟩ := h.handed t w hpc hr.1 herr
    have hreturn : waitBitsReturn s.base.kernel t = (s.seen t).2 &&& s.want t := by
      have herr' : (s.base.kernel.thread t).error = .eok := herr
      rw [← hgot]
      simp [waitBitsReturn, eventRecvReturn, herr']
      rfl
    rw [if_pos herr, if_pos herr, hreturn]
    simp only [value, true_and, some.injEq]
    constructor
    -- a value that is got back whole was neither cleared before nor cut down to the awaited bits
    · intro heq
      have hleft : (s.seen t).2 = (s.seen t).1 := by
        rw [← hsub, ← heq, BitVec.and_assoc, BitVec.and_comm (s.want t), ← BitVec.and_assoc, BitVec.and_self]
      exact ⟨hleft, by rw [hleft] at heq; exact heq⟩
    · rintro ⟨hleft, hwant⟩
      rw [hleft, hwant]
  · have hreturn : waitBitsReturn s.base.kernel t = 0 := by
      have herr' : (s.base.kernel.thread t).error ≠ .eok := herr
      simp [waitBitsReturn, eventRecvReturn, herr']
    rw [if_neg herr, if_neg herr, hreturn]
    simp [value, eq_comm]

theorem exec_isSome (h : s.Enabled c) : (s.exec c).isSome := by
  cases c with
  | setBits w bits => rfl
  | clearBits t w bits =>
    have hrun : s.base.Running t := h
    have hopt : (eventFlagOr ||| eventFlagClear) &&& eventFlagAnd ≠ 0 ∨
        (eventFlagOr ||| eventFlagClear) &&& eventFlagOr ≠ 0 := by decide
    have hrecv := eventRecv_isSome s.base.kernel w (s.base.event w) t bits hopt
      (show (0 : BitVec 32) ≠ 0x7fffffff by decide)
    simpa [exec, hrun, xEventGroupClearBits] using hrecv
  | waitBits t w bits clearOnExit waitForAllBits ticks =>
    have hopt : waitOption clearOnExit waitForAllBits &&& eventFlagAnd ≠ 0 ∨
        waitOption clearOnExit waitForAllBits &&& eventFlagOr ≠ 0 := by
      cases clearOnExit <;> cases waitForAllBits <;> decide
    have hrecv := eventRecv_isSome s.base.kernel w (s.base.event w) t bits hopt h.2
    simpa [exec, h.1, xEventGroupWaitBits] using hrecv
  | waitReturn t =>
    have hready : s.base.kernel.view.stat t = .ready ∧ (s.base.pc t).isSome := h
    simp only [exec, if_pos hready, isSome_some]
  | timeout t => exact absurd h False.elim

theorem event_group_contract_iff {s : EventGroups T W} (h : Reachable step (fun _ _ => True) Initial s)
    (c : GroupCall T W) :
    (s.Enabled c → (s.exec c).isSome) ∧
      ∀ s' r, s.exec c = some (s', r) → (s.Contract c s' r ↔ s.Meets c) := by
  have hi := inv_of_reachable h
  refine ⟨exec_isSome, fun s' r hs => ?_⟩
  cases c with
  | setBits w bits => exact hi.setBits_iff hs
  | clearBits t w bits => exact hi.clearBits_iff hs
  | waitBits t w bits clearOnExit waitForAllBits ticks => exact hi.waitBits_iff hs
  | waitReturn t => exact hi.waitReturn_iff hs
  | timeout t => exact Iff.rfl

def twoTasks : EventGroups Tid Unit where
  base :=
    { kernel := bootKernel Tid.priority [.startup .mid, .startup .low, .schedulerStart]
      event := fun _ => eventInit .prio
      pc := fun _ => none }
  want _ := 0
  seen _ := (0, 0)

theorem twoTasks_initial : twoTasks.Initial := by
  have hwf : (bootKernel Tid.priority [.startup .mid, .startup .low, .schedulerStart] : Kernel Tid Unit).Wf :=
    bootKernel_wf (by decide) _
  exact ⟨hwf, by decide +kernel, fun _ => rfl, fun _ => ⟨.prio, rfl⟩⟩

theorem twoTasks_reachable {s : EventGroups Tid Unit} {cs : List (GroupCall Tid Unit)}
    (h : run step twoTasks cs = some s) : Reachable step (fun _ _ => True) Initial s :=
  .of_free_run twoTasks_initial h

theorem event_group_contract_iff_cleared : ∃ s s' : EventGroups Tid Unit,
    Reachable step (fun _ _ => True) Initial s ∧ s.value () = 3 ∧
      s.exec (.clearBits .mid () 7) = some (s', some 3) ∧ s.Contract (.clearBits .mid () 7) s' (some 3) := by
  obtain ⟨s, hs, hv, ⟨s', r⟩, hexec, rfl⟩ : ∃ s, run step twoTasks [.setBits () 3] = some s ∧
    s.value () = 3 ∧
      ∃ p, s.exec (.clearBits .mid () 7) = some p ∧ p.2 = some 3 := by decide +kernel
  have hmeets : s.Meets (.clearBits .mid () 7) := by
    change s.value () &&& 7 = s.value ()
    rw [hv]
    rfl
  exact ⟨s, s', twoTasks_reachable hs, hv, hexec,
    ((event_group_contract_iff (twoTasks_reachable hs) _).2 s' _ hexec).mpr hmeets⟩

theorem event_group_breaks_contract :
    (∃ s s' : EventGroups Tid Unit, Reachable step (fun _ _ => True) Initial s ∧ s.value () = 3 ∧
      s.exec (.clearBits .mid () 1) = some (s', some 1)) ∧
    (∃ s s' : EventGroups Tid Unit, Reachable step (fun _ _ => True) Initial s ∧ s.value () = 3 ∧
      s.exec (.waitBits .mid () 4 false true 0) = some (s', some 0)) ∧
    ∃ s s' : EventGroups Tid Unit, ∃ r, Reachable step (fun _ _ => True) Initial s ∧
      s.exec (.setBits () 1) = some (s', r) ∧ ¬s.Contract (.setBits () 1) s' r := by
  obtain ⟨s, hs, hvalue, ⟨⟨s₁, r₁⟩, hexec₁, rfl⟩, ⟨s₂, r₂⟩, hexec₂, rfl⟩ :
      ∃ s, run step twoTasks [.setBits () 3] = some s ∧ s.value () = 3 ∧
        (∃ p, s.exec (.clearBits .mid () 1) = some p ∧ p.2 = some 1) ∧
        ∃ p, s.exec (.waitBits .mid () 4 false true 0) = some p ∧ p.2 = some 0 := by decide +kernel
  obtain ⟨u, hu, hmem, hsat, ⟨u', r⟩, hexec, hafter⟩ : ∃ s, run step twoTasks
          [.waitBits .mid () 1 true true 0xffffffff, .waitBits .low () 1 false true 0xffffffff] = some s ∧
        .low ∈ s.base.kernel.view.waiting () ∧
        Satisfied (s.value () ||| 1) (s.base.kernel.view.eventSet .low) (s.base.kernel.view.eventInfo .low) ∧
        ∃ p, s.exec (.setBits () 1) = some p ∧ .low ∈ p.1.base.kernel.view.waiting () := by decide +kernel
  refine ⟨⟨s, s₁, twoTasks_reachable hs, hvalue, hexec₁⟩,
    ⟨s, s₂, twoTasks_reachable hs, hvalue, hexec₂⟩, u, u', r,
    twoTasks_reachable hu, hexec, ?_⟩
  intro hcontract
  exact (hcontract.1 .low hmem hsat).2 hafter

end EventGroups

end RtThread
