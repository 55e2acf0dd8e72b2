import Mathlib.Data.List.Nodup
import RtThread.Lib.Transition

/-!
Threads that share a mutex, which is handed to the first thread of its queue, and condition variables that are counting
semaphores: a wait gives the mutex up in one step and takes a unit in another one.
-/

namespace CondMonitor

open Function List

inductive Result
  | done
  | expired
  | refused
  deriving DecidableEq

inductive Patience
  | never
  | timed
  | forever
  deriving DecidableEq

/-- Where a thread is in the call that its label stands for. A thread that is `queued` or `handed` gets the result once
it has the mutex; one that is `dropped` has given the mutex up and not reached the semaphore. -/
inductive Place (C : Type*)
  | run
  | queued (r : Result)
  | handed (r : Result)
  | dropped (c : C) (p : Patience)
  | parked (c : C) (p : Patience)
  | woken (r : Result)
  deriving DecidableEq

inductive Cmd (C L D τ : Type*)
  | lock
  | unlock
  | wait (c : C) (time : τ)
  | signal (c : C)
  | broadcast (c : C)
  | tryTake (c : C)
  | clear (c : C)
  | assign (d : D) (l : L)

structure Code (T C L D τ X : Type*) where
  cmd : T → L → D → X → Option (Cmd C L D τ)
  ret : L → Result → L

structure Program (T C L D τ X : Type*) extends Code T C L D τ X where
  patience : τ → Patience
  limit : ℕ

@[ext] structure State (T C L D : Type*) where
  owner : Option T
  queue : List T
  value : C → ℕ
  list : C → List T
  label : T → L
  place : T → Place C
  data : D

inductive Event (T X : Type*)
  | run (t : T) (x : X)
  | expire (t : T)
  deriving DecidableEq

variable {T C L D τ X : Type*}

def Event.thread : Event T X → T
  | .run t _ | .expire t => t

def Place.hand : Place C → Place C
  | .queued r => .handed r
  | p => p

namespace State

variable [DecidableEq C]

@[simps] def setValue (s : State T C L D) (c : C) (n : ℕ) : State T C L D :=
  { s with value := update s.value c n }

theorem setValue_self (s : State T C L D) (c : C) : s.setValue c (s.value c) = s := by
  rw [setValue, update_eq_self]

variable [DecidableEq T]

@[simps] def setPlace (s : State T C L D) (t : T) (p : Place C) : State T C L D :=
  { s with place := update s.place t p }

@[simps] def moveTo (s : State T C L D) (t : T) (l : L) : State T C L D :=
  { s.setPlace t .run with label := update s.label t l }

def pass (s : State T C L D) : State T C L D :=
  match s.queue with
  | [] => { s with owner := none }
  | u :: q => { s.setPlace u (s.place u).hand with owner := some u, queue := q }

def enter (s : State T C L D) (t : T) (r : Result) (l : L) : State T C L D :=
  match s.owner with
  | none => { s.moveTo t l with owner := some t }
  | some o => if o = t then s.moveTo t l else { s.setPlace t (.queued r) with queue := s.queue ++ [t] }

@[simps] def setList (s : State T C L D) (c : C) (l : List T) : State T C L D :=
  { s with list := update s.list c l }

def grant (s : State T C L D) (limit : ℕ) (c : C) : State T C L D :=
  match s.list c with
  | [] => s.setValue c ((s.value c + 1) % limit)
  | u :: q => (s.setPlace u (.woken .done)).setList c q

@[simps] def grantAll (s : State T C L D) (c : C) : State T C L D :=
  { (s.setList c []).setValue c (if s.value c = 0 then 1 else s.value c) with
    place := fun t => if t ∈ s.list c then .woken .done else s.place t }

def take (s : State T C L D) (t : T) (c : C) (p : Patience) : State T C L D :=
  if 0 < s.value c then (s.setPlace t (.woken .done)).setValue c (s.value c - 1)
  else if p = .never then s.setPlace t (.woken .expired)
  else (s.setPlace t (.parked c p)).setList c (s.list c ++ [t])

variable (P : Program T C L D τ X)

def exec (s : State T C L D) (t : T) : Cmd C L D τ → State T C L D
  | .lock =>
    if s.owner = some t then s.moveTo t (P.ret (s.label t) .refused)
    else s.enter t .done (P.ret (s.label t) .done)
  | .unlock =>
    if s.owner = some t then s.pass.moveTo t (P.ret (s.label t) .done)
    else s.moveTo t (P.ret (s.label t) (if s.owner = none then .done else .refused))
  | .wait c time =>
    if s.owner = some t then s.pass.setPlace t (.dropped c (P.patience time))
    else s.moveTo t (P.ret (s.label t) .refused)
  | .signal c => (s.grant P.limit c).moveTo t (P.ret (s.label t) .done)
  | .broadcast c => (s.grantAll c).moveTo t (P.ret (s.label t) .done)
  | .tryTake c =>
    if 0 < s.value c then (s.setValue c (s.value c - 1)).moveTo t (P.ret (s.label t) .done)
    else s.moveTo t (P.ret (s.label t) .expired)
  | .clear c => (s.setValue c 0).moveTo t (P.ret (s.label t) .done)
  | .assign d l => { s.moveTo t l with data := d }

def turn (s : State T C L D) (t : T) (x : X) : Option (State T C L D) :=
  match s.place t with
  | .run => (P.cmd t (s.label t) s.data x).map (s.exec P t)
  | .handed r => some (s.moveTo t (P.ret (s.label t) r))
  | .dropped c p => some (s.take t c p)
  | .woken r => some (s.enter t r (P.ret (s.label t) r))
  | .queued _ | .parked _ _ => none

def step (s : State T C L D) : Event T X → Option (State T C L D)
  | .run t x => s.turn P t x
  | .expire t =>
    match s.place t with
    | .parked c .timed => some ((s.setPlace t (.woken .expired)).setList c ((s.list c).erase t))
    | _ => none

end State

structure Inv (s : State T C L D) : Prop where
  queued : ∀ t, t ∈ s.queue ↔ ∃ r, s.place t = .queued r
  parked : ∀ t c, t ∈ s.list c ↔ ∃ p, s.place t = .parked c p
  queue_nodup : s.queue.Nodup
  list_nodup : ∀ c, (s.list c).Nodup
  free : s.owner = none → s.queue = []
  handed : ∀ t r, s.place t = .handed r → s.owner = some t
  owner : ∀ t, s.owner = some t → s.place t = .run ∨ ∃ r, s.place t = .handed r
  value : ∀ c, 0 < s.value c → s.list c = []

section

variable [DecidableEq T] {s s' : State T C L D} {t u : T} {c : C} {p : Place C} {r : Result} {l : L} {n : ℕ}

def Place.Free : Place C → Prop
  | .queued _ | .parked _ _ => False
  | .run | .handed _ | .dropped _ _ | .woken _ => True

section

variable (h : Inv s)

include h

section

omit [DecidableEq T]

theorem Inv.of_label (label : T → L) (data : D) : Inv { s with label, data } :=
  ⟨h.queued, h.parked, h.queue_nodup, h.list_nodup, h.free, h.handed, h.owner, h.value⟩

theorem Inv.not_mem (hfree : (s.place t).Free) : t ∉ s.queue ∧ ∀ c, t ∉ s.list c := by
  refine ⟨fun hm => ?_, fun c hm => ?_⟩
  · obtain ⟨r, hr⟩ := (h.queued t).mp hm
    rw [hr] at hfree
    exact hfree
  · obtain ⟨p, hp⟩ := (h.parked t c).mp hm
    rw [hp] at hfree
    exact hfree

theorem Inv.owner_free (ho : s.owner = some t) : (s.place t).Free := by
  obtain hr | ⟨r, hr⟩ := h.owner t ho
  · rw [hr]
    trivial
  · rw [hr]
    trivial

theorem Inv.queue_place (hu : u ∈ s.queue) : ∃ r, s.place u = .queued r ∧ (s.place u).hand = .handed r := by
  obtain ⟨r, hr⟩ := (h.queued u).mp hu
  exact ⟨r, hr, by rw [hr]; rfl⟩

theorem Inv.not_handed (ho : s.owner = some t) (hrun : s.place t = .run) (u : T) (r : Result) :
    s.place u ≠ .handed r := by
  intro hu
  obtain rfl : t = u := Option.some.inj (ho.symm.trans (h.handed u r hu))
  exact absurd (hrun.symm.trans hu) (by simp)

end

theorem Inv.replace (hplace : s'.place = update s.place u p)
    (hqueue : ∀ v, v ∈ s'.queue ↔ v ≠ u ∧ v ∈ s.queue ∨ v = u ∧ ∃ r, p = .queued r)
    (hlist : ∀ v c, v ∈ s'.list c ↔ v ≠ u ∧ v ∈ s.list c ∨ v = u ∧ ∃ q, p = .parked c q)
    (hqn : s'.queue.Nodup) (hln : ∀ c, (s'.list c).Nodup) (hfree : s'.owner = none → s'.queue = [])
    (hhanded : ∀ r, p = .handed r → s'.owner = some u)
    (howner : s'.owner = some u → p = .run ∨ ∃ r, p = .handed r)
    (hothers : ∀ v, v ≠ u → (∀ r, s.place v = .handed r → s'.owner = some v) ∧
      (s'.owner = some v → s.owner = some v))
    (hvalue : ∀ c, 0 < s'.value c → s'.list c = []) : Inv s' := by
  have hself : s'.place u = p := (congrFun hplace u).trans (update_self ..)
  have hne : ∀ v, v ≠ u → s'.place v = s.place v := fun v hv =>
    (congrFun hplace v).trans (update_of_ne hv _ _)
  refine ⟨fun v => ?_, fun v c => ?_, hqn, hln, hfree, fun v r hv => ?_, fun v hv => ?_, hvalue⟩
  all_goals obtain rfl | hvu := eq_or_ne v u
  · simp [hqueue, hself]
  · simp [hqueue, hne v hvu, hvu, h.queued]
  · simp [hlist, hself]
  · simp [hlist, hne v hvu, hvu, h.parked]
  · exact hhanded r (hself.symm.trans hv)
  · exact (hothers v hvu).1 r ((hne v hvu).symm.trans hv)
  · rw [hself]
    exact howner hv
  · rw [hne v hvu]
    exact h.owner v ((hothers v hvu).2 hv)

theorem Inv.setPlace (hfree : (s.place t).Free) (hp : p.Free) (hhanded : ∀ r, p = .handed r → s.owner = some t)
    (howner : s.owner = some t → p = .run ∨ ∃ r, p = .handed r) : Inv (s.setPlace t p) := by
  obtain ⟨hqueue, hlist⟩ := h.not_mem hfree
  refine h.replace rfl (fun v => ?_) (fun v c => ?_) h.queue_nodup h.list_nodup h.free hhanded howner
    (fun v _ => ⟨h.handed v, id⟩) h.value
  · cases p <;> grind [Place.Free, State.setPlace]
  · cases p <;> grind [Place.Free, State.setPlace]

theorem Inv.moveTo (hfree : (s.place t).Free) (l : L) : Inv (s.moveTo t l) :=
  (h.setPlace (p := .run) hfree trivial (fun r hr => by cases hr) (fun _ => .inl rfl)).of_label _ _

theorem Inv.pass (ho : s.owner = some t) (hrun : s.place t = .run) :
    Inv s.pass ∧ s.pass.owner ≠ some t ∧ s.pass.place t = .run := by
  have hnot := h.not_handed ho hrun
  unfold State.pass
  cases hq : s.queue with
  | nil =>
    dsimp only
    refine ⟨⟨fun u => ?_, h.parked, nodup_nil, h.list_nodup, fun _ => rfl, fun u r hu => ?_, nofun, h.value⟩,
      by simp, hrun⟩
    · rw [← hq]
      exact h.queued u
    · exact absurd hu (hnot u r)
  | cons u q =>
    obtain ⟨r, hr, hhand⟩ := h.queue_place (by rw [hq]; exact mem_cons_self)
    have hut : u ≠ t := fun he => absurd ((he ▸ hr).symm.trans hrun) (by simp)
    obtain ⟨hu, hnodup⟩ := nodup_cons.mp (hq ▸ h.queue_nodup)
    refine ⟨h.replace (by rw [← hhand]; rfl) (fun v => ?_) (fun v c => ?_) hnodup h.list_nodup
      nofun (fun _ _ => rfl) (fun _ => .inr ⟨r, rfl⟩)
      (fun v hvu => ⟨fun r' hv => absurd hv (hnot v r'), fun hv => ?_⟩)
      h.value, by simpa using hut, (update_of_ne hut.symm _ _).trans hrun⟩
    · grind
    · have hpark := h.parked v c
      simp only [State.setPlace]
      grind
    · exact absurd (Option.some.inj hv).symm hvu

theorem Inv.enter (hfree : (s.place t).Free) (r : Result) (l : L) : Inv (s.enter t r l) := by
  obtain ⟨hqueue, hlist⟩ := h.not_mem hfree
  unfold State.enter
  cases ho : s.owner with
  | none =>
    have hrun := h.moveTo hfree l
    refine ⟨hrun.queued, hrun.parked, hrun.queue_nodup, hrun.list_nodup, nofun, fun u r' hu => ?_, fun u hu => ?_,
      hrun.value⟩
    · exact absurd (hrun.handed u r' hu) (by simp [State.moveTo, State.setPlace, ho])
    · cases hu
      exact .inl (update_self ..)
  | some o =>
    dsimp only
    split_ifs with hot
    · exact h.moveTo hfree l
    · have hother : ∀ v, s.owner = some v → v ≠ t := by
        rintro v hv rfl
        exact hot (Option.some.inj (ho.symm.trans hv))
      refine h.replace rfl (fun v => ?_) (fun v c => ?_)
        (by simpa using h.queue_nodup.concat hqueue) h.list_nodup
        (by simp [State.setPlace, ho]) nofun (fun hv => absurd rfl (hother t hv))
        (fun v _ => ⟨h.handed v, id⟩) h.value
      · grind
      · simp only [State.setPlace]
        grind

end

variable {e : Event T X} {q : Place C}

variable {p : Place C}

theorem State.enter_place (s : State T C L D) (t : T) (r : Result) (l : L) :
    (s.enter t r l).place t = .run ∨ (s.enter t r l).place t = .queued r := by
  unfold State.enter
  split
  · exact .inl (update_self ..)
  · split_ifs
    · exact .inl (update_self ..)
    · exact .inr (update_self ..)

inductive Place.Pushed : Place C → Place C → Prop
  | same {p : Place C} : Pushed p p
  | hand {r : Result} : Pushed (.queued r) (.handed r)
  | wake {c : C} {p : Patience} : Pushed (.parked c p) (.woken .done)

theorem Place.Pushed.of_eq (h : q = p) : p.Pushed q := by
  rw [h]
  exact .same

theorem Inv.pushed_pass (h : Inv s) (u : T) : (s.place u).Pushed (s.pass.place u) := by
  unfold State.pass
  cases hq : s.queue with
  | nil => exact .same
  | cons v q =>
    obtain ⟨r, hr, -⟩ := h.queue_place (by rw [hq]; exact mem_cons_self)
    by_cases huv : u = v
    · rw [huv, State.setPlace_place, update_self, hr]
      exact .hand
    · exact .of_eq (update_of_ne huv _ _)

theorem Place.Pushed.of_ne (h : p.Pushed (s.place u)) (hut : u ≠ t) (q : Place C) :
    p.Pushed (update s.place t q u) := by
  rwa [update_of_ne hut]

theorem pushed_enter (s : State T C L D) (hut : u ≠ t) (r : Result) (l : L) :
    (s.place u).Pushed ((s.enter t r l).place u) := by
  unfold State.enter
  split
  · exact .of_ne .same hut _
  · split_ifs <;> exact .of_ne .same hut _

def Place.Inside (c : C) : Place C → Prop
  | .dropped c' _ | .parked c' _ => c' = c
  | .run | .queued _ | .handed _ | .woken _ => False

def Place.Dropped (c : C) : Place C → Prop
  | .dropped c' _ => c' = c
  | .run | .queued _ | .handed _ | .parked _ _ | .woken _ => False

theorem Place.Dropped.inside (h : p.Dropped c) : p.Inside c := by
  cases p with
  | dropped c' q => exact h
  | _ => exact h.elim

variable [DecidableEq C]

theorem State.grant_place_head {q : List T} (hl : s.list c = t :: q) (n : ℕ) :
    (s.grant n c).place t = .woken .done := by
  unfold State.grant
  rw [hl]
  exact update_self ..

section

variable (h : Inv s)

include h

omit [DecidableEq T] in
theorem Inv.setValue (hn : 0 < n → s.list c = []) : Inv (s.setValue c n) := by
  refine ⟨h.queued, h.parked, h.queue_nodup, h.list_nodup, h.free, h.handed, h.owner, ?_⟩
  exact (forall_update_iff s.value (fun d m => 0 < m → s.list d = [])).mpr ⟨hn, fun d _ => h.value d⟩

theorem Inv.wake (hu : u ∈ s.list c) (r : Result) :
    Inv ((s.setPlace u (.woken r)).setList c ((s.list c).erase u)) := by
  obtain ⟨p, hp⟩ := (h.parked u c).mp hu
  have hnotOwner : s.owner ≠ some u := by
    intro ho
    have hfree := h.owner_free ho
    rw [hp] at hfree
    exact hfree
  refine h.replace rfl (fun v => ?_) (fun v d => ?_) h.queue_nodup ?_ h.free nofun
    (fun ho => absurd ho hnotOwner) (fun v _ => ⟨h.handed v, id⟩) ?_
  · have hqueue := h.queued v
    simp only [State.setPlace, State.setList]
    grind
  · have hpark := h.parked v d
    simp only [State.setPlace, State.setList, update_apply]
    grind [(h.list_nodup c).mem_erase_iff]
  · exact (forall_update_iff s.list (fun _ l => l.Nodup)).mpr ⟨(h.list_nodup c).erase u, fun d _ => h.list_nodup d⟩
  · refine (forall_update_iff s.list (fun d l => 0 < s.value d → l = [])).mpr
      ⟨fun hv => ?_, fun d _ => h.value d⟩
    rw [h.value c hv, erase_nil]

theorem Inv.grant (limit : ℕ) (c : C) : Inv (s.grant limit c) := by
  unfold State.grant
  cases hl : s.list c with
  | nil => exact h.setValue (fun _ => hl)
  | cons u q =>
    have hwake := h.wake (by rw [hl]; exact mem_cons_self) .done
    rwa [hl, erase_cons_head] at hwake

theorem Inv.grantAll (c : C) : Inv (s.grantAll c) := by
  have hplace : ∀ v, v ∈ s.list c → ∃ p, s.place v = .parked c p := fun v => (h.parked v c).mp
  refine ⟨fun v => ?_, fun v d => ?_, h.queue_nodup, ?_, h.free, fun v r' hv => ?_, fun v hv => ?_, fun d hd => ?_⟩
  all_goals dsimp only [State.grantAll, State.setList, State.setValue] at *
  · have hqueue := h.queued v
    grind
  · have hpark := h.parked v d
    grind
  · exact (forall_update_iff s.list (fun _ l => l.Nodup)).mpr ⟨nodup_nil, fun d _ => h.list_nodup d⟩
  · have hhanded := h.handed v r'
    grind
  · have howner := h.owner v hv
    grind
  · have hvalue := h.value d
    grind

section

variable (hrun : s.place t = .run)

include hrun

omit [DecidableEq C] [DecidableEq T] in
theorem Inv.not_parked (c : C) : t ∉ s.list c :=
  (h.not_mem (by rw [hrun]; trivial)).2 c

theorem Inv.grant_place_run : (s.grant n c).place t = .run := by
  have hnot := h.not_parked hrun c
  unfold State.grant
  cases hl : s.list c with
  | nil => exact hrun
  | cons u q =>
    rw [hl] at hnot
    have htu : t ≠ u := by
      rintro rfl
      exact hnot mem_cons_self
    exact (update_of_ne htu _ _).trans hrun

theorem Inv.grantAll_place_run : (s.grantAll c).place t = .run :=
  (if_neg (h.not_parked hrun c)).trans hrun

end

theorem Inv.take (hdrop : ∃ q, s.place t = .dropped c q) (p : Patience) : Inv (s.take t c p) := by
  obtain ⟨q, hq⟩ := hdrop
  have hfree : (s.place t).Free := by rw [hq]; trivial
  obtain ⟨hqueue, hlist⟩ := h.not_mem hfree
  have hnotOwner : s.owner ≠ some t := by
    intro ho
    have hown := h.owner t ho
    simp [hq] at hown
  have hwoken : ∀ r, Inv (s.setPlace t (.woken r)) := fun r =>
    h.setPlace hfree trivial (fun r hr => by cases hr) (fun ho => absurd ho hnotOwner)
  unfold State.take
  split_ifs with hv hp
  · exact (hwoken .done).setValue (fun _ => h.value c hv)
  · exact hwoken .expired
  · refine h.replace rfl (fun v => ?_) (fun v d => ?_) h.queue_nodup ?_ h.free nofun
      (fun ho => absurd ho hnotOwner) (fun v _ => ⟨h.handed v, id⟩) ?_
    · simp only [State.setPlace, State.setList]
      grind
    · obtain rfl | hdc := eq_or_ne d c
      · simp [State.setPlace, State.setList]
        grind
      · simp [State.setPlace, State.setList, hdc, hdc.symm]
        grind
    · exact (forall_update_iff s.list (fun _ l => l.Nodup)).mpr
        ⟨by simpa using (h.list_nodup c).concat (hlist c), fun d _ => h.list_nodup d⟩
    · exact (forall_update_iff s.list (fun d l => 0 < s.value d → l = [])).mpr
        ⟨fun hc => absurd hc hv, fun d _ => h.value d⟩

end

variable {P : Program T C L D τ X}

theorem Inv.exec (h : Inv s) (hrun : s.place t = .run) (cmd : Cmd C L D τ) : Inv (s.exec P t cmd) := by
  have hfree : (s.place t).Free := by rw [hrun]; trivial
  cases cmd with
  | lock =>
    unfold State.exec
    dsimp only
    split_ifs
    · exact h.moveTo hfree _
    · exact h.enter hfree _ _
  | unlock =>
    unfold State.exec
    split_ifs with ho
    · obtain ⟨hpass, -, hplace⟩ := h.pass ho hrun
      exact hpass.moveTo (by rw [hplace]; trivial) _
    · exact h.moveTo hfree _
    · exact h.moveTo hfree _
  | wait c time =>
    unfold State.exec
    dsimp only
    split_ifs with ho
    · obtain ⟨hpass, hnot, hplace⟩ := h.pass ho hrun
      exact hpass.setPlace (by rw [hplace]; trivial) trivial (fun r hr => by cases hr) (fun ho' => absurd ho' hnot)
    · exact h.moveTo hfree _
  | signal c =>
    apply (h.grant P.limit c).moveTo
    rw [h.grant_place_run hrun]
    trivial
  | broadcast c =>
    apply (h.grantAll c).moveTo
    rw [h.grantAll_place_run hrun]
    trivial
  | tryTake c =>
    unfold State.exec
    dsimp only
    split_ifs with hv
    · exact (h.setValue (fun _ => h.value c hv)).moveTo hfree _
    · exact h.moveTo hfree _
  | clear c => exact (h.setValue (fun hn => absurd hn (Nat.lt_irrefl 0))).moveTo hfree _
  | assign d l => exact (h.moveTo hfree l).of_label _ _

inductive StepEffect (P : Program T C L D τ X) (s : State T C L D) : Event T X → State T C L D → Prop
  | exec {t : T} {x : X} {cmd : Cmd C L D τ} (hp : s.place t = .run) (hcmd : P.cmd t (s.label t) s.data x = some cmd) :
      StepEffect P s (.run t x) (s.exec P t cmd)
  | handed {t : T} {x : X} {r : Result} (hp : s.place t = .handed r) :
      StepEffect P s (.run t x) (s.moveTo t (P.ret (s.label t) r))
  | take {t : T} {x : X} {c : C} {p : Patience} (hp : s.place t = .dropped c p) :
      StepEffect P s (.run t x) (s.take t c p)
  | back {t : T} {x : X} {r : Result} (hp : s.place t = .woken r) :
      StepEffect P s (.run t x) (s.enter t r (P.ret (s.label t) r))
  | expired {t : T} {c : C} (hp : s.place t = .parked c .timed) :
      StepEffect P s (.expire t) ((s.setPlace t (.woken .expired)).setList c ((s.list c).erase t))

theorem step_effect (hs : s.step P e = some s') : StepEffect P s e s' := by
  cases e with
  | run t x =>
    unfold State.step State.turn at hs
    cases hp : s.place t with
    | run =>
      simp only [hp] at hs
      obtain ⟨cmd, hcmd, rfl⟩ := Option.map_eq_some_iff.mp hs
      exact .exec hp hcmd
    | queued r => simp [hp] at hs
    | handed r =>
      simp only [hp] at hs
      cases hs
      exact .handed hp
    | dropped c p =>
      simp only [hp] at hs
      cases hs
      exact .take hp
    | parked c p => simp [hp] at hs
    | woken r =>
      simp only [hp] at hs
      cases hs
      exact .back hp
  | expire t =>
    rw [State.step] at hs
    split at hs
    case h_1 c hp =>
      cases hs
      exact .expired hp
    case h_2 => cases hs

theorem exec_of_step (hs : s.step P e = some s') (he : e.thread = t) (hp : s.place t = .run) :
    ∃ x cmd, e = .run t x ∧ P.cmd t (s.label t) s.data x = some cmd ∧ s' = s.exec P t cmd := by
  subst he
  cases step_effect hs with
  | exec hrun hcmd => exact ⟨_, _, rfl, hcmd, rfl⟩
  | handed hr | take hr | back hr | expired hr => exact absurd (hp.symm.trans hr) (by simp)

theorem Inv.step (h : Inv s) (hs : s.step P e = some s') : Inv s' := by
  cases step_effect hs with
  | exec hp hcmd => exact h.exec hp _
  | handed hp => exact h.moveTo (by rw [hp]; trivial) _
  | take hp => exact h.take ⟨_, hp⟩ _
  | back hp => exact h.enter (by rw [hp]; trivial) _ _
  | expired hp => exact h.wake ((h.parked _ _).mpr ⟨_, hp⟩) .expired

theorem Inv.pushed_grant (h : Inv s) (u : T) : (s.place u).Pushed ((s.grant n c).place u) := by
  unfold State.grant
  cases hl : s.list c with
  | nil => exact .same
  | cons v q =>
    obtain ⟨p, hp⟩ := (h.parked v c).mp (by rw [hl]; exact mem_cons_self)
    by_cases huv : u = v
    · rw [huv, State.setList_place, State.setPlace_place, update_self, hp]
      exact .wake
    · exact .of_eq (update_of_ne huv _ _)

theorem Inv.pushed_grantAll (h : Inv s) (u : T) : (s.place u).Pushed ((s.grantAll c).place u) := by
  by_cases hu : u ∈ s.list c
  · obtain ⟨p, hp⟩ := (h.parked u c).mp hu
    rw [State.grantAll_place, if_pos hu, hp]
    exact .wake
  · exact .of_eq (if_neg hu)

theorem Inv.pushed_exec (h : Inv s) (hut : u ≠ t) (cmd : Cmd C L D τ) :
    (s.place u).Pushed ((s.exec P t cmd).place u) := by
  cases cmd with
  | lock =>
    unfold State.exec
    dsimp only
    split_ifs
    · exact .of_ne .same hut _
    · exact pushed_enter s hut _ _
  | unlock =>
    unfold State.exec
    split_ifs
    · exact (h.pushed_pass u).of_ne hut _
    · exact .of_ne .same hut _
    · exact .of_ne .same hut _
  | wait c time =>
    unfold State.exec
    dsimp only
    split_ifs
    · exact (h.pushed_pass u).of_ne hut _
    · exact .of_ne .same hut _
  | signal c => exact (h.pushed_grant u).of_ne hut _
  | broadcast c => exact (h.pushed_grantAll u).of_ne hut _
  | tryTake c =>
    unfold State.exec
    dsimp only
    split_ifs <;> exact .of_ne .same hut _
  | clear c | assign d l => exact .of_ne .same hut _

section

variable (h : Inv s) (hs : s.step P e = some s') (hu : e.thread ≠ u)

include h hs hu

theorem Inv.pushed_step : (s.place u).Pushed (s'.place u) := by
  have hut : u ≠ e.thread := hu.symm
  cases step_effect hs with
  | exec hp hcmd => exact h.pushed_exec hut _
  | handed hp => exact .of_ne .same hut _
  | take hp =>
    unfold State.take
    split_ifs <;> exact .of_ne .same hut _
  | back hp => exact pushed_enter s hut _ _
  | expired hp => exact .of_ne .same hut _

theorem Inv.place_of_step (hfree : (s.place u).Free) : s'.place u = s.place u := by
  generalize hp : s.place u = p at hfree
  generalize hq : s'.place u = q
  have hpush := h.pushed_step hs hu
  rw [hp, hq] at hpush
  cases hpush with
  | same => rfl
  | hand | wake => exact hfree.elim

end

instance (c : C) : DecidablePred (Place.Dropped c)
  | .dropped _ _ => decEq _ _
  | .run | .queued _ | .handed _ | .parked _ _ | .woken _ => isFalse id

def Place.Due (r : Result) : Place C → Prop
  | .queued r' | .handed r' | .woken r' => r' = r
  | .run | .dropped _ _ | .parked _ _ => False

section

variable {p : Place C} (h : p.Pushed q)

include h

omit [DecidableEq C]

theorem Place.Pushed.inside (hq : q.Inside c) : p.Inside c := by
  cases h with
  | same => exact hq
  | hand | wake => exact hq.elim

theorem Place.Pushed.dropped (hq : q.Dropped c) : p.Dropped c := by
  cases h with
  | same => exact hq
  | hand | wake => exact hq.elim

theorem Place.Pushed.due (hp : p.Due r) : q.Due r := by
  cases h with
  | same | hand => exact hp
  | wake => exact hp.elim

end

def Cmd.After (P : Program T C L D τ X) (own : Prop) (l : L) : Cmd C L D τ → L → Prop
  | .lock, l' => ¬ own ∧ l' = P.ret l .done ∨ own ∧ l' = P.ret l .refused
  | .unlock, l' => l' = P.ret l .done ∨ ¬ own ∧ l' = P.ret l .refused
  | .wait _ _, l' => ¬ own ∧ l' = P.ret l .refused
  | .signal _, l' | .broadcast _, l' | .clear _, l' => l' = P.ret l .done
  | .tryTake _, l' => l' = P.ret l .done ∨ l' = P.ret l .expired
  | .assign _ l'', l' => l' = l''

theorem exec_self (s : State T C L D) (t : T) (cmd : Cmd C L D τ) :
    (s.exec P t cmd).place t = .run ∧ cmd.After P (s.owner = some t) (s.label t) ((s.exec P t cmd).label t) ∨
      (s.exec P t cmd).label t = s.label t ∧ (cmd = .lock ∧ (∃ r, (s.exec P t cmd).place t = .queued r) ∨
        ∃ c time, cmd = .wait c time ∧ (s.exec P t cmd).place t = .dropped c (P.patience time)) := by
  have hplace : ∀ (s' : State T C L D) (l : L), (s'.moveTo t l).place t = .run := fun _ _ => update_self ..
  have hlabel : ∀ (s' : State T C L D) (l : L), (s'.moveTo t l).label t = l := fun _ _ => update_self ..
  cases cmd with
  | lock =>
    unfold State.exec State.enter
    dsimp only
    split_ifs with ho
    · exact .inl ⟨hplace s _, .inr ⟨ho, hlabel s _⟩⟩
    · split
      · exact .inl ⟨update_self .., .inl ⟨ho, update_self ..⟩⟩
      · split_ifs
        · exact .inl ⟨hplace s _, .inl ⟨ho, hlabel s _⟩⟩
        · exact .inr ⟨rfl, .inl ⟨rfl, .done, update_self ..⟩⟩
  | unlock =>
    unfold State.exec
    split_ifs with ho
    · exact .inl ⟨hplace _ _, .inl (hlabel _ _)⟩
    · exact .inl ⟨hplace _ _, .inl (hlabel _ _)⟩
    · exact .inl ⟨hplace _ _, .inr ⟨ho, hlabel _ _⟩⟩
  | wait c time =>
    have hpass : s.pass.label = s.label := by
      unfold State.pass
      cases s.queue <;> rfl
    unfold State.exec
    dsimp only
    split_ifs with ho
    · exact .inr ⟨congrFun hpass t, .inr ⟨c, time, rfl, update_self ..⟩⟩
    · exact .inl ⟨hplace s _, ho, hlabel s _⟩
  | signal c | broadcast c => exact .inl ⟨hplace _ _, hlabel _ _⟩
  | tryTake c =>
    unfold State.exec
    dsimp only
    split_ifs
    · exact .inl ⟨hplace _ _, .inl (hlabel _ _)⟩
    · exact .inl ⟨hplace _ _, .inr (hlabel _ _)⟩
  | clear c => exact .inl ⟨hplace _ _, hlabel _ _⟩
  | assign d l => exact .inl ⟨hplace s l, hlabel s l⟩

end

end CondMonitor
