import RtThread.Pthreads.Monitor

namespace RtThread

open CondMonitor Transition List

variable {T C L D X : Type} [DecidableEq T] [DecidableEq C]

inductive CondCall (C : Type)
  | lock
  | unlock
  | wait (c : C)
  | timedwait (c : C) (time : BitVec 32)
  | signal (c : C)
  | broadcast (c : C)
  deriving DecidableEq

def condCode : Code T C Unit Unit (BitVec 32) (CondCall C) where
  cmd _ _ _
    | .lock => some .lock
    | .unlock => some .unlock
    | .wait c => some (.wait c waitingForever)
    | .timedwait c time => some (.wait c time)
    | .signal c => some (.signal c)
    | .broadcast c => some (.broadcast c)
  ret _ _ := ()

namespace MonitorSystem

def Inside (s : MonitorSystem T C L D) (c : C) (t : T) : Prop :=
  ∃ p, s.place t = .dropped c p ∨ s.place t = .parked c p

def Passes (P : Code T C L D (BitVec 32) X) (s : MonitorSystem T C L D) (c : C) (t : T) : Prop :=
  ∀ es s', (∀ e ∈ es, e.thread ≠ t) → run (step P) s es = some s' →
    (∀ p, s'.place t ≠ .parked c p) ∧ ∀ x s'', s'.step P (.run t x) = some s'' →
    ∀ p, s''.place t ≠ .parked c p

structure WakesRight (s : MonitorSystem T C Unit Unit) (t : T) (c : C) (x : CondCall C)
    (s' : MonitorSystem T C Unit Unit) : Prop where
  all : x = .broadcast c → s.mutex.owner = some t → ∀ u, s.Inside c u → s'.Passes condCode c u
  one : x = .signal c → (∃ u, s.Inside c u) → ∃ u, s.Inside c u ∧ s'.Passes condCode c u
  forgotten : (∀ u, ¬ s.Inside c u) → (s'.sem c).value = (s.sem c).value

variable {s s' : MonitorSystem T C L D} {t u : T} {c : C} {P : Code T C L D (BitVec 32) X}

section

variable (h : s.Inv) {r : Result} (hu : s.place u = .woken r)

include h hu

theorem Inv.run_woken {es : List (CondMonitor.Event T X)}
    (hes : ∀ e ∈ es, e.thread ≠ u) (hrun : run (MonitorSystem.step P) s es = some s') :
    s'.Inv ∧ s'.place u = .woken r := by
  induction es generalizing s with
  | nil =>
    cases hrun
    exact ⟨h, hu⟩
  | cons e es ih =>
    obtain ⟨s₁, hs₁, hrun⟩ := Option.bind_eq_some_iff.mp hrun
    obtain ⟨hsim, h₁⟩ := h.step hs₁
    have hfree : (s.monitor.place u).Free := by
      rw [show s.monitor.place u = .woken r from hu]
      trivial
    have hplace := h.monitor.place_of_step hsim (hes e mem_cons_self) hfree
    exact ih h₁ (hplace.trans hu) (fun e' he' => hes e' (mem_cons_of_mem e he')) hrun

theorem Inv.passes_of_woken : s.Passes P c u := by
  intro es s₁ hes hrun
  obtain ⟨h₁, hu₁⟩ := h.run_woken hu hes hrun
  refine ⟨fun p hp => absurd (hu₁.symm.trans hp) (by simp), fun x s₂ hs₂ p hp => ?_⟩
  obtain ⟨hsim, -⟩ := h₁.step hs₂
  rw [State.step, State.turn, show s₁.monitor.place u = .woken r from hu₁] at hsim
  have heq : s₂.monitor = s₁.monitor.enter u r _ := (Option.some.inj hsim).symm
  have hplace : s₂.monitor.place u = .parked c p := hp
  rw [heq] at hplace
  obtain hrun | hqueued := s₁.monitor.enter_place u r ((pthreadProgram P).ret (s₁.monitor.label u) r)
  · exact absurd (hrun.symm.trans hplace) (by simp)
  · exact absurd (hqueued.symm.trans hplace) (by simp)

end

theorem cond_post_wakes_waiting {k : Kernel T (Option C)} {s s' : MonitorSystem T C Unit Unit} {x : CondCall C}
    (hk : k.Calm)
    (hreach : Reachable (step condCode) (fun _ _ => True) (· = start k () ()) s) (hrun : s.place t = .run)
    (hs : s.step condCode (.run t x) = some s')
    (hw : s.kernel.view.waiting (some c) ≠ []) (hd : x = .broadcast c → ∀ u p, s.place u ≠ .dropped c p) :
    s.WakesRight t c x s' := by
  have h : s.Inv := hreach.invariant (by rintro _ rfl; exact inv_start hk () ())
    (fun _ _ _ hI _ hstep => (hI.step hstep).2)
  obtain ⟨hsim, h'⟩ := h.step hs
  rw [State.step, State.turn, show s.monitor.place t = .run from hrun] at hsim
  obtain ⟨v, q, hvq⟩ := exists_cons_of_ne_nil hw
  have hlist : s.monitor.list c = v :: q := hvq
  obtain ⟨p, hp⟩ := (h.monitor.parked v c).mp (hlist ▸ mem_cons_self)
  have hne : ∀ {u : T} {p : Patience}, s.place u = .parked c p → u ≠ t := by
    rintro u p hu rfl
    exact absurd (hrun.symm.trans hu) (by simp)
  refine ⟨?_, ?_, fun hnone => absurd ⟨p, .inr hp⟩ (hnone v)⟩
  · rintro rfl _ u ⟨p, hu⟩
    have hparked := hu.resolve_left (hd rfl u p)
    have hmem : u ∈ s.monitor.list c := (h.monitor.parked u c).mpr ⟨p, hparked⟩
    have heq : s'.monitor = (s.monitor.grantAll c).moveTo t _ := (Option.some.inj hsim).symm
    apply h'.passes_of_woken
    change s'.monitor.place u = _
    rw [heq, State.moveTo_place, State.setPlace_place, Function.update_of_ne (hne hparked)]
    exact if_pos hmem
  · rintro rfl _
    have heq : s'.monitor = (s.monitor.grant 65536 c).moveTo t _ := (Option.some.inj hsim).symm
    refine ⟨v, ⟨p, .inr hp⟩, h'.passes_of_woken (r := .done) ?_⟩
    change s'.monitor.place v = _
    rw [heq, State.moveTo_place, State.setPlace_place, Function.update_of_ne (hne hp)]
    exact State.grant_place_head hlist 65536

def condKernel : Kernel Tid (Option Unit) :=
  bootKernel Tid.priority [.startup .low, .startup .mid, .startup .high, .schedulerStart]

theorem condKernel_calm : condKernel.Calm := by
  have hwf : condKernel.Wf := bootKernel_wf (by decide) _
  exact ⟨hwf, by decide +kernel, by decide +kernel, by decide +kernel⟩

def condStart : MonitorSystem Tid Unit Unit Unit := start condKernel () ()

def twoDropped : List (CondMonitor.Event Tid (CondCall Unit)) :=
  [.run .low .lock, .run .low (.wait ()), .run .mid .lock, .run .mid (.wait ()), .run .high .lock]

theorem cond_post_wakes_waiting_both : ∃ s s', run (step condCode) condStart
      (twoDropped ++ [.run .low .lock, .run .mid .lock]) = some s ∧
    s.step condCode (.run .high (.broadcast ())) = some s' ∧ s.WakesRight .high () (.broadcast ()) s' := by
  obtain ⟨s, hs, hhigh, hlist, hlow, hmid, s', hs', -⟩ :
      ∃ s, run (step condCode) condStart (twoDropped ++ [.run .low .lock, .run .mid .lock]) = some s ∧
      s.place .high = .run ∧ s.kernel.view.waiting (some ()) ≠ [] ∧ s.place .low = .parked () .forever ∧
      s.place .mid = .parked () .forever ∧
      ∃ s', s.step condCode (.run .high (.broadcast ())) = some s' ∧ True := by
    decide +kernel
  refine ⟨s, s', hs, hs', cond_post_wakes_waiting condKernel_calm (.of_free_run rfl hs) hhigh hs' hlist
    (fun _ u p => ?_)⟩
  cases u with
  | low => simp [hlow]
  | mid => simp [hmid]
  | high => simp [hhigh]

theorem cond_post_lost_and_stored :
    (∃ s s', run (step condCode) condStart twoDropped = some s ∧ s.place .high = .run ∧
      s.step condCode (.run .high (.broadcast ())) = some s' ∧ s.mutex.owner = some .high ∧
      s.Inside () .mid ∧ ¬ s'.Passes condCode () .mid ∧ ¬ s.WakesRight .high () (.broadcast ()) s') ∧
    ∃ s', condStart.step condCode (.run .high (.signal ())) = some s' ∧ (∀ u, ¬ condStart.Inside () u) ∧
      (s'.sem ()).value = 1 ∧ ¬ condStart.WakesRight .high () (.signal ()) s' := by
  constructor
  · obtain ⟨s, hs, hhigh, howner, hmid, s', hs', s₁, hs₁, s₂, hs₂, hparked⟩ :
        ∃ s, run (step condCode) condStart twoDropped = some s ∧ s.place .high = .run ∧
        s.mutex.owner = some .high ∧
          s.place .mid = .dropped () .forever ∧ ∃ s', s.step condCode (.run .high (.broadcast ())) = some s' ∧
            ∃ s₁, run (step condCode) s' [.run .low .lock] = some s₁ ∧
              ∃ s₂, s₁.step condCode (.run .mid .lock) = some s₂ ∧ s₂.place .mid = .parked () .forever := by
      decide +kernel
    have hlost : ¬ s'.Passes condCode () .mid := fun hp =>
      (hp [.run .low .lock] s₁ (by simp [Event.thread]) hs₁).2 .lock s₂ hs₂ _ hparked
    have hinside : s.Inside () .mid := ⟨_, .inl hmid⟩
    exact ⟨s, s', hs, hhigh, hs', howner, hinside, hlost, fun hr => hlost (hr.all rfl howner .mid hinside)⟩
  · obtain ⟨s', hs', hvalue⟩ : ∃ s', condStart.step condCode (.run .high (.signal ())) = some s' ∧
        (s'.sem ()).value = 1 := by decide +kernel
    have hnone : ∀ u, ¬ condStart.Inside () u := by
      rintro u ⟨p, hp | hp⟩ <;> cases hp
    refine ⟨s', hs', hnone, hvalue, fun hr => ?_⟩
    have hzero := hr.forgotten hnone
    rw [hvalue] at hzero
    exact absurd hzero (by decide)

theorem pthread_monitor_refines {k : Kernel T (Option C)} (hk : k.Calm) {l : L} {d : D}
    {es : List (CondMonitor.Event T X)} (hrun : run (step P) (start k l d) es = some s) :
    run (State.step (pthreadProgram P)) (start k l d).monitor es = some s.monitor ∧
    ∀ t x, (∀ c, s.phase t ≠ .dropped c 0x7fffffff) →
      ((s.step P (.run t x)).isSome ↔ (s.monitor.step (pthreadProgram P) (.run t x)).isSome) := by
  obtain ⟨_, hmon, h, rfl⟩ := run_simulation (R := fun s m => s.Inv ∧ s.monitor = m) (by
    rintro s _ e s' ⟨h, rfl⟩ hs
    obtain ⟨hmon, h'⟩ := h.step hs
    exact ⟨s'.monitor, hmon, h', rfl⟩) ⟨inv_start hk l d, rfl⟩ hrun
  refine ⟨hmon, fun t x htime => ⟨fun hstep => ?_, fun hstep => h.step_isSome hstep htime⟩⟩
  obtain ⟨s', hs'⟩ := Option.isSome_iff_exists.mp hstep
  exact Option.isSome_of_eq_some (h.step hs').1

theorem pthread_monitor_refines_two : ∃ s, run (step condCode) condStart twoDropped = some s ∧
    run (State.step (pthreadProgram condCode)) condStart.monitor twoDropped = some s.monitor := by
  obtain ⟨s, hs, -⟩ : ∃ s, run (step condCode) condStart twoDropped = some s ∧ True := by decide +kernel
  exact ⟨s, hs, (pthread_monitor_refines condKernel_calm hs).1⟩

end MonitorSystem

end RtThread
