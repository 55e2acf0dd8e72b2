import RtThread.Ipc.MutexProtocol

namespace RtThread

open Transition Function Option

variable {T M : Type} [DecidableEq T] [DecidableEq M]

namespace MutexSystem

def owner (s : MutexSystem T M) (m : M) : Option T := (s.mutex m).owner

def Blocks (s : MutexSystem T M) (c : MutexCall T M) (t : T) (m : M) (o : T) : Prop :=
  ∃ time, c = .take t m time ∧ time ≠ 0 ∧ s.owner m = some o ∧ o ≠ t

def GivesBack (s : MutexSystem T M) (c : MutexCall T M) (t : T) (m : M) : Prop :=
  c = .release t m ∧ s.owner m = some t ∧ ((s.mutex m).hold + 255) % 256 = 0

inductive Move (s s' : MutexSystem T M) (c : MutexCall T M) : Prop
  | quiet (hb : ∀ t m o, ¬ s.Blocks c t m o) (hg : ∀ t m, ¬ s.GivesBack c t m)
      (hkeep : ∀ m o, s.owner m = some o → s'.owner m = some o)
      (hnew : ∀ m o, s'.owner m = some o → s.owner m = some o ∨ s'.kernel.view.waiting m = [])
      (hp : s'.kernel.view.priority = s.kernel.view.priority)
      (hw : ∀ m, s'.kernel.view.waiting m ⊆ s.kernel.view.waiting m)
  | blocked {t : T} {m : M} {o : T} (hb : s.Blocks c t m o) (ho : s'.owner = s.owner)
      (hp : s'.kernel.view.priority = update s.kernel.view.priority o
        (min (s.kernel.view.priority o) (s.kernel.view.priority t)))
      (hw : ∀ m' u, u ∈ s'.kernel.view.waiting m' ↔ u ∈ s.kernel.view.waiting m' ∨ m' = m ∧ u = t)
  | gaveBack {t : T} {m : M} (hg : s.GivesBack c t m) (hr : s.kernel.view.stat t = .ready)
      (ho : s'.owner = update s.owner m (s.kernel.view.waiting m).head?)
      (hp : s'.kernel.view.priority = update s.kernel.view.priority t (s.mutex m).originalPriority)
      (hw : s'.kernel.view.waiting = update s.kernel.view.waiting m (s.kernel.view.waiting m).tail)

variable {s : MutexSystem T M} {m : M} {x : Mutex T}

omit [DecidableEq T] in
theorem owner_update {f : M → Mutex T} (h : f = update s.mutex m x) :
    (fun m' => (f m').owner) = update s.owner m x.owner := by
  funext m'
  by_cases hm : m' = m
  · subst hm; simp [h]
  · simp [h, hm, owner]

theorem Inv.move_take (h : s.Inv) {t : T} {time : BitVec 32} {k : Kernel T M} {v : View T M} {e : Err} (hv : k.view = v)
    (he : TakeEffect s.kernel.view m (s.mutex m) t time v x (.returned e)) :
    Move s (s.afterTake t m (k, x, .returned e)).1 (.take t m time) := by
  have ho : (s.afterTake t m (k, x, .returned e)).1.owner = update s.owner m x.owner := owner_update rfl
  refine .quiet ?_ ?_ ?_ ?_ ?_ ?_
  · rintro t' m' o ⟨time', hc, hz, hown, hne⟩
    cases hc
    cases he with
    | nested ho' => exact hne (some.inj (hown.symm.trans ho'))
    | acquired ho' hval =>
      rw [owner, (h.free hval).2.1] at hown
      cases hown
    | refused ho' hval hz' => exact hz hz'
  · rintro t' m' ⟨hc, -⟩
    cases hc
  · intro m' o hown
    rw [ho]
    by_cases hm : m' = m
    · subst hm
      rw [update_self]
      cases he with
      | nested _ => exact hown
      | acquired _ hval =>
        rw [owner, (h.free hval).2.1] at hown
        cases hown
      | refused _ _ _ => exact hown
    · rw [update_of_ne hm]
      exact hown
  · intro m' o hown
    rw [ho] at hown
    by_cases hm : m' = m
    · subst hm
      rw [update_self] at hown
      cases he with
      | nested _ => exact Or.inl hown
      | acquired _ hval =>
        right
        simp only [afterTake, hv]
        exact (h.free hval).2.2.2
      | refused _ _ _ => exact Or.inl hown
    · rw [update_of_ne hm] at hown
      exact Or.inl hown
  · cases he <;> simp [afterTake, hv]
  · intro m'
    cases he <;> simp [afterTake, hv]

theorem Inv.move_release {t : T} {k : Kernel T M} {v : View T M} {e : Err} (hr : s.kernel.view.stat t = .ready)
    (hv : k.view = v)
    (he : ReleaseEffect s.kernel.view m (s.mutex m) t v x e) :
    Move s (s.afterRelease t m (k, x, e)).1 (.release t m) := by
  have ho : (s.afterRelease t m (k, x, e)).1.owner = update s.owner m x.owner := owner_update rfl
  have hquiet : x.owner = s.owner m → (∀ t' m', ¬ s.GivesBack (.release t m) t' m') →
      k.view.priority = s.kernel.view.priority → k.view.waiting = s.kernel.view.waiting →
      Move s (s.afterRelease t m (k, x, e)).1 (.release t m) := by
    intro hx hg hp hw
    rw [hx, update_eq_self] at ho
    refine .quiet ?_ hg ?_ ?_ hp ?_
    · rintro t' m' o ⟨time, hc, -⟩
      cases hc
    · rw [ho]; exact fun _ _ => id
    · rw [ho]; exact fun _ _ => Or.inl
    · intro m'
      rw [show (s.afterRelease t m (k, x, e)).1.kernel.view.waiting = _ from hw]
      exact List.Subset.refl _
  cases he with
  | refused hown =>
    refine hquiet rfl ?_ (by rw [hv]) (by rw [hv])
    rintro t' m' ⟨hc, hg, -⟩
    cases hc
    exact hown hg
  | kept hown hh =>
    refine hquiet rfl ?_ (by rw [hv]) (by rw [hv])
    rintro t' m' ⟨hc, -, hg⟩
    cases hc
    exact hh hg
  | handed hown hh hl hp =>
    refine .gaveBack ⟨rfl, hown, hh⟩ hr ?_ ?_ ?_
    · rw [ho, hl]; rfl
    · simp [afterRelease, hv, hp]
    · simp [afterRelease, hv, hl]
  | freed hown hh hl hp =>
    refine .gaveBack ⟨rfl, hown, hh⟩ hr ?_ ?_ ?_
    · rw [ho, hl]; rfl
    · simp [afterRelease, hv, hp]
    · have htail : (s.kernel.view.waiting m).tail = s.kernel.view.waiting m := by rw [hl]; rfl
      rw [htail]
      simp [afterRelease, hv]

variable {c : MutexCall T M}

theorem Inv.move {s' : MutexSystem T M} (h : s.Inv) (hs : s.step c = some s') :
    Move s s' c ∧ s'.kernel.view.initPriority = s.kernel.view.initPriority := by
  obtain ⟨⟨_, r⟩, hexec, rfl⟩ := map_eq_some_iff.mp hs
  obtain ⟨-, heff⟩ := h.effect hexec
  cases heff with
  | take hrun hv he =>
    refine ⟨h.move_take hv he, ?_⟩
    cases he <;> simp [afterTake, hv]
  | @block t m time k v x hrun hv he =>
    cases he with
    | @blocked o p ho hne hval hz hp =>
      refine ⟨.blocked ⟨time, rfl, hz, ho, hne⟩ ?_ ?_ ?_, ?_⟩
      · funext m'
        simp [afterTake, owner]
      · simp [afterTake, hv, hp]
      · intro m' u
        by_cases hm : m' = m
        · subst hm
          simp [afterTake, hv, mem_enqueue, or_comm]
        · simp [afterTake, hv, hm]
      · simp [afterTake, hv]
  | @takeReturn t m hr hpc =>
    refine ⟨.quiet ?_ ?_ (fun _ _ => id) (fun _ _ => Or.inl) rfl (fun _ => List.Subset.refl _), rfl⟩
    · rintro t' m' o ⟨time, hc, -⟩
      cases hc
    · rintro t' m' ⟨hc, -⟩
      cases hc
  | release hrun hv he =>
    refine ⟨Inv.move_release hrun.1 hv he, ?_⟩
    cases he <;> simp [afterRelease, hv]
  | @timeout t k hst hv =>
    refine ⟨.quiet ?_ ?_ (fun _ _ => id) (fun _ _ => Or.inl) ?_ ?_, ?_⟩
    · rintro t' m' o ⟨time, hc, -⟩
      cases hc
    · rintro t' m' ⟨hc, -⟩
      cases hc
    · simp [hv]
    · intro m
      rw [hv]
      exact List.erase_subset
    · simp [hv]

def HoldsNone (s : MutexSystem T M) (t : T) : Prop := ∀ m, s.owner m ≠ some t

def Restored (s : MutexSystem T M) : Prop :=
  ∀ t, s.HoldsNone t → s.kernel.view.priority t = s.kernel.view.initPriority t

def LastReleaseClean (s : MutexSystem T M) (c : MutexCall T M) : Prop :=
  ∀ t m, s.GivesBack c t m → (∀ m', m' ≠ m → s.owner m' ≠ some t) → s.clean m = true

def NoInversion (s : MutexSystem T M) : Prop :=
  ∀ m o w, s.owner m = some o → w ∈ s.kernel.view.waiting m →
    s.kernel.view.priority o ≤ s.kernel.view.priority w

structure Inherits (s : MutexSystem T M) (c : MutexCall T M) : Prop where
  boost : ∀ t m o, s.Blocks c t m o → ∀ m' o', o ∈ s.kernel.view.waiting m' → s.owner m' = some o' →
    s.kernel.view.priority o' ≤ s.kernel.view.priority t
  restore : ∀ t m, s.GivesBack c t m → ∀ m' w, m' ≠ m → s.owner m' = some t →
    w ∈ s.kernel.view.waiting m' → (s.mutex m).originalPriority ≤ s.kernel.view.priority w
  handover : ∀ t m, s.GivesBack c t m → ∀ u l w, s.kernel.view.waiting m = u :: l → w ∈ l →
    s.kernel.view.priority u ≤ s.kernel.view.priority w

section

omit [DecidableEq M] [DecidableEq T]

theorem GivesBack.unique {t t' : T} {m' : M} (h : s.GivesBack c t m) (h' : s.GivesBack c t' m') :
    t' = t ∧ m' = m := by
  have he := h.1.symm.trans h'.1
  injection he with ht hm
  exact ⟨ht.symm, hm.symm⟩

theorem Blocks.unique {t t' o o' : T} {m' : M}
    (h : s.Blocks c t m o) (h' : s.Blocks c t' m' o') : t' = t ∧ m' = m ∧ o' = o := by
  obtain ⟨time, hc, -, ho, -⟩ := h
  obtain ⟨time', hc', -, ho', -⟩ := h'
  have he := hc.symm.trans hc'
  injection he with ht hm
  subst ht hm
  exact ⟨rfl, rfl, some.inj (ho'.symm.trans ho)⟩

theorem GivesBack.not_blocks {t t' o : T} {m' : M} (h : s.GivesBack c t m) : ¬ s.Blocks c t' m' o := by
  rintro ⟨time, hc, -⟩
  have he := h.1.symm.trans hc
  cases he

end

section Blocked

variable {s s' : MutexSystem T M} {c : MutexCall T M} {t : T} {m : M} {o : T}

omit [DecidableEq M]

theorem boosted_le (hp : s'.kernel.view.priority = update s.kernel.view.priority o
    (min (s.kernel.view.priority o) (s.kernel.view.priority t))) (u : T) :
    s'.kernel.view.priority u ≤ s.kernel.view.priority u := by
  rw [hp]
  obtain rfl | hu := eq_or_ne u o
  · rw [update_self]
    exact min_le_left _ _
  · rw [update_of_ne hu]

variable (h : s.Inv) (hb : s.Blocks c t m o) (ho : s'.owner = s.owner)
  (hp : s'.kernel.view.priority = update s.kernel.view.priority o
    (min (s.kernel.view.priority o) (s.kernel.view.priority t)))
  (hw : ∀ m' u, u ∈ s'.kernel.view.waiting m' ↔ u ∈ s.kernel.view.waiting m' ∨ m' = m ∧ u = t)

include hb ho hp in
theorem restored_of_blocked (hinit : s'.kernel.view.initPriority = s.kernel.view.initPriority)
    (hres : s.Restored) : s'.Restored := by
  intro u hu
  -- the boosted thread owns the mutex
  have hne : u ≠ o := by
    rintro rfl
    obtain ⟨_, _, _, hown, _⟩ := hb
    exact hu m (by rw [ho]; exact hown)
  rw [hp, hinit, update_of_ne hne]
  exact hres u (fun m' hm' => hu m' (by rw [ho]; exact hm'))

include h hb ho hp hw in
theorem inherits_of_blocked (hno : s'.NoInversion) : s.Inherits c := by
  refine ⟨?_, fun t' m' hgm => absurd hb hgm.not_blocks, fun t' m' hgm => absurd hb hgm.not_blocks⟩
  rintro t' m' o' hb' n p hn hpn
  obtain ⟨rfl, rfl, rfl⟩ := hb.unique hb'
  have hpo : p ≠ o' := fun he => (h.held hpn).2 (he ▸ hn)
  have := hno n p o' (by rw [ho]; exact hpn) ((hw n o').mpr (Or.inl hn))
  rw [hp, update_self, update_of_ne hpo] at this
  exact this.trans (min_le_right _ _)

include hb ho hp hw in
theorem noInversion_of_blocked (hno : s.NoInversion) (hinh : s.Inherits c) : s'.NoInversion := by
  have ⟨_, _, _, hown, hnot⟩ := hb
  have hop : s'.kernel.view.priority o = min (s.kernel.view.priority o) (s.kernel.view.priority t) := by
    rw [hp, update_self]
  intro n p w hpn hwn
  rw [ho] at hpn
  rcases (hw n w).mp hwn with hwn' | ⟨rfl, rfl⟩
  · obtain rfl | hwo := eq_or_ne w o
    · rw [hop]
      exact (boosted_le hp p).trans (le_min (hno n p w hpn hwn') (hinh.boost t m w hb n p hwn' hpn))
    · have hwp : s'.kernel.view.priority w = s.kernel.view.priority w := by
        rw [hp, update_of_ne hwo]
      rw [hwp]
      exact (boosted_le hp p).trans (hno n p w hpn hwn')
  · obtain rfl : o = p := some.inj (hown.symm.trans hpn)
    have hwp : s'.kernel.view.priority w = s.kernel.view.priority w := by
      rw [hp, update_of_ne hnot.symm]
    rw [hop, hwp]
    exact min_le_right _ _

end Blocked

section GaveBack

variable {s s' : MutexSystem T M} {c : MutexCall T M} {t : T} {m : M}
  (h : s.Inv) (hg : s.GivesBack c t m) (hr : s.kernel.view.stat t = .ready)
  (ho : s'.owner = update s.owner m (s.kernel.view.waiting m).head?)
  (hp : s'.kernel.view.priority = update s.kernel.view.priority t (s.mutex m).originalPriority)
  (hw : s'.kernel.view.waiting = update s.kernel.view.waiting m (s.kernel.view.waiting m).tail)

include h hg hr ho hp in
theorem clean_of_gaveBack (hinit : s'.kernel.view.initPriority = s.kernel.view.initPriority)
    (hres : s'.Restored) : s.LastReleaseClean c := by
  intro t' m' hg' hother
  obtain ⟨rfl, rfl⟩ := hg.unique hg'
  have hhead : (s.kernel.view.waiting m').head? ≠ some t' := fun he =>
    h.parked.wf.not_waiting hr m' (List.mem_of_mem_head? he)
  have hnone : s'.HoldsNone t' := by
    intro n
    rw [ho]
    by_cases hn : n = m'
    · subst hn; simpa using hhead
    · simpa [hn] using hother n hn
  have hpr := hres t' hnone
  rw [hp, hinit, update_self] at hpr
  exact (h.clean_iff t' m' hg.2.1).mpr hpr

include h hg ho hp in
theorem restored_of_gaveBack (hinit : s'.kernel.view.initPriority = s.kernel.view.initPriority)
    (hres : s.Restored) (hclean : s.LastReleaseClean c) : s'.Restored := by
  intro u hu
  have hu' : ∀ n, n ≠ m → s.owner n ≠ some u := by
    intro n hn
    have := hu n
    rwa [ho, update_of_ne hn] at this
  obtain rfl | hut := eq_or_ne u t
  · rw [hp, hinit, update_self]
    exact (h.clean_iff u m hg.2.1).mp (hclean u m hg hu')
  · rw [hp, hinit, update_of_ne hut]
    refine hres u (fun n hn => ?_)
    obtain rfl | hnm := eq_or_ne n m
    · exact hut (some.inj (hn.symm.trans hg.2.1))
    · exact hu' n hnm hn

include h hr hp in
omit [DecidableEq M] in
theorem waiter_priority_of_gaveBack {n : M} {w : T} (hwn : w ∈ s.kernel.view.waiting n) :
    s'.kernel.view.priority w = s.kernel.view.priority w := by
  have hwt : w ≠ t := fun he => h.parked.wf.not_waiting hr n (he ▸ hwn)
  rw [hp, update_of_ne hwt]

include h hg hr ho hp hw in
theorem inherits_of_gaveBack (hno : s'.NoInversion) : s.Inherits c := by
  refine ⟨fun t' m' o' hb => absurd hb hg.not_blocks, ?_, ?_⟩
  · rintro t' m' hg' n w hn hon hwn
    obtain ⟨rfl, rfl⟩ := hg.unique hg'
    have := hno n t' w (by rw [ho, update_of_ne hn]; exact hon) (by rw [hw, update_of_ne hn]; exact hwn)
    rwa [waiter_priority_of_gaveBack h hr hp hwn, hp, update_self] at this
  · rintro t' m' hg' u l w hl hwl
    obtain ⟨rfl, rfl⟩ := hg.unique hg'
    have hu : u ∈ s.kernel.view.waiting m' := by simp [hl]
    have hwm : w ∈ s.kernel.view.waiting m' := by simp [hl, hwl]
    have := hno m' u w (by simp [ho, hl]) (by simpa [hw, hl] using hwl)
    rwa [waiter_priority_of_gaveBack h hr hp hu, waiter_priority_of_gaveBack h hr hp hwm] at this

include h hg hr ho hp hw in
theorem noInversion_of_gaveBack (hno : s.NoInversion) (hinh : s.Inherits c) : s'.NoInversion := by
  intro n o w hon hwn
  obtain rfl | hn := eq_or_ne n m
  · cases hl : s.kernel.view.waiting n with
    | nil => simp [ho, hl] at hon
    | cons u l =>
      obtain rfl : u = o := by simpa [ho, hl] using hon
      have hwl : w ∈ l := by simpa [hw, hl] using hwn
      have hu : u ∈ s.kernel.view.waiting n := by simp [hl]
      have hwm : w ∈ s.kernel.view.waiting n := by simp [hl, hwl]
      rw [waiter_priority_of_gaveBack h hr hp hu, waiter_priority_of_gaveBack h hr hp hwm]
      exact hinh.handover t n hg u l w hl hwl
  · rw [ho, update_of_ne hn] at hon
    rw [hw, update_of_ne hn] at hwn
    rw [waiter_priority_of_gaveBack h hr hp hwn]
    obtain rfl | hot := eq_or_ne o t
    · rw [hp, update_self]
      exact hinh.restore o m hg n w hn hon hwn
    · rw [hp, update_of_ne hot]
      exact hno n o w hon hwn

end GaveBack

variable {s s' : MutexSystem T M} {c : MutexCall T M} (h : s.Inv)

include h

theorem Inv.restored_iff (hres : s.Restored) (hs : s.step c = some s') : s'.Restored ↔ s.LastReleaseClean c := by
  obtain ⟨hmove, hinit⟩ := h.move hs
  cases hmove with
  | quiet hb hg hkeep hnew hp hw =>
    refine iff_of_true ?_ (fun t m hgm => absurd hgm (hg t m))
    intro t ht
    rw [hp, hinit]
    exact hres t (fun m hm => ht m (hkeep m t hm))
  | blocked hb ho hp hw =>
    exact iff_of_true (restored_of_blocked hb ho hp hinit hres) (fun _ _ hgm => absurd hb hgm.not_blocks)
  | gaveBack hg hr ho hp hw =>
    exact ⟨clean_of_gaveBack h hg hr ho hp hinit, restored_of_gaveBack h hg ho hp hinit hres⟩

theorem Inv.noInversion_iff (hno : s.NoInversion) (hs : s.step c = some s') : s'.NoInversion ↔ s.Inherits c := by
  obtain ⟨hmove, -⟩ := h.move hs
  cases hmove with
  | quiet hb hg hkeep hnew hp hw =>
    refine iff_of_true ?_ ⟨fun t m o hbm => absurd hbm (hb t m o), fun t m hgm => absurd hgm (hg t m),
      fun t m hgm => absurd hgm (hg t m)⟩
    intro m o w ho hwm
    rw [hp]
    rcases hnew m o ho with ho' | hnil
    · exact hno m o w ho' (hw m hwm)
    · simp [hnil] at hwm
  | blocked hb ho hp hw =>
    exact ⟨inherits_of_blocked h hb ho hp hw, noInversion_of_blocked hb ho hp hw hno⟩
  | gaveBack hg hr ho hp hw =>
    exact ⟨inherits_of_gaveBack h hg hr ho hp hw, noInversion_of_gaveBack h hg hr ho hp hw hno⟩

theorem Inv.of_step (hs : s.step c = some s') : s'.Inv := by
  obtain ⟨⟨_, r⟩, hexec, rfl⟩ := map_eq_some_iff.mp hs
  exact h.step hexec

end MutexSystem

open MutexSystem

def Scheduled (s : MutexSystem T M) : MutexCall T M → Prop
  | .take t _ _ | .takeReturn t | .release t _ => s.kernel.highestReadyThread = some t
  | .timeout _ => True

instance (s : MutexSystem T M) : ∀ c, Decidable (Scheduled s c)
  | .take _ _ _ | .takeReturn _ | .release _ _ => decEq _ _
  | .timeout _ => isTrue trivial

theorem mutex_priority_restored_iff {s : MutexSystem T M} (h : s.Initial) (calls : List (MutexCall T M)) :
    StatesAlong step Restored s calls ↔ StepsAlong step LastReleaseClean s calls :=
  statesAlong_iff_stepsAlong (fun _ _ _ hi hs => hi.of_step hs)
    (fun _ _ _ hi hr hs => hi.restored_iff hr hs) calls h.inv (fun t _ => h.priority t)

inductive Mid
  | outer
  | inner
  deriving DecidableEq

instance : Fintype Mid := ⟨{.outer, .inner}, fun m => by cases m <;> decide⟩

def twoMutexes : MutexSystem Tid Mid :=
  bootMutexes [.startup .low, .startup .high, .schedulerStart, .sleep 10] (fun _ => .prio)

theorem twoMutexes_initial : twoMutexes.Initial :=
  bootMutexes_initial (by decide +kernel) (by decide +kernel) _

def boostedTake : List (MutexCall Tid Mid) :=
  [.take .low .outer 0xffffffff, .timeout .high, .take .high .outer 0xffffffff, .take .low .inner 0xffffffff,
    .release .low .outer, .takeReturn .high, .take .high .inner 0xffffffff, .release .low .inner]

theorem mutex_priority_restored_iff_twoMutexes : twoMutexes.Initial ∧
    (StatesAlong step Restored twoMutexes boostedTake ↔
      StepsAlong step LastReleaseClean twoMutexes boostedTake) :=
  ⟨twoMutexes_initial, mutex_priority_restored_iff twoMutexes_initial boostedTake⟩

theorem boostedTake_not_restored :
    ∃ s, run step twoMutexes boostedTake = some s ∧ Reachable step Scheduled Initial s ∧ ¬ s.Restored := by
  obtain ⟨s, hs, hnone, hp, hinit⟩ : ∃ s, run step twoMutexes boostedTake = some s ∧
    (∀ m, s.owner m ≠ some .low) ∧
      s.kernel.view.priority .low = 5 ∧ s.kernel.view.initPriority .low = 20 := by decide +kernel
  refine ⟨s, hs, .of_run (.start twoMutexes_initial) (by decide +kernel) hs, ?_⟩
  intro hres
  have := hres .low hnone
  omega

theorem mutex_noInversion_iff {s : MutexSystem T M} (h : s.Initial) (calls : List (MutexCall T M)) :
    StatesAlong step NoInversion s calls ↔ StepsAlong step Inherits s calls :=
  statesAlong_iff_stepsAlong (fun _ _ _ hi hs => hi.of_step hs)
    (fun _ _ _ hi hr hs => hi.noInversion_iff hr hs) calls h.inv
    (fun m o w _ hw => by simp [h.waiting] at hw)

def fifoMutex : MutexSystem Tid Unit :=
  bootMutexes [.startup .low, .startup .mid, .startup .high, .schedulerStart, .sleep 20, .sleep 10]
    (fun _ => .fifo)

theorem fifoMutex_initial : fifoMutex.Initial :=
  bootMutexes_initial (by decide +kernel) (by decide +kernel) _

def fifoHandover : List (MutexCall Tid Unit) :=
  [.take .low () 0xffffffff, .timeout .mid, .take .mid () 0xffffffff, .timeout .high,
    .take .high () 0xffffffff, .release .low ()]

theorem mutex_noInversion_iff_fifoMutex : fifoMutex.Initial ∧
    (StatesAlong step NoInversion fifoMutex fifoHandover ↔
      StepsAlong step Inherits fifoMutex fifoHandover) :=
  ⟨fifoMutex_initial, mutex_noInversion_iff fifoMutex_initial fifoHandover⟩

theorem fifoHandover_inverts :
    ∃ s, run step fifoMutex fifoHandover = some s ∧ Reachable step Scheduled Initial s ∧
      ¬ s.NoInversion := by
  obtain ⟨s, hs, hown, hwait, h1, h2⟩ : ∃ s, run step fifoMutex fifoHandover = some s ∧
    s.owner () = some .mid ∧
      s.kernel.view.waiting () = [.high] ∧ s.kernel.view.priority .mid = 10 ∧ s.kernel.view.priority .high = 5 := by
    decide +kernel
  refine ⟨s, hs, .of_run (.start fifoMutex_initial) (by decide +kernel) hs, ?_⟩
  intro hno
  have := hno () .mid .high hown (by simp [hwait])
  omega

end RtThread
