import RtThread.Kernel.Bitmap
import RtThread.Kernel.ReadyQueue

namespace RtThread

open Transition Function List Option

variable {T W : Type} [DecidableEq T] [DecidableEq W]

structure ReadyLists (T E : Type) where
  currentPriority : T → ℕ
  lists : ℕ → List T
  levels : E

inductive ReadyCall (T : Type)
  | setPriority (t : T) (priority : ℕ)
  | insert (t : T)
  | remove (t : T)

namespace ReadyLists

variable {E F : Type} {n m max : ℕ}

def init (S : LevelSet n E) (currentPriority : T → ℕ) : ReadyLists T E :=
  { currentPriority, lists := fun _ => [], levels := S.empty }

def scheduleInsertThread (S : LevelSet n E) (q : ReadyLists T E) (t : T) : ReadyLists T E :=
  let p := q.currentPriority t
  { q with lists := update q.lists p (q.lists p ++ [t]), levels := S.add q.levels p }

def scheduleRemoveThread (S : LevelSet n E) (q : ReadyLists T E) (t : T) : ReadyLists T E :=
  let p := q.currentPriority t
  let lists := fun i => (q.lists i).erase t
  { q with lists, levels := if lists p = [] then S.remove q.levels p else q.levels }

def step (S : LevelSet n E) (max : ℕ) (q : ReadyLists T E) : ReadyCall T → Option (ReadyLists T E)
  | .setPriority t priority =>
    if priority < max ∧ t ∉ q.lists (q.currentPriority t) then
      some { q with currentPriority := update q.currentPriority t priority }
    else none
  | .insert t =>
    if t ∉ q.lists (q.currentPriority t) then some (q.scheduleInsertThread S t) else none
  | .remove t => some (q.scheduleRemoveThread S t)

structure Wf (S : LevelSet n E) (max : ℕ) (q : ReadyLists T E) : Prop where
  priority_lt : ∀ t, q.currentPriority t < max
  linked : ∀ {t p}, t ∈ q.lists p → q.currentPriority t = p
  tracks : S.Tracks q.levels q.lists

variable {S : LevelSet n E} {q q' : ReadyLists T E}

theorem Wf.step (h : q.Wf S max) (hmax : max ≤ n) {c : ReadyCall T} (hs : q.step S max c = some q') :
    q'.Wf S max := by
  cases c with
  | setPriority t p =>
    simp only [ReadyLists.step] at hs
    split_ifs at hs with hc
    cases hs
    refine ⟨fun u => ?_, fun {u r} hu => ?_, h.tracks⟩
    · simp only [update_apply]
      split_ifs
      · exact hc.1
      · exact h.priority_lt u
    · have hne : u ≠ t := by
        rintro rfl
        exact hc.2 (h.linked hu ▸ hu)
      simpa [hne] using h.linked hu
  | insert t =>
    simp only [ReadyLists.step] at hs
    split_ifs at hs with hc
    cases hs
    refine ⟨h.priority_lt, fun {u r} hu => ?_, ?_⟩
    · simp only [scheduleInsertThread, update_apply] at hu
      split_ifs at hu with hr
      · obtain hu | hu := mem_append.mp hu
        · exact hr ▸ h.linked hu
        · rw [mem_singleton.mp hu]
          exact hr.symm
      · exact h.linked hu
    · apply h.tracks.add ((h.priority_lt t).trans_le hmax)
      · simp [scheduleInsertThread]
      · intro r hr
        simp [scheduleInsertThread, hr]
  | remove t =>
    cases hs
    refine ⟨h.priority_lt, fun hu => h.linked (mem_of_mem_erase hu), ?_⟩
    have hother : ∀ r, r ≠ q.currentPriority t → (q.lists r).erase t = q.lists r := fun r hr =>
      erase_of_not_mem (fun ht => hr (h.linked ht).symm)
    simp only [scheduleRemoveThread]
    split_ifs with hempty
    · exact h.tracks.remove ((h.priority_lt t).trans_le hmax) hempty hother
    · refine h.tracks.keep (fun r => ?_)
      by_cases hr : r = q.currentPriority t
      · subst hr
        refine iff_of_false hempty (fun hnil => hempty ?_)
        rw [hnil, erase_nil]
      · rw [hother r hr]

variable {currentPriority : T → ℕ} {calls : List (ReadyCall T)}

section

omit [DecidableEq T]

theorem wf_init (h : ∀ t, currentPriority t < max) : (init S currentPriority).Wf S max :=
  ⟨h, fun hu => absurd hu not_mem_nil, LevelSet.tracks_empty⟩

def Alike (q : ReadyLists T E) (r : ReadyLists T F) : Prop :=
  q.currentPriority = r.currentPriority ∧ q.lists = r.lists

theorem init_alike (S' : LevelSet m F) :
    (init S currentPriority).Alike (init S' currentPriority) := ⟨rfl, rfl⟩

end

theorem Wf.run (h : q.Wf S max) (hmax : max ≤ n)
    (hrun : Transition.run (ReadyLists.step S max) q calls = some q') : q'.Wf S max := by
  exact run_invariant (fun _ _ _ hq hs => hq.step hmax hs) h hrun

theorem Alike.step {S' : LevelSet m F} {r : ReadyLists T F} {c : ReadyCall T} (h : q.Alike r)
    (hs : q.step S max c = some q') : ∃ r', r.step S' max c = some r' ∧ q'.Alike r' := by
  obtain ⟨hp, hl⟩ := h
  cases c with
  | setPriority t p =>
    simp only [ReadyLists.step] at hs ⊢
    rw [← hp, ← hl]
    split_ifs at hs ⊢ with hc
    cases hs
    exact ⟨_, rfl, rfl, rfl⟩
  | insert t =>
    simp only [ReadyLists.step] at hs ⊢
    rw [← hp, ← hl]
    split_ifs at hs ⊢ with hc
    cases hs
    exact ⟨_, rfl, hp, by simp only [scheduleInsertThread, hp, hl]⟩
  | remove t =>
    cases hs
    exact ⟨_, rfl, hp, by simp only [scheduleRemoveThread, hl]⟩

theorem Alike.run {S' : LevelSet m F} {r : ReadyLists T F} (h : q.Alike r)
    (hrun : Transition.run (ReadyLists.step S max) q calls = some q') :
    ∃ r', Transition.run (ReadyLists.step S' max) r calls = some r' ∧ q'.Alike r' := by
  have hstep : ∀ (q : ReadyLists T E) (r : ReadyLists T F) c q', q.Alike r → q.step S max c = some q' →
      ∃ r', r.step S' max c = some r' ∧ q'.Alike r' := fun _ _ _ _ hR hs => hR.step hs
  exact run_simulation hstep h hrun

theorem isLeast_of_run (hp : ∀ t, currentPriority t < max)
    (hmax : max ≤ n) (hrun : Transition.run (step S max) (init S currentPriority) calls = some q) {p : ℕ}
    (hne : q.lists p ≠ []) : IsLeast {p | q.lists p ≠ []} (S.least q.levels) :=
  ((wf_init hp).run hmax hrun).tracks.isLeast hne

end ReadyLists

inductive SchedulerCall (T W : Type)
  | kernel (c : KernelCall T W)
  | enterCritical
  | exitCritical
  | schedule

def schedulerStep (k : Kernel T W) : SchedulerCall T W → Option (Kernel T W)
  | .kernel c => kernelStep k c
  | .enterCritical => some k.enterCritical
  | .exitCritical => some k.exitCritical
  | .schedule => some k.schedule

theorem run_kernel {k k' : Kernel T W} {calls : List (KernelCall T W)} (h : run kernelStep k calls = some k') :
    run schedulerStep k (calls.map .kernel) = some k' := by
  induction calls generalizing k with
  | nil => exact h
  | cons c calls ih =>
    obtain ⟨j, hj, hrun⟩ := bind_eq_some_iff.mp h
    rw [map_cons, run, schedulerStep, hj, bind_some, ih hrun]

namespace Kernel

variable {k : Kernel T W}

theorem Wf.schedulerStep {k' : Kernel T W} (h : k.Wf) (c : SchedulerCall T W)
    (hs : RtThread.schedulerStep k c = some k') : k'.Wf := by
  cases c with
  | kernel c => exact h.kernelStep c hs
  | enterCritical =>
    cases hs
    exact h.congr rfl rfl rfl
  | exitCritical => exact Option.some.inj hs ▸ h.exitCritical
  | schedule =>
    cases hs
    exact h.schedule

def RunsHighest (k : Kernel T W) : Prop :=
  ∃ p, IsLeast {p | k.lists (.ready p) ≠ []} p ∧ k.schedule.current = (k.lists (.ready p)).head?

omit [DecidableEq T] [DecidableEq W]

theorem Wf.tracks (h : k.Wf) : wordLevels.Tracks k.readyGroup (fun p => k.lists (.ready p)) := by
  refine ⟨trivial, fun p => ?_⟩
  by_cases hp : p < 32
  · exact h.group_iff p hp
  · refine iff_of_false (fun hb => hp (BitVec.lt_of_getLsbD hb)) (not_not.mpr ?_)
    apply eq_nil_iff_forall_not_mem.mpr
    intro t ht
    have hlt := (h.placed t).current_lt
    rw [((h.placed t).ready_iff p).mp ht |>.2] at hlt
    exact hp hlt

theorem Wf.runsHighest (h : k.Wf) (hlock : k.lockNest = 0) {t : T}
    (ht : (k.thread t).stat = .ready) : k.RunsHighest := by
  have hmem := ((h.placed t).ready_iff _).mpr ⟨ht, rfl⟩
  have hleast := h.tracks.isLeast (ne_nil_of_mem hmem)
  refine ⟨_, hleast, ?_⟩
  have hgroup : k.readyGroup ≠ 0 := ne_zero_of_getLsbD ((h.tracks.has_iff _).mpr (ne_nil_of_mem hmem))
  obtain ⟨u, l, hu⟩ := exists_cons_of_ne_nil hleast.1
  have hhead : k.highestReadyThread = some u := congrArg List.head? hu
  rw [Kernel.schedule, if_pos ⟨hlock, hgroup⟩, hhead, hu]
  rfl

theorem not_runsHighest {u : T} {q : ℕ} (hlost : k.readyGroup.getLsbD q = false)
    (hlists : ∀ p, k.lists (.ready p) = if p = q then [u] else []) (hnone : k.current = none) : ¬ k.RunsHighest := by
  rintro ⟨p, hleast, hcur⟩
  have hp : p = q := by
    by_contra hne
    exact hleast.1 (by rw [hlists, if_neg hne])
  rw [hlists, schedule] at hcur
  split_ifs at hcur with hlock
  · have hbit := (ffs_lowest hlock.2).1
    have hother : ffs k.readyGroup - 1 ≠ q := by
      intro he
      rw [he, hlost] at hbit
      cases hbit
    simp [highestReadyThread, hlists, hother, hnone] at hcur
  · simp [hnone] at hcur

end Kernel

theorem schedule_highest_first_iff [Nontrivial T] {k : Kernel T W} (h : Booted k) :
    ((∀ k', Reachable schedulerStep (fun _ _ => True) (· = k) k' → k'.lockNest = 0 →
        (∃ t, (k'.thread t).stat = .ready) → k'.RunsHighest) ↔ ∀ t, CleanMask (k.thread t)) ∧
    ∀ max ≤ 256, ∀ currentPriority : T → ℕ, (∀ t, currentPriority t < max) → ∀ calls q,
      run (ReadyLists.step tableLevels max) (.init tableLevels currentPriority) calls = some q →
      (∃ p, q.lists p ≠ []) →
      IsLeast {p | q.lists p ≠ []} (tableLevels.least q.levels) ∧
      (max ≤ 32 → ∃ r, run (ReadyLists.step wordLevels max) (.init wordLevels currentPriority) calls = some r ∧
        r.lists = q.lists ∧ wordLevels.least r.levels = tableLevels.least q.levels) := by
  refine ⟨⟨fun hruns t q hb => ?_, fun hm k' hr hlock ⟨t, ht⟩ => ?_⟩, ?_⟩
  · by_contra hq
    obtain ⟨u, hu⟩ := exists_ne t
    obtain ⟨k', hrun, hlost, hlists, hready, hidle⟩ := h.strayBit hu hb hq
    obtain ⟨hcur, hlock⟩ := Prod.mk.inj hidle
    exact Kernel.not_runsHighest hlost hlists hcur (hruns k' (.of_free_run rfl (run_kernel hrun)) hlock ⟨u, hready⟩)
  · have hwf : k'.Wf := hr.invariant (by rintro _ rfl; exact h.wf hm) (fun _ c _ hk _ hs => hk.schedulerStep c hs)
    exact hwf.runsHighest hlock ht
  · rintro max hmax currentPriority hp calls q hrun ⟨p, hne⟩
    have hleast := ReadyLists.isLeast_of_run hp hmax hrun hne
    refine ⟨hleast, fun hmax32 => ?_⟩
    obtain ⟨r, hrun', -, hlists⟩ := (ReadyLists.init_alike wordLevels).run hrun
    have hleast' := ReadyLists.isLeast_of_run hp hmax32 hrun' (by rwa [← hlists])
    rw [← hlists] at hleast'
    exact ⟨r, hrun', hlists.symm, hleast'.unique hleast⟩

theorem schedule_highest_first_clean : Booted (initKernel Tid.priority : Kernel Tid Unit) ∧
    ∀ k', Reachable schedulerStep (fun _ _ => True) (· = (initKernel Tid.priority : Kernel Tid Unit)) k' →
      k'.lockNest = 0 → (∃ t, (k'.thread t).stat = .ready) → k'.RunsHighest :=
  ⟨initKernel_booted (by decide), (schedule_highest_first_iff (initKernel_booted (by decide))).1.mpr
    (initKernel_cleanMask _)⟩

def recycledTid : Kernel Tid Unit :=
  Kernel.systemSchedulerInit
    (fun t => freshThread t.priority (if t = .low then priorityMask 5 else 0)) 0

theorem recycledTid_booted : Booted recycledTid :=
  ⟨_, _, rfl, fun t => ⟨_, _, _, _, threadInit_fresh (by cases t <;> decide) _⟩⟩

theorem schedule_passes_over_high : Booted recycledTid ∧
    ∃ k', Reachable schedulerStep (fun _ _ => True) (· = recycledTid) k' ∧ k'.lockNest = 0 ∧
      (k'.thread .high).stat = .ready ∧ k'.lists (.ready 5) = [.high] ∧ k'.schedule.current = some .mid ∧
      ¬ k'.RunsHighest := by
  let calls : List (SchedulerCall Tid Unit) := [.kernel (.startup .high), .kernel (.startup .mid),
    .kernel .schedulerStart, .kernel (.delete .low), .kernel (.delete .low)]
  have hrun : (run schedulerStep recycledTid calls).map (fun k => (k.lockNest, (k.thread .high).stat,
      k.lists (.ready 5), k.schedule.current, decide (∀ p : ℕ, p < 6 → Tid.mid ∉ k.lists (.ready p)))) =
      some (0, .ready, [.high], some .mid, true) := by decide
  obtain ⟨k', hk, ho⟩ := map_eq_some_iff.mp hrun
  simp only [Prod.mk.injEq] at ho
  obtain ⟨hlock, hready, hlist, hcur, hmid⟩ := ho
  refine ⟨recycledTid_booted, k', .of_free_run rfl hk, hlock, hready, hlist, hcur, ?_⟩
  rintro ⟨p, hleast, hhead⟩
  have hp : p ≤ 5 := hleast.2 (by rw [Set.mem_ofPred_eq, hlist]; exact cons_ne_nil _ _)
  rw [hcur] at hhead
  exact of_decide_eq_true hmid p (Nat.lt_succ_of_le hp) (mem_of_mem_head? hhead.symm)

end RtThread
