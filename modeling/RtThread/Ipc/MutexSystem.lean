import RtThread.Lib.Transition
import RtThread.Ipc.Parking
import RtThread.Ipc.Mutex

/-!
Any number of threads on any number of mutexes. A step is one interrupt-disabled section by any ready thread.
-/

namespace RtThread

open Function Option

variable {T M : Type} [DecidableEq T] [DecidableEq M]

/-- `pc t` is the mutex in whose `rt_mutex_take` the thread was suspended. The last three fields are
history: the takes granted to each thread, its successful releases, and whether the owner of a mutex had
its initial priority when it became the owner. -/
structure MutexSystem (T M : Type) where
  kernel : Kernel T M
  mutex : M → Mutex T
  pc : T → Option M
  taken : T → M → ℕ
  released : T → M → ℕ
  clean : M → Bool

inductive MutexCall (T M : Type)
  | take (t : T) (m : M) (time : BitVec 32)
  | takeReturn (t : T)
  | release (t : T) (m : M)
  | timeout (t : T)

def bump (f : T → M → ℕ) (t : T) (m : M) : T → M → ℕ :=
  update f t (update (f t) m (f t m + 1))

namespace MutexSystem

def Running (s : MutexSystem T M) (t : T) : Prop := s.kernel.view.stat t = .ready ∧ s.pc t = none

instance (s : MutexSystem T M) (t : T) : Decidable (s.Running t) := instDecidableAnd

def recordTaken (s : MutexSystem T M) (m : M) (x : Mutex T) : T → M → ℕ :=
  match x.owner with
  | none => s.taken
  | some u => if (s.mutex m).owner = some u then s.taken else bump s.taken u m

def recordOwner (s : MutexSystem T M) (m : M) (x : Mutex T) (k : Kernel T M) : M → Bool :=
  match x.owner with
  | none => s.clean
  | some o =>
    if (s.mutex m).owner = some o then s.clean
    else update s.clean m (decide (k.view.priority o = k.view.initPriority o))

def afterTake (s : MutexSystem T M) (t : T) (m : M) :
    Kernel T M × Mutex T × Outcome → MutexSystem T M × Option Err
  | (k, x, .returned e) =>
    ({ s with
      kernel := k, mutex := update s.mutex m x
      taken := if e = .eok then bump s.taken t m else s.taken
      clean := s.recordOwner m x k }, some e)
  | (k, x, .blocked) =>
    ({ s with kernel := k, mutex := update s.mutex m x, pc := update s.pc t (some m) },
      none)

def afterRelease (s : MutexSystem T M) (t : T) (m : M) :
    Kernel T M × Mutex T × Err → MutexSystem T M × Option Err
  | (k, x, e) =>
    ({ s with
      kernel := k, mutex := update s.mutex m x
      taken := s.recordTaken m x
      released := if e = .eok then bump s.released t m else s.released
      clean := s.recordOwner m x k }, some e)

def exec (s : MutexSystem T M) : MutexCall T M → Option (MutexSystem T M × Option Err)
  | .take t m time =>
    if s.Running t then (mutexTake (s.kernel.dispatch t) m (s.mutex m) time).map (s.afterTake t m)
    else none
  | .takeReturn t =>
    if s.kernel.view.stat t = .ready ∧ (s.pc t).isSome then
      some ({ s with pc := update s.pc t none }, some (mutexTakeReturn s.kernel t))
    else none
  | .release t m =>
    if s.Running t then some (s.afterRelease t m (mutexRelease (s.kernel.dispatch t) m (s.mutex m)))
    else none
  | .timeout t => (s.kernel.timerExpire t).map (fun k => ({ s with kernel := k }, none))

def step (s : MutexSystem T M) (c : MutexCall T M) : Option (MutexSystem T M) :=
  (s.exec c).map Prod.fst

structure Initial (s : MutexSystem T M) : Prop where
  wf : s.kernel.Wf
  mutex : ∀ m, ∃ flag, s.mutex m = mutexInit flag
  waiting : ∀ m, s.kernel.view.waiting m = []
  pc : ∀ t, s.pc t = none
  counts : ∀ t m, s.taken t m = 0 ∧ s.released t m = 0
  priority : ∀ t, s.kernel.view.priority t = s.kernel.view.initPriority t

variable {s s' : MutexSystem T M} {m : M} {t : T} {k : Kernel T M}

theorem recordOwner_same {x : Mutex T} (k : Kernel T M)
    (h : x.owner = (s.mutex m).owner) : s.recordOwner m x k = s.clean := by
  unfold recordOwner
  cases hx : x.owner with
  | none => rfl
  | some o => rw [hx] at h; simp [← h]

def NestingBounded (s : MutexSystem T M) : MutexCall T M → Prop
  | .take t m _ => s.taken t m < s.released t m + 255
  | _ => True

instance (s : MutexSystem T M) : ∀ c, Decidable (s.NestingBounded c)
  | .take _ _ _ => Nat.decLt _ _
  | .takeReturn _ | .release _ _ | .timeout _ => isTrue trivial

def Free (x : Mutex T) (waiting : List T) : Prop :=
  x.value = 1 ∧ x.owner = none ∧ x.hold = 0 ∧ waiting = []

def Held (x : Mutex T) (waiting : List T) : Prop :=
  x.value = 0 ∧ ∃ o, x.owner = some o ∧ o ∉ waiting

structure Inv (s : MutexSystem T M) : Prop where
  parked : s.kernel.Parked s.pc
  shape : ∀ m, Free (s.mutex m) (s.kernel.view.waiting m) ∨ Held (s.mutex m) (s.kernel.view.waiting m)
  granted : ∀ t m, t ∈ s.kernel.woken s.pc m → (s.mutex m).owner = some t
  original_lt : ∀ t m, (s.mutex m).owner = some t → (s.mutex m).originalPriority < 32
  clean_iff : ∀ t m, (s.mutex m).owner = some t →
    (s.clean m = true ↔ (s.mutex m).originalPriority = s.kernel.view.initPriority t)

omit [DecidableEq M] [DecidableEq T] in
theorem Initial.inv (h : s.Initial) : s.Inv := by
  have hpc : s.pc = fun _ => none := funext h.pc
  have hm : ∀ m, (s.mutex m).owner = none ∧ (s.mutex m).value = 1 ∧ (s.mutex m).hold = 0 := by
    intro m
    obtain ⟨flag, hf⟩ := h.mutex m
    simp [hf, mutexInit]
  refine ⟨hpc ▸ Kernel.Parked.start h.wf h.waiting, ?_, ?_, ?_, ?_⟩
  · intro m
    exact Or.inl ⟨(hm m).2.1, (hm m).1, (hm m).2.2, h.waiting m⟩
  · intro t m ht
    exact absurd ht (Kernel.woken_none (h.pc t))
  · intro t m ht; simp [hm m] at ht
  · intro t m ht; simp [hm m] at ht

inductive StepEffect (s : MutexSystem T M) : MutexSystem T M → MutexCall T M → Option Err → Prop
  | take {t : T} {m : M} {time : BitVec 32} {k : Kernel T M} {v : View T M} {x : Mutex T} {e : Err}
      (hrun : s.Running t) (hv : k.view = v)
      (he : TakeEffect s.kernel.view m (s.mutex m) t time v x (.returned e)) :
      StepEffect s (s.afterTake t m (k, x, .returned e)).1 (.take t m time) (some e)
  | block {t : T} {m : M} {time : BitVec 32} {k : Kernel T M} {v : View T M} {x : Mutex T}
      (hrun : s.Running t) (hv : k.view = v)
      (he : TakeEffect s.kernel.view m (s.mutex m) t time v x .blocked) :
      StepEffect s (s.afterTake t m (k, x, .blocked)).1 (.take t m time) none
  | takeReturn {t : T} {m : M} (hr : s.kernel.view.stat t = .ready) (hpc : s.pc t = some m) :
      StepEffect s { s with pc := update s.pc t none } (.takeReturn t)
        (some (s.kernel.view.error t))
  | release {t : T} {m : M} {k : Kernel T M} {v : View T M} {x : Mutex T} {e : Err}
      (hrun : s.Running t) (hv : k.view = v) (he : ReleaseEffect s.kernel.view m (s.mutex m) t v x e) :
      StepEffect s (s.afterRelease t m (k, x, e)).1 (.release t m) (some e)
  | timeout {t : T} {k : Kernel T M} (hst : s.kernel.view.stat t = .suspend)
      (hv : k.view = s.kernel.view.expired t) :
      StepEffect s { s with kernel := k } (.timeout t) none

theorem Inv.effect {c : MutexCall T M} {r : Option Err} (h : s.Inv)
    (hs : s.exec c = some (s', r)) : s'.kernel.Wf ∧ StepEffect s s' c r := by
  cases c with
  | take t m time =>
    simp only [exec] at hs
    split_ifs at hs with hrun
    obtain ⟨⟨k, x, o⟩, hk, he⟩ := map_eq_some_iff.mp hs
    obtain ⟨hw, heff⟩ := h.parked.wf.mutexTake hrun.1 hk
    cases o with
    | returned e =>
      cases he
      exact ⟨hw, .take hrun rfl heff⟩
    | blocked =>
      cases he
      exact ⟨hw, .block hrun rfl heff⟩
  | takeReturn t =>
    simp only [exec] at hs
    split_ifs at hs with hr
    cases hs
    obtain ⟨m, hm⟩ := isSome_iff_exists.mp hr.2
    exact ⟨h.parked.wf, .takeReturn hr.1 hm⟩
  | release t m =>
    simp only [exec] at hs
    split_ifs at hs with hrun
    obtain ⟨⟨k, x, e⟩, hk⟩ : ∃ q, mutexRelease (s.kernel.dispatch t) m (s.mutex m) = q := ⟨_, rfl⟩
    obtain ⟨hw, heff⟩ := h.parked.wf.mutexRelease (h.original_lt t m) hk
    rw [hk] at hs
    cases hs
    exact ⟨hw, .release hrun rfl heff⟩
  | timeout t =>
    obtain ⟨k, hk, he⟩ := map_eq_some_iff.mp hs
    cases he
    obtain ⟨hw, hst, hv⟩ := h.parked.wf.timerExpire_view hk
    exact ⟨hw, .timeout hst hv⟩

section

variable (h : s.Inv)

include h

section

omit [DecidableEq M] [DecidableEq T]

theorem Inv.held {o : T} (ho : (s.mutex m).owner = some o) :
    (s.mutex m).value = 0 ∧ o ∉ s.kernel.view.waiting m := by
  rcases h.shape m with hf | ⟨hv, o', ho', hn⟩
  · simp [hf.2.1] at ho
  · rw [ho] at ho'
    exact ⟨hv, Option.some.inj ho' ▸ hn⟩

theorem Inv.free (hv : 0 < (s.mutex m).value) : Free (s.mutex m) (s.kernel.view.waiting m) := by
  rcases h.shape m with hf | hh
  · exact hf
  · have := hh.1; omega

end

section

omit [DecidableEq M]

theorem Inv.of_error (hw : s'.kernel.Wf) {e : Err} (ht : s.Running t)
    (hv : s'.kernel.view = s.kernel.view.setError t e)
    (hpc : s'.pc = s.pc) (hclean : s'.clean = s.clean)
    (hm : ∀ m, (s'.mutex m).owner = (s.mutex m).owner ∧ (s'.mutex m).value = (s.mutex m).value ∧
      (s'.mutex m).originalPriority = (s.mutex m).originalPriority ∧
      ((s.mutex m).owner = none → (s'.mutex m).hold = (s.mutex m).hold)) : s'.Inv := by
  obtain ⟨hparked, hwoken⟩ := h.parked.own hw ht.2 ht.1 (by rw [hv]) (by rw [hv]) (by rw [hv])
  refine ⟨hpc ▸ hparked, ?_, ?_, ?_, ?_⟩
  · intro m
    obtain ⟨ho, hval, _, hhold⟩ := hm m
    rcases h.shape m with ⟨h1, h2, h3, h4⟩ | ⟨h1, h2⟩
    · exact Or.inl ⟨hval.trans h1, ho.trans h2, (hhold h2).trans h3, by rw [hv]; exact h4⟩
    · refine Or.inr ⟨hval.trans h1, ?_⟩
      rw [ho, hv]
      exact h2
  · intro u m hu
    rw [hpc, hwoken] at hu
    rw [(hm m).1]
    exact h.granted u m hu
  · intro u m hu
    rw [(hm m).1] at hu
    rw [(hm m).2.2.1]
    exact h.original_lt u m hu
  · intro u m hu
    rw [(hm m).1] at hu
    rw [hclean, (hm m).2.2.1, hv]
    exact h.clean_iff u m hu

theorem Inv.takeReturn (hr : s.kernel.view.stat t = .ready) : Inv { s with pc := update s.pc t none } := by
  obtain ⟨hparked, hwoken⟩ := h.parked.leave hr
  refine ⟨hparked, h.shape, ?_, h.original_lt, h.clean_iff⟩
  intro u m hu
  exact h.granted u m ((hwoken m ▸ hu : u ∈ s.kernel.woken s.pc m \ {t}).1)

theorem Inv.timeout (hk : k.Wf) (hst : s.kernel.view.stat t = .suspend) (hv : k.view = s.kernel.view.expired t) :
    Inv { s with kernel := k } := by
  obtain ⟨hparked, hwoken⟩ := h.parked.timeout hk hst (by rw [hv]) (by rw [hv]) (fun m => by rw [hv])
  refine ⟨hparked, ?_, ?_, h.original_lt, ?_⟩
  · intro m
    rcases h.shape m with ⟨h1, h2, h3, h4⟩ | ⟨h1, o, h2, h3⟩
    · exact Or.inl ⟨h1, h2, h3, by simp [hv, h4]⟩
    · refine Or.inr ⟨h1, o, h2, ?_⟩
      rw [hv]
      exact fun hm => h3 (List.mem_of_mem_erase hm)
  · intro u m hu
    exact h.granted u m (hwoken m ▸ hu)
  · intro u m hu
    simpa [hv] using h.clean_iff u m hu

end

theorem Inv.acquired (hk : k.Wf) (ht : s.Running t) (hval : 0 < (s.mutex m).value)
    (hv : k.view = s.kernel.view.setError t .eok) :
    (s.afterTake t m (k, { s.mutex m with
      value := (s.mutex m).value - 1, owner := some t, originalPriority := s.kernel.view.priority t
      hold := ((s.mutex m).hold + 1) % 256 }, .returned .eok)).1.Inv := by
  obtain ⟨h1, h2, _, h4⟩ := h.free hval
  obtain ⟨hparked, hwoken⟩ := h.parked.own hk ht.2 ht.1 (by rw [hv]) (by rw [hv]) (by rw [hv])
  refine ⟨hparked, ?_, ?_, ?_, ?_⟩
  · intro m'
    by_cases hm : m' = m
    · subst hm
      refine Or.inr ⟨?_, t, ?_, ?_⟩ <;> simp [afterTake, hv, h1, h4]
    · simpa [afterTake, hv, hm] using h.shape m'
  · intro u m' hu
    have ho : (s.mutex m').owner = some u := h.granted u m' (hwoken m' ▸ hu)
    have hm : m' ≠ m := fun he => by simp [he, h2] at ho
    simpa [afterTake, hm] using ho
  · intro u m' hu
    by_cases hm : m' = m
    · subst hm
      simpa [afterTake] using h.parked.wf.view_priority_lt t
    · simp only [afterTake, update_of_ne hm] at hu ⊢
      exact h.original_lt u m' hu
  · intro u m' hu
    by_cases hm : m' = m
    · subst hm
      obtain rfl : t = u := by simpa [afterTake] using hu
      simp [afterTake, recordOwner, h2, hv]
    · simp only [afterTake, update_of_ne hm] at hu ⊢
      simp only [recordOwner, h2, reduceCtorEq, if_false, update_of_ne hm, hv]
      exact h.clean_iff u m' hu

variable {p : T → ℕ}

theorem Inv.blocked (hk : k.Wf) {o : T} (ht : s.Running t) (ho : (s.mutex m).owner = some o) (hne : o ≠ t)
    (hv : k.view = { s.kernel.view with priority := p }.parked m (s.mutex m).flag t) :
    (s.afterTake t m (k, s.mutex m, .blocked)).1.Inv := by
  have hmutex : (s.afterTake t m (k, s.mutex m, .blocked)).1.mutex = s.mutex := by
    simp [afterTake]
  obtain ⟨hparked, hwoken⟩ := h.parked.block (w := m) hk ht.1 (by rw [hv]) (by rw [hv])
    (fun u => by simp [hv, mem_enqueue]) (fun m' hm => by simp [hv, hm])
  refine ⟨hparked, ?_, ?_, ?_, ?_⟩
  · intro m'
    rw [hmutex]
    by_cases hm : m' = m
    · subst hm
      obtain ⟨hval, hnot⟩ := h.held ho
      refine Or.inr ⟨hval, o, ho, ?_⟩
      simp [afterTake, hv, mem_enqueue, hne, hnot]
    · simpa [afterTake, hv, hm] using h.shape m'
  · intro u m' hu
    rw [hmutex]
    exact h.granted u m' ((hwoken m' ▸ hu : u ∈ s.kernel.woken s.pc m' \ {t}).1)
  · intro u m' hu
    rw [hmutex] at hu ⊢
    exact h.original_lt u m' hu
  · intro u m' hu
    rw [hmutex] at hu ⊢
    simpa [afterTake, hv] using h.clean_iff u m' hu

section

variable (ht : s.Running t) (ho : (s.mutex m).owner = some t)

include ht ho

omit [DecidableEq M] [DecidableEq T] in
theorem Inv.granted_ne {u : T} {m' : M} (hu : u ∈ s.kernel.woken s.pc m') : m' ≠ m := by
  rintro rfl
  obtain rfl : t = u := Option.some.inj (ho.symm.trans (h.granted u m' hu))
  exact Kernel.woken_none ht.2 hu

theorem Inv.handed (hk : k.Wf) {u : T} {l : List T}
    (hl : s.kernel.view.waiting m = u :: l) (hp : p = update s.kernel.view.priority t (s.mutex m).originalPriority)
    (hv : k.view = { s.kernel.view with priority := p }.resumed m u l) :
    (s.afterRelease t m (k, { s.mutex m with
      owner := some u, originalPriority := p u, hold := 1 }, .eok)).1.Inv := by
  have hu : u ∈ s.kernel.view.waiting m := by simp [hl]
  have hut : u ≠ t := fun he => h.parked.wf.not_waiting ht.1 m (he ▸ hu)
  have hown : (s.mutex m).owner ≠ some u := by
    rw [ho]
    exact fun he => hut (Option.some.inj he).symm
  obtain ⟨hparked, -, hself, hother⟩ := h.parked.resume hk hl (by rw [hv]) (by rw [hv]) (by rw [hv])
  refine ⟨hparked, ?_, ?_, ?_, ?_⟩
  · intro m'
    by_cases hm : m' = m
    · subst hm
      refine Or.inr ⟨?_, u, ?_, ?_⟩
      · simpa [afterRelease] using (h.held ho).1
      · simp [afterRelease]
      · have hnodup := h.parked.wf.view_nodup m'
        rw [hl] at hnodup
        simpa [afterRelease, hv] using (List.nodup_cons.mp hnodup).1
    · simpa [afterRelease, hv, hm] using h.shape m'
  · intro w m' hw
    by_cases hm : m' = m
    · subst hm
      rcases (hself ▸ hw : w ∈ insert u (s.kernel.woken s.pc m')) with rfl | hw'
      · simp [afterRelease]
      · exact absurd rfl (h.granted_ne ht ho hw')
    · simpa [afterRelease, hm] using h.granted w m' (hother m' hm ▸ hw)
  · intro w m' hw
    by_cases hm : m' = m
    · subst hm
      simpa [afterRelease, hp, hut] using h.parked.wf.view_priority_lt u
    · simp only [afterRelease, update_of_ne hm] at hw ⊢
      exact h.original_lt w m' hw
  · intro w m' hw
    by_cases hm : m' = m
    · subst hm
      obtain rfl : u = w := by simpa [afterRelease] using hw
      simp [afterRelease, recordOwner, hown, hv]
    · simp only [afterRelease, update_of_ne hm] at hw ⊢
      simp only [recordOwner, hown, if_false, update_of_ne hm, hv]
      exact h.clean_iff w m' hw

theorem Inv.freed (hk : k.Wf) (hl : s.kernel.view.waiting m = [])
    (hv : k.view = { s.kernel.view with priority := p }) :
    (s.afterRelease t m (k, { s.mutex m with
      value := ((s.mutex m).value + 1) % 65536, owner := none, originalPriority := 0xff, hold := 0 },
      .eok)).1.Inv := by
  obtain ⟨hparked, hwoken⟩ := h.parked.own hk ht.2 ht.1 (by rw [hv]) (by rw [hv, update_eq_self]) (by rw [hv])
  refine ⟨hparked, ?_, ?_, ?_, ?_⟩
  · intro m'
    by_cases hm : m' = m
    · subst hm
      refine Or.inl ⟨?_, ?_, ?_, ?_⟩
      · simp [afterRelease, (h.held ho).1]
      · simp [afterRelease]
      · simp [afterRelease]
      · simpa [afterRelease, hv] using hl
    · simpa [afterRelease, hv, hm] using h.shape m'
  · intro w m' hw
    have hw' : w ∈ s.kernel.woken s.pc m' := hwoken m' ▸ hw
    simpa [afterRelease, h.granted_ne ht ho hw'] using h.granted w m' hw'
  · intro w m' hw
    have hm : m' ≠ m := fun hm => by simp [afterRelease, hm] at hw
    simp only [afterRelease, update_of_ne hm] at hw ⊢
    exact h.original_lt w m' hw
  · intro w m' hw
    have hm : m' ≠ m := fun hm => by simp [afterRelease, hm] at hw
    simp only [afterRelease, update_of_ne hm] at hw ⊢
    simp only [recordOwner, hv]
    exact h.clean_iff w m' hw

end

end

theorem Inv.step {c : MutexCall T M} {r : Option Err} (h : s.Inv) (hs : s.exec c = some (s', r)) : s'.Inv := by
  obtain ⟨hw, heff⟩ := h.effect hs
  cases heff with
  | @take t m _ _ _ _ _ hrun hv he =>
    cases he with
    | nested ho =>
      refine h.of_error hw hrun hv rfl ?_ ?_
      · exact recordOwner_same _ rfl
      · intro m'
        by_cases hm : m' = m
        · subst hm; simp [afterTake, ho]
        · simp [afterTake, hm]
    | acquired ho hval => exact h.acquired hw hrun hval hv
    | refused ho hval hz =>
      refine h.of_error hw hrun hv rfl ?_ ?_
      · exact recordOwner_same _ rfl
      · intro m'
        simp [afterTake]
  | block hrun hv he =>
    cases he with
    | blocked ho hne hval hz hp => exact h.blocked hw hrun ho hne hv
  | takeReturn hr hpc => exact h.takeReturn hr
  | @release t m _ _ _ _ hrun hv he =>
    cases he with
    | refused ho =>
      refine h.of_error hw hrun hv rfl ?_ ?_
      · exact recordOwner_same _ rfl
      · intro m'
        simp [afterRelease]
    | kept ho hh =>
      refine h.of_error (e := s.kernel.view.error t) hw hrun ?_ rfl ?_ ?_
      · exact hv.trans (by rw [View.setError_self])
      · exact recordOwner_same _ rfl
      · intro m'
        by_cases hm : m' = m
        · subst hm; simp [afterRelease, ho]
        · simp [afterRelease, hm]
    | handed ho hh hl hp => exact h.handed hrun ho hw hl hp hv
    | freed ho hh hl hp => exact h.freed hrun ho hw hl hv
  | timeout hst hv => exact h.timeout hw hst hv

end MutexSystem

end RtThread
