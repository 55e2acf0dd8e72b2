import Mathlib.Data.Set.Card
import RtThread.Kernel.ReadyQueue
import RtThread.Ipc.Semaphore

namespace RtThread

open Transition Function Option

variable {T S : Type} [DecidableEq T] [DecidableEq S]

/-- The history of one semaphore: its first value, the releases, the takes that returned `RT_EOK`, and
what the resets put into the counter and took out of it. -/
structure SemCounts where
  initial : ℕ
  releases : ℕ
  returned : ℕ
  resetIn : ℕ
  resetOut : ℕ
  deriving DecidableEq

structure SemSystem (T S : Type) where
  kernel : Kernel T S
  sem : S → Semaphore
  pc : T → Option S
  counts : S → SemCounts

inductive SemCall (T S : Type)
  | take (t : T) (w : S) (time : BitVec 32)
  | trytake (w : S)
  | takeReturn (t : T)
  | release (w : S)
  | control (w : S) (cmd : SemCtrl)
  | timeout (t : T)

namespace SemSystem

def Running (s : SemSystem T S) (t : T) : Prop := s.kernel.view.stat t = .ready ∧ s.pc t = none

instance (s : SemSystem T S) (t : T) : Decidable (s.Running t) := instDecidableAnd

def count (s : SemSystem T S) (w : S) (f : SemCounts → SemCounts) : S → SemCounts :=
  update s.counts w (f (s.counts w))

def countReturn (s : SemSystem T S) (w : S) (e : Err) : S → SemCounts :=
  if e = .eok then s.count w (fun c => { c with returned := c.returned + 1 }) else s.counts

def afterTake (s : SemSystem T S) (w : S) (parked : T → Option S) :
    Kernel T S × Semaphore × Outcome → SemSystem T S × Option Err
  | (k, x, .returned e) =>
    ({ s with kernel := k, sem := update s.sem w x, counts := s.countReturn w e }, some e)
  | (k, x, .blocked) => ({ s with kernel := k, sem := update s.sem w x, pc := parked }, none)

def exec (s : SemSystem T S) : SemCall T S → Option (SemSystem T S × Option Err)
  | .take t w time =>
    if s.Running t then
      (semTake (s.kernel.dispatch t) w (s.sem w) time).map (s.afterTake w (update s.pc t (some w)))
    else none
  | .trytake w => (semTrytake s.kernel w (s.sem w)).map (s.afterTake w s.pc)
  | .takeReturn t =>
    match s.pc t with
    | none => none
    | some w =>
      if s.kernel.view.stat t = .ready then
        let e := semTakeReturn s.kernel t
        some ({ s with pc := update s.pc t none, counts := s.countReturn w e }, some e)
      else none
  | .release w =>
    let (k, x, e) := semRelease s.kernel w (s.sem w)
    some ({ s with
      kernel := k, sem := update s.sem w x
      counts := s.count w (fun c => { c with releases := c.releases + 1 }) }, some e)
  | .control w cmd =>
    let (k, x, e) := semControl s.kernel w (s.sem w) cmd
    some ({ s with
      kernel := k, sem := update s.sem w x
      counts := if e = .eok then s.count w (fun c => { c with
        resetIn := c.resetIn + x.value, resetOut := c.resetOut + (s.sem w).value }) else s.counts }, some e)
  | .timeout t => (s.kernel.timerExpire t).map (fun k => ({ s with kernel := k }, none))

def step (s : SemSystem T S) (c : SemCall T S) : Option (SemSystem T S) := (s.exec c).map Prod.fst

structure Initial (s : SemSystem T S) : Prop where
  wf : s.kernel.Wf
  waiting : ∀ w, s.kernel.view.waiting w = []
  pc : ∀ t, s.pc t = none
  sem : ∀ w, ∃ value flag, s.sem w = semInit value flag
  counts : ∀ w, s.counts w =
    { initial := (s.sem w).value, releases := 0, returned := 0, resetIn := 0, resetOut := 0 }

def NoOverflow (s : SemSystem T S) : SemCall T S → Prop
  | .release w => s.kernel.view.waiting w = [] → (s.sem w).value < 65535
  | _ => True

instance (s : SemSystem T S) : ∀ c, Decidable (s.NoOverflow c)
  | .release _ => instDecidableForall
  | .take _ _ _ | .trytake _ | .takeReturn _ | .control _ _ | .timeout _ => isTrue trivial

def Conserved (s : SemSystem T S) (w : S) : Prop :=
  (s.counts w).initial + (s.counts w).releases + (s.counts w).resetIn =
    (s.sem w).value + (s.counts w).returned + (s.kernel.woken s.pc w).ncard + (s.counts w).resetOut

structure Inv (s : SemSystem T S) : Prop where
  parked : s.kernel.Parked s.pc
  idle : ∀ w, 0 < (s.sem w).value → s.kernel.view.waiting w = []
  conserved : ∀ w, s.Conserved w

variable {s s' : SemSystem T S} {k : Kernel T S} {x : Semaphore} {c : SemCall T S}

omit [DecidableEq S] [DecidableEq T] in
theorem Initial.inv (h : s.Initial) : s.Inv := by
  have hpc : s.pc = fun _ => none := funext h.pc
  refine ⟨hpc ▸ Kernel.Parked.start h.wf h.waiting, fun w _ => h.waiting w, ?_⟩
  intro w
  have hempty : s.kernel.woken s.pc w = ∅ := Set.eq_empty_of_forall_notMem (fun t => Kernel.woken_none (h.pc t))
  simp [Conserved, h.counts, hempty]

variable {w : S}

section

omit [DecidableEq T]

theorem Inv.setSem (h : s.Inv) (hparked : s'.kernel.Parked s'.pc) (w : S)
    (hother : ∀ w', w' ≠ w → s'.sem w' = s.sem w' ∧ s'.counts w' = s.counts w' ∧
      s'.kernel.view.waiting w' = s.kernel.view.waiting w' ∧
      s'.kernel.woken s'.pc w' = s.kernel.woken s.pc w')
    (hidle : 0 < (s'.sem w).value → s'.kernel.view.waiting w = []) (hcons : s'.Conserved w) : s'.Inv := by
  refine ⟨hparked, ?_, ?_⟩
  · intro w'
    by_cases hw : w' = w
    · subst hw; exact hidle
    · obtain ⟨h1, _, h3, _⟩ := hother w' hw
      rw [h1, h3]
      exact h.idle w'
  · intro w'
    by_cases hw : w' = w
    · subst hw; exact hcons
    · obtain ⟨h1, h2, _, h4⟩ := hother w' hw
      unfold Conserved
      rw [h1, h2, h4]
      exact h.conserved w'

theorem countReturn_of_ne (s : SemSystem T S) {w' : S} (e : Err) (h : w' ≠ w) :
    s.countReturn w e w' = s.counts w' := by
  unfold countReturn
  split_ifs
  · exact update_of_ne h _ _
  · rfl

end

section

variable (h : s.Inv)

include h

omit [DecidableEq T] in
theorem Inv.returned (hk : k.Wf) {e : Err} (parked : T → Option S) (hv : k.view = s.kernel.view)
    (hx : (e = .eok ∧ (s.sem w).value = x.value + 1) ∨ (e ≠ .eok ∧ (s.sem w).value = x.value)) :
    (s.afterTake w parked (k, x, .returned e)).1.Inv := by
  obtain ⟨hparked, hwoken⟩ := h.parked.of_view hk hv
  refine h.setSem hparked w ?_ ?_ ?_
  · intro w' hw
    exact ⟨by simp [afterTake, hw], s.countReturn_of_ne e hw, by simp [afterTake, hv], hwoken w'⟩
  · intro hpos
    have hpos' : 0 < x.value := by simpa [afterTake] using hpos
    simp only [afterTake, hv]
    exact h.idle w (by rcases hx with hx | hx <;> omega)
  · have hcons := h.conserved w
    simp only [Conserved] at hcons
    simp only [Conserved, afterTake, hwoken, update_self]
    rcases hx with ⟨rfl, hval⟩ | ⟨he, hval⟩
    · simp only [countReturn, count, if_true, update_self]
      omega
    · simp only [countReturn, if_neg he]
      omega

theorem Inv.take {t : T}
    {r : Outcome} (hrun : s.Running t) (hk : k.Wf) (he : SemTakeEffect s.kernel w (s.sem w) t k x r) :
    (s.afterTake w (update s.pc t (some w)) (k, x, r)).1.Inv := by
  cases he with
  | taken hpos hv => exact h.returned hk _ hv (Or.inl ⟨rfl, by simp only; omega⟩)
  | refused hzero hv => exact h.returned hk _ hv (Or.inr ⟨by simp, rfl⟩)
  | blocked hzero hv =>
    obtain ⟨hparked, hwoken⟩ := h.parked.block (w := w) hk hrun.1 (by rw [hv]) (by rw [hv])
      (fun u => by simp [hv, mem_enqueue]) (fun w' hw => by simp [hv, hw])
    have hsame : ∀ w', s.kernel.woken s.pc w' \ {t} = s.kernel.woken s.pc w' := fun w' =>
      Set.sdiff_singleton_eq_self (Kernel.woken_none hrun.2)
    simp only [hsame] at hwoken
    refine h.setSem hparked w ?_ ?_ ?_
    · intro w' hw
      exact ⟨by simp [afterTake], rfl, by simp [afterTake, hv, hw], hwoken w'⟩
    · simp [afterTake, hzero]
    · have hcons := h.conserved w
      simpa [Conserved, afterTake, hwoken] using hcons

theorem Inv.takeReturn {t : T} (hpc : s.pc t = some w) (hr : s.kernel.view.stat t = .ready) : Inv { s with
      pc := update s.pc t none, counts := s.countReturn w (s.kernel.view.error t) } := by
  obtain ⟨hparked, hwoken⟩ := h.parked.leave hr
  refine h.setSem hparked w ?_ (h.idle w) ?_
  · intro w' hw
    refine ⟨rfl, s.countReturn_of_ne _ hw, rfl, (hwoken w').trans ?_⟩
    exact Set.sdiff_singleton_eq_self (fun ht => hw (Option.some.inj (ht.1.symm.trans hpc)))
  · have hcons := h.conserved w
    simp only [Conserved] at hcons
    simp only [Conserved, hwoken]
    by_cases he : s.kernel.view.error t = .eok
    · have hmem : t ∈ s.kernel.woken s.pc w := ⟨hpc, hr, he⟩
      have hcard := Set.ncard_sdiff_singleton_add_one hmem (h.parked.finite w)
      simp only [countReturn, he, if_true, count, update_self]
      omega
    · have hnot : t ∉ s.kernel.woken s.pc w := fun ht => he ht.2.2
      rw [Set.sdiff_singleton_eq_self hnot]
      simp only [countReturn, he, if_false]
      omega

theorem Inv.release (hk : k.Wf) (hno : s.NoOverflow (.release w)) (he : SemReleaseEffect s.kernel w (s.sem w) k x) :
    Inv { s with
      kernel := k, sem := update s.sem w x
      counts := s.count w (fun c => { c with releases := c.releases + 1 }) } := by
  have hcons := h.conserved w
  simp only [Conserved] at hcons
  cases he with
  | @granted _ t l hl hv =>
    obtain ⟨hparked, hnot, hself, hother⟩ := h.parked.resume hk hl (by rw [hv]) (by rw [hv]) (by rw [hv])
    have hzero : (s.sem w).value = 0 := by
      by_contra hpos
      simp [h.idle w (Nat.pos_of_ne_zero hpos)] at hl
    refine h.setSem hparked w ?_ ?_ ?_
    · intro w' hw
      exact ⟨by simp, by simp [count, hw], by simp [hv, hw], hother w' hw⟩
    · simp [hzero]
    · have hcard := Set.ncard_insert_of_notMem hnot (h.parked.finite w)
      simp only [Conserved, hself, count, update_self]
      omega
  | counted hl =>
    have hlt := hno hl
    refine h.setSem h.parked w ?_ (fun _ => hl) ?_
    · intro w' hw
      exact ⟨by simp [hw], by simp [count, hw], rfl, rfl⟩
    · simp only [Conserved, count, update_self]
      omega

theorem Inv.reset (w : S) (x : Semaphore) : Inv { s with
      kernel := (s.kernel.ipcListResumeAll w).schedule, sem := update s.sem w x
      counts := s.count w (fun c => { c with
        resetIn := c.resetIn + x.value, resetOut := c.resetOut + (s.sem w).value }) } := by
  obtain ⟨hparked, hwoken, hv⟩ := h.parked.resetList w
  generalize (s.kernel.ipcListResumeAll w).schedule = k at hparked hwoken hv ⊢
  refine h.setSem hparked w ?_ ?_ ?_
  · intro w' hw
    exact ⟨by simp [hw], by simp [count, hw], by simp [hv, hw], hwoken w'⟩
  · simp [hv]
  · have hcons := h.conserved w
    simp only [Conserved] at hcons
    simp only [Conserved, hwoken, count, update_self]
    omega

theorem Inv.timeout {t : T} (hk : s.kernel.timerExpire t = some k) : Inv { s with kernel := k } := by
  obtain ⟨hparked, hwoken, hv⟩ := h.parked.expire hk
  refine ⟨hparked, ?_, ?_⟩
  · intro w hpos
    simp [hv, h.idle w hpos]
  · intro w
    have hcons := h.conserved w
    simpa only [Conserved, hwoken] using hcons

end

theorem Inv.step {r : Option Err} (h : s.Inv) (hno : s.NoOverflow c) (hs : s.exec c = some (s', r)) : s'.Inv := by
  cases c with
  | take t w time =>
    simp only [exec] at hs
    split_ifs at hs with hrun
    obtain ⟨⟨k, x, o⟩, hk, he⟩ := map_eq_some_iff.mp hs
    obtain ⟨hw, heff⟩ := h.parked.wf.semTake hrun.1 hk
    have := h.take hrun hw heff
    rwa [he] at this
  | trytake w =>
    obtain ⟨⟨k, x, o⟩, hk, he⟩ := map_eq_some_iff.mp hs
    rw [semTrytake_eq] at hk
    split_ifs at hk with hpos
    · cases hk
      have := h.returned (w := w) (x := { s.sem w with value := (s.sem w).value - 1 })
        h.parked.wf s.pc rfl (Or.inl ⟨rfl, by simp only; omega⟩)
      rwa [he] at this
    · cases hk
      have := h.returned (w := w) (e := .etimeout) h.parked.wf s.pc rfl (Or.inr ⟨by simp, rfl⟩)
      rwa [he] at this
  | takeReturn t =>
    simp only [exec] at hs
    cases hpc : s.pc t with
    | none => simp [hpc] at hs
    | some w =>
      simp only [hpc] at hs
      split_ifs at hs with hr
      cases hs
      exact h.takeReturn hpc hr
  | release w =>
    obtain ⟨hw, heff⟩ := h.parked.wf.semRelease w (s.sem w)
    cases hs
    exact h.release hw hno heff
  | control w cmd =>
    cases cmd with
    | reset value =>
      cases hs
      exact h.reset w _
    | other =>
      cases hs
      simpa [semControl] using h
  | timeout t =>
    obtain ⟨k, hk, he⟩ := map_eq_some_iff.mp hs
    cases he
    exact h.timeout hk

theorem Inv.of_step (h : s.Inv) (hno : s.NoOverflow c) (hs : s.step c = some s') : s'.Inv := by
  obtain ⟨⟨_, r⟩, hexec, rfl⟩ := map_eq_some_iff.mp hs
  exact h.step hno hexec

theorem Inv.timedOut (h : s.Inv) (hs : s.exec c = some (s', some .etimeout)) :
    s'.sem = s.sem ∧ s'.counts = s.counts ∧ s'.kernel.view.waiting = s.kernel.view.waiting ∧
      ∀ w, s'.kernel.woken s'.pc w = s.kernel.woken s.pc w := by
  cases c with
  | take t w time =>
    simp only [exec] at hs
    split_ifs at hs with hrun
    obtain ⟨⟨k, x, o⟩, hk, he⟩ := map_eq_some_iff.mp hs
    obtain ⟨-, heff⟩ := h.parked.wf.semTake hrun.1 hk
    cases heff with
    | taken hpos hv => cases he
    | refused hzero hv =>
      cases he
      simp [countReturn, Kernel.woken, hv]
    | blocked hzero hv => cases he
  | trytake w =>
    obtain ⟨⟨k, x, o⟩, hk, he⟩ := map_eq_some_iff.mp hs
    rw [semTrytake_eq] at hk
    split_ifs at hk with hpos
    · cases hk
      cases he
    · cases hk
      cases he
      simp [countReturn]
  | takeReturn t =>
    simp only [exec] at hs
    cases hpc : s.pc t with
    | none => simp [hpc] at hs
    | some w =>
      simp only [hpc] at hs
      split_ifs at hs with hr
      obtain ⟨rfl, he⟩ := Prod.mk.inj (Option.some.inj hs)
      have herr : semTakeReturn s.kernel t = .etimeout := Option.some.inj he
      -- a thread that a release woke returns `RT_EOK`, so this one carries no unit
      have hnot : ∀ w', t ∉ s.kernel.woken s.pc w' := fun w' ht => by
        have := herr.symm.trans ht.2.2
        cases this
      refine ⟨rfl, by simp [countReturn, herr], rfl, fun w' => ?_⟩
      rw [(h.parked.leave hr).2, Set.sdiff_singleton_eq_self (hnot w')]
  | release w =>
    have he := (Prod.mk.inj (Option.some.inj hs)).2
    split at he <;> cases he
  | control w cmd =>
    have he := (Prod.mk.inj (Option.some.inj hs)).2
    cases cmd <;> cases he
  | timeout t =>
    obtain ⟨k, hk, he⟩ := map_eq_some_iff.mp hs
    cases he

theorem Inv.resetWakes (h : s.Inv) (w : S) {value : BitVec 32} (hvalue : value.toNat < 65536) :
    ∃ s', s.exec (.control w (.reset value)) = some (s', some .eok) ∧ (s'.sem w).value = value.toNat ∧
      s'.kernel.view.waiting w = [] ∧
      ∀ t ∈ s.kernel.view.waiting w, ∃ s'', s'.exec (.takeReturn t) = some (s'', some .error) := by
  obtain ⟨-, hv⟩ := h.parked.wf.ipcListResumeAll_view w
  refine ⟨_, rfl, ?_, ?_, ?_⟩
  · simp [Nat.mod_eq_of_lt hvalue]
  · simp [hv]
  · intro t ht
    obtain ⟨hpc, -⟩ := h.parked.inCall t w ht
    have hstat : (s.kernel.ipcListResumeAll w).view.stat t = .ready := by
      rw [hv]; simp [ht]
    have herr : semTakeReturn (s.kernel.ipcListResumeAll w).schedule t = .error := by
      change (s.kernel.ipcListResumeAll w).schedule.view.error t = .error
      rw [Kernel.schedule_view, hv]; simp [ht]
    simp [exec, hpc, hstat, herr]

end SemSystem

open SemSystem

theorem sem_conservation {s : SemSystem T S} (h : Reachable step NoOverflow Initial s) :
    (∀ w, (0 < (s.sem w).value → s.kernel.view.waiting w = []) ∧ s.Conserved w) ∧
    (∀ c s', s.exec c = some (s', some .etimeout) → s'.sem = s.sem ∧ s'.counts = s.counts ∧
      s'.kernel.view.waiting = s.kernel.view.waiting ∧
      ∀ w, s'.kernel.woken s'.pc w = s.kernel.woken s.pc w) ∧
    ∀ w (value : BitVec 32), value.toNat < 65536 →
      ∃ s', s.exec (.control w (.reset value)) = some (s', some .eok) ∧ (s'.sem w).value = value.toNat ∧
        s'.kernel.view.waiting w = [] ∧
        ∀ t ∈ s.kernel.view.waiting w, ∃ s'', s'.exec (.takeReturn t) = some (s'', some .error) := by
  have hi : s.Inv := h.invariant (fun _ hs => hs.inv) (fun _ _ _ hi hno hs => hi.of_step hno hs)
  exact ⟨fun w => ⟨hi.idle w, hi.conserved w⟩, fun _ _ hs => hi.timedOut hs,
    fun w _ hvalue => hi.resetWakes w hvalue⟩

def bootSems (calls : List (KernelCall Tid S)) (sem : S → Semaphore) : SemSystem Tid S where
  kernel := bootKernel Tid.priority calls
  sem := sem
  pc _ := none
  counts w := { initial := (sem w).value, releases := 0, returned := 0, resetIn := 0, resetOut := 0 }

theorem bootSems_initial {calls : List (KernelCall Tid S)} {sem : S → Semaphore}
    (hw : ∀ w, (bootKernel Tid.priority calls).view.waiting w = [])
    (hsem : ∀ w, ∃ value flag, sem w = semInit value flag) : (bootSems calls sem).Initial :=
  ⟨bootKernel_wf (by decide) calls, hw, fun _ => rfl, hsem, fun _ => rfl⟩

def oneUnit : SemSystem Tid Unit :=
  bootSems [.startup .mid, .startup .low, .schedulerStart] (fun _ => semInit 1 .fifo)

theorem oneUnit_initial : oneUnit.Initial :=
  bootSems_initial (by decide +kernel) (fun _ => ⟨1, .fifo, rfl⟩)

def unitPassed : List (SemCall Tid Unit) :=
  [.take .mid () 0xffffffff, .take .low () 100, .release ()]

theorem sem_conservation_unitPassed : ∃ s, run step oneUnit unitPassed = some s ∧
    (s.sem ()).value = 0 ∧ (s.counts ()).returned = 1 ∧ s.Conserved () := by
  refine exists_some_and_and (by decide +kernel) (fun s hs _ _ => ?_)
  exact ((sem_conservation (.of_run (.start oneUnit_initial) (by decide +kernel) hs)).1 ()).2

end RtThread
