import RtThread.Kernel.ReadyQueue
import RtThread.Ipc.View

/-!
`pthread_once` of `pthread.c` and the scheduler lock that it takes. The init routine is a stretch of the caller's
time in which it leaves the lock alone.
-/

namespace RtThread

open Transition Function List Option Kernel Nat

inductive OncePc
  | idle
  | test
  | store
  | leave
  | start
  | routine
  | exit (ran : Bool)
  deriving DecidableEq

namespace OncePc

def Locked : OncePc → Prop
  | test | store | leave | exit false => True
  | idle | start | routine | exit true => False

def Active : OncePc → Prop
  | leave | start | routine => True
  | idle | test | store | exit _ => False

end OncePc

structure OnceReturn where
  found : ℕ
  left : ℕ
  finished : Bool
  deriving DecidableEq

structure OnceSystem (T W : Type) where
  kernel : Kernel T W
  onceControl : ℤ
  pc : T → OncePc
  found : T → ℕ
  calls : ℕ
  finished : Bool
  returns : List OnceReturn

inductive OnceStep (T : Type)
  | switch (t : T)
  | enterCritical (t : T)
  | exitCritical (t : T)
  | call (t : T)
  | run (t : T)

namespace OnceSystem

variable {T W : Type}

def init (k : Kernel T W) : OnceSystem T W where
  kernel := k
  onceControl := 0
  pc := fun _ => .idle
  found := fun _ => 0
  calls := 0
  finished := false
  returns := []

variable {s s' : OnceSystem T W} {t u : T} {p : OncePc}

theorem schedule_lockNest (k : Kernel T W) : k.schedule.lockNest = k.lockNest := by
  unfold schedule
  split_ifs <;> rfl

theorem exitCritical_lockNest (k : Kernel T W) {n : ℕ} (h : k.lockNest = n + 1) (hn : n < 2 ^ 15) :
    k.exitCritical.lockNest = n := by
  have hnest : (k.lockNest + 65535) % 65536 = n := by omega
  unfold exitCritical
  simp only [reducePow, reduceSub, hnest]
  split_ifs with hz
  · rw [schedule_lockNest]
    exact (hz.resolve_right (not_le.mpr hn)).symm
  · rfl

theorem exitCritical_unlocked (k : Kernel T W) (h : k.lockNest = 0) : k.exitCritical.lockNest = 0 := by
  unfold exitCritical
  simp only [reducePow, reduceSub, h]
  exact schedule_lockNest _

theorem enterCritical_lockNest (k : Kernel T W) (h : k.lockNest < 2 ^ 15) :
    k.enterCritical.lockNest = k.lockNest + 1 := by
  unfold enterCritical
  dsimp only
  omega

def Held (s : OnceSystem T W) (t : T) : Prop :=
  s.kernel.current = some t ∧ s.kernel.lockNest = s.found t + 1 ∧ s.found t < 2 ^ 15

def Free (s : OnceSystem T W) (t : T) : Prop :=
  s.found t = 0 ∧ (s.kernel.current = some t → s.kernel.lockNest = 0)

def Fits (s : OnceSystem T W) (t : T) : OncePc → Prop
  | .idle => True
  | .test => s.Held t ∧ (s.onceControl = 0 → s.found t = 0) ∧ (s.onceControl ≠ 0 → s.finished = true)
  | .store => s.Held t ∧ s.found t = 0 ∧ s.onceControl = 0
  | .leave => s.Held t ∧ s.found t = 0 ∧ s.onceControl ≠ 0 ∧ s.finished = false ∧ s.calls = 0
  | .start => s.Free t ∧ s.onceControl ≠ 0 ∧ s.finished = false ∧ s.calls = 0
  | .routine => s.Free t ∧ s.onceControl ≠ 0 ∧ s.finished = false ∧ s.calls = 1
  | .exit true => s.Free t ∧ s.finished = true
  | .exit false => s.Held t ∧ s.finished = true

theorem Fits.held (h : s.Fits t p) (hl : p.Locked) : s.Held t := by
  cases p with
  | exit ran =>
    cases ran with
    | false => exact h.1
    | true => exact absurd hl id
  | test | store | leave => exact h.1
  | idle | start | routine => exact absurd hl id

theorem Fits.active (h : s.Fits t p) (ha : p.Active) : s.onceControl ≠ 0 ∧ s.finished = false := by
  cases p with
  | leave => exact ⟨h.2.2.1, h.2.2.2.1⟩
  | start | routine => exact ⟨h.2.1, h.2.2.1⟩
  | idle | test | store | exit ran => exact absurd ha id

structure Good (s : OnceSystem T W) : Prop where
  calls_le : s.calls ≤ 1
  called : s.returns ≠ [] → s.calls = 1
  returned : ∀ r ∈ s.returns, r.finished = true ∧ r.left = r.found

structure Inv (s : OnceSystem T W) : Prop where
  fits : ∀ t, s.Fits t (s.pc t)
  alone : ∀ t u, (s.pc t).Active → (s.pc u).Active → t = u
  fresh : s.onceControl = 0 → s.calls = 0 ∧ s.finished = false
  called : s.finished = true → s.calls = 1
  good : s.Good

theorem Inv.not_locked (h : s.Inv) (hcur : s.kernel.current = some t) (hu : u ≠ t) : ¬ (s.pc u).Locked :=
  fun hl => hu (some.inj (((h.fits u).held hl).1.symm.trans hcur))

theorem Fits.other (h : s.Fits u p) (hl : ¬ p.Locked) (hfound : s'.found u = s.found u)
    (hnest : s'.kernel.current = some u → s'.kernel.lockNest = 0)
    (honce : s.onceControl ≠ 0 → s'.onceControl ≠ 0) (hfin : s.finished = true → s'.finished = true)
    (hactive : p.Active → s'.finished = s.finished ∧ s'.calls = s.calls) : s'.Fits u p := by
  have hfree : s.Free u → s'.Free u := fun hf => ⟨hfound.trans hf.1, hnest⟩
  cases p with
  | idle => trivial
  | test | store | leave => exact absurd trivial hl
  | start | routine =>
    obtain ⟨hfinished, hcalls⟩ := hactive trivial
    exact ⟨hfree h.1, honce h.2.1, hfinished.trans h.2.2.1, hcalls.trans h.2.2.2⟩
  | exit ran =>
    cases ran with
    | false => exact absurd trivial hl
    | true => exact ⟨hfree h.1, hfin h.2⟩

theorem Inv.kernel (h : s.Inv) {k : Kernel T W} (hl : ∀ u, ¬ (s.pc u).Locked)
    (hnest : ∀ u, s.pc u ≠ .idle → k.current = some u → k.lockNest = 0) : Inv { s with kernel := k } := by
  constructor
  · intro u
    by_cases hu : s.pc u = .idle
    · rw [hu]
      trivial
    · exact (h.fits u).other (hl u) rfl (hnest u hu) id id (fun _ => ⟨rfl, rfl⟩)
  · exact h.alone
  · exact h.fresh
  · exact h.called
  · exact ⟨h.good.calls_le, h.good.called, h.good.returned⟩

theorem exitCritical_current (k : Kernel T W) (hcur : k.current = some t) (hu : u ≠ t)
    (h : k.exitCritical.current = some u) : k.exitCritical.lockNest = 0 := by
  unfold exitCritical at h ⊢
  simp only [reducePow, reduceSub] at h ⊢
  split_ifs at h ⊢ with hz
  · rw [schedule_lockNest]
  · exact absurd (some.inj (hcur.symm.trans h)) (Ne.symm hu)

variable [DecidableEq T]

def goto (s : OnceSystem T W) (t : T) (p : OncePc) : OnceSystem T W := { s with pc := update s.pc t p }

def pthreadOnce (s : OnceSystem T W) (t : T) : OncePc → Option (OnceSystem T W)
  | .idle => none
  | .test => some (s.goto t (if s.onceControl = 0 then .store else .exit false))
  | .store => some { s.goto t .leave with onceControl := 1 }
  | .leave => some { s.goto t .start with kernel := s.kernel.exitCritical }
  | .start => some { s.goto t .routine with calls := s.calls + 1 }
  | .routine => some { s.goto t (.exit true) with finished := true }
  | .exit _ => some { s.goto t .idle with
      kernel := s.kernel.exitCritical
      returns := ⟨s.found t, s.kernel.exitCritical.lockNest, s.finished⟩ :: s.returns }

def Outside (s : OnceSystem T W) (t : T) : Prop := s.kernel.current = some t ∧ s.pc t = .idle

instance (s : OnceSystem T W) (t : T) : Decidable (s.Outside t) := instDecidableAnd

def step (s : OnceSystem T W) : OnceStep T → Option (OnceSystem T W)
  | .switch t =>
    if s.kernel.lockNest = 0 ∧ (s.kernel.thread t).stat = .ready then
      some { s with kernel := s.kernel.dispatch t }
    else none
  | .enterCritical t => if s.Outside t then some { s with kernel := s.kernel.enterCritical } else none
  | .exitCritical t => if s.Outside t then some { s with kernel := s.kernel.exitCritical } else none
  | .call t =>
    if s.Outside t then
      some { s.goto t .test with
        kernel := s.kernel.enterCritical
        found := update s.found t s.kernel.lockNest }
    else none
  | .run t => if s.kernel.current = some t then s.pthreadOnce t (s.pc t) else none

/-- The first call is made with the scheduler unlocked, the others only when the routine has returned and the
nesting is not one of the negative ones. -/
def Careful (s : OnceSystem T W) : OnceStep T → Prop
  | .call _ => if s.onceControl = 0 then s.kernel.lockNest = 0 else s.kernel.lockNest < 2 ^ 15 ∧ s.finished = true
  | _ => True

instance (s : OnceSystem T W) : ∀ a, Decidable (s.Careful a)
  | .call _ => inferInstanceAs (Decidable (if s.onceControl = 0 then _ else _))
  | .switch _ | .enterCritical _ | .exitCritical _ | .run _ => isTrue trivial

omit [DecidableEq T] in
theorem inv_init (k : Kernel T W) : (init k).Inv := by
  constructor
  · exact fun _ => trivial
  · intro t u ht
    exact absurd ht (by simp [init, OncePc.Active])
  · exact fun _ => ⟨rfl, rfl⟩
  · simp [init]
  · constructor <;> simp [init]

theorem alone_update (h : ∀ t u, (s.pc t).Active → (s.pc u).Active → t = u)
    (hp : p.Active → ∀ u, u ≠ t → ¬ (s.pc u).Active) :
    ∀ u v, (update s.pc t p u).Active → (update s.pc t p v).Active → u = v := by
  intro u v hu hv
  obtain rfl | hut := eq_or_ne u t
  · rw [update_self] at hu
    by_contra hne
    rw [update_of_ne (Ne.symm hne)] at hv
    exact hp hu v (Ne.symm hne) hv
  · rw [update_of_ne hut] at hu
    obtain rfl | hvt := eq_or_ne v t
    · rw [update_self] at hv
      exact absurd hu (hp hv u hut)
    · rw [update_of_ne hvt] at hv
      exact h u v hu hv

theorem fits_update (hself : s'.Fits t p) (hother : ∀ u, u ≠ t → s'.Fits u (s.pc u)) (u : T) :
    s'.Fits u (update s.pc t p u) := by
  obtain rfl | hut := eq_or_ne u t
  · rwa [update_self]
  · rw [update_of_ne hut]
    exact hother u hut

section

variable (h : s.Inv)

include h

theorem Inv.switch (hs : s.step (.switch t) = some s') : s'.Inv := by
  simp only [step] at hs
  split_ifs at hs with hc
  cases hs
  apply h.kernel
  · intro u hl
    have hheld := (h.fits u).held hl
    have := hheld.2.1
    omega
  · exact fun _ _ _ => hc.1

omit [DecidableEq T] in
theorem Inv.outside (hout : s.Outside t) {k : Kernel T W}
    (hk : ∀ u, u ≠ t → k.current = some u → k.lockNest = 0) : Inv { s with kernel := k } := by
  apply h.kernel
  · intro u
    obtain rfl | hu := eq_or_ne u t
    · rw [hout.2]
      exact id
    · exact h.not_locked hout.1 hu
  · intro u hidle
    have hu : u ≠ t := fun he => hidle (he ▸ hout.2)
    exact hk u hu

theorem Inv.enterCritical (hs : s.step (.enterCritical t) = some s') : s'.Inv := by
  simp only [step] at hs
  split_ifs at hs with hout
  cases hs
  apply h.outside hout
  intro u hu hcur
  exact absurd (some.inj (hout.1.symm.trans hcur)) (Ne.symm hu)

theorem Inv.exitCritical (hs : s.step (.exitCritical t) = some s') : s'.Inv := by
  simp only [step] at hs
  split_ifs at hs with hout
  obtain rfl := some.inj hs
  exact h.outside hout (fun u hu => exitCritical_current _ hout.1 hu)

theorem Inv.call (hcare : s.Careful (.call t)) (hs : s.step (.call t) = some s') : s'.Inv := by
  simp only [step] at hs
  split_ifs at hs with hout
  cases hs
  have hsmall : s.kernel.lockNest < 2 ^ 15 := by
    simp only [Careful] at hcare
    split_ifs at hcare
    · rw [hcare]
      exact Nat.two_pow_pos 15
    · exact hcare.1
  constructor
  · apply fits_update
    · refine ⟨⟨hout.1, ?_, ?_⟩, ?_, ?_⟩
      · simpa using enterCritical_lockNest _ hsmall
      · simpa using hsmall
      · intro hz
        simpa [Careful, show s.onceControl = 0 from hz] using hcare
      · intro hz
        simp only [Careful, if_neg (show ¬ s.onceControl = 0 from hz)] at hcare
        exact hcare.2
    · intro u hu
      refine Fits.other (h.fits u) (h.not_locked hout.1 hu) (update_of_ne hu _ _) (fun hcur => ?_) id id
        (fun _ => ⟨rfl, rfl⟩)
      exact absurd (some.inj (hout.1.symm.trans hcur)) (Ne.symm hu)
  · exact alone_update h.alone (fun ha => absurd ha id)
  · exact h.fresh
  · exact h.called
  · exact ⟨h.good.calls_le, h.good.called, h.good.returned⟩

end

section Run

variable (h : s.Inv) (hcur : s.kernel.current = some t)

include h hcur

section

omit [DecidableEq T]

theorem Inv.fits_of_ne (hu : u ≠ t) (hfound : s'.found = s.found) (hk : s'.kernel = s.kernel)
    (honce : s.onceControl ≠ 0 → s'.onceControl ≠ 0) (hfin : s.finished = true → s'.finished = true)
    (hactive : (s.pc u).Active → s'.finished = s.finished ∧ s'.calls = s.calls) : s'.Fits u (s.pc u) := by
  apply (h.fits u).other (h.not_locked hcur hu) (congrFun hfound u) _ honce hfin hactive
  intro hcur'
  rw [hk] at hcur'
  exact absurd (some.inj (hcur.symm.trans hcur')) (Ne.symm hu)

theorem Inv.fits_exitCritical (pc : T → OncePc) (returns : List OnceReturn) (hu : u ≠ t) :
    Fits { s with kernel := s.kernel.exitCritical, pc, returns } u (s.pc u) := by
  apply (h.fits u).other (h.not_locked hcur hu)
  · rfl
  · dsimp only
    exact exitCritical_current _ hcur hu
  · exact id
  · exact id
  · exact fun _ => ⟨rfl, rfl⟩

end

theorem Inv.run_test (hpc : s.pc t = .test) : (s.goto t (if s.onceControl = 0 then .store else .exit false)).Inv := by
  have hfit := h.fits t
  rw [hpc] at hfit
  obtain ⟨hheld, hzero, hset⟩ := hfit
  constructor
  · apply fits_update
    · by_cases hz : s.onceControl = 0
      · rw [if_pos hz]
        exact ⟨hheld, hzero hz, hz⟩
      · rw [if_neg hz]
        exact ⟨hheld, hset hz⟩
    · exact fun u hu => h.fits_of_ne hcur hu rfl rfl id id (fun _ => ⟨rfl, rfl⟩)
  · apply alone_update h.alone
    intro ha
    split_ifs at ha
    · exact absurd ha id
    · exact absurd ha id
  · exact h.fresh
  · exact h.called
  · exact ⟨h.good.calls_le, h.good.called, h.good.returned⟩

theorem Inv.run_store (hpc : s.pc t = .store) : Inv { s.goto t .leave with onceControl := 1 } := by
  have hfit := h.fits t
  rw [hpc] at hfit
  obtain ⟨hheld, hfound, hz⟩ := hfit
  obtain ⟨hcalls, hfin⟩ := h.fresh hz
  have hnone : ∀ u, ¬ (s.pc u).Active := fun u ha => ((h.fits u).active ha).1 hz
  constructor
  · apply fits_update
    · exact ⟨hheld, hfound, Int.one_ne_zero, hfin, hcalls⟩
    · exact fun u hu => h.fits_of_ne hcur hu rfl rfl (fun _ => Int.one_ne_zero) id (fun _ => ⟨rfl, rfl⟩)
  · exact alone_update h.alone (fun _ u _ => hnone u)
  · exact fun hz' => absurd hz' Int.one_ne_zero
  · exact h.called
  · exact ⟨h.good.calls_le, h.good.called, h.good.returned⟩

theorem Inv.run_leave (hpc : s.pc t = .leave) : Inv { s.goto t .start with kernel := s.kernel.exitCritical } := by
  have hfit := h.fits t
  rw [hpc] at hfit
  obtain ⟨⟨-, hnest, hsmall⟩, hfound, hset, hfin, hcalls⟩ := hfit
  have hleft := exitCritical_lockNest _ hnest hsmall
  constructor
  · apply fits_update
    · exact ⟨⟨hfound, fun _ => hleft.trans hfound⟩, hset, hfin, hcalls⟩
    · exact fun u hu => h.fits_exitCritical hcur _ _ hu
  · apply alone_update h.alone
    intro _ u hu ha
    exact hu (h.alone u t ha (by rw [hpc]; trivial))
  · exact h.fresh
  · exact h.called
  · exact ⟨h.good.calls_le, h.good.called, h.good.returned⟩

theorem Inv.run_start (hpc : s.pc t = .start) : Inv { s.goto t .routine with calls := s.calls + 1 } := by
  have hfit := h.fits t
  rw [hpc] at hfit
  obtain ⟨hfree, hset, hfin, hcalls⟩ := hfit
  have hself : (s.pc t).Active := by rw [hpc]; trivial
  have hnone : ∀ u, u ≠ t → ¬ (s.pc u).Active := fun u hu ha => hu (h.alone u t ha hself)
  constructor
  · apply fits_update
    · refine ⟨hfree, hset, hfin, ?_⟩
      show s.calls + 1 = 1
      omega
    · exact fun u hu => h.fits_of_ne hcur hu rfl rfl id id (fun ha => absurd ha (hnone u hu))
  · exact alone_update h.alone (fun _ => hnone)
  · exact fun hz => absurd hz hset
  · intro hf
    exact absurd (hfin.symm.trans hf) Bool.false_ne_true
  · refine ⟨?_, ?_, h.good.returned⟩
    · show s.calls + 1 ≤ 1
      omega
    · intro hne
      have := h.good.called hne
      omega

theorem Inv.run_routine (hpc : s.pc t = .routine) : Inv { s.goto t (.exit true) with finished := true } := by
  have hfit := h.fits t
  rw [hpc] at hfit
  obtain ⟨hfree, hset, -, hcalls⟩ := hfit
  have hself : (s.pc t).Active := by rw [hpc]; trivial
  have hnone : ∀ u, u ≠ t → ¬ (s.pc u).Active := fun u hu ha => hu (h.alone u t ha hself)
  constructor
  · apply fits_update
    · exact ⟨hfree, rfl⟩
    · exact fun u hu => h.fits_of_ne hcur hu rfl rfl id (fun _ => rfl) (fun ha => absurd ha (hnone u hu))
  · exact alone_update h.alone (fun ha => absurd ha id)
  · exact fun hz => absurd hz hset
  · exact fun _ => hcalls
  · exact ⟨h.good.calls_le, h.good.called, h.good.returned⟩

omit hcur in
theorem Inv.ret {k : Kernel T W} {left : ℕ} (hfits : ∀ pc returns u, u ≠ t →
      Fits { s with kernel := k, pc, returns } u (s.pc u)) (hfin : s.finished = true) (hleft : left = s.found t) :
    Inv { s.goto t .idle with kernel := k, returns := ⟨s.found t, left, s.finished⟩ :: s.returns } := by
  constructor
  · apply fits_update
    · trivial
    · exact fun u hu => hfits _ _ u hu
  · exact alone_update h.alone (fun ha => absurd ha id)
  · exact h.fresh
  · exact h.called
  · refine ⟨h.good.calls_le, fun _ => h.called hfin, ?_⟩
    intro r hr
    obtain rfl | hr := mem_cons.mp hr
    · exact ⟨hfin, hleft⟩
    · exact h.good.returned r hr

theorem Inv.run_exit {ran : Bool} (hpc : s.pc t = .exit ran) : Inv { s.goto t .idle with
    kernel := s.kernel.exitCritical
    returns := ⟨s.found t, s.kernel.exitCritical.lockNest, s.finished⟩ :: s.returns } := by
  have hfit := h.fits t
  rw [hpc] at hfit
  obtain ⟨hfin, hleft⟩ : s.finished = true ∧ s.kernel.exitCritical.lockNest = s.found t := by
    cases ran with
    | false =>
      obtain ⟨⟨-, hnest, hsmall⟩, hfin⟩ := hfit
      exact ⟨hfin, exitCritical_lockNest _ hnest hsmall⟩
    | true =>
      -- the second `rt_exit_critical` of this call finds nothing to unlock
      obtain ⟨⟨hfound, hnest⟩, hfin⟩ := hfit
      exact ⟨hfin, (exitCritical_unlocked _ (hnest hcur)).trans hfound.symm⟩
  apply h.ret _ hfin hleft
  exact fun pc returns u hu => h.fits_exitCritical hcur pc returns hu

end Run

theorem Inv.run (h : s.Inv) (hs : s.step (.run t) = some s') : s'.Inv := by
  simp only [step] at hs
  split_ifs at hs with hcur
  cases hpc : s.pc t with
  | idle => simp [hpc, pthreadOnce] at hs
  | test =>
    rw [hpc] at hs
    cases hs
    exact h.run_test hcur hpc
  | store =>
    rw [hpc] at hs
    cases hs
    exact h.run_store hcur hpc
  | leave =>
    rw [hpc] at hs
    obtain rfl := some.inj hs
    exact h.run_leave hcur hpc
  | start =>
    rw [hpc] at hs
    cases hs
    exact h.run_start hcur hpc
  | routine =>
    rw [hpc] at hs
    cases hs
    exact h.run_routine hcur hpc
  | exit ran =>
    rw [hpc] at hs
    obtain rfl := some.inj hs
    exact h.run_exit hcur hpc

theorem once_called_once {k : Kernel T W} {s : OnceSystem T W} (h : Reachable step Careful (· = init k) s) :
    s.Good := by
  have hinv : s.Inv := by
    apply h.invariant
    · rintro _ rfl
      exact inv_init k
    · intro s a s' hs hcare hstep
      cases a with
      | switch t => exact hs.switch hstep
      | enterCritical t => exact hs.enterCritical hstep
      | exitCritical t => exact hs.exitCritical hstep
      | call t => exact hs.call hcare hstep
      | run t => exact hs.run hstep
  exact hinv.good

def onceKernel : Kernel Tid Unit := bootKernel Tid.priority [.startup .low, .startup .high, .schedulerStart]

theorem once_called_once_twice : ∃ s, run step (init onceKernel)
      [.call .high, .run .high, .run .high, .run .high, .run .high, .run .high, .run .high, .switch .low,
        .enterCritical .low, .call .low, .run .low, .run .low] = some s ∧
    s.returns = [⟨1, 1, true⟩, ⟨0, 0, true⟩] ∧ s.Good := by
  refine exists_some_and (by decide +kernel) (fun s hs _ => ?_)
  exact once_called_once (.of_run (.start rfl) (by decide +kernel) hs)

theorem once_returns_early :
    (∃ s, run step (init onceKernel) [.switch .low, .call .low, .run .low, .run .low, .run .low,
        .call .high, .run .high, .run .high] = some s ∧
      s.returns = [⟨0, 0, false⟩] ∧ s.calls = 0 ∧ ¬ s.Good) ∧
    ∃ s, run step (init onceKernel) [.enterCritical .high, .call .high, .run .high, .run .high, .run .high,
        .run .high, .run .high, .run .high] = some s ∧
      s.returns = [⟨1, 0, true⟩] ∧ ¬ s.Good := by
  constructor
  · refine exists_some_and_and (by decide +kernel) (fun s _ hreturns hcalls hgood => ?_)
    have := hgood.called (by rw [hreturns]; exact cons_ne_nil _ _)
    omega
  · refine exists_some_and (by decide +kernel) (fun s _ hreturns hgood => ?_)
    have hleft := (hgood.returned ⟨1, 0, true⟩ (by rw [hreturns]; exact mem_singleton_self _)).2
    exact absurd hleft (by decide)

end OnceSystem

end RtThread
