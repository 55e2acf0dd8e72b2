import Mathlib.Data.Fintype.Basic
import RtThread.Lib.Transition

/-! The spin locks of `pthread_spin.c`. Each load and each store of the word is a step of its own. -/

namespace RtThread

open Transition Function Option

inductive Errno
  | ok | einval | ebusy | eperm | edeadlk | etimedout
  deriving DecidableEq

structure PthreadSpinlock where
  lock : ℤ
  deriving DecidableEq

def pthreadSpinInit : PthreadSpinlock := { lock := 0 }

inductive SpinCall
  | lock | trylock | unlock
  deriving DecidableEq

inductive SpinPc
  | idle
  | lockTest (stored : Bool)
  | lockStore
  | tryTest
  | tryStore
  | unlockTest
  | unlockStore
  deriving DecidableEq

def SpinCall.enter : SpinCall → SpinPc
  | lock => .lockTest false
  | trylock => .tryTest
  | unlock => .unlockTest

def spinAccess (x : PthreadSpinlock) : SpinPc → Option (PthreadSpinlock × SpinPc × Option Errno)
  | .idle => none
  -- the loop of `pthread_spin_lock` ends as soon as the word is set, whoever has set it
  | .lockTest _ => some (if x.lock = 0 then (x, .lockStore, none) else (x, .idle, some .ok))
  | .lockStore => some ({ lock := 1 }, .lockTest true, none)
  | .tryTest => some (if x.lock = 0 then (x, .tryStore, none) else (x, .idle, some .ebusy))
  | .tryStore => some ({ lock := 1 }, .idle, some .ok)
  | .unlockTest => some (if x.lock = 0 then (x, .idle, some .eperm) else (x, .unlockStore, none))
  | .unlockStore => some ({ lock := 0 }, .idle, some .ok)

def SpinPc.holding (held : Bool) : SpinPc → Option Errno → Bool
  | .unlockStore, _ => false
  | _, some .ok => true
  | _, _ => held

inductive SpinStep (T : Type)
  | call (t : T) (c : SpinCall)
  | access (t : T)

structure SpinSystem (T : Type) where
  spin : PthreadSpinlock
  pc : T → SpinPc
  holds : T → Bool

namespace SpinSystem

open SpinPc SpinCall

variable {T : Type}

def init : SpinSystem T where
  spin := pthreadSpinInit
  pc := fun _ => .idle
  holds := fun _ => false

def Claims (s : SpinSystem T) (t : T) : Prop :=
  s.holds t = true ∨ s.pc t = .lockStore ∨ s.pc t = .lockTest true ∨ s.pc t = .tryStore

structure Inv (s : SpinSystem T) : Prop where
  alone : ∀ t u, s.Claims t → s.Claims u → t = u
  word : ∀ t, s.holds t = true ∨ s.pc t = .lockTest true → s.spin.lock ≠ 0
  unlocking : ∀ t, s.pc t = .unlockTest ∨ s.pc t = .unlockStore → s.holds t = true

theorem inv_init : (init : SpinSystem T).Inv := by
  constructor
  · intro t u ht
    simp [Claims, init] at ht
  · intro t ht
    simp [init] at ht
  · intro t ht
    simp [init] at ht

variable [DecidableEq T]

def step (s : SpinSystem T) : SpinStep T → Option (SpinSystem T)
  | .call t c =>
    if s.pc t = .idle ∧ (c = .unlock → s.holds t = true) then
      some { s with pc := update s.pc t c.enter }
    else none
  | .access t => (spinAccess s.spin (s.pc t)).map (fun (x, p, r) =>
      { spin := x
        pc := update s.pc t p
        holds := update s.holds t ((s.pc t).holding (s.holds t) r) })

def Exclusive (s : SpinSystem T) : Prop := ∀ t u, s.holds t = true → s.holds u = true → t = u

instance (s : SpinSystem T) (t : T) : Decidable (s.Claims t) := instDecidableOr

/-- A call of `pthread_spin_lock` looks at the word only while no other thread claims the lock, and a call of
`pthread_spin_trylock` never between the load and the store of another call. -/
def Undisturbed (s : SpinSystem T) : SpinStep T → Prop
  | .call _ _ => True
  | .access t =>
    (s.pc t = .lockTest false → ∀ u, u ≠ t → ¬ s.Claims u) ∧
      (s.pc t = .tryTest → ∀ u, u ≠ t → s.pc u ≠ .lockStore ∧ s.pc u ≠ .tryStore)

instance [Fintype T] (s : SpinSystem T) : ∀ a, Decidable (s.Undisturbed a)
  | .call _ _ => isTrue trivial
  | .access _ => instDecidableAnd

variable {s s' : SpinSystem T} {t : T}

section

variable (h : s.Inv)

include h

omit [DecidableEq T] in
theorem Inv.exclusive : s.Exclusive :=
  fun t u ht hu => h.alone t u (.inl ht) (.inl hu)

theorem Inv.of_other (hpc : ∀ u, u ≠ t → s'.pc u = s.pc u) (hholds : ∀ u, u ≠ t → s'.holds u = s.holds u)
    (hclaims : s'.Claims t → s.Claims t ∨ ∀ u, u ≠ t → ¬ s.Claims u)
    (hword : ∀ u, s'.holds u = true ∨ s'.pc u = .lockTest true → s'.spin.lock ≠ 0)
    (hunlock : s'.pc t = .unlockTest ∨ s'.pc t = .unlockStore → s'.holds t = true) : s'.Inv := by
  have hother : ∀ u, u ≠ t → (s'.Claims u ↔ s.Claims u) := by
    intro u hu
    simp only [Claims, hpc u hu, hholds u hu]
  have hself : ∀ u, u ≠ t → s'.Claims t → ¬ s'.Claims u := by
    intro u hu ht hc
    rw [hother u hu] at hc
    obtain ht | hnone := hclaims ht
    · exact hu (h.alone u t hc ht)
    · exact hnone u hu hc
  constructor
  · intro u v hu hv
    obtain rfl | hut := eq_or_ne u t
    · by_contra hne
      exact hself v (Ne.symm hne) hu hv
    · obtain rfl | hvt := eq_or_ne v t
      · exact absurd hu (hself u hut hv)
      · exact h.alone u v ((hother u hut).mp hu) ((hother v hvt).mp hv)
  · exact hword
  · intro u hu
    obtain rfl | hut := eq_or_ne u t
    · exact hunlock hu
    · rw [hpc u hut] at hu
      rw [hholds u hut]
      exact h.unlocking u hu

theorem Inv.call {c : SpinCall} (hs : s.step (.call t c) = some s') : s'.Inv := by
  simp only [step] at hs
  split_ifs at hs with hc
  cases hs
  obtain ⟨hidle, hunlock⟩ := hc
  apply h.of_other
  · intro u hu
    exact update_of_ne hu _ _
  · exact fun _ _ => rfl
  · intro ht
    left
    cases c <;> simpa [Claims, enter, hidle] using ht
  · intro u hu
    apply h.word u
    obtain rfl | hut := eq_or_ne u t
    · cases c <;> simpa [enter, hidle] using hu
    · simpa [hut] using hu
  · intro hu
    cases c
    · simp [enter] at hu
    · simp [enter] at hu
    · exact hunlock rfl

theorem Inv.of_access {x : PthreadSpinlock} {p : SpinPc} {held : Bool}
    (hclaims : held = true ∨ p = .lockStore ∨ p = .lockTest true ∨ p = .tryStore →
      s.Claims t ∨ ∀ u, u ≠ t → ¬ s.Claims u) (hself : held = true ∨ p = .lockTest true → x.lock ≠ 0)
    (hothers : x.lock = 0 → s.spin.lock ≠ 0 → s.Claims t)
    (hunlock : p = .unlockTest ∨ p = .unlockStore → held = true) :
    Inv { spin := x, pc := update s.pc t p, holds := update s.holds t held } := by
  apply h.of_other
  · intro u hu
    exact update_of_ne hu _ _
  · intro u hu
    exact update_of_ne hu _ _
  · intro ht
    simp only [Claims, update_self] at ht
    exact hclaims ht
  · intro u hu
    obtain rfl | hut := eq_or_ne u t
    · simp only [update_self] at hu
      exact hself hu
    · simp only [update_of_ne hut] at hu
      intro hzero
      -- the word of another claimant is cleared by nobody but itself
      have hclaim : s.Claims u := by
        obtain hu | hu := hu
        · exact .inl hu
        · exact .inr (.inr (.inl hu))
      exact hut (h.alone u t hclaim (hothers hzero (h.word u hu)))
  · intro hp
    simp only [update_self] at hp ⊢
    exact hunlock hp

theorem Inv.access (hu : s.Undisturbed (.access t)) (hs : s.step (.access t) = some s') : s'.Inv := by
  obtain ⟨hlock, htry⟩ := hu
  obtain ⟨⟨x, p, r⟩, hacc, rfl⟩ := map_eq_some_iff.mp hs
  have hword := h.word t
  have hunlocking := h.unlocking t
  cases hpc : s.pc t with
  | idle => simp [spinAccess, hpc] at hacc
  | lockTest stored =>
    simp only [spinAccess, hpc, Option.some.injEq] at hacc
    have hfree : s.Claims t ∨ ∀ u, u ≠ t → ¬ s.Claims u := by
      cases stored with
      | false => exact .inr (hlock hpc)
      | true => exact .inl (.inr (.inr (.inl hpc)))
    by_cases hz : s.spin.lock = 0
    · rw [if_pos hz] at hacc
      cases hacc
      have hheld : s.holds t = false := by
        by_contra hne
        exact hword (.inl (by simpa using hne)) hz
      apply h.of_access
      · exact fun _ => hfree
      · simp [holding, hheld]
      · exact fun hzero hne => absurd hzero hne
      · simp
    · rw [if_neg hz] at hacc
      cases hacc
      apply h.of_access
      · exact fun _ => hfree
      · exact fun _ => hz
      · exact fun hzero hne => absurd hzero hne
      · simp
  | lockStore =>
    simp only [spinAccess, hpc, Option.some.injEq] at hacc
    cases hacc
    apply h.of_access
    · exact fun _ => .inl (.inr (.inl hpc))
    · simp
    · simp
    · simp
  | tryTest =>
    simp only [spinAccess, hpc, Option.some.injEq] at hacc
    by_cases hz : s.spin.lock = 0
    · rw [if_pos hz] at hacc
      cases hacc
      have hheld : s.holds t = false := by
        by_contra hne
        exact hword (.inl (by simpa using hne)) hz
      apply h.of_access
      · intro _
        right
        intro u hut hclaim
        -- the free word leaves only a claim between a load and a store
        obtain ⟨hns, hnt⟩ := htry hpc u hut
        obtain hc | hc | hc | hc := hclaim
        · exact h.word u (.inl hc) hz
        · exact hns hc
        · exact h.word u (.inr hc) hz
        · exact hnt hc
      · simp [holding, hheld]
      · exact fun hzero hne => absurd hzero hne
      · simp
    · rw [if_neg hz] at hacc
      cases hacc
      apply h.of_access
      · simp only [holding, reduceCtorEq, or_false]
        exact fun hheld => .inl (.inl hheld)
      · exact fun _ => hz
      · exact fun hzero hne => absurd hzero hne
      · simp
  | tryStore =>
    simp only [spinAccess, hpc, Option.some.injEq] at hacc
    cases hacc
    apply h.of_access
    · exact fun _ => .inl (.inr (.inr (.inr hpc)))
    · simp
    · simp
    · simp
  | unlockTest =>
    simp only [spinAccess, hpc, Option.some.injEq] at hacc
    have hheld := hunlocking (.inl hpc)
    have hz : s.spin.lock ≠ 0 := hword (.inl hheld)
    rw [if_neg hz] at hacc
    cases hacc
    apply h.of_access
    · exact fun _ => .inl (.inl hheld)
    · exact fun _ => hz
    · exact fun hzero hne => absurd hzero hne
    · exact fun _ => hheld
  | unlockStore =>
    simp only [spinAccess, hpc, Option.some.injEq] at hacc
    cases hacc
    have hheld := hunlocking (.inr hpc)
    apply h.of_access
    · simp [holding]
    · simp [holding]
    · exact fun _ _ => .inl hheld
    · simp

end

theorem spin_lock_exclusive {s : SpinSystem T} (h : Reachable step Undisturbed (· = init) s) : s.Exclusive := by
  have hinv : s.Inv := by
    apply h.invariant
    · rintro _ rfl
      exact inv_init
    · intro s a s' hs hu hstep
      cases a with
      | call t c => exact hs.call hstep
      | access t => exact hs.access hu hstep
  exact hinv.exclusive

theorem spin_lock_exclusive_handover : ∃ s : SpinSystem Bool, run step init
      [.call false .lock, .access false, .access false, .access false, .call true .trylock, .access true,
        .call false .unlock, .access false, .access false, .call true .trylock, .access true, .access true] = some s ∧
    s.holds true = true ∧ s.Exclusive := by
  exact exists_some_and (by decide)
    (fun s hs _ => spin_lock_exclusive (Reachable.of_run (.start (h := rfl)) (by decide) hs))

theorem spin_lock_held_twice : ∃ s : SpinSystem Bool, run step init
      [.call false .lock, .access false, .access false, .access false, .call true .lock, .access true] = some s ∧
    s.holds false = true ∧ s.holds true = true ∧ ¬ s.Exclusive := by
  exact exists_some_and_and (by decide)
    (fun s _ hfalse htrue hexcl => Bool.false_ne_true (hexcl false true hfalse htrue))

end SpinSystem

end RtThread
