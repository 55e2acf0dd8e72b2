import RtThread.Kernel.ReadyQueue
import RtThread.Ipc.MutexSystem

namespace RtThread

open Transition Function Mutex Option

variable {T M : Type} [DecidableEq T] [DecidableEq M]

theorem bump_apply (f : T → M → ℕ) (t u : T) (m n : M) :
    bump f t m u n = f u n + if u = t ∧ n = m then 1 else 0 := by
  obtain rfl | hu := eq_or_ne u t
  · by_cases hn : n = m
    · subst hn; simp [bump]
    · simp [bump, hn]
  · simp [bump, hu]

variable {s : MutexSystem T M} {x : Mutex T}

theorem MutexSystem.recordTaken_same {m : M} (h : x.owner = (s.mutex m).owner) : s.recordTaken m x = s.taken := by
  unfold recordTaken
  cases hx : x.owner with
  | none => rfl
  | some o => rw [hx] at h; simp [← h]

theorem MutexSystem.recordTaken_handed {m : M} {u : T}
    (h : x.owner = some u) (hne : (s.mutex m).owner ≠ some u) : s.recordTaken m x = bump s.taken u m := by
  simp [recordTaken, h, hne]

theorem MutexSystem.recordTaken_of_ne {m m' : M} (x : Mutex T) (u : T) (h : m' ≠ m) :
    s.recordTaken m x u m' = s.taken u m' := by
  unfold recordTaken
  cases x.owner with
  | none => rfl
  | some o =>
    by_cases ho : (s.mutex m).owner = some o
    · simp [ho]
    · simp [ho, bump_apply, h]

def Mutex.depth (x : Mutex T) (t : T) : ℕ := if x.owner = some t then x.hold else 0

theorem Mutex.depth_owner {t : T} (h : x.owner = some t) : x.depth t = x.hold := if_pos h

theorem Mutex.depth_of_ne {t u : T} (h : x.owner = some t) (hu : u ≠ t) : x.depth u = 0 :=
  if_neg (fun he => hu (some.inj (he.symm.trans h)))

theorem Mutex.depth_hold (x : Mutex T) (n : ℕ) (t : T) :
    ({ x with hold := n } : Mutex T).depth t = if x.owner = some t then n else 0 := rfl

theorem Mutex.depth_free (h : x.owner = none) (t : T) : x.depth t = 0 := by
  simp [depth, h]

namespace MutexSystem

structure Balanced (s : MutexSystem T M) : Prop where
  balance : ∀ t m, s.taken t m = s.released t m + (s.mutex m).depth t
  hold_pos : ∀ t m, (s.mutex m).owner = some t → 0 < (s.mutex m).hold
  hold_lt : ∀ m, (s.mutex m).hold < 256

variable {s s' : MutexSystem T M}

section

omit [DecidableEq M]

theorem Initial.balanced (h : s.Initial) : s.Balanced := by
  have hm : ∀ m, (s.mutex m).owner = none ∧ (s.mutex m).hold = 0 := by
    intro m
    obtain ⟨flag, hf⟩ := h.mutex m
    simp [hf, mutexInit]
  refine ⟨?_, ?_, ?_⟩
  · intro t m; simp [depth, h.counts, hm]
  · intro t m ht; simp [hm] at ht
  · intro m; simp [hm]

structure Protocol (s : MutexSystem T M) (m : M) : Prop where
  value_le : (s.mutex m).value = 0 ∨ (s.mutex m).value = 1
  value_iff : (s.mutex m).value = 1 ↔ (s.mutex m).owner = none
  hold_iff : (s.mutex m).owner = none ↔ (s.mutex m).hold = 0
  waiting_owned : s.kernel.view.waiting m ≠ [] → (s.mutex m).owner ≠ none
  owner_not_waiting : ∀ t, (s.mutex m).owner = some t → t ∉ s.kernel.view.waiting m
  hold_eq : ∀ t, (s.mutex m).owner = some t → s.taken t m = s.released t m + (s.mutex m).hold
  balanced : ∀ t, (s.mutex m).owner ≠ some t → s.taken t m = s.released t m

theorem Inv.protocol (hi : s.Inv) (hb : s.Balanced) (m : M) : s.Protocol m := by
  have hhold : ∀ t, (s.mutex m).owner = some t → s.taken t m = s.released t m + (s.mutex m).hold := by
    intro t ht
    rw [hb.balance t m, depth_owner ht]
  have hbal : ∀ t, (s.mutex m).owner ≠ some t → s.taken t m = s.released t m := by
    intro t ht
    simpa [depth, ht] using hb.balance t m
  rcases hi.shape m with ⟨h1, h2, h3, h4⟩ | ⟨h1, o, h2, h3⟩
  · exact ⟨Or.inr h1, by simp [h1, h2], by simp [h2, h3], by simp [h4], by simp [h2], hhold, hbal⟩
  · have hpos := hb.hold_pos o m h2
    refine ⟨Or.inl h1, by simp [h1, h2], ?_, by simp [h2], fun t ht => (hi.held ht).2, hhold, hbal⟩
    simp only [h2, reduceCtorEq, false_iff]
    omega

end

section

variable (h : s.Balanced)

include h

theorem Balanced.setMutex (m : M) (hother : ∀ m', m' ≠ m → s'.mutex m' = s.mutex m' ∧
      ∀ t, s'.taken t m' = s.taken t m' ∧ s'.released t m' = s.released t m')
    (hbal : ∀ t, s'.taken t m = s'.released t m + (s'.mutex m).depth t)
    (hpos : ∀ t, (s'.mutex m).owner = some t → 0 < (s'.mutex m).hold)
    (hlt : (s'.mutex m).hold < 256) : s'.Balanced := by
  refine ⟨?_, ?_, ?_⟩
  · intro t m'
    by_cases hm : m' = m
    · subst hm; exact hbal t
    · obtain ⟨hx, hc⟩ := hother m' hm
      rw [hx, (hc t).1, (hc t).2]
      exact h.balance t m'
  · intro t m' ht
    by_cases hm : m' = m
    · subst hm; exact hpos t ht
    · rw [(hother m' hm).1] at ht ⊢
      exact h.hold_pos t m' ht
  · intro m'
    by_cases hm : m' = m
    · subst hm; exact hlt
    · rw [(hother m' hm).1]
      exact h.hold_lt m'

variable {t : T} {m : M}

section

omit [DecidableEq M]

theorem Balanced.hold_lt_of_bounded {time : BitVec 32}
    (hb : s.NestingBounded (.take t m time)) (ho : (s.mutex m).owner = some t) : (s.mutex m).hold < 255 := by
  have hbal := h.balance t m
  rw [depth_owner ho] at hbal
  simp only [NestingBounded] at hb
  omega

theorem Balanced.hold_one (hh : ((s.mutex m).hold + 255) % 256 = 0) : (s.mutex m).hold = 1 := by
  have hlt := h.hold_lt m
  omega

end

variable {v : View T M} {x : Mutex T}

theorem Balanced.take (hi : s.Inv) {time : BitVec 32} {e : Err} (hb : s.NestingBounded (.take t m time))
    (he : TakeEffect s.kernel.view m (s.mutex m) t time v x (.returned e)) (hmutex : s'.mutex = update s.mutex m x)
    (htaken : s'.taken = if e = .eok then bump s.taken t m else s.taken)
    (hreleased : s'.released = s.released) : s'.Balanced := by
  refine h.setMutex m ?_ ?_ ?_ ?_
  · intro m' hm
    refine ⟨by simp [hmutex, hm], fun u => ⟨?_, by rw [hreleased]⟩⟩
    rw [htaken]
    split_ifs <;> simp [bump_apply, hm]
  all_goals simp only [hmutex, hreleased, htaken, update_self]
  · intro u
    have hbal := h.balance u m
    cases he with
    | nested ho =>
      have hdeep := h.hold_lt_of_bounded hb ho
      rw [if_pos rfl, bump_apply]
      obtain rfl | hu := eq_or_ne u t
      · rw [depth_owner ho] at hbal
        rw [depth_hold, if_pos ho]
        simp only [and_self, if_true]
        omega
      · rw [depth_of_ne ho hu] at hbal
        rw [depth_hold, ho, if_neg (fun he => hu (some.inj he).symm)]
        simpa [hu] using hbal
    | acquired ho hval =>
      obtain ⟨_, hown, hhold, _⟩ := hi.free hval
      rw [depth_free hown] at hbal
      rw [if_pos rfl, bump_apply]
      obtain rfl | hu := eq_or_ne u t
      · rw [depth_owner rfl]
        simpa [hhold] using hbal
      · rw [depth_of_ne rfl hu]
        simpa [hu] using hbal
    | refused ho hval hz => simpa using hbal
  · intro u hu
    cases he with
    | nested ho =>
      have hdeep := h.hold_lt_of_bounded hb ho
      simp only
      omega
    | acquired ho hval => simp [(hi.free hval).2.2.1]
    | refused ho hval hz => exact h.hold_pos u m hu
  · cases he with
    | nested ho | acquired ho hval => exact Nat.mod_lt _ (by omega)
    | refused ho hval hz => exact h.hold_lt m

theorem Balanced.release_balance {e : Err} (hr : t ∉ s.kernel.view.waiting m)
    (he : ReleaseEffect s.kernel.view m (s.mutex m) t v x e) (u : T) :
    s.recordTaken m x u m = (if e = .eok then bump s.released t m else s.released) u m + x.depth u := by
  have hbal := h.balance u m
  cases he with
  | refused ho => simpa [recordTaken_same] using hbal
  | kept ho hh =>
    have htaken : s.recordTaken m { s.mutex m with hold := ((s.mutex m).hold + 255) % 256 } = s.taken :=
      recordTaken_same rfl
    rw [htaken, if_pos rfl, bump_apply]
    obtain rfl | hu := eq_or_ne u t
    · have hpos := h.hold_pos u m ho
      have hlt := h.hold_lt m
      rw [depth_owner ho] at hbal
      rw [depth_hold, if_pos ho]
      simp only [and_self, if_true]
      omega
    · rw [depth_of_ne ho hu] at hbal
      rw [depth_hold, ho, if_neg (fun he => hu (some.inj he).symm)]
      simpa [hu] using hbal
  | @handed w l p ho hh hl hp =>
    have hone := h.hold_one hh
    have hwt : w ≠ t := fun he => hr (by simp [hl, he])
    -- two counts move: a release for the caller and a take for the waiter
    rw [recordTaken_handed rfl (by rw [ho]; exact fun he => hwt (some.inj he).symm), if_pos rfl,
      bump_apply, bump_apply]
    obtain rfl | hu := eq_or_ne u t
    · rw [depth_owner ho, hone] at hbal
      rw [depth_of_ne rfl hwt.symm]
      simpa [hwt.symm] using hbal
    · rw [depth_of_ne ho hu] at hbal
      obtain rfl | huw := eq_or_ne u w
      · rw [depth_owner rfl]
        simpa [hu] using hbal
      · rw [depth_of_ne rfl huw]
        simpa [hu, huw] using hbal
  | freed ho hh hl hp =>
    have hone := h.hold_one hh
    rw [if_pos rfl, bump_apply, depth_free rfl]
    obtain rfl | hu := eq_or_ne u t
    · rw [depth_owner ho, hone] at hbal
      simpa [recordTaken] using hbal
    · rw [depth_of_ne ho hu] at hbal
      simpa [recordTaken, hu] using hbal

theorem Balanced.release {k : Kernel T M} {e : Err} (hr : t ∉ s.kernel.view.waiting m)
    (he : ReleaseEffect s.kernel.view m (s.mutex m) t v x e) : (s.afterRelease t m (k, x, e)).1.Balanced := by
  refine h.setMutex m ?_ ?_ ?_ ?_
  · intro m' hm
    refine ⟨by simp [afterRelease, hm], fun u => ⟨recordTaken_of_ne x u hm, ?_⟩⟩
    simp only [afterRelease]
    split_ifs <;> simp [bump_apply, hm]
  all_goals simp only [afterRelease, update_self]
  · exact h.release_balance hr he
  · intro u hu
    cases he with
    | refused ho => exact h.hold_pos u m hu
    | kept ho hh => exact Nat.pos_of_ne_zero hh
    | handed ho hh hl hp => exact Nat.one_pos
    | freed ho hh hl hp => cases hu
  · cases he with
    | refused ho => exact h.hold_lt m
    | kept ho hh => exact Nat.mod_lt _ (by omega)
    | handed ho hh hl hp | freed ho hh hl hp => simp

end

theorem Balanced.step {c : MutexCall T M} {r : Option Err} (h : s.Balanced)
    (hi : s.Inv) (hb : s.NestingBounded c) (hs : s.exec c = some (s', r)) : s'.Balanced := by
  obtain ⟨-, heff⟩ := hi.effect hs
  cases heff with
  | take hrun hv he => exact h.take hi hb he rfl rfl rfl
  | block hrun hv he =>
    cases he with
    | blocked ho hne hval hz hp =>
      refine ⟨?_, ?_, ?_⟩ <;> simp only [afterTake, update_eq_self]
      exacts [h.balance, h.hold_pos, h.hold_lt]
  | takeReturn hr hpc => exact ⟨h.balance, h.hold_pos, h.hold_lt⟩
  | release hrun hv he => exact h.release (hi.parked.wf.not_waiting hrun.1 _) he
  | timeout hst hv => exact ⟨h.balance, h.hold_pos, h.hold_lt⟩

theorem Reachable.inv_balanced (h : Reachable step NestingBounded Initial s) : s.Inv ∧ s.Balanced := by
  refine h.invariant (I := fun s => s.Inv ∧ s.Balanced) (fun s hs => ⟨hs.inv, hs.balanced⟩) ?_
  rintro s c s' ⟨hi, hd⟩ hb hs
  obtain ⟨⟨_, r⟩, hexec, rfl⟩ := map_eq_some_iff.mp hs
  exact ⟨hi.step hexec, hd.step hi hb hexec⟩

end MutexSystem

open MutexSystem

theorem mutex_protocol {s : MutexSystem T M} (h : Reachable step NestingBounded Initial s) :
    (∀ m, s.Protocol m) ∧
    (∀ t m time s', s.exec (.take t m time) = some (s', some .eok) → (s'.mutex m).owner = some t) ∧
    (∀ t m s', s.pc t = some m → s.exec (.takeReturn t) = some (s', some .eok) →
      (s'.mutex m).owner = some t) ∧
    ∀ t m s' r, (s.mutex m).owner ≠ some t → s.exec (.release t m) = some (s', r) →
      r = some .error ∧ s'.mutex m = s.mutex m ∧ s'.kernel.view.waiting m = s.kernel.view.waiting m := by
  obtain ⟨hi, hb⟩ := Reachable.inv_balanced h
  refine ⟨hi.protocol hb, ?_, ?_, ?_⟩
  · intro t m time s' hs
    obtain ⟨-, heff⟩ := hi.effect hs
    cases heff with
    | take hrun hv he => cases he <;> simp_all [afterTake]
  · intro t m s' hpc hs
    obtain ⟨-, heff⟩ := hi.effect hs
    generalize hr : some Err.eok = r at heff
    cases heff with
    | takeReturn hready hpc' => exact hi.granted t m ⟨hpc, hready, (some.inj hr).symm⟩
  · intro t m s' r ho hs
    obtain ⟨-, heff⟩ := hi.effect hs
    cases heff with
    | release hrun hv he =>
      cases he with
      | refused _ => simp [afterRelease, hv]
      | kept ho' | handed ho' | freed ho' => exact absurd ho' ho

def bootMutexes (calls : List (KernelCall Tid M)) (flag : M → IpcFlag) : MutexSystem Tid M where
  kernel := bootKernel Tid.priority calls
  mutex m := mutexInit (flag m)
  pc _ := none
  taken _ _ := 0
  released _ _ := 0
  clean _ := false

theorem bootMutexes_initial {calls : List (KernelCall Tid M)}
    (hw : ∀ m, (bootKernel Tid.priority calls).view.waiting m = [])
    (hp : ∀ t, (bootKernel Tid.priority calls).view.priority t =
      (bootKernel Tid.priority calls).view.initPriority t) (flag : M → IpcFlag) : (bootMutexes calls flag).Initial :=
  ⟨bootKernel_wf (by decide) calls, fun m => ⟨flag m, rfl⟩, hw, fun _ => rfl, fun _ _ => ⟨rfl, rfl⟩, hp⟩

def sharedMutex : MutexSystem Tid Unit :=
  bootMutexes [.startup .low, .startup .high, .schedulerStart, .sleep 10] (fun _ => .prio)

theorem sharedMutex_initial : sharedMutex.Initial :=
  bootMutexes_initial (by decide +kernel) (by decide +kernel) _

def contention : List (MutexCall Tid Unit) :=
  [.take .low () 0xffffffff, .take .low () 0, .timeout .high, .take .high () 0xffffffff]

theorem mutex_protocol_contention : ∃ s, run step sharedMutex contention = some s ∧
    s.kernel.view.waiting () = [.high] ∧ ∀ m, s.Protocol m := by
  refine exists_some_and (by decide +kernel) (fun s hs _ => ?_)
  exact (mutex_protocol (.of_run (.start sharedMutex_initial) (by decide +kernel) hs)).1

end RtThread
