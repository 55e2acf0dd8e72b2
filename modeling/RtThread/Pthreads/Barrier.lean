import RtThread.Lib.CondProgress
import RtThread.Lib.CondWaiters
import RtThread.Pthreads.Monitor

namespace RtThread

open CondMonitor Transition Function Option Finset Nat

/-- What a thread does next. A thread outside knows how many rounds it has behind it and what the last call has
returned; inside, the rounds count from one. -/
inductive BarrierLabel
  | outside (done : ℕ) (last : Option Errno)
  | enter (round : ℕ)
  | test (round : ℕ)
  | subtract (round : ℕ)
  | branch (round : ℕ)
  | wake (round : ℕ)
  | wait (round : ℕ)
  | release (round : ℕ) (e : Errno)
  deriving DecidableEq

namespace BarrierLabel

def called : BarrierLabel → ℕ
  | outside n _ => n
  | enter n | test n | subtract n | branch n | wake n | wait n | release n _ => n

def returned : BarrierLabel → ℕ
  | outside n _ => n
  | enter n | test n | subtract n | branch n | wake n | wait n | release n _ => n - 1

def Holds : BarrierLabel → Prop
  | outside _ _ | enter _ => False
  | test _ | subtract _ | branch _ | wake _ | wait _ | release _ _ => True

def ofTest (n : ℕ) (count : BitVec 32) : BarrierLabel := if count = 0 then release n .einval else subtract n

def ofBranch (n : ℕ) (count : BitVec 32) : BarrierLabel := if count = 0 then wake n else wait n

end BarrierLabel

variable {T : Type}

open BarrierLabel in
def barrierCmd (rounds : ℕ) (l : BarrierLabel) (count : BitVec 32) :
    Option (Cmd Unit BarrierLabel (BitVec 32) (BitVec 32)) :=
  match l with
  | outside n _ => if n < rounds then some (.assign count (enter (n + 1))) else none
  | enter _ => some .lock
  | test n => some (.assign count (ofTest n count))
  | subtract n => some (.assign (count - 1) (branch n))
  | branch n => some (.assign count (ofBranch n count))
  | wake _ => some (.broadcast ())
  | wait _ => some (.wait () waitingForever)
  | release _ _ => some .unlock

open BarrierLabel in
def barrierRet : BarrierLabel → Result → BarrierLabel
  | enter n, .done => test n
  | enter n, _ => outside n (some .einval)
  | wake n, _ | wait n, _ => release n .ok
  | release n e, _ => outside n (some e)
  | l, _ => l

def pthreadBarrierWait (rounds : ℕ) : Code T Unit BarrierLabel (BitVec 32) (BitVec 32) Unit where
  cmd _ l count _ := barrierCmd rounds l count
  ret := barrierRet

abbrev BarrierSystem (T : Type) := MonitorSystem T Unit BarrierLabel (BitVec 32)

def pthreadBarrierInit (k : Kernel T (Option Unit)) (count : BitVec 32) : BarrierSystem T :=
  .start k (.outside 0 none) count

abbrev barrierProgram (rounds : ℕ) : Program T Unit BarrierLabel (BitVec 32) (BitVec 32) Unit :=
  pthreadProgram (pthreadBarrierWait rounds)

variable {rounds : ℕ}

theorem barrierCmd_outside {n : ℕ} {last : Option Errno} {d : BitVec 32}
    {cmd : Cmd Unit BarrierLabel (BitVec 32) (BitVec 32)}
    (h : barrierCmd rounds (.outside n last) d = some cmd) : n < rounds ∧ cmd = .assign d (.enter (n + 1)) := by
  unfold barrierCmd at h
  dsimp only at h
  split_ifs at h with hn
  exact ⟨hn, (Option.some.inj h).symm⟩

theorem barrier_disciplined : Disciplined (barrierProgram (T := T) rounds) BarrierLabel.Holds := by
  intro t l d x cmd hcmd
  change barrierCmd rounds l d = some cmd at hcmd
  cases l
  case outside n last =>
    obtain ⟨-, rfl⟩ := barrierCmd_outside hcmd
    exact ⟨Iff.rfl, .inl rfl⟩
  all_goals cases hcmd
  case enter n => exact ⟨fun _ => trivial, id⟩
  case test n =>
    refine ⟨?_, .inl rfl⟩
    unfold BarrierLabel.ofTest
    split_ifs <;> exact Iff.rfl
  case subtract n => exact ⟨Iff.rfl, .inr trivial⟩
  case branch n =>
    refine ⟨?_, .inl rfl⟩
    unfold BarrierLabel.ofBranch
    split_ifs <;> exact Iff.rfl
  case wake n => exact Iff.rfl
  case wait n => exact ⟨fun _ => ⟨trivial, trivial⟩, fun h => absurd trivial h⟩
  case release n e => exact ⟨id, fun h => absurd trivial h⟩

theorem barrier_calling {l : BarrierLabel} (h : Calling (barrierProgram (T := T) rounds) l) :
    (∃ n, l = .enter n) ∨ ∃ n, l = .wait n := by
  obtain ⟨t, d, x, h⟩ := h
  change barrierCmd rounds l d = some .lock ∨ ∃ c time, barrierCmd rounds l d = some (.wait c time) at h
  cases l with
  | enter n => exact .inl ⟨n, rfl⟩
  | wait n => exact .inr ⟨n, rfl⟩
  | outside n last =>
    obtain h | ⟨c, time, h⟩ := h
    · exact absurd (barrierCmd_outside h).2 (by simp)
    · exact absurd (barrierCmd_outside h).2 (by simp)
  | _ => simp [barrierCmd] at h

theorem barrier_waitsAt {l : BarrierLabel} {c : Unit} (h : WaitsAt (barrierProgram (T := T) rounds) c l) :
    ∃ n, l = .wait n := by
  obtain ⟨t, d, x, time, h⟩ := h
  change barrierCmd rounds l d = some (.wait c time) at h
  cases l with
  | wait n => exact ⟨n, rfl⟩
  | outside n last => exact absurd (barrierCmd_outside h).2 (by simp)
  | _ => simp [barrierCmd] at h

namespace BarrierSystem

variable {s s' : State T Unit BarrierLabel (BitVec 32)} {t u : T}

def Subtracted : BarrierLabel → Prop
  | .outside n _ => 1 ≤ n
  | .enter n | .test n | .subtract n => 2 ≤ n
  | .branch _ | .wake _ | .wait _ | .release _ _ => True

def Sound (rounds : ℕ) (d : BitVec 32) (p : CondMonitor.Place Unit) : BarrierLabel → Prop
  | .outside n _ => n ≤ rounds ∧ (1 ≤ n → d = 0)
  | .enter n | .test n => 1 ≤ n ∧ n ≤ rounds ∧ (2 ≤ n → d = 0)
  | .subtract n => n = 1 ∧ n ≤ rounds ∧ d ≠ 0
  | .branch n => n = 1 ∧ n ≤ rounds
  | .wake n => n = 1 ∧ n ≤ rounds ∧ d = 0
  | .wait n => n = 1 ∧ n ≤ rounds ∧ (p = .run → d ≠ 0) ∧ ∀ r, p.Due r → d = 0
  | .release n _ => 1 ≤ n ∧ n ≤ rounds ∧ d = 0

def Released (s : State T Unit BarrierLabel (BitVec 32)) : Prop :=
  s.data = 0 → (∃ t n, s.label t = .branch n ∨ s.label t = .wake n) ∨ s.Served ()

structure BarrierInv [Fintype T] (rounds : ℕ) (s : State T Unit BarrierLabel (BitVec 32)) : Prop where
  sound : ∀ t, Sound rounds s.data (s.place t) (s.label t)
  counted : ∃ F : Finset T, (∀ t, t ∈ F ↔ Subtracted (s.label t)) ∧ s.data.toNat + F.card = Fintype.card T
  unit : 0 < s.value () → s.data = 0
  forever : ∀ t c p, s.place t = .dropped c p ∨ s.place t = .parked c p → p = .forever

variable {e : CondMonitor.Event T Unit}

variable {l : BarrierLabel} {d : BitVec 32} {p : CondMonitor.Place Unit} {k : Kernel T (Option Unit)}

theorem posts_wake (h : Posts (barrierProgram rounds) s e) :
    s.place e.thread = .run ∧ ∃ n, s.label e.thread = .wake n := by
  cases e with
  | expire t => exact h.elim
  | run t x =>
    obtain ⟨hrun, cmd, c, hcmd, hc⟩ := h
    refine ⟨hrun, ?_⟩
    change ∃ n, s.label t = .wake n
    change barrierCmd rounds (s.label t) s.data = some cmd at hcmd
    cases hl : s.label t with
    | wake n => exact ⟨n, rfl⟩
    | outside n last =>
      rw [hl] at hcmd
      obtain ⟨-, rfl⟩ := barrierCmd_outside hcmd
      simp at hc
    | _ =>
      rw [hl] at hcmd
      cases hcmd
      simp at hc

def weight (rounds : ℕ) : BarrierLabel → ℕ
  | .outside n _ => (rounds - n) * 7
  | .enter n => (rounds - n) * 7 + 6
  | .test n => (rounds - n) * 7 + 5
  | .subtract n => (rounds - n) * 7 + 4
  | .branch n => (rounds - n) * 7 + 3
  | .wake n | .wait n => (rounds - n) * 7 + 2
  | .release n _ => (rounds - n) * 7 + 1

theorem weight_ret {r : Result} (h : Calling (barrierProgram (T := T) rounds) l) :
    weight rounds (barrierRet l r) < weight rounds l := by
  obtain ⟨n, rfl⟩ | ⟨n, rfl⟩ := barrier_calling h
  · cases r <;> simp [barrierRet, weight]
  · simp [barrierRet, weight]

theorem weight_after {l' : BarrierLabel} {own : Prop} {cmd : Cmd Unit BarrierLabel (BitVec 32) (BitVec 32)}
    (hcmd : barrierCmd rounds l d = some cmd) (hafter : cmd.After (barrierProgram (T := T) rounds) own l l') :
    weight rounds l' < weight rounds l := by
  cases l
  case outside n last =>
    obtain ⟨hn, rfl⟩ := barrierCmd_outside hcmd
    obtain rfl : l' = _ := hafter
    simp only [weight]
    omega
  all_goals cases hcmd
  case enter n =>
    obtain ⟨-, rfl⟩ | ⟨-, rfl⟩ := hafter
    · exact Nat.lt_succ_self _
    · exact Nat.lt_add_of_pos_right (by decide)
  case wait n =>
    obtain ⟨-, rfl⟩ := hafter
    exact Nat.lt_succ_self _
  case release n e => obtain rfl | ⟨-, rfl⟩ := hafter <;> exact Nat.lt_succ_self _
  all_goals obtain rfl : l' = _ := hafter
  case test n =>
    unfold BarrierLabel.ofTest
    split_ifs <;> simp [weight]
  case branch n =>
    unfold BarrierLabel.ofBranch
    split_ifs <;> simp [weight]
  case subtract n | wake n => exact Nat.lt_succ_self _

structure Lawfully (rounds : ℕ) (s : BarrierSystem T) : Prop where
  inv : s.Inv
  lawful : Lawful (barrierProgram rounds) BarrierLabel.Holds s.monitor

theorem lawfully_init (hk : k.Calm) (count : BitVec 32) : Lawfully rounds (pthreadBarrierInit k count) := by
  refine ⟨MonitorSystem.inv_start hk _ _, (MonitorSystem.inv_start hk _ _).monitor,
    fun t => ⟨fun _ => ?_, fun r hr => hr.elim⟩,
    fun t ht => absurd rfl ht, fun t c hc => hc.elim⟩
  exact iff_of_false (by simp [MonitorSystem.monitor, pthreadBarrierInit, MonitorSystem.start, pthreadMutexInit,
    mutexInit]) id

theorem barrierInv_init [Fintype T] {count : BitVec 32}
    (hcount : count.toNat = Fintype.card T) : BarrierInv rounds (pthreadBarrierInit k count).monitor := by
  refine ⟨fun t => ⟨zero_le _, fun hn => absurd hn (by decide)⟩, ⟨∅, fun t => ?_, ?_⟩,
    fun hv => absurd hv (lt_irrefl 0), fun t c p hp => ?_⟩
  · exact iff_of_false (notMem_empty t) (show ¬ 1 ≤ 0 by decide)
  · exact hcount
  · obtain hp | hp := hp <;> cases hp

theorem released_init (hk : k.Calm) (count : BitVec 32) : Released (pthreadBarrierInit k count).monitor := by
  refine fun _ => .inr ⟨hk.lists (some ()), fun F hF => ?_⟩
  have hempty : F = ∅ := eq_empty_of_forall_notMem (fun t ht => hF t ht)
  rw [hempty]
  exact zero_le _

theorem posts_zero (hsound : Sound rounds s.data (s.place e.thread) (s.label e.thread))
    (h : Posts (barrierProgram rounds) s e) : s.data = 0 := by
  obtain ⟨-, n, hn⟩ := posts_wake h
  rw [hn] at hsound
  exact hsound.2.2

variable [DecidableEq T]

theorem data_of_step (hlaw : Lawful (barrierProgram rounds) BarrierLabel.Holds s)
    (hs : s.step (barrierProgram rounds) e = some s') (hne : s'.data ≠ s.data) :
    s.owner = some e.thread ∧ (∃ n, s.label e.thread = .subtract n) ∧ s'.data = s.data - 1 := by
  refine ⟨hlaw.data_of_step barrier_disciplined hs hne, ?_⟩
  cases moves_of_step hs with
  | stay hl hd | ret r hl hd => exact absurd hd hne
  | @assign t x d l hrun hcmd =>
    change barrierCmd rounds (s.label t) s.data = some (.assign d l) at hcmd
    change (∃ n, s.label t = .subtract n) ∧ d = s.data - 1
    cases hl : s.label t with
    | subtract n =>
      rw [hl] at hcmd
      cases hcmd
      exact ⟨⟨n, rfl⟩, rfl⟩
    | outside n last =>
      rw [hl] at hcmd
      obtain ⟨rfl, -⟩ : d = s.data ∧ _ := by simpa using (barrierCmd_outside hcmd).2
      exact absurd rfl hne
    | test n | branch n =>
      rw [hl] at hcmd
      cases hcmd
      exact absurd rfl hne
    | enter n | wake n | wait n | release n e =>
      rw [hl] at hcmd
      simp [barrierCmd] at hcmd

section

variable (hlaw : Lawful (barrierProgram rounds) BarrierLabel.Holds s) {e : CondMonitor.Event T Unit}
  (hs : s.step (barrierProgram rounds) e = some s') (hsound : ∀ t, Sound rounds s.data (s.place t) (s.label t))

include hlaw hs hsound

theorem sound_other (hu : e.thread ≠ u) : Sound rounds s'.data (s'.place u) (s'.label u) := by
  have h := hsound u
  have hpush := hlaw.inv.pushed_step hs hu
  have hdue : ∀ r, (s'.place u).Due r → (s.place u).Due r ∨ s.data = 0 := by
    intro r hr
    obtain hr | ⟨c, a, hp, hq⟩ := hpush.due_or hr
    · exact .inl hr
    · exact .inr (posts_zero (hsound _) (hlaw.inv.wake_step hs hu hp (by rw [hq]; simp)))
  have hrun : s'.place u = .run → s.place u = .run := by
    intro hp
    rw [hp] at hpush
    generalize s.place u = q at hpush
    cases hpush
    rfl
  rw [label_of_step hs hu]
  by_cases hd : s'.data = s.data
  · rw [hd]
    cases hl : s.label u with
    | wait n =>
      rw [hl] at h
      refine ⟨h.1, h.2.1, fun hp => h.2.2.1 (hrun hp), fun r hr => ?_⟩
      obtain hr | hz := hdue r hr
      · exact h.2.2.2 r hr
      · exact hz
    | _ =>
      rw [hl] at h
      exact h
  · -- another thread has the mutex and decrements the counter
    obtain ⟨howner, ⟨k, hk⟩, -⟩ := data_of_step hlaw hs hd
    have hne : s.data ≠ 0 := by
      have := hsound e.thread
      rw [hk] at this
      exact this.2.2
    have hnot : s.owner ≠ some u := fun ho => hu (Option.some.inj (howner.symm.trans ho))
    cases hl : s.label u with
    | outside n last =>
      rw [hl] at h
      exact ⟨h.1, fun hn => absurd (h.2 hn) hne⟩
    | enter n | test n =>
      rw [hl] at h
      exact ⟨h.1, h.2.1, fun hn => absurd (h.2.2 hn) hne⟩
    | subtract n =>
      refine absurd (hlaw.owner_of (by rw [hl]; trivial) (fun hc => ?_)) hnot
      obtain ⟨n, hn⟩ | ⟨n, hn⟩ := barrier_calling hc <;> cases hl.symm.trans hn
    | branch n =>
      rw [hl] at h
      exact h
    | wake n =>
      rw [hl] at h
      exact absurd h.2.2 hne
    | wait n =>
      rw [hl] at h
      refine ⟨h.1, h.2.1, fun hp => ?_, fun r hr => ?_⟩
      · exact absurd (((hlaw.owned u).run (hrun hp)).mpr (by rw [hl]; trivial)) hnot
      · obtain hr | hz := hdue r hr
        · exact absurd (h.2.2.2 r hr) hne
        · exact absurd hz hne
    | release n e =>
      rw [hl] at h
      exact absurd h.2.2 hne

end

def Follows (rounds : ℕ) (s s' : State T Unit BarrierLabel (BitVec 32)) (t : T) : Prop :=
  Sound rounds s'.data (s'.place t) (s'.label t) ∧ (Subtracted (s'.label t) ↔ Subtracted (s.label t))

section

variable (hlaw : Lawful (barrierProgram rounds) BarrierLabel.Holds s)

include hlaw

section

variable (h : Sound rounds s.data (s.place t) (s.label t))

include h

section

omit [DecidableEq T]

theorem follows_ret {r : Result} (hr : (s.place t).Due r) (hd : s'.data = s.data)
    (hl : s'.label t = barrierRet (s.label t) r) : Follows rounds s s' t := by
  have hback : (barrierRet (s.label t) r).Holds := (hlaw.owned t).back r hr.returns
  have hcall := barrier_calling (hlaw.calling t (by
    intro hp
    rw [hp] at hr
    exact hr))
  unfold Follows
  rw [hd, hl]
  obtain ⟨n, hn⟩ | ⟨n, hn⟩ := hcall
  · rw [hn] at h hback ⊢
    cases r with
    | done => exact ⟨h, Iff.rfl⟩
    | expired | refused => exact hback.elim
  · rw [hn] at h ⊢
    exact ⟨⟨h.1.ge, h.2.1, h.2.2.2 r hr⟩, Iff.rfl⟩

end

theorem follows_inside {e : CondMonitor.Event T Unit}
    (hs : s.step (barrierProgram rounds) e = some s') (he : e.thread = t) (hp : s.place t ≠ .run)
    (hunit : 0 < s.value () → s.data = 0)
    (hforever : ∀ c p, s.place t = .dropped c p ∨ s.place t = .parked c p → p = .forever) :
    Follows rounds s s' t := by
  cases step_effect hs with
  | @exec t' x cmd hrun hcmd =>
    obtain rfl : t' = t := he
    exact absurd hrun hp
  | @handed t' x r hr =>
    obtain rfl : t' = t := he
    exact follows_ret hlaw h (by rw [hr]; rfl) rfl (update_self ..)
  | @take t' x c p hd =>
    obtain rfl : t' = t := he
    obtain ⟨n, hn⟩ := barrier_waitsAt (hlaw.waiting t' c (by rw [hd]; rfl))
    obtain ⟨hlabel, hdata⟩ := s.take_label t' c p
    unfold Follows
    rw [hlabel, hdata]
    rw [hn] at h ⊢
    refine ⟨⟨h.1, h.2.1, fun hrun => ?_, fun r hr => ?_⟩, Iff.rfl⟩
    · unfold State.take at hrun
      split_ifs at hrun <;> simp at hrun
    · unfold State.take at hr
      split_ifs at hr with hv hnever
      · exact hunit hv
      · exact absurd (hnever.symm.trans (hforever c p (.inl hd))) (by simp)
      · rw [State.setList_place, State.setPlace_place, update_self] at hr
        exact hr.elim
  | @back t' x r hr =>
    obtain rfl : t' = t := he
    have hdue : (s.place t').Due r := by
      rw [hr]
      rfl
    obtain ⟨hdata, ⟨-, r', hr', hlabel⟩ | ⟨hrun, hlabel, -⟩⟩ := call_step hs rfl hp
    · exact follows_ret hlaw h hr' hdata hlabel
    · change (s.enter t' r _).label t' = s.label t' at hlabel
      unfold Follows
      rw [hlabel, hdata]
      refine ⟨?_, Iff.rfl⟩
      cases hl : s.label t' with
      | wait n =>
        rw [hl] at h
        exact ⟨h.1, h.2.1, fun he => absurd he (by rwa [hl] at hrun), fun _ _ => h.2.2.2 r hdue⟩
      | _ =>
        rw [hl] at h
        exact h
  | @expired t' c hd =>
    obtain rfl : t' = t := he
    exact absurd (hforever c .timed (.inr hd)) (by simp)

theorem follows_exec (hrun : s.place t = .run)
    {cmd : Cmd Unit BarrierLabel (BitVec 32) (BitVec 32)} (hcmd : barrierCmd rounds (s.label t) s.data = some cmd)
    (hnot : ∀ n, s.label t ≠ .subtract n)
    (hall : s.data = 0 → Subtracted (s.label t)) : Follows rounds s (s.exec (barrierProgram rounds) t cmd) t := by
  have hown := (hlaw.owned t).run hrun
  unfold Follows
  rw [State.exec_data]
  obtain ⟨hplace, hafter⟩ | ⟨hlabel, hcall⟩ := exec_self s t cmd
  · rw [hplace]
    generalize (s.exec (barrierProgram rounds) t cmd).label t = l' at hafter
    generalize s.label t = l at hcmd hnot h hall hafter hown
    cases l
    case outside n last =>
      obtain ⟨hn, rfl⟩ := barrierCmd_outside hcmd
      obtain rfl : l' = _ := hafter
      refine ⟨⟨le_add_left 1 n, hn, fun hn => h.2 (by omega)⟩, ?_⟩
      change 2 ≤ n + 1 ↔ 1 ≤ n
      omega
    all_goals obtain rfl := Option.some.inj hcmd
    case enter n =>
      obtain ⟨-, rfl⟩ | ⟨ho, -⟩ := hafter
      · exact ⟨h, Iff.rfl⟩
      · exact (hown.mp ho).elim
    case wait n => exact absurd (hown.mpr trivial) hafter.1
    case release n e =>
      obtain rfl | ⟨ho, -⟩ := hafter
      · exact ⟨⟨h.2.1, fun _ => h.2.2⟩, iff_of_true h.1 trivial⟩
      · exact absurd (hown.mpr trivial) ho
    all_goals obtain rfl : l' = _ := hafter
    case test n =>
      unfold BarrierLabel.ofTest
      split_ifs with hz
      · exact ⟨⟨h.1, h.2.1, hz⟩, iff_of_true trivial (hall hz)⟩
      · have hn : n = 1 := by
          by_contra hne
          exact hz (h.2.2 (by have := h.1; omega))
        exact ⟨⟨hn, h.2.1, hz⟩, Iff.rfl⟩
    case subtract n => exact absurd rfl (hnot n)
    case branch n =>
      unfold BarrierLabel.ofBranch
      split_ifs with hz
      · exact ⟨⟨h.1, h.2, hz⟩, Iff.rfl⟩
      · exact ⟨⟨h.1, h.2, fun _ => hz, fun r hr => hr.elim⟩, Iff.rfl⟩
    case wake n => exact ⟨⟨h.1.ge, h.2.1, h.2.2⟩, Iff.rfl⟩
  · rw [hlabel]
    refine ⟨?_, Iff.rfl⟩
    generalize s.label t = l at hcmd h
    obtain ⟨rfl, r, hr⟩ | ⟨c, time, rfl, hd⟩ := hcall
    · cases l
      case enter n => exact h
      case outside n last => exact absurd (barrierCmd_outside hcmd).2 (by simp)
      all_goals cases hcmd
    · cases l
      case wait n =>
        refine ⟨h.1, h.2.1, fun hp => absurd (hd.symm.trans hp) (by simp), fun r hr => ?_⟩
        rw [hd] at hr
        exact hr.elim
      case outside n last => exact absurd (barrierCmd_outside hcmd).2 (by simp)
      all_goals cases hcmd

end

end

def Careful (s : State T Unit BarrierLabel (BitVec 32)) : BarrierLabel → Prop
  | .wake _ => s.Reaches ()
  | _ => True

theorem forever_step (hi : CondMonitor.Inv s) (hs : s.step (barrierProgram rounds) e = some s')
    (h : ∀ t c p, s.place t = .dropped c p ∨ s.place t = .parked c p → p = .forever) (t : T) (c : Unit)
    (p : Patience)
    (hp : s'.place t = .dropped c p ∨ s'.place t = .parked c p) : p = .forever := by
  by_cases he : e.thread = t
  · cases step_effect hs with
    | @exec t' x cmd hrun hcmd =>
      obtain rfl : t' = t := he
      obtain ⟨hplace, -⟩ | ⟨-, ⟨-, r, hr⟩ | ⟨c', time, rfl, hd⟩⟩ := exec_self s t' cmd
      · rw [hplace] at hp
        simp at hp
      · rw [hr] at hp
        simp at hp
      · rw [hd] at hp
        obtain ⟨-, rfl⟩ : c' = c ∧ semPatience time = p := by simpa [barrierProgram, pthreadProgram] using hp
        have hwaits : WaitsAt (barrierProgram rounds) c' (s.label t') := ⟨t', s.data, x, time, hcmd⟩
        obtain ⟨n, hn⟩ := barrier_waitsAt hwaits
        change barrierCmd rounds (s.label t') s.data = _ at hcmd
        rw [hn] at hcmd
        obtain rfl : waitingForever = time := by simpa [barrierCmd] using hcmd
        rfl
    | @handed t' x r hr =>
      obtain rfl : t' = t := he
      simp at hp
    | @take t' x c' p' hd =>
      obtain rfl : t' = t := he
      unfold State.take at hp
      split_ifs at hp
      · simp at hp
      · simp at hp
      · obtain ⟨-, rfl⟩ : c' = c ∧ p' = p := by simpa using hp
        exact h t' c' p' (.inl hd)
    | @back t' x r hr =>
      obtain rfl : t' = t := he
      obtain hrun | hqueued := s.enter_place t' r ((barrierProgram rounds).ret (s.label t') r)
      · rw [hrun] at hp
        simp at hp
      · rw [hqueued] at hp
        simp at hp
    | @expired t' c' hd =>
      obtain rfl : t' = t := he
      simp at hp
  · have hpush := hi.pushed_step hs he
    refine h t c p ?_
    generalize s.place t = q at hpush
    obtain hp | hp := hp
    · rw [hp] at hpush
      cases hpush
      exact .inl rfl
    · rw [hp] at hpush
      cases hpush
      exact .inr rfl

section

variable [Fintype T] (h : BarrierInv rounds s) (hlaw : Lawful (barrierProgram rounds) BarrierLabel.Holds s)
  {e : CondMonitor.Event T Unit} (hs : s.step (barrierProgram rounds) e = some s')

include h

section

omit [DecidableEq T]

theorem BarrierInv.all_subtracted (hz : s.data = 0) (t : T) : Subtracted (s.label t) := by
  obtain ⟨F, hF, hcard⟩ := h.counted
  have huniv : F = univ := by
    apply eq_univ_of_card
    rw [hz] at hcard
    simpa using hcard
  exact (hF t).mp (huniv ▸ mem_univ t)

end

include hlaw hs

theorem BarrierInv.released_step (hrel : Released s) (hcare : Careful s (s.label e.thread)) (hd : s'.data = s.data) :
    Released s' := by
  intro hz
  rw [hd] at hz
  obtain ⟨v, n, hv⟩ | hserved := hrel hz
  · by_cases hev : e.thread = v
    · have hrun : s.place v = .run := hlaw.run_of (fun hc => by
        obtain ⟨k, hk⟩ | ⟨k, hk⟩ := barrier_calling hc <;> obtain hv | hv := hv <;> cases hv.symm.trans hk)
      obtain ⟨x, cmd, rfl, hcmd, rfl⟩ := exec_of_step hs hev hrun
      change Careful s (s.label v) at hcare
      obtain hv | hv := hv
      · rw [hv] at hcmd
        cases hcmd
        refine .inl ⟨v, n, .inr ((update_self ..).trans ?_)⟩
        rw [BarrierLabel.ofBranch, if_pos hz]
      · rw [hv] at hcmd hcare
        cases hcmd
        exact .inr (hlaw.inv.served_broadcast v hcare)
    · refine .inl ⟨v, n, ?_⟩
      rw [label_of_step hs hev]
      exact hv
  · refine .inr (hserved.step hlaw.inv hs ?_)
    cases e with
    | expire t => trivial
    | run t x =>
      intro hrun cmd hcmd
      change barrierCmd rounds (s.label t) s.data = some cmd at hcmd
      cases hl : s.label t with
      | wait n =>
        -- a thread that is about to wait has found the counter above zero
        have hsound := h.sound t
        rw [hl] at hsound
        exact absurd hz (hsound.2.2.1 hrun)
      | outside n last =>
        rw [hl] at hcmd
        obtain ⟨-, rfl⟩ := barrierCmd_outside hcmd
        exact ⟨id, by simp⟩
      | _ =>
        rw [hl] at hcmd
        cases hcmd
        exact ⟨id, by simp⟩

theorem BarrierInv.of_follows (hd : s'.data = s.data) (hf : Follows rounds s s' e.thread) : BarrierInv rounds s' := by
  refine ⟨fun u => ?_, ?_, fun hv => ?_, forever_step hlaw.inv hs h.forever⟩
  · by_cases hu : e.thread = u
    · exact hu ▸ hf.1
    · exact sound_other hlaw hs h.sound hu
  · obtain ⟨F, hF, hcard⟩ := h.counted
    refine ⟨F, fun u => ?_, hd ▸ hcard⟩
    by_cases hu : e.thread = u
    · rw [hF, ← hu]
      exact hf.2.symm
    · rw [label_of_step hs hu, hF]
  · rw [hd]
    by_cases hpos : 0 < s.value ()
    · exact h.unit hpos
    · exact posts_zero (h.sound _) (posts_of_value hs (c := ()) (by omega))

theorem BarrierInv.subtract_step {n : ℕ} (hl : s.label e.thread = .subtract n) :
    BarrierInv rounds s' ∧ Released s' := by
  have hsound := h.sound e.thread
  rw [hl] at hsound
  obtain ⟨hn, hrounds, hne⟩ := hsound
  have hrun : s.place e.thread = .run := hlaw.run_of (fun hc => by
    obtain ⟨k, hk⟩ | ⟨k, hk⟩ := barrier_calling hc <;> cases hl.symm.trans hk)
  obtain ⟨x, cmd, he, hcmd, heq⟩ := exec_of_step hs rfl hrun
  rw [hl] at hcmd
  cases hcmd
  have hdata : s'.data = s.data - 1 := by rw [heq]; rfl
  have hlabel : s'.label e.thread = .branch n := by rw [heq]; exact update_self ..
  have hvalue : s'.value = s.value := by rw [heq]; rfl
  refine ⟨⟨fun u => ?_, ?_, fun hv => ?_, forever_step hlaw.inv hs h.forever⟩,
    fun _ => .inl ⟨e.thread, n, .inl hlabel⟩⟩
  · by_cases hu : e.thread = u
    · rw [← hu, hlabel]
      exact ⟨hn, hrounds⟩
    · exact sound_other hlaw hs h.sound hu
  · obtain ⟨F, hF, hcard⟩ := h.counted
    have hnot : e.thread ∉ F := by
      rw [hF, hl]
      change ¬ 2 ≤ n
      omega
    refine ⟨insert e.thread F, fun u => ?_, ?_⟩
    · rw [mem_insert]
      by_cases hu : e.thread = u
      · rw [← hu, hlabel]
        exact iff_of_true (.inl rfl) trivial
      · rw [label_of_step hs hu, hF, or_iff_right (Ne.symm hu)]
    · rw [card_insert_of_notMem hnot, hdata]
      have hpos : s.data.toNat ≠ 0 := fun he => hne (BitVec.eq_of_toNat_eq he)
      have hsub : (s.data - 1).toNat = s.data.toNat - 1 := by
        rw [BitVec.toNat_sub_of_le]
        · rfl
        · exact one_le_iff_ne_zero.mpr hpos
      omega
  · rw [hvalue] at hv
    exact absurd (h.unit hv) hne

theorem BarrierInv.step : BarrierInv rounds s' ∧
    (Released s → Careful s (s.label e.thread) → Released s') := by
  by_cases hsub : ∃ n, s.label e.thread = .subtract n
  · obtain ⟨n, hn⟩ := hsub
    obtain ⟨hinv, hrel⟩ := h.subtract_step hlaw hs hn
    exact ⟨hinv, fun _ _ => hrel⟩
  have hd : s'.data = s.data := by
    by_contra hne
    exact hsub (data_of_step hlaw hs hne).2.1
  refine ⟨h.of_follows hlaw hs hd ?_, fun hrel hcare => h.released_step hlaw hs hrel hcare hd⟩
  by_cases hp : s.place e.thread = .run
  · obtain ⟨x, cmd, -, hcmd, heq⟩ := exec_of_step hs rfl hp
    rw [heq]
    exact follows_exec hlaw (h.sound _) hp hcmd (fun n hn => hsub ⟨n, hn⟩) (fun hz => h.all_subtracted hz _)
  · exact follows_inside hlaw (h.sound _) hs rfl hp h.unit (h.forever _)

end

section

variable (h : Sound rounds d p l)

include h

theorem Sound.zero_of_returned (hr : 1 ≤ l.returned) : d = 0 := by
  cases l with
  | outside n last => exact h.2 hr
  | enter n | test n => exact h.2.2 (by change 1 ≤ n - 1 at hr; omega)
  | subtract n | branch n | wake n | wait n =>
    have := h.1
    change 1 ≤ n - 1 at hr
    omega
  | release n e => exact h.2.2

theorem Sound.called_of_subtracted (hsub : Subtracted l) : 1 ≤ l.called := by
  cases l with
  | outside n last => exact hsub
  | enter n | test n | release n e => exact h.1
  | subtract n | branch n | wake n | wait n => exact h.1.ge

theorem Sound.returned_le : l.returned ≤ rounds := by
  cases l with
  | outside n last => exact h.1
  | enter n | test n | subtract n | release n e => exact (sub_le n 1).trans h.2.1
  | branch n => exact (sub_le n 1).trans h.2
  | wake n | wait n => exact (sub_le n 1).trans h.2.1

end

theorem returned_le_called (l : BarrierLabel) : l.returned ≤ l.called := by
  cases l with
  | outside n last => exact le_rfl
  | _ => exact sub_le _ 1

theorem BarrierInv.all_returned [Fintype T] (h : BarrierInv rounds s) (hrel : Released s)
    (hlaw : Lawful (barrierProgram rounds) BarrierLabel.Holds s)
    (hstuck : ∀ t, s.step (barrierProgram rounds) (.run t ()) = none) (t : T) :
    ∃ last, s.label t = .outside rounds last := by
  have hfree : ∀ u, (s.place u).Free → ∃ last, s.label u = .outside rounds last := by
    intro u hu
    by_contra hnot
    have hsome : (s.step (barrierProgram rounds) (.run u ())).isSome := by
      refine step_isSome_of_free hu (fun hrun => ?_)
      change (barrierCmd rounds (s.label u) s.data).isSome
      cases hl : s.label u with
      | outside n last =>
        have hsound := h.sound u
        rw [hl] at hsound
        have hn : n < rounds := lt_of_le_of_ne hsound.1 (fun he => hnot ⟨last, he ▸ hl⟩)
        unfold barrierCmd
        dsimp only
        rw [if_pos hn]
        rfl
      | _ => rfl
    rw [hstuck u] at hsome
    exact absurd hsome (by simp)
  have hqueued : ∀ u r, s.place u ≠ .queued r := by
    intro u r hu
    have hmem : u ∈ s.queue := (hlaw.inv.queued u).mpr ⟨r, hu⟩
    obtain ⟨o, ho⟩ := ne_none_iff_exists'.mp (fun hnone => List.not_mem_nil (hlaw.inv.free hnone ▸ hmem))
    obtain ⟨last, hlast⟩ := hfree o (hlaw.inv.owner_free ho)
    have hrun : s.place o = .run := hlaw.run_of (fun hc => by
      obtain ⟨k, hk⟩ | ⟨k, hk⟩ := barrier_calling hc <;> cases hlast.symm.trans hk)
    have hholds := ((hlaw.owned o).run hrun).mp ho
    rw [hlast] at hholds
    exact hholds
  by_cases hf : (s.place t).Free
  · exact hfree t hf
  exfalso
  obtain ⟨c, p, hp⟩ : ∃ c p, s.place t = .parked c p := by
    cases hp : s.place t with
    | queued r => exact absurd hp (hqueued t r)
    | parked c p => exact ⟨c, p, rfl⟩
    | run | handed r | dropped c p | woken r =>
      rw [hp] at hf
      exact absurd trivial hf
  obtain ⟨n, hn⟩ := barrier_waitsAt (hlaw.waiting t c (by rw [hp]; rfl))
  have hsound := h.sound t
  rw [hn] at hsound
  -- every thread has come: it has returned, or it waits, too
  have hsub : ∀ u, Subtracted (s.label u) := by
    intro u
    by_cases hu : (s.place u).Free
    · obtain ⟨last, hlast⟩ := hfree u hu
      rw [hlast]
      exact hsound.1.symm.le.trans hsound.2.1
    · cases hq : s.place u with
      | queued r => exact absurd hq (hqueued u r)
      | parked c' q =>
        obtain ⟨m, hm⟩ := barrier_waitsAt (hlaw.waiting u c' (by rw [hq]; rfl))
        rw [hm]
        trivial
      | run | handed r | dropped c' q | woken r =>
        rw [hq] at hu
        exact absurd trivial hu
  have hz : s.data = 0 := by
    obtain ⟨F, hF, hcard⟩ := h.counted
    have huniv : F = univ := eq_univ_of_forall (fun u => (hF u).mpr (hsub u))
    rw [huniv] at hcard
    exact BitVec.eq_of_toNat_eq (by simpa using hcard)
  obtain ⟨v, k, hv⟩ | hserved := hrel hz
  · have hrun : s.place v = .run := hlaw.run_of (fun hc => by
      obtain ⟨j, hj⟩ | ⟨j, hj⟩ := barrier_calling hc <;> obtain hv | hv := hv <;> cases hv.symm.trans hj)
    obtain ⟨last, hlast⟩ := hfree v (by rw [hrun]; trivial)
    obtain hv | hv := hv <;> cases hv.symm.trans hlast
  · have hmem : t ∈ s.list c := (hlaw.inv.parked t c).mpr ⟨p, hp⟩
    exact List.not_mem_nil (hserved.1 ▸ hmem)

def Ordered (s : BarrierSystem T) : Prop := ∀ t u, (s.label t).returned ≤ (s.label u).called

def CarefulStep (s : BarrierSystem T) (e : CondMonitor.Event T Unit) : Prop := Careful s.monitor (s.label e.thread)

theorem Lawfully.step {s s' : BarrierSystem T} (h : Lawfully rounds s)
    (hs : MonitorSystem.step (pthreadBarrierWait rounds) s e = some s') : Lawfully rounds s' := by
  obtain ⟨hsim, hinv⟩ := h.inv.step hs
  exact ⟨hinv, h.lawful.step barrier_disciplined hsim⟩

theorem Lawfully.weight_step [Fintype T] {s s' : BarrierSystem T} (h : Lawfully rounds s)
    (hs : MonitorSystem.step (pthreadBarrierWait rounds) s e = some s') :
    s'.monitor.weight (weight rounds) < s.monitor.weight (weight rounds) := by
  obtain ⟨hsim, -⟩ := h.inv.step hs
  exact h.lawful.inv.weight_step (fun hcmd hafter => weight_after hcmd hafter) weight_ret h.lawful.calling hsim

theorem barrier_rounds [Fintype T] {k : Kernel T (Option Unit)} (hk : k.Calm) {count : BitVec 32}
    (hcount : count.toNat = Fintype.card T) {events : List (CondMonitor.Event T Unit)} {s : BarrierSystem T}
    (hrun : run (MonitorSystem.step (pthreadBarrierWait rounds)) (pthreadBarrierInit k count) events = some s) :
    (∀ t u, 1 ≤ (s.label t).returned → 1 ≤ (s.label u).called) ∧
      (rounds ≤ 1 ∨ Fintype.card T = 1 → s.Ordered) ∧ events.length ≤ Fintype.card T * (42 * rounds + 5) ∧
      (StepsAlong (MonitorSystem.step (pthreadBarrierWait rounds)) CarefulStep (pthreadBarrierInit k count) events →
        (∀ t, MonitorSystem.step (pthreadBarrierWait rounds) s (.run t ()) = none) →
          ∀ t, ∃ last, s.label t = .outside rounds last) := by
  have hlawful : Lawfully rounds (pthreadBarrierInit k count) := lawfully_init hk count
  obtain ⟨hlaw, hinv⟩ := run_invariant (I := fun s => Lawfully rounds s ∧ BarrierInv rounds s.monitor)
    (fun s e s' hI hs => ⟨hI.1.step hs, (hI.2.step hI.1.lawful (hI.1.inv.step hs).1).1⟩)
    ⟨hlawful, barrierInv_init hcount⟩ hrun
  have hfirst : ∀ t u, 1 ≤ (s.label t).returned → 1 ≤ (s.label u).called := fun t u hpos =>
    (hinv.sound u).called_of_subtracted (hinv.all_subtracted ((hinv.sound t).zero_of_returned hpos) u)
  refine ⟨hfirst, fun hr t u => ?_, ?_, fun hcare hstuck => ?_⟩
  · by_cases hpos : 1 ≤ (s.label t).returned
    · obtain hr | hone := hr
      · exact ((hinv.sound t).returned_le.trans hr).trans (hfirst t u hpos)
      · obtain rfl : t = u := Fintype.card_le_one_iff.mp hone.le t u
        exact returned_le_called _
    · omega
  · have hle := run_length_le (fun _ _ _ hI hs => hI.step hs) (fun _ _ _ hI hs => hI.weight_step hs) hlawful hrun
    refine hle.trans (le_of_eq ?_)
    refine sum_const_nat (fun t _ => ?_)
    change 6 * (rounds * 7) + 5 = 42 * rounds + 5
    omega
  · obtain ⟨-, -, hrel⟩ := (Reachable.of_run
      (.start ⟨hlawful, barrierInv_init hcount, released_init hk count⟩) hcare
      hrun).invariant (I := fun s => Lawfully rounds s ∧ BarrierInv rounds s.monitor ∧ Released s.monitor)
      (fun _ h => h) (fun s e s' hI hc hs => by
        obtain ⟨hnext, hrel⟩ := hI.2.1.step hI.1.lawful (hI.1.inv.step hs).1
        exact ⟨hI.1.step hs, hnext, hrel hI.2.2 hc⟩)
    refine hinv.all_returned hrel hlaw.lawful (fun t => ?_)
    by_contra hne
    have hsome := hlaw.inv.step_isSome (isSome_iff_ne_none.mpr hne) (fun c hc => ?_)
    · rw [hstuck t] at hsome
      exact absurd hsome (by simp)
    · have hforever := hinv.forever t c (semPatience 0x7fffffff) (.inl (MonitorSystem.place_of_dropped hc))
      exact absurd hforever (by decide)

instance [Fintype T] (s : State T Unit BarrierLabel (BitVec 32)) : ∀ l, Decidable (Careful s l)
  | .wake _ => inferInstanceAs (Decidable (s.Reaches ()))
  | .outside _ _ | .enter _ | .test _ | .subtract _ | .branch _ | .wait _ | .release _ _ => isTrue trivial

instance [Fintype T] (s : BarrierSystem T) (e : CondMonitor.Event T Unit) : Decidable (s.CarefulStep e) :=
  inferInstanceAs (Decidable (Careful s.monitor (s.label e.thread)))

def barrierKernel : Kernel Tid (Option Unit) :=
  bootKernel Tid.priority [.startup .low, .startup .mid, .startup .high, .schedulerStart]

theorem barrierKernel_calm : barrierKernel.Calm := by
  have hwf : barrierKernel.Wf := bootKernel_wf (by decide) _
  exact ⟨hwf, by decide +kernel, by decide +kernel, by decide +kernel⟩

def barrierSteps (t : Tid) (n : ℕ) : List (CondMonitor.Event Tid Unit) := List.replicate n (.run t ())

def oneShort : List (CondMonitor.Event Tid Unit) :=
  barrierSteps .low 7 ++ barrierSteps .mid 6 ++ barrierSteps .high 7 ++ barrierSteps .low 2 ++ barrierSteps .mid 3

theorem barrier_rounds_one_short : ∃ s,
    run (MonitorSystem.step (pthreadBarrierWait 1)) (pthreadBarrierInit barrierKernel 3) oneShort = some s ∧
      Ordered s ∧ ∀ t, ∃ last, s.label t = .outside 1 last := by
  refine exists_some_imp (P := fun s => ∀ t, (MonitorSystem.step (pthreadBarrierWait 1) s (.run t ())).isNone = true)
    (by decide +kernel) (fun s hs hd => ?_)
  have hcare : StepsAlong (MonitorSystem.step (pthreadBarrierWait 1)) CarefulStep (pthreadBarrierInit barrierKernel 3)
      oneShort := by decide +kernel
  obtain ⟨-, hordered, -, hreturned⟩ := barrier_rounds barrierKernel_calm rfl hs
  exact ⟨hordered (.inl le_rfl), hreturned hcare (fun t => isNone_iff_eq_none.mp (hd t))⟩

def twoShort : List (CondMonitor.Event Tid Unit) :=
  barrierSteps .low 6 ++ barrierSteps .mid 6 ++ barrierSteps .high 7 ++ barrierSteps .low 3 ++ barrierSteps .mid 1

theorem barrier_stuck_and_passed :
    (∃ s, run (MonitorSystem.step (pthreadBarrierWait 1)) (pthreadBarrierInit barrierKernel 3) twoShort = some s ∧
      (∀ t, MonitorSystem.step (pthreadBarrierWait 1) s (.run t ()) = none) ∧ s.label .mid = .wait 1 ∧
      s.place .mid = .parked () .forever) ∧
    ∃ s, run (MonitorSystem.step (pthreadBarrierWait 2)) (pthreadBarrierInit barrierKernel 3)
        (oneShort ++ barrierSteps .high 4) = some s ∧
      s.label .high = .outside 2 (some .einval) ∧ (s.label .low).called = 1 ∧ ¬ Ordered s := by
  constructor
  · exact exists_some_imp
      (P := fun s => (∀ t, (MonitorSystem.step (pthreadBarrierWait 1) s (.run t ())).isNone = true) ∧ _)
      (by decide +kernel) (fun s _ h => ⟨fun t => isNone_iff_eq_none.mp (h.1 t), h.2⟩)
  · refine exists_some_and_and (by decide +kernel) (fun s _ hhigh hlow hord => ?_)
    have hle := hord .high .low
    rw [hhigh, hlow] at hle
    exact absurd hle (by decide)

end BarrierSystem

end RtThread
