import RtThread.Kernel.ReadyQueue
import RtThread.Ipc.TimedWait
import RtThread.Mem.Mempool

namespace RtThread

open Transition Function List Option BitVec Kernel

variable {T : Type} [DecidableEq T]

def Kernel.suspendFront {W : Type} [DecidableEq W] (k : Kernel T W) (w : W) (t : T) (time : BitVec 32) :
    Option (Kernel T W) :=
  let k := (k.threadSuspend t).1.listInsertAfter (.wait w) t
  if (0 : BitVec 32).slt time then ((k.timerControlSetTime t time).timerStart t).map schedule
  else some k.schedule

structure MpSystem (T : Type) where
  kernel : Kernel T Unit
  pool : PoolState
  suspendThreadCount : BitVec 32
  pc : T → Option (BitVec 32 × BitVec 32)

inductive MpEvent (T : Type)
  | alloc (t : T) (time : BitVec 32)
  | resume (t : T)
  | free (block : ℕ)
  | timeout (t : T)
  | tick
  | write (a : ℕ) (b : BitVec 8)
  deriving DecidableEq

namespace MpSystem

def start (k : Kernel T Unit) (pool : PoolState) : MpSystem T where
  kernel := k
  pool
  suspendThreadCount := 0
  pc _ := none

def waiting (s : MpSystem T) : List T := s.kernel.view.waiting ()

def leave (s : MpSystem T) (t : T) : MpSystem T := { s with pc := update s.pc t none }

def allocLoop (s : MpSystem T) (t : T) (time beforeSleep : BitVec 32) : Option (MpSystem T) :=
  if s.pool.mp.blockFreeCount = 0 then
    if time = 0 then some { s.leave t with kernel := s.kernel.setError t .etimeout }
    else
      let beforeSleep := if (0 : BitVec 32).slt time then s.kernel.tick else beforeSleep
      ((s.kernel.setError t .eok).suspendFront () t time).map (fun k =>
        { s with
          kernel := k
          suspendThreadCount := s.suspendThreadCount + 1
          pc := update s.pc t (some (time, beforeSleep)) })
  else s.pool.takeBlock.map (fun (pool, _) => { s.leave t with pool })

def allocResume (s : MpSystem T) (t : T) (time beforeSleep : BitVec 32) : Option (MpSystem T) :=
  if (s.kernel.thread t).error ≠ .eok then some (s.leave t)
  else s.allocLoop t (s.kernel.timeLeft time beforeSleep) beforeSleep

def mpFree (s : MpSystem T) (block : ℕ) : Option (MpSystem T) :=
  (s.pool.giveBlock block).bind (fun pool =>
    if (0 : BitVec 32).ult s.suspendThreadCount then
      match s.kernel.lists (.wait ()) with
      | [] => none
      | t :: _ => some { s with
          kernel := ((s.kernel.setError t .eok).threadResume t).1.schedule
          pool
          suspendThreadCount := s.suspendThreadCount - 1 }
    else some { s with pool })

def step (s : MpSystem T) : MpEvent T → Option (MpSystem T)
  | .alloc t time =>
    if s.kernel.view.stat t = .ready ∧ s.pc t = none then
      allocLoop { s with kernel := s.kernel.dispatch t } t time 0
    else none
  | .resume t =>
    match s.pc t with
    | none => none
    | some (time, beforeSleep) =>
      if s.kernel.view.stat t = .ready then
        allocResume { s with kernel := s.kernel.dispatch t } t time beforeSleep
      else none
  | .free block => if block ∈ s.pool.live then s.mpFree block else none
  | .timeout t => (s.kernel.timerExpire t).map (fun k => { s with kernel := k })
  | .tick => some { s with kernel := { s.kernel with tick := s.kernel.tick + 1 } }
  | .write a b => if s.pool.MayWrite a then some { s with pool := s.pool.write a b } else none

end MpSystem

namespace Kernel

variable {W : Type} [DecidableEq W] {k k' : Kernel T W} {w : W} {t : T}

theorem Wf.listInsertAfter_suspend (hk : k.Wf) (hr : (k.thread t).stat = .ready) (w : W) :
    ((k.threadSuspend t).1.listInsertAfter (.wait w) t).Wf := by
  have ht := hk.placed t
  apply (hk.apart_suspend hr).insert (List.Perm.refl _) <;> rw [threadSuspend_thread hr] <;> simp only [update_self]
  · exact Or.inl ⟨w, rfl, trivial⟩
  · exact ht.current_lt
  · exact ht.init_lt
  · exact ht.mask_subset
  · exact fun _ => ht.mask_eq (Or.inl hr)

theorem Wf.suspendFront (hk : k.Wf) {time : BitVec 32} (hr : k.view.stat t = .ready)
    (h : k.suspendFront w t time = some k') : k'.Wf ∧ k'.view.waiting w = t :: k.view.waiting w := by
  have hw := hk.listInsertAfter_suspend hr w
  have hnot : t ∉ k.lists (.wait w) := hk.not_waiting hr w
  have hlist : ((k.threadSuspend t).1.listInsertAfter (.wait w) t).lists (.wait w) = t :: k.lists (.wait w) := by
    rw [listInsertAfter]
    dsimp only
    rw [update_self, threadSuspend_lists hr, erase_of_not_mem hnot]
  unfold Kernel.suspendFront at h
  split_ifs at h
  · obtain ⟨j, hj, rfl⟩ := map_eq_some_iff.mp h
    obtain ⟨tm, rfl⟩ := timerStart_eq_some hj
    refine ⟨((hw.setThread t rfl rfl rfl rfl).setThread t rfl rfl rfl rfl).schedule, ?_⟩
    rw [schedule_view]
    exact hlist
  · cases h
    refine ⟨hw.schedule, ?_⟩
    rw [schedule_view]
    exact hlist

end Kernel

namespace MpSystem

open PoolState

variable {s s' : MpSystem T} {t : T} {n : ℕ}

inductive AllocTurn (s : MpSystem T) (t : T) (time : BitVec 32) : MpSystem T → Prop
  | refused (hfree : s.pool.mp.blockFreeCount = 0) (hz : time = 0) :
      AllocTurn s t time { s.leave t with kernel := s.kernel.setError t .etimeout }
  | parked {k : Kernel T Unit} (p : BitVec 32 × BitVec 32) (hfree : s.pool.mp.blockFreeCount = 0) (hz : time ≠ 0)
      (hk : (s.kernel.setError t .eok).suspendFront () t time = some k) :
      AllocTurn s t time { s with
        kernel := k
        suspendThreadCount := s.suspendThreadCount + 1
        pc := update s.pc t (some p) }
  | taken {pool : PoolState} {p : ℕ} (hfree : s.pool.mp.blockFreeCount ≠ 0)
      (hp : s.pool.takeBlock = some (pool, p)) :
      AllocTurn s t time { s.leave t with pool }

variable {time : BitVec 32} {e : MpEvent T}

theorem allocLoop_turn {beforeSleep : BitVec 32} (h : s.allocLoop t time beforeSleep = some s') :
    AllocTurn s t time s' := by
  unfold allocLoop at h
  by_cases hfree : s.pool.mp.blockFreeCount = 0
  · rw [if_pos hfree] at h
    by_cases hz : time = 0
    · rw [if_pos hz] at h
      cases h
      exact .refused hfree hz
    · rw [if_neg hz] at h
      obtain ⟨k, hk, rfl⟩ := map_eq_some_iff.mp h
      exact .parked _ hfree hz hk
  · rw [if_neg hfree] at h
    obtain ⟨⟨pool, p⟩, hp, rfl⟩ := map_eq_some_iff.mp h
    exact .taken hfree hp

def turnTime (s : MpSystem T) : MpEvent T → Option (T × BitVec 32)
  | .alloc t time => some (t, time)
  | .resume t => (s.pc t).map (fun p => (t, s.kernel.timeLeft p.1 p.2))
  | _ => none

inductive StepEffect (s : MpSystem T) : MpEvent T → MpSystem T → Prop
  | turn {e : MpEvent T} {t : T} {time : BitVec 32} {s' : MpSystem T} (ht : s.turnTime e = some (t, time))
      (hr : s.kernel.view.stat t = .ready) (hgo : ∀ u, e = .resume u → (s.kernel.thread u).error = .eok)
      (h : AllocTurn { s with kernel := s.kernel.dispatch t } t time s') : StepEffect s e s'
  | failed {t : T} (he : (s.kernel.thread t).error ≠ .eok) :
      StepEffect s (.resume t) (leave { s with kernel := s.kernel.dispatch t } t)
  | returned {p : ℕ} {pool : PoolState} (hp : p ∈ s.pool.live) (hgive : s.pool.giveBlock p = some pool)
      (hcount : s.suspendThreadCount = 0) : StepEffect s (.free p) { s with pool }
  | handed {p : ℕ} {pool : PoolState} {t : T} {l : List T} (hp : p ∈ s.pool.live)
      (hgive : s.pool.giveBlock p = some pool) (hcount : s.suspendThreadCount ≠ 0) (hl : s.waiting = t :: l) :
      StepEffect s (.free p) { s with
        kernel := ((s.kernel.setError t .eok).threadResume t).1.schedule
        pool
        suspendThreadCount := s.suspendThreadCount - 1 }
  | expired {t : T} {k : Kernel T Unit} (hk : s.kernel.timerExpire t = some k) :
      StepEffect s (.timeout t) { s with kernel := k }
  | tick : StepEffect s .tick { s with kernel := { s.kernel with tick := s.kernel.tick + 1 } }
  | write {a : ℕ} {b : BitVec 8} (ha : s.pool.MayWrite a) :
      StepEffect s (.write a b) { s with pool := s.pool.write a b }

theorem zero_ult_iff (x : BitVec 32) : (0 : BitVec 32).ult x = true ↔ x ≠ 0 := by
  rw [BitVec.ult, decide_eq_true_eq]
  constructor
  · rintro h rfl
    exact absurd h (Nat.lt_irrefl _)
  · exact fun h => Nat.pos_of_ne_zero (fun he => h (eq_of_toNat_eq he))

theorem step_effect (h : s.step e = some s') : StepEffect s e s' := by
  cases e with
  | alloc t time =>
    rw [step] at h
    split_ifs at h with hr
    exact .turn rfl hr.1 (fun u hu => by cases hu) (allocLoop_turn h)
  | resume t =>
    rw [step] at h
    cases hpc : s.pc t with
    | none => simp [hpc] at h
    | some p =>
      simp only [hpc] at h
      split_ifs at h with hr
      unfold allocResume at h
      split_ifs at h with he
      · cases h
        exact .failed he
      · refine .turn (by rw [turnTime, hpc]; rfl) hr (fun u hu => ?_) (allocLoop_turn h)
        cases hu
        exact Decidable.not_not.mp he
  | free p =>
    rw [step] at h
    split_ifs at h with hp
    obtain ⟨pool, hgive, h⟩ := bind_eq_some_iff.mp h
    by_cases hcount : s.suspendThreadCount = 0
    · rw [if_neg (by rw [zero_ult_iff]; exact not_not.mpr hcount)] at h
      cases h
      exact .returned hp hgive hcount
    · rw [if_pos ((zero_ult_iff _).mpr hcount)] at h
      cases hl : s.kernel.lists (.wait ()) with
      | nil => simp [hl] at h
      | cons t l =>
        simp only [hl] at h
        cases h
        exact .handed hp hgive hcount hl
  | timeout t =>
    obtain ⟨k, hk, rfl⟩ := map_eq_some_iff.mp h
    exact .expired hk
  | tick =>
    cases h
    exact .tick
  | write a b =>
    rw [step] at h
    split_ifs at h with ha
    cases h
    exact .write ha

theorem partition_of_turn (h : s.pool.Partition n) (ht : AllocTurn s t time s') : s'.pool.Partition n := by
  cases ht with
  | refused hfree hz | parked p hfree hz hk => exact h
  | taken hfree hp =>
    obtain ⟨pool, p, htake, hpool⟩ := h.take hfree
    obtain ⟨rfl, -⟩ := Prod.mk.inj (Option.some.inj (htake.symm.trans hp))
    exact hpool

section

omit [DecidableEq T]

theorem partition_of_give {p : ℕ} {pool : PoolState} (h : s.pool.Partition n) (hp : p ∈ s.pool.live)
    (hgive : s.pool.giveBlock p = some pool) : pool.Partition n := by
  obtain ⟨pool', hgive', hpool⟩ := h.give hp
  rwa [Option.some.inj (hgive.symm.trans hgive')]

def Parks (s : MpSystem T) (e : MpEvent T) : Prop :=
  s.pool.mp.blockFreeCount = 0 ∧ ∃ x ∈ s.turnTime e, x.2 ≠ 0 ∧
  (e = .resume x.1 → (s.kernel.thread x.1).error = .eok)

theorem not_parks (h : s.turnTime e = none) : ¬ s.Parks e := by
  rintro ⟨-, x, hx, -⟩
  cases h.symm.trans hx

end

theorem partition_of_step (h : s.pool.Partition n) (hs : s.step e = some s') : s'.pool.Partition n := by
  cases step_effect hs with
  | @turn _ t _ _ ht hr hgo hturn => exact partition_of_turn (s := { s with kernel := s.kernel.dispatch t }) h hturn
  | failed he => exact h
  | returned hp hgive hcount | handed hp hgive hcount hl => exact partition_of_give h hp hgive
  | expired hk | tick => exact h
  | write ha => exact h.write ha _

theorem mempool_partition_iff (k : Kernel T Unit) (o : MpOrigin) (self : BitVec 32) (bytes : ℕ → BitVec 8) :
    (∃ p, o.make self bytes = some p ∧ ∀ s, Reachable step (fun _ _ => True) (· = start k p) s →
      s.pool.Partition o.blockSize.toNat) ↔ o.Fits := by
  rw [← o.make_partition_iff self bytes]
  constructor
  · rintro ⟨p, hmake, hall⟩
    exact ⟨p, hmake, hall _ (.start rfl)⟩
  · rintro ⟨p, hmake, hpart⟩
    refine ⟨p, hmake, fun s hs => ?_⟩
    apply hs.invariant
    · rintro _ rfl
      exact hpart
    · exact fun _ _ _ hI _ hstep => partition_of_step hI hstep

def shortMemory : MpMemory where
  start := 4096
  size := 4
  pos := by decide
  bound := by decide

theorem mempool_without_blocks : ∃ p, (MpOrigin.init shortMemory 4).make 64 (fun _ => 7) = some p ∧
    p.mp.blockFreeCount = 0 ∧ p.mp.blockList = 4096 ∧ p.bytes 4088 = 0 ∧ ¬ p.Partition 4 := by
  refine exists_some_imp (P := fun p => _ ∧ _ ∧ _) (by decide +kernel)
    (fun p hmake h => ⟨h.1, h.2.1, h.2.2, fun hp => ?_⟩)
  have hfits := ((MpOrigin.init shortMemory 4).make_partition_iff 64 (fun _ => 7)).mp ⟨p, hmake, hp⟩
  simp only [MpOrigin.Fits] at hfits
  exact absurd hfits (by decide)

structure WaitersCounted (s : MpSystem T) : Prop where
  count : s.suspendThreadCount.toNat = s.waiting.length
  free : ∀ p pool, s.pool.giveBlock p = some pool → ∃ s', s.mpFree p = some s' ∧ s'.pool = pool ∧
    ∀ t l, s.waiting = t :: l → s'.waiting = l ∧ s'.kernel.view.stat t = .ready

def Undisturbed (s : MpSystem T) (e : MpEvent T) : Prop :=
  (s.Parks e → s.waiting.length + 1 < 2 ^ 32) ∧ ∀ t ∈ s.waiting, e ≠ .timeout t

theorem waiting_handed (hk : s.kernel.Wf) {l : List T} (hl : s.waiting = t :: l) :
    let k := ((s.kernel.setError t .eok).threadResume t).1.schedule
    k.Wf ∧ k.view.waiting () = l ∧ k.view.stat t = .ready := by
  have hmem : t ∈ s.kernel.view.waiting () := by
    rw [show s.kernel.view.waiting () = t :: l from hl]
    exact mem_cons_self
  have hsus : (s.kernel.setError t .eok).view.stat t = .suspend := by
    rw [setError_view]
    exact hk.view_suspend hmem
  obtain ⟨hw, hv⟩ := (hk.setError t .eok).threadResume_view hsus
  refine ⟨hw.schedule, ?_, ?_⟩
  · rw [schedule_view, hv, setError_view]
    dsimp only
    rw [show s.kernel.view.waiting () = t :: l from hl, erase_cons_head]
  · rw [schedule_view, hv]
    exact update_self ..

theorem waitersCounted_iff (hk : s.kernel.Wf) : s.WaitersCounted ↔ s.suspendThreadCount.toNat = s.waiting.length := by
  refine ⟨WaitersCounted.count, fun h => ⟨h, fun p pool hgive => ?_⟩⟩
  rw [mpFree, hgive, bind_some]
  cases hl : s.kernel.lists (.wait ()) with
  | nil =>
    have hzero : s.suspendThreadCount = 0 := by
      apply eq_of_toNat_eq
      rw [h, show s.waiting = [] from hl]
      rfl
    rw [if_neg (by rw [zero_ult_iff]; exact not_not.mpr hzero)]
    refine ⟨_, rfl, rfl, fun t l hcons => ?_⟩
    exact absurd (hl.symm.trans hcons) (by simp)
  | cons t l =>
    have hpos : s.suspendThreadCount ≠ 0 := by
      intro hzero
      rw [hzero, show s.waiting = t :: l from hl] at h
      exact absurd h (by simp)
    rw [if_pos ((zero_ult_iff _).mpr hpos)]
    refine ⟨_, rfl, rfl, fun u l' hcons => ?_⟩
    obtain ⟨rfl, rfl⟩ := List.cons.inj (hl.symm.trans hcons)
    exact (waiting_handed hk hl).2

theorem counted_add_one {x : BitVec 32} {m : ℕ} (h : x.toNat = m) : (x + 1).toNat = m + 1 ↔ m + 1 < 2 ^ 32 := by
  rw [toNat_add, show (1 : BitVec 32).toNat = 1 from rfl]
  omega

theorem parked_waiting (hk : s.kernel.Wf) (hr : s.kernel.view.stat t = .ready) {k : Kernel T Unit}
    (h : ((s.kernel.dispatch t).setError t .eok).suspendFront () t time = some k) :
    k.Wf ∧ k.view.waiting () = t :: s.waiting := by
  have hr' : ((s.kernel.dispatch t).setError t .eok).view.stat t = .ready := by
    rw [setError_view]
    exact hr
  obtain ⟨hw, hwait⟩ := ((hk.dispatch t).setError t .eok).suspendFront hr' h
  exact ⟨hw, hwait⟩

theorem wf_of_step (hk : s.kernel.Wf) (hs : s.step e = some s') : s'.kernel.Wf := by
  cases step_effect hs with
  | @turn _ t _ _ ht hr hgo hturn =>
    cases hturn with
    | refused hfree hz => exact (hk.dispatch t).setError t _
    | parked p hfree hz hpark => exact (parked_waiting hk hr hpark).1
    | taken hfree hp => exact hk.dispatch t
  | failed he => exact hk.dispatch _
  | returned hp hgive hcount => exact hk
  | handed hp hgive hcount hl => exact (waiting_handed hk hl).1
  | expired hexp => exact (hk.timerExpire_view hexp).1
  | tick => exact hk.congr rfl rfl rfl
  | write ha => exact hk

theorem step_counted (hk : s.kernel.Wf) (h : s.suspendThreadCount.toNat = s.waiting.length)
    (hs : s.step e = some s') : s'.suspendThreadCount.toNat = s'.waiting.length ↔ s.Undisturbed e := by
  have hkept : s'.suspendThreadCount = s.suspendThreadCount → s'.waiting = s.waiting → ¬ s.Parks e →
      (∀ t ∈ s.waiting, e ≠ .timeout t) →
      (s'.suspendThreadCount.toNat = s'.waiting.length ↔ s.Undisturbed e) := by
    intro hcount hwait hnot hne
    exact iff_of_true (by rw [hcount, hwait, h]) ⟨fun hp => absurd hp hnot, hne⟩
  cases step_effect hs with
  | @turn _ t time _ ht hr hgo hturn =>
    have hne : ∀ u ∈ s.waiting, e ≠ .timeout u := by
      rintro u - rfl
      cases ht
    cases hturn with
    | refused hfree hz =>
      refine hkept rfl (by simp [waiting]) ?_ hne
      rintro ⟨-, x, hx, hpos, -⟩
      cases ht.symm.trans hx
      exact hpos hz
    | taken hfree hp => exact hkept rfl rfl (fun hparks => hfree hparks.1) hne
    | parked p hfree hz hpark =>
      have hwait := (parked_waiting hk hr hpark).2
      have hparks : s.Parks e := ⟨hfree, _, ht, hz, hgo t⟩
      unfold Undisturbed
      rw [and_iff_left hne, forall_prop_of_true hparks]
      simp only [waiting, hwait, length_cons]
      exact counted_add_one h
  | @failed t he =>
    refine hkept rfl rfl ?_ (fun _ _ => by simp)
    rintro ⟨-, x, hx, -, hgo⟩
    obtain ⟨p, -, rfl⟩ := map_eq_some_iff.mp hx
    exact he (hgo rfl)
  | returned hp hgive hcount => exact hkept rfl rfl (not_parks rfl) (fun _ _ => by simp)
  | @handed p pool t l hp hgive hcount hl =>
    have hwait := (waiting_handed hk hl).2.1
    have hlen : s.suspendThreadCount.toNat = l.length + 1 := by rw [h, hl, length_cons]
    have hsub : (s.suspendThreadCount - 1).toNat = l.length := by
      rw [toNat_sub, show (1 : BitVec 32).toNat = 1 from rfl]
      omega
    refine iff_of_true ?_ ⟨fun hp => absurd hp (not_parks rfl), fun _ _ => by simp⟩
    rw [waiting, hwait]
    exact hsub
  | @expired t k hexp =>
    have hwait : k.view.waiting () = s.waiting.erase t := by
      rw [(hk.timerExpire_view hexp).2.2]
      rfl
    by_cases ht : t ∈ s.waiting
    · -- the list gets shorter, the counter does not
      refine iff_of_false ?_ (fun hu => hu.2 t ht rfl)
      have hpos := length_pos_of_mem ht
      have hless := length_erase_of_mem ht
      rw [← hwait] at hless
      change s.suspendThreadCount.toNat ≠ (k.view.waiting ()).length
      omega
    · refine hkept rfl (hwait.trans (erase_of_not_mem ht)) (not_parks rfl) ?_
      rintro u hu he
      cases he
      exact ht hu
  | tick | write ha => exact hkept rfl rfl (not_parks rfl) (fun _ _ => by simp)

theorem mempool_waiters_iff {k : Kernel T Unit} (hk : k.Wf) (hw : k.view.waiting () = []) (pool : PoolState)
    (es : List (MpEvent T)) :
    StatesAlong step WaitersCounted (start k pool) es ↔ StepsAlong step Undisturbed (start k pool) es := by
  apply statesAlong_iff_stepsAlong
  · exact fun s e s' hs hstep => wf_of_step hs hstep
  · intro s e s' hs hcounted hstep
    rw [waitersCounted_iff (wf_of_step hs hstep)]
    exact step_counted hs hcounted.count hstep
  · exact hk
  · rw [waitersCounted_iff hk]
    simp [start, waiting, hw]

instance (s : MpSystem T) (e : MpEvent T) : Decidable (s.Parks e) := instDecidableAnd

instance (s : MpSystem T) (e : MpEvent T) : Decidable (s.Undisturbed e) := instDecidableAnd

def oneBlock : MpMemory where
  start := 4096
  size := 8
  pos := by decide
  bound := by decide

def poolKernel : Kernel Tid Unit := bootKernel Tid.priority [.startup .mid, .startup .low, .schedulerStart]

def blockShared : MpSystem Tid := start poolKernel (mpCreate 64 oneBlock 1 4 (fun _ => 7))

def blockPassed : List (MpEvent Tid) :=
  [.alloc .mid 0, .alloc .low 100, .tick, .free 4100, .resume .low]

theorem mempool_waiters_passed : ∃ s, run step blockShared blockPassed = some s ∧ s.pool.live = [4100] ∧
    s.pc .low = none ∧ s.WaitersCounted := by
  refine exists_some_and_and (by decide +kernel) (fun s hs _ _ => ?_)
  have hwf : poolKernel.Wf := bootKernel_wf (by decide) _
  have hiff := mempool_waiters_iff hwf (by decide +kernel) (mpCreate 64 oneBlock 1 4 (fun _ => 7)) blockPassed
  exact (hiff.mpr (by decide +kernel)).of_run hs

theorem mempool_counts_expired_waiter : ∃ s,
    run step blockShared [.alloc .mid 0, .alloc .low 100, .timeout .low] = some s ∧
      s.suspendThreadCount = 1 ∧ s.waiting = [] ∧ s.pool.live = [4100] ∧ s.mpFree 4100 = none ∧
      ¬ s.WaitersCounted := by
  obtain ⟨s, hs, hcount, hwait, hlive, hfree⟩ :
      ∃ s, run step blockShared [.alloc .mid 0, .alloc .low 100, .timeout .low] = some s ∧
      s.suspendThreadCount = 1 ∧
        s.waiting = [] ∧ s.pool.live = [4100] ∧ (s.mpFree 4100).isNone := by decide +kernel
  rw [isNone_iff_eq_none] at hfree
  refine ⟨s, hs, hcount, hwait, hlive, hfree, fun hw => ?_⟩
  have hlen := hw.count
  rw [hcount, hwait] at hlen
  exact absurd hlen (by decide)

end MpSystem

end RtThread
