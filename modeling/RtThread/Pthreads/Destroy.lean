import RtThread.Pthreads.Barrier
import RtThread.Pthreads.CondWake
import RtThread.Pthreads.RwlockExclusion

namespace RtThread

open CondMonitor Transition MonitorSystem RwLabel BarrierSystem

variable {T C L D X : Type} [DecidableEq T] [DecidableEq C]

def pthreadBarrierDestroy (k : Kernel T (Option Unit)) (sem : Semaphore) :
    Option (Kernel T (Option Unit) × Semaphore × Errno) :=
  pthreadCondDestroy k (some ()) sem

def Errno.Tells (e : Errno) (idle : Prop) : Prop := (e = .ok ↔ idle) ∧ (e ≠ .ok → e = .ebusy)

namespace MonitorSystem

variable {s s' : MonitorSystem T C L D} {t u : T} {c : C} {P : Code T C L D (BitVec 32) X}

def DestroysRight {W : Type} (s : MonitorSystem T C L D) (c : C)
    (result : Option (Kernel T W × Semaphore × Errno)) : Prop :=
  ∃ k x e, result = some (k, x, e) ∧ e.Tells (∀ u, ¬ s.Inside c u)

def Decided (s : MonitorSystem T C L D) (c : C) : Prop :=
  0 < (s.sem c).value ∧ (∀ u p, s.place u ≠ .dropped c p) ∨ (s.sem c).value = 0 ∧ ∃ u, s.Inside c u

theorem pthreadCondDestroy_eq {W : Type} [DecidableEq W] (k : Kernel T W) (w : W) (sem : Semaphore) :
    pthreadCondDestroy k w sem = some (if 0 < sem.value then (k, condCleared, .ok) else (k, sem, .ebusy)) := by
  unfold pthreadCondDestroy
  rw [semTrytake_eq]
  split_ifs <;> rfl

theorem Inv.destroysRight_iff (h : s.Inv) (t : T) (c : C) :
    s.DestroysRight c (pthreadCondDestroy (s.kernel.dispatch t) (some c) (s.sem c)) ↔ s.Decided c := by
  unfold DestroysRight Errno.Tells Decided
  rw [pthreadCondDestroy_eq]
  by_cases hv : 0 < (s.sem c).value
  · have hlist : s.monitor.list c = [] := h.monitor.value c hv
    have hinside : (∀ u, ¬ s.Inside c u) ↔ ∀ u p, s.place u ≠ .dropped c p := by
      constructor
      · intro hno u p hp
        exact hno u ⟨p, .inl hp⟩
      · rintro hno u ⟨p, hp | hp⟩
        · exact hno u p hp
        · exact List.not_mem_nil (hlist ▸ (h.monitor.parked u c).mpr ⟨p, hp⟩)
    rw [if_pos hv, ← hinside]
    constructor
    · rintro ⟨k, x, e, he, hok, -⟩
      cases he
      exact .inl ⟨hv, hok.mp rfl⟩
    · rintro (⟨-, hno⟩ | ⟨hz, -⟩)
      · exact ⟨_, _, _, rfl, iff_of_true rfl hno, fun hne => absurd rfl hne⟩
      · omega
  · rw [if_neg hv]
    constructor
    · rintro ⟨k, x, e, he, hok, -⟩
      cases he
      refine .inr ⟨by omega, ?_⟩
      by_contra hno
      exact absurd (hok.mpr (fun u hu => hno ⟨u, hu⟩)) (by decide)
    · rintro (⟨hpos, -⟩ | ⟨-, u, hu⟩)
      · exact absurd hpos hv
      · exact ⟨_, _, _, rfl, iff_of_false (by decide) (fun hno => hno u hu), fun _ => rfl⟩

end MonitorSystem

namespace RwData

variable (d : RwData T)

def Idle : Prop := d.refcount = 0 ∧ d.nwaitreaders = 0 ∧ d.nwaitwriters = 0

instance : Decidable d.Idle := instDecidableAnd

end RwData

def RwLabel.Clean (d : RwData T) : RwLabel → Prop
  | outside kept _ | poke _ kept => kept = false
  | enter op kept => kept = false ∧ ∀ m, op ≠ .spurious m
  | tryReaders | tryWriters | putReaders | putWriters | destroyReaders | clearReaders | destroyWriters |
      clearWriters => d.Idle
  | putBack => False
  | release op e => op = .destroy → e = .ok ∧ d.Idle
  | test _ _ | count _ _ | wait _ _ | back _ _ _ | grant _ _ | drop | notify | wakeWriter | wakeReaders | check => True

namespace RwSystem

def Idle (s : RwSystem T) : Prop := s.data.readers = [] ∧ s.data.writers = [] ∧ ∀ t m, ¬ (s.label t).Between m

def ReturnsRight (s : RwSystem T) (t : T) (s' : RwSystem T) : Prop :=
  ∀ kept last, (∀ kept last, s.label t ≠ .outside kept last) → s'.label t = .outside kept last →
    s'.mutex.owner ≠ some t ∧ ∀ e, last = some (pthreadRwlockDestroy, e) → e.Tells s.Idle

end RwSystem

namespace RwDestroy

open RwInv

variable {s s' : State T RwMode RwLabel (RwData T)} {t u : T} {e : CondMonitor.Event T RwChoice}

def Destroyable (s : State T RwMode RwLabel (RwData T)) : RwLabel → Prop
  | .check => s.data.Idle
  | .tryReaders => 0 < s.value .read
  | .tryWriters => 0 < s.value .write
  | _ => True

section

omit [DecidableEq T]

theorem clean_congr {d d' : RwData T} {l : RwLabel} (h : l.Clean d)
    (hd : l.Holds → (∀ op kept, l ≠ .enter op kept) → (∀ m y, l ≠ .wait m y) → d' = d) : l.Clean d' := by
  cases l with
  | tryReaders | tryWriters | putBack | putReaders | putWriters | destroyReaders | clearReaders | destroyWriters |
      clearWriters
  | release op e => exact (hd trivial (by simp) (by simp)) ▸ h
  | _ => exact h

theorem clean_ofEnter (d : RwData T) {op : RwOp} (h : ∀ m, op ≠ .spurious m) : (RwLabel.ofEnter op).Clean d := by
  cases op with
  | spurious m => exact absurd rfl (h m)
  | _ => trivial

end

theorem clean_other (hlaw : Lawful rwProgram RwLabel.Holds s)
    (hs : s.step rwProgram e = some s') (hu : e.thread ≠ u) (h : (s.label u).Clean s.data) :
    (s'.label u).Clean s'.data := by
  rw [label_of_step hs hu]
  refine clean_congr h (fun hholds henter hwait =>
    hlaw.data_kept rw_disciplined hs (hlaw.owner_of hholds (fun hc => ?_)) hu)
  obtain ⟨op, kept, hl⟩ | ⟨m, y, hl⟩ := rw_calling hc
  · exact henter op kept hl
  · exact hwait m y hl

theorem clean_inside (hlaw : Lawful rwProgram RwLabel.Holds s)
    (hs : s.step rwProgram e = some s') (he : e.thread = t) (hp : s.place t ≠ .run) (h : (s.label t).Clean s.data) :
    (s'.label t).Clean s'.data := by
  obtain ⟨hdata, ⟨-, r, -, hlabel⟩ | ⟨-, hlabel, -⟩⟩ := call_step hs he hp
  · rw [hlabel]
    obtain ⟨op, kept, hl⟩ | ⟨m, y, hl⟩ := rw_calling (hlaw.calling t hp)
    · rw [hl] at h ⊢
      cases r with
      | done => exact clean_ofEnter _ h.2
      | expired | refused => exact h.1
    · rw [hl]
      trivial
  · rw [hdata, hlabel]
    exact h

theorem exec_tryTake_label {c : RwMode} (hv : 0 < s.value c) :
    (s.exec rwProgram t (.tryTake c)).label t = rwRet (s.label t) .done := by
  unfold State.exec
  dsimp only
  rw [if_pos hv]
  exact Function.update_self ..

theorem clean_exec {x : RwChoice} {cmd : Cmd RwMode RwLabel (RwData T) (BitVec 32)}
    (hcmd : rwCmd t (s.label t) s.data x = some cmd) (hdest : Destroyable s (s.label t))
    (h : (s.label t).Clean s.data) :
    ((s.exec rwProgram t cmd).label t).Clean (s.exec rwProgram t cmd).data := by
  rw [State.exec_data]
  obtain ⟨-, hafter⟩ | ⟨hlabel, hcall⟩ := exec_self s t cmd
  · have htake : ∀ c, cmd = .tryTake c → 0 < s.value c →
        (s.exec rwProgram t cmd).label t = rwRet (s.label t) .done := by
      rintro c rfl hv
      exact exec_tryTake_label hv
    generalize (s.exec rwProgram t cmd).label t = l' at hafter htake
    generalize s.label t = l at hcmd hdest h hafter htake
    cases l
    case outside kept last =>
      unfold rwCmd at hcmd
      split_ifs at hcmd
      cases hcmd
      obtain rfl : l' = _ := hafter
      cases x.op with
      | spurious m => exact h
      | _ => exact ⟨h, by simp⟩
    all_goals obtain rfl := Option.some.inj hcmd
    case tryReaders | tryWriters =>
      obtain rfl := htake _ rfl hdest
      exact h
    case enter op kept =>
      obtain ⟨-, rfl⟩ | ⟨-, rfl⟩ := hafter
      · exact clean_ofEnter _ h.2
      · exact h.1
    case wait m y =>
      obtain ⟨-, rfl⟩ := hafter
      trivial
    case putBack => exact h.elim
    case destroyReaders => obtain rfl | rfl := hafter <;> exact h
    case destroyWriters =>
      obtain rfl | rfl := hafter
      · exact h
      · exact fun _ => ⟨rfl, h⟩
    case release op e => obtain rfl | ⟨-, rfl⟩ := hafter <;> rfl
    all_goals obtain rfl : l' = _ := hafter
    case poke | putReaders | putWriters | clearReaders => exact h
    case test m y =>
      unfold ofTest
      split_ifs
      · exact fun hop => absurd hop (by simp)
      · trivial
      · trivial
    case back m y r =>
      unfold ofBack
      split_ifs
      · trivial
      · exact fun hop => absurd hop (by simp)
    case notify =>
      unfold ofNotify
      split_ifs <;> first | trivial | exact fun hop => absurd hop (by simp)
    case check =>
      obtain ⟨href, hr, hw⟩ := hdest
      rw [ofCheck, if_neg (by simp [href, hr, hw])]
      exact ⟨href, hr, hw⟩
    case count | drop => trivial
    case grant | wakeWriter | wakeReaders => exact fun hop => absurd hop (by simp)
    case clearWriters => exact fun _ => ⟨rfl, h⟩
  · rw [hlabel]
    obtain ⟨rfl, -⟩ | ⟨c, time, rfl, -⟩ := hcall
    · exact h
    · exact h

theorem returns_from {l l' : RwLabel} {d : RwData T} {x : RwChoice} {own : Prop}
    {cmd : Cmd RwMode RwLabel (RwData T) (BitVec 32)} {kept : Bool} {last : Option (RwOp × Errno)}
    (hl : ∀ kept last, l ≠ .outside kept last) (hcmd : rwCmd t l d x = some cmd)
    (hafter : cmd.After (rwProgram (T := T)) own l l') (hl' : l' = .outside kept last) :
    (∃ op e, l = .release op e ∧ last = some (op, e)) ∨ (∃ op, l = .enter op kept ∧ own) ∨
      (∃ m, l = .poke m kept ∧ last = some (.spurious m, .ok)) ∨ l = .check ∧ ¬ d.Idle := by
  cases l
  case outside k' last' => exact absurd rfl (hl k' last')
  all_goals cases hcmd
  case release op e =>
    refine .inl ⟨op, e, rfl, ?_⟩
    obtain rfl | ⟨-, rfl⟩ := hafter <;> cases hl' <;> rfl
  case enter op k' =>
    obtain ⟨-, rfl⟩ | ⟨ho, rfl⟩ := hafter
    · cases op <;> cases hl'
    · cases hl'
      exact .inr (.inl ⟨op, rfl, ho⟩)
  case wait m y =>
    obtain ⟨-, rfl⟩ := hafter
    cases hl'
  case tryReaders | tryWriters | destroyReaders | destroyWriters => obtain rfl | rfl := hafter <;> cases hl'
  all_goals obtain rfl : l' = _ := hafter
  case poke m k' =>
    cases hl'
    exact .inr (.inr (.inl ⟨m, rfl, rfl⟩))
  case check =>
    refine .inr (.inr (.inr ⟨rfl, fun hidle => ?_⟩))
    obtain ⟨href, hr, hw⟩ := hidle
    rw [ofCheck, if_neg (by simp [href, hr, hw])] at hl'
    cases hl'
  case test m y =>
    unfold ofTest at hl'
    split_ifs at hl'
  case back m y r =>
    unfold ofBack at hl'
    split_ifs at hl'
  case notify =>
    unfold ofNotify at hl'
    split_ifs at hl'
  all_goals cases hl'

end RwDestroy

namespace RwSystem

variable {s s' : RwSystem T} {e : CondMonitor.Event T RwChoice}

def Orderly (s : RwSystem T) (e : CondMonitor.Event T RwChoice) : Prop :=
  s.NoOverflow e ∧ RwDestroy.Destroyable s.monitor (s.label e.thread)

structure Tidy (s : RwSystem T) : Prop where
  reached : s.Reached
  exclusion : s.Exclusion
  clean : ∀ t, (s.label t).Clean s.data

theorem tidy_start {k : Kernel T (Option RwMode)} (hk : k.Calm) : (rwStart k).Tidy :=
  ⟨reached_start hk, exclusion_start hk, fun _ => rfl⟩

theorem Tidy.step (h : s.Tidy) (hord : s.Orderly e) (hs : MonitorSystem.step rwCode s e = some s') : s'.Tidy := by
  have hlaw := h.reached.lawful
  obtain ⟨hsim, -⟩ := h.reached.inv.step hs
  refine ⟨h.reached.step hs, (h.reached.exclusion_step h.exclusion hs).mpr hord.1, fun u => ?_⟩
  by_cases hu : e.thread = u
  · subst hu
    by_cases hp : s.monitor.place e.thread = .run
    · obtain ⟨x, cmd, -, hcmd, heq⟩ := exec_of_step hsim rfl hp
      have hclean := RwDestroy.clean_exec hcmd hord.2 (h.clean e.thread)
      rw [← heq] at hclean
      exact hclean
    · exact RwDestroy.clean_inside hlaw hsim rfl hp (h.clean e.thread)
  · exact RwDestroy.clean_other hlaw hsim hu (h.clean u)

omit [DecidableEq T] in
theorem Exclusion.idle (h : s.Exclusion) (hd : s.data.Idle) : s.Idle := by
  obtain ⟨href, hr, hw⟩ := hd
  obtain ⟨hreaders, hwriters⟩ := (h.readers 0).mp (by rw [href]; rfl)
  refine ⟨List.length_eq_zero_iff.mp hreaders, hwriters, fun t m ht => ?_⟩
  obtain ⟨F, hF, hcard⟩ := h.waiters m
  have hpos := Finset.card_pos.mpr ⟨t, (hF t).mpr ht⟩
  have hz : s.data.waiters m = 0 := by
    cases m with
    | read => exact hr
    | write => exact hw
  rw [hz, show (0 : BitVec 32).toInt = 0 from rfl] at hcard
  omega

theorem Tidy.owner (h : s.Tidy) {t : T} {kept : Bool}
    {last : Option (RwOp × Errno)} (hl : s.label t = .outside kept last) :
    s.mutex.owner ≠ some t := by
  intro ho
  have hrun : s.monitor.place t = .run := h.reached.lawful.run_of (fun hc => by
    obtain ⟨op, k', he⟩ | ⟨m, y, he⟩ := rw_calling hc <;> cases hl.symm.trans he)
  have hholds := ((h.reached.lawful.owned t).run hrun).mp ho
  have hclean := h.clean t
  rw [show s.monitor.label t = _ from hl] at hholds
  rw [hl] at hclean
  exact absurd (hclean.symm.trans hholds) (by simp)

theorem Tidy.returnsRight (h : s.Tidy) (hord : s.Orderly e)
    (hs : MonitorSystem.step rwCode s e = some s') : s.ReturnsRight e.thread s' := by
  have hlaw := h.reached.lawful
  obtain ⟨hsim, -⟩ := h.reached.inv.step hs
  intro kept last hout hl'
  refine ⟨(h.step hord hs).owner hl', fun err hlast => ?_⟩
  by_cases hp : s.monitor.place e.thread = .run
  · obtain ⟨x, cmd, -, hcmd, heq⟩ := exec_of_step hsim rfl hp
    have hlabel : (s.monitor.exec RwInv.rwProgram e.thread cmd).label e.thread = .outside kept last := by
      rw [← heq]
      exact hl'
    obtain ⟨-, hafter⟩ | ⟨hsame, -⟩ := exec_self s.monitor e.thread cmd
    · obtain ⟨op, e', hl, hres⟩ | ⟨op, hl, hown⟩ | ⟨m, hl, hres⟩ | ⟨hl, hbusy⟩ :=
        RwDestroy.returns_from hout hcmd hafter hlabel
      · have hclean := h.clean e.thread
        rw [show s.label e.thread = _ from hl] at hclean
        obtain ⟨rfl, rfl⟩ : op = .destroy ∧
          e' = err := by simpa [pthreadRwlockDestroy] using hres.symm.trans hlast
        obtain ⟨rfl, hidle⟩ := hclean rfl
        exact ⟨iff_of_true rfl (h.exclusion.idle hidle), fun hne => absurd rfl hne⟩
      · have hclean := h.clean e.thread
        have hholds := ((hlaw.owned e.thread).run hp).mp hown
        rw [show s.monitor.label e.thread = _ from hl] at hholds
        rw [show s.label e.thread = _ from hl] at hclean
        exact absurd (hclean.1.symm.trans hholds) (by simp)
      · exact absurd (hres.symm.trans hlast) (by simp [pthreadRwlockDestroy])
      · have hdest := hord.2
        rw [show s.label e.thread = _ from hl] at hdest
        exact absurd hdest hbusy
    · exact absurd (hsame.symm.trans hlabel) (hout kept last)
  · -- a call that has been suspended returns with the mutex
    obtain ⟨-, ⟨-, r, hr, hlabel⟩ | ⟨-, hlabel, -⟩⟩ := call_step hsim rfl hp
    · have hret : rwRet (s.label e.thread) r = .outside kept last := hlabel.symm.trans hl'
      obtain ⟨op, kept', hl⟩ | ⟨m, y, hl⟩ := rw_calling (hlaw.calling e.thread hp)
      · have hclean := h.clean e.thread
        have hback : (rwRet (s.label e.thread) r).Holds := (hlaw.owned e.thread).back r hr.returns
        rw [show s.label e.thread = _ from hl] at hclean hback hret
        cases r with
        | done => cases op <;> cases hret
        | expired | refused => exact absurd (hclean.1.symm.trans hback) (by simp)
      · rw [show s.label e.thread = _ from hl] at hret
        cases hret
    · exact absurd (hlabel.symm.trans hl') (hout kept last)

end RwSystem

theorem destroy_verdicts {kc : Kernel T (Option C)} {kb : Kernel T (Option Unit)} {kr : Kernel T (Option RwMode)}
    (hc : kc.Calm) (hb : kb.Calm) (hr : kr.Calm) :
    (∀ s t c, Reachable (MonitorSystem.step condCode) (fun _ _ => True) (· = MonitorSystem.start kc () ()) s →
      (s.DestroysRight c (pthreadCondDestroy (s.kernel.dispatch t) (some c) (s.sem c)) ↔ s.Decided c)) ∧
    (∀ rounds count s t, Reachable (MonitorSystem.step (pthreadBarrierWait rounds)) (fun _ _ => True)
        (· = pthreadBarrierInit kb count) s →
      (s.DestroysRight () (pthreadBarrierDestroy (s.kernel.dispatch t) (s.sem ())) ↔ s.Decided ())) ∧
    ∀ s e s', Reachable (MonitorSystem.step rwCode) RwSystem.Orderly (· = rwStart kr) s → RwSystem.Orderly s e →
      MonitorSystem.step rwCode s e = some s' → RwSystem.ReturnsRight s e.thread s' := by
  refine ⟨fun s t c hs => ?_, fun rounds count s t hs => ?_, fun s e s' hs hord hstep => ?_⟩
  · have hinv : s.Inv := hs.invariant (by rintro _ rfl; exact inv_start hc () ())
      (fun _ _ _ hI _ hstep => (hI.step hstep).2)
    exact hinv.destroysRight_iff t c
  · have hinv : s.Inv := hs.invariant (by rintro _ rfl; exact inv_start hb _ _)
      (fun _ _ _ hI _ hstep => (hI.step hstep).2)
    exact hinv.destroysRight_iff t ()
  · have htidy : RwSystem.Tidy s := hs.invariant (by rintro _ rfl; exact RwSystem.tidy_start hr)
      (fun _ _ _ hI hord hstep => hI.step hord hstep)
    exact htidy.returnsRight hord hstep

instance [Fintype T] (s : State T RwMode RwLabel (RwData T)) : ∀ l, Decidable (RwDestroy.Destroyable s l)
  | .check => inferInstanceAs (Decidable s.data.Idle)
  | .tryReaders | .tryWriters => Nat.decLt _ _
  | .outside _ _ | .enter _ _ | .poke _ _ | .test _ _ | .count _ _ | .wait _ _ | .back _ _ _ | .grant _ _ |
      .drop | .notify
  | .wakeWriter | .wakeReaders | .putBack | .putReaders | .putWriters | .destroyReaders | .clearReaders |
      .destroyWriters
  | .clearWriters | .release _ _ => isTrue trivial

instance [Fintype T] (s : RwSystem T) (e : CondMonitor.Event T RwChoice) : Decidable (RwSystem.Orderly s e) :=
  instDecidableAnd

open RwSystem in
def usedLock : List (CondMonitor.Event Tid RwChoice) :=
  steps .low pthreadRwlockWrlock 5 ++ steps .mid pthreadRwlockTimedwrlock 6 ++ steps .high pthreadRwlockRdlock 6 ++
    [.expire .mid] ++ steps .low pthreadRwlockUnlock 6 ++ steps .mid pthreadRwlockTimedwrlock 3 ++
    steps .low pthreadRwlockRdlock 5 ++ steps .low pthreadRwlockUnlock 6 ++ steps .high pthreadRwlockRdlock 5 ++
    steps .high pthreadRwlockUnlock 5 ++ steps .low pthreadRwlockDestroy 11

theorem destroy_verdicts_used :
    (∃ s, MonitorSystem.condStart.step condCode (.run .high (.signal ())) = some s ∧
      s.DestroysRight () (pthreadCondDestroy (s.kernel.dispatch .high) (some ()) (s.sem ()))) ∧
    (∃ s, run (MonitorSystem.step (pthreadBarrierWait 1)) (pthreadBarrierInit BarrierSystem.barrierKernel 3)
        (BarrierSystem.barrierSteps .low 7) = some s ∧
      s.DestroysRight () (pthreadBarrierDestroy (s.kernel.dispatch .high) (s.sem ()))) ∧
    ∃ s s', run (MonitorSystem.step rwCode) (rwStart RwSystem.rwKernel) usedLock = some s ∧
      MonitorSystem.step rwCode s (.run .low ⟨pthreadRwlockDestroy, 10⟩) = some s' ∧
      s'.label .low = .outside false (some (pthreadRwlockDestroy, .ok)) ∧ RwSystem.ReturnsRight s .low s' := by
  obtain ⟨hcond, hbarrier, hrw⟩ := destroy_verdicts condKernel_calm barrierKernel_calm RwSystem.rwKernel_calm
  refine ⟨?_, ?_, ?_⟩
  · obtain ⟨s, hs, hvalue, hplace⟩ : ∃ s, condStart.step condCode (.run .high (.signal ())) = some s ∧
        0 < (s.sem ()).value ∧ ∀ u, s.place u = .run := by decide +kernel
    refine ⟨s, hs, (hcond s .high () (.next (.start rfl) trivial hs)).mpr (.inl ⟨hvalue, fun u p hp => ?_⟩)⟩
    exact absurd ((hplace u).symm.trans hp) (by simp)
  · obtain ⟨s, hs, hvalue, hplace⟩ : ∃ s, run (step (pthreadBarrierWait 1))
        (pthreadBarrierInit barrierKernel 3) (barrierSteps .low 7) = some s ∧
        (s.sem ()).value = 0 ∧ s.place .low = .parked () .forever := by decide +kernel
    exact ⟨s, hs, (hbarrier 1 3 s .high (.of_free_run rfl hs)).mpr (.inr ⟨hvalue, .low, .forever, .inr hplace⟩)⟩
  · obtain ⟨s, hs, s', hs', hord, hlabel⟩ :
      ∃ s, run (step rwCode) (rwStart RwSystem.rwKernel) usedLock = some s ∧
          ∃ s', step rwCode s (.run .low ⟨pthreadRwlockDestroy, 10⟩) = some s' ∧
            RwSystem.Orderly s (.run .low ⟨pthreadRwlockDestroy, 10⟩) ∧
            s'.label .low = .outside false (some (pthreadRwlockDestroy, .ok)) := by decide +kernel
    have hall : StepsAlong (step rwCode) RwSystem.Orderly (rwStart RwSystem.rwKernel) usedLock := by
      decide +kernel
    exact ⟨s, s', hs, hs', hlabel, hrw s _ s' (.of_run (.start rfl) hall hs) hord hs'⟩

theorem destroy_wrong :
    ¬ MonitorSystem.condStart.DestroysRight ()
    (pthreadCondDestroy (MonitorSystem.condStart.kernel.dispatch .high) (some ())
      (MonitorSystem.condStart.sem ())) ∧
    (∃ s, run (MonitorSystem.step condCode) MonitorSystem.condStart
        (MonitorSystem.twoDropped ++ [.run .high (.broadcast ())]) = some s ∧ s.Inside () .low ∧
        s.Inside () .mid ∧
      (pthreadCondDestroy (s.kernel.dispatch .high) (some ()) (s.sem ())).any (fun r => r.2.2 = .ok) = true) ∧
    (pthreadBarrierDestroy (BarrierSystem.barrierKernel.dispatch .low)
      ((pthreadBarrierInit BarrierSystem.barrierKernel 3).sem ())).any (fun r => r.2.2 = .ebusy) = true ∧
    (∃ s, run (MonitorSystem.step rwCode) (rwStart RwSystem.rwKernel)
      (RwSystem.steps .low pthreadRwlockDestroy 5) = some s ∧
      s.label .low = .outside false (some (pthreadRwlockDestroy, .ebusy)) ∧ s.data = pthreadRwlockInit) ∧
    ∃ s, run (MonitorSystem.step rwCode) (rwStart RwSystem.rwKernel)
        (RwSystem.steps .low pthreadRwlockRdlock 5 ++ RwSystem.steps .mid pthreadRwlockDestroy 3) = some s ∧
      s.label .mid = .outside true (some (pthreadRwlockDestroy, .ebusy)) ∧ s.mutex.owner = some .mid := by
  refine ⟨?_, ?_, by decide +kernel, ?_, ?_⟩
  · rintro ⟨k, x, e, he, hok, -⟩
    have hbusy : (pthreadCondDestroy (condStart.kernel.dispatch .high) (some ())
        (condStart.sem ())).any (fun r => r.2.2 = .ebusy) = true := by decide +kernel
    rw [he] at hbusy
    have hebusy : e = .ebusy := by simpa using hbusy
    have hidle : e = .ok := hok.mpr (by rintro u ⟨p, hp | hp⟩ <;> cases hp)
    exact absurd (hebusy.symm.trans hidle) (by decide)
  · obtain ⟨s, hs, hlow, hmid, hok⟩ : ∃ s, run (step condCode) condStart
        (twoDropped ++ [.run .high (.broadcast ())]) = some s ∧ s.place .low = .dropped () .forever ∧
        s.place .mid = .dropped () .forever ∧ (pthreadCondDestroy (s.kernel.dispatch .high) (some ()) (s.sem ())).any
        (fun r => r.2.2 = .ok) = true := by decide +kernel
    exact ⟨s, hs, ⟨_, .inl hlow⟩, ⟨_, .inl hmid⟩, hok⟩
  · decide +kernel
  · decide +kernel

end RtThread
