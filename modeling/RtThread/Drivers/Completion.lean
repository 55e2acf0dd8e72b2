import RtThread.Ipc.TimedWait
import RtThread.Kernel.ReadyQueue

/-! The completions of `completion.c`: one thread waits for an event that others signal. -/

namespace RtThread

open Transition Option Bool

variable {T W : Type} [DecidableEq T] [DecidableEq W]

def completionWait (k : Kernel T W) (w : W) (flag : Bool) (timeout : BitVec 32) :
    Option (Kernel T W × Bool × Outcome) :=
  if flag then some (k, false, .returned .eok)
  else if k.lists (.wait w) ≠ [] then none
  else if timeout = 0 then some (k, flag, .returned .etimeout)
  else
    match k.current with
    | none => none
    | some t => ((k.setError t .eok).suspendFor w t .fifo timeout).map (fun k => (k, flag, .blocked))

/-- Where the waiting thread is. Inside a call it carries whether a completion was outstanding when the call began;
between `result = thread->error` and the section that clears the flag it also carries the result. -/
inductive CompletionPc
  | idle
  | parked (owed : Bool)
  | woken (owed : Bool) (result : Err)
  deriving DecidableEq

/-- `inDone` says that a call of `rt_completion_done` under way has seen the flag unset. The fields behind it are
history: `called` and `owed` that `rt_completion_done` has been called and has ended since the last successful wait,
and `returns` the results of the waits, each with whether a completion was outstanding when it began. -/
structure CompletionSystem (T : Type) where
  kernel : Kernel T Unit
  flag : Bool
  pc : CompletionPc
  inDone : Bool
  called : Bool
  owed : Bool
  returns : List (Bool × Err)

inductive CompletionEvent
  | wait (timeout : BitVec 32)
  | wake
  | finish
  | timeout
  | done
  | mark
  deriving DecidableEq

namespace CompletionSystem

def leave (s : CompletionSystem T) (owed : Bool) (result : Err) : CompletionSystem T :=
  { s with
    pc := .idle
    called := s.called && result != .eok
    owed := s.owed && result != .eok
    returns := s.returns ++ [(owed, result)] }

def wait (t : T) (s : CompletionSystem T) (timeout : BitVec 32) : Option (CompletionSystem T) :=
  if s.pc = .idle ∧ (s.kernel.thread t).stat = .ready then
    (completionWait (s.kernel.dispatch t) () s.flag timeout).map fun (kernel, flag, outcome) =>
      match outcome with
      | .returned e => { s with kernel, flag }.leave s.owed e
      | .blocked => { s with kernel, flag, pc := .parked s.owed }
  else none

def step (t : T) (s : CompletionSystem T) : CompletionEvent → Option (CompletionSystem T)
  | .wait timeout => s.wait t timeout
  | .wake =>
    match s.pc with
    | .parked owed =>
      if (s.kernel.thread t).stat = .ready then some { s with pc := .woken owed (s.kernel.thread t).error } else none
    | _ => none
  | .finish =>
    match s.pc with
    | .woken owed result => some ({ s with flag := false }.leave owed result)
    | _ => none
  | .timeout => (s.kernel.timerExpire t).map (fun kernel => { s with kernel })
  | .done =>
    if s.called then none
    else if s.flag then some { s with called := true, owed := true }
    else some { s with called := true, inDone := true }
  | .mark =>
    if s.inDone then
      some { s with kernel := s.kernel.resumeFirst (), flag := true, inDone := false, owed := true }
    else none

structure Initial (t : T) (s : CompletionSystem T) : Prop where
  wf : s.kernel.Wf
  ready : s.kernel.view.stat t = .ready
  waiting : s.kernel.view.waiting () = []
  flag : s.flag = false
  pc : s.pc = .idle
  inDone : s.inDone = false
  called : s.called = false
  owed : s.owed = false
  returns : s.returns = []

structure NothingLost (t : T) (s : CompletionSystem T) : Prop where
  kept : s.owed = true → s.pc = .idle → s.flag = true
  awake : s.owed = true → s.kernel.view.stat t = .ready
  returns : ∀ r ∈ s.returns, r.1 = true → r.2 = .eok

def timedOut (t : T) (s : CompletionSystem T) : Bool :=
  match s.pc with
  | .idle => false
  | .parked _ => (s.kernel.thread t).stat = .ready ∧ (s.kernel.thread t).error ≠ .eok
  | .woken _ result => result ≠ .eok

def MarksInTime (t : T) (s : CompletionSystem T) (e : CompletionEvent) : Prop :=
  e = .mark → s.timedOut t = false

instance (t : T) (s : CompletionSystem T) (e : CompletionEvent) : Decidable (s.MarksInTime t e) := instDecidableForall

inductive Place (t : T) (s : CompletionSystem T) : Prop
  | idle (hpc : s.pc = .idle) (hr : s.kernel.view.stat t = .ready) (hw : s.kernel.view.waiting () = [])
  | asleep (hpc : s.pc = .parked false) (hs : s.kernel.view.stat t = .suspend) (hw : s.kernel.view.waiting () = [t])
      (he : s.kernel.view.error t = .eok) (hf : s.flag = false)
  | resumed (hpc : s.pc = .parked false) (hr : s.kernel.view.stat t = .ready) (hw : s.kernel.view.waiting () = [])
      (he : s.kernel.view.error t = .eok ↔ s.flag = true)
  | woken (result : Err) (hpc : s.pc = .woken false result) (hr : s.kernel.view.stat t = .ready)
      (hw : s.kernel.view.waiting () = []) (he : result = .eok ↔ s.flag = true)

structure Inv (t : T) (s : CompletionSystem T) : Prop where
  wf : s.kernel.Wf
  owed : s.owed = s.flag
  called : s.flag = true ∨ s.inDone = true → s.called = true
  inDone : s.inDone = true → s.flag = false
  returns : ∀ r ∈ s.returns, r.1 = true → r.2 = .eok
  place : s.Place t

variable {t : T} {s s' : CompletionSystem T}

section

omit [DecidableEq T]

theorem Initial.inv (h : s.Initial t) : s.Inv t where
  wf := h.wf
  owed := by rw [h.owed, h.flag]
  called := by simp [h.flag, h.inDone]
  inDone := by simp [h.inDone]
  returns := by simp [h.returns]
  place := .idle h.pc h.ready h.waiting

theorem not_nothingLost_leave (t : T) (s : CompletionSystem T) (owed : Bool) {result : Err} (hne : result ≠ .eok) :
    ¬({ s with flag := false, inDone := false, owed := true }.leave owed result).NothingLost t := by
  intro h
  have hf := h.kept (by simp [CompletionSystem.leave, hne]) rfl
  exact absurd hf nofun

end

section

variable (h : s.Inv t)

include h

section

omit [DecidableEq T]

theorem Inv.nothingLost : s.NothingLost t where
  kept ho _ := by rwa [← h.owed]
  awake ho := by
    rw [h.owed] at ho
    cases h.place with
    | idle _ hr => exact hr
    | asleep _ _ _ _ hf => simp [hf] at ho
    | resumed _ hr | woken _ _ hr => exact hr
  returns := h.returns

theorem Inv.leave {owed : Bool} {e : Err} {kernel : Kernel T Unit} (hk : kernel.Wf)
    (hr : kernel.view.stat t = .ready) (hw : kernel.view.waiting () = []) (he : e = .eok ↔ s.flag = true)
    (ho : owed = true → e = .eok) : ({ s with kernel, flag := false }.leave owed e).Inv t where
  wf := hk
  owed := by
    cases hf : s.flag with
    | false => simp [CompletionSystem.leave, h.owed, hf]
    | true => simp [CompletionSystem.leave, he.mpr hf]
  called := by
    intro hor
    have hdone : s.inDone = true := hor.resolve_left nofun
    have hne : e ≠ .eok := by
      rw [Ne, he, h.inDone hdone]
      exact false_ne_true
    simp [CompletionSystem.leave, h.called (.inr hdone), hne]
  inDone _ := rfl
  returns r hmem := by
    rcases List.mem_append.mp hmem with hold | hnew
    · exact h.returns r hold
    · rw [List.mem_singleton.mp hnew]
      exact ho
  place := .idle rfl hr hw

end

theorem Inv.wait {timeout : BitVec 32} (hs : s.wait t timeout = some s') : s'.Inv t := by
  obtain ⟨⟨hpc, hr⟩, hs⟩ := ite_none_right_eq_some.mp hs
  have hw : s.kernel.view.waiting () = [] := by
    cases h.place with
    | idle _ _ hw => exact hw
    | _ => simp_all
  unfold completionWait at hs
  cases hf : s.flag with
  | true =>
    rw [hf, if_pos rfl, map_some, Option.some.injEq] at hs
    subst hs
    exact h.leave (h.wf.dispatch t) hr hw (by simp [hf]) (fun _ => rfl)
  | false =>
    rw [hf, if_neg Bool.false_ne_true, if_neg
      (show ¬(s.kernel.dispatch t).lists (.wait ()) ≠ [] from not_not.mpr hw)] at hs
    have ho : s.owed = false := h.owed.trans hf
    by_cases hz : timeout = 0
    · rw [if_pos hz, map_some, Option.some.injEq] at hs
      subst hs
      exact h.leave (h.wf.dispatch t) hr hw (by simp [hf]) (by simp [ho])
    · rw [if_neg hz] at hs
      obtain ⟨r, hr', rfl⟩ := map_eq_some_iff.mp hs
      obtain ⟨k, hk, rfl⟩ := map_eq_some_iff.mp hr'
      obtain ⟨hwf, hv⟩ := (h.wf.dispatch t).park_view hr hk
      refine ⟨hwf, ho, ?_, fun _ => rfl, h.returns, .asleep (by rw [ho]) ?_ ?_ ?_ rfl⟩
      · intro hor
        exact h.called (.inr (hor.resolve_left nofun))
      · simp [hv]
      · simp [hv, hw, enqueue]
      · simp [hv]

theorem Inv.wake (hs : s.step t .wake = some s') : s'.Inv t := by
  cases h.place with
  | idle hpc => simp [step, hpc] at hs
  | asleep hpc hst =>
    simp only [step, hpc] at hs
    rw [if_neg (by rw [show (s.kernel.thread t).stat = .suspend from hst]; nofun)] at hs
    exact absurd hs nofun
  | resumed hpc hr hw he =>
    simp only [step, hpc] at hs
    rw [if_pos (show (s.kernel.thread t).stat = .ready from hr), Option.some.injEq] at hs
    subst hs
    exact ⟨h.wf, h.owed, h.called, h.inDone, h.returns, .woken _ rfl hr hw he⟩
  | woken _ hpc => simp [step, hpc] at hs

theorem Inv.finish (hs : s.step t .finish = some s') : s'.Inv t := by
  cases h.place with
  | idle hpc | asleep hpc | resumed hpc => simp [step, hpc] at hs
  | woken result hpc hr hw he =>
    simp only [step, hpc, Option.some.injEq] at hs
    subst hs
    exact h.leave h.wf hr hw he nofun

theorem Inv.timeout (hs : s.step t .timeout = some s') : s'.Inv t := by
  obtain ⟨k, hk, rfl⟩ := map_eq_some_iff.mp hs
  obtain ⟨hwf, hst, hv⟩ := h.wf.timerExpire_view hk
  refine ⟨hwf, h.owed, h.called, h.inDone, h.returns, ?_⟩
  cases h.place with
  | idle _ hr => simp [hst] at hr
  | asleep hpc _ hw _ hf =>
    refine .resumed hpc ?_ ?_ ?_
    · simp [hv]
    · simp [hv, hw]
    · simp [hv, hf]
  | resumed _ hr | woken _ _ hr => simp [hst] at hr

theorem Inv.done (hs : s.step t .done = some s') : s'.Inv t := by
  obtain ⟨hc, hs⟩ := ite_none_left_eq_some.mp hs
  have hf : s.flag = false := by
    rw [← not_eq_true]
    exact fun hf => hc (h.called (.inl hf))
  rw [if_neg (by rw [hf]; exact false_ne_true), Option.some.injEq] at hs
  subst hs
  refine ⟨h.wf, h.owed, fun _ => rfl, fun _ => hf, h.returns, ?_⟩
  cases h.place with
  | idle hpc hr hw => exact .idle hpc hr hw
  | asleep hpc hst hw he hf => exact .asleep hpc hst hw he hf
  | resumed hpc hr hw he => exact .resumed hpc hr hw he
  | woken result hpc hr hw he => exact .woken result hpc hr hw he

theorem Inv.mark (hc : s.timedOut t = false) (hs : s.step t .mark = some s') : s'.Inv t := by
  obtain ⟨hdone, hs⟩ := ite_none_right_eq_some.mp hs
  have hf := h.inDone hdone
  have hcalled := h.called (.inr hdone)
  cases hs
  cases h.place with
  | idle hpc hr hw =>
    rw [Kernel.resumeFirst_nil hw]
    exact ⟨h.wf, rfl, fun _ => hcalled, nofun, h.returns, .idle hpc hr hw⟩
  | asleep hpc hst hw he =>
    obtain ⟨hk, hv⟩ := h.wf.resumeFirst_view hw
    refine ⟨hk, rfl, fun _ => hcalled, nofun, h.returns, .resumed hpc ?_ ?_ ?_⟩
    · simp [hv]
    · simp [hv]
    · simp [hv, he]
  | resumed hpc hr hw he =>
    -- the thread is ready with the flag unset: its time has run out
    have hne : s.kernel.view.error t ≠ .eok := by
      rw [Ne, he, hf]
      exact false_ne_true
    simp only [timedOut, hpc, decide_eq_false_iff_not] at hc
    exact absurd ⟨hr, hne⟩ hc
  | woken result hpc hr hw he =>
    have hne : result ≠ .eok := by
      rw [Ne, he, hf]
      exact false_ne_true
    simp [timedOut, hpc, hne] at hc

theorem Inv.step {e : CompletionEvent} (hc : s.MarksInTime t e) (hs : s.step t e = some s') : s'.Inv t := by
  cases e with
  | wait timeout => exact h.wait hs
  | wake => exact h.wake hs
  | finish => exact h.finish hs
  | timeout => exact h.timeout hs
  | done => exact h.done hs
  | mark => exact h.mark (hc rfl) hs

end

theorem Inv.mark_lost (h : s.Inv t) (hdone : s.inDone = true) (hout : s.timedOut t = true) :
    ∃ es s', run (CompletionSystem.step t) s (.mark :: es) = some s' ∧ ¬s'.NothingLost t := by
  cases h.place with
  | idle hpc => simp [timedOut, hpc] at hout
  | asleep hpc hst => simp [timedOut, hpc, show (s.kernel.thread t).stat = .suspend from hst] at hout
  | resumed hpc hr hw he =>
    simp only [timedOut, hpc, decide_eq_true_eq] at hout
    refine ⟨[.wake, .finish], _, ?_, not_nothingLost_leave t s false hout.2⟩
    simp only [run, CompletionSystem.step, hdone, if_true, bind_some, hpc, Kernel.resumeFirst_nil hw, hout.1]
    rfl
  | woken result hpc hr hw he =>
    simp only [timedOut, hpc, decide_eq_true_eq] at hout
    refine ⟨[.finish], _, ?_, not_nothingLost_leave t s false hout⟩
    simp only [run, CompletionSystem.step, hdone, if_true, bind_some, Kernel.resumeFirst_nil hw, hpc]

end CompletionSystem

open CompletionSystem

theorem completion_nothing_lost {t : T} {s : CompletionSystem T}
    (hr : Reachable (CompletionSystem.step t) (MarksInTime t) (Initial t) s) :
    s.NothingLost t ∧ (s.inDone = true → s.timedOut t = true →
      ∃ es s', run (CompletionSystem.step t) s (.mark :: es) = some s' ∧ ¬s'.NothingLost t) := by
  have hinv : s.Inv t := hr.invariant (fun _ h => h.inv) (fun _ _ _ h hc hs => h.step hc hs)
  exact ⟨hinv.nothingLost, hinv.mark_lost⟩

def completionKernel : Kernel Tid Unit := bootKernel Tid.priority [.startup .mid, .startup .low, .schedulerStart]

def bootCompletion : CompletionSystem Tid where
  kernel := completionKernel
  flag := false
  pc := .idle
  inDone := false
  called := false
  owed := false
  returns := []

theorem bootCompletion_initial : bootCompletion.Initial .mid := by
  have hwf : completionKernel.Wf := bootKernel_wf (by decide) _
  exact ⟨hwf, by decide +kernel, by decide +kernel, rfl, rfl, rfl, rfl, rfl, rfl⟩

def completionSignalled : List CompletionEvent :=
  [.wait 10, .done, .mark, .wake, .finish, .wait 10, .timeout, .wake, .finish]

theorem completion_nothing_lost_signalled : ∃ s, run (CompletionSystem.step .mid) bootCompletion completionSignalled =
    some s ∧ s.returns = [(false, .eok), (false, .etimeout)] ∧ s.NothingLost .mid := by
  refine exists_some_and (by decide +kernel) (fun s hs _ => ?_)
  exact (completion_nothing_lost (.of_run (.start bootCompletion_initial) (by decide +kernel) hs)).1

theorem completion_lost : ∃ s, run (CompletionSystem.step .mid) bootCompletion
    [.wait 10, .timeout, .done, .mark, .wake, .finish, .wait 0] = some s ∧
      s.returns = [(false, .etimeout), (true, .etimeout)] ∧ ¬s.NothingLost .mid := by
  refine exists_some_and (by decide +kernel) (fun s _ ho hlost => ?_)
  have := hlost.returns (true, .etimeout) (by simp [ho]) rfl
  exact absurd this nofun

end RtThread
