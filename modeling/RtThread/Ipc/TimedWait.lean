import Mathlib.Data.Set.Card
import RtThread.Ipc.Parking

namespace RtThread.Kernel

open Function

variable {T W : Type} [DecidableEq T] [DecidableEq W]

/-- One turn of a waiting loop up to the point where the caller is switched out, with the values its
`timeout` and `tick_delta` then have. A caller that may not wait leaves `errno` in its thread. -/
def waitOn (k : Kernel T W) (w : W) (flag : IpcFlag) (errno : Err) (timeout : BitVec 32) :
    Option (Kernel T W × Option (BitVec 32 × BitVec 32)) :=
  match k.current with
  | none => none
  | some t =>
    if timeout = 0 then some (k.setError t errno, none)
    else
      let tickDelta := if (0 : BitVec 32).slt timeout then k.tick else 0
      ((k.setError t .eok).suspendFor w t flag timeout).map (fun k => (k, some (timeout, tickDelta)))

def timeLeft (k : Kernel T W) (timeout tickDelta : BitVec 32) : BitVec 32 :=
  if (0 : BitVec 32).slt timeout then
    let timeout := timeout - (k.tick - tickDelta)
    if timeout.slt 0 then 0 else timeout
  else timeout

def resumeFirst (k : Kernel T W) (w : W) : Kernel T W :=
  match k.lists (.wait w) with
  | [] => k
  | _ :: _ => (k.ipcListResume w).schedule

inductive WaitTurn (k : Kernel T W) (w : W) (flag : IpcFlag) (errno : Err) (timeout : BitVec 32) (t : T) :
    Kernel T W → Option (BitVec 32 × BitVec 32) → Prop
  | refused (hz : timeout = 0) : WaitTurn k w flag errno timeout t (k.setError t errno) none
  | parked {k' : Kernel T W} (hz : timeout ≠ 0) (hs : (k.setError t .eok).suspendFor w t flag timeout = some k') :
      WaitTurn k w flag errno timeout t k'
        (some (timeout, if (0 : BitVec 32).slt timeout then k.tick else 0))

variable {k : Kernel T W} {r : Option (BitVec 32 × BitVec 32)} {timeout : BitVec 32}

theorem waitOn_turn {k' : Kernel T W} {w : W} {flag : IpcFlag} {errno : Err}
    (h : k.waitOn w flag errno timeout = some (k', r)) :
    ∃ t, k.current = some t ∧ WaitTurn k w flag errno timeout t k' r := by
  unfold waitOn at h
  cases hc : k.current with
  | none => simp [hc] at h
  | some t =>
    simp only [hc] at h
    refine ⟨t, rfl, ?_⟩
    by_cases hz : timeout = 0
    · rw [if_pos hz, Option.some.injEq] at h
      obtain ⟨rfl, rfl⟩ := h
      exact .refused hz
    · rw [if_neg hz] at h
      obtain ⟨j, hj, he⟩ := Option.map_eq_some_iff.mp h
      cases he
      exact .parked hz hj

inductive WaitEffect (k : Kernel T W) (w : W) (flag : IpcFlag) (errno : Err) (t : T) :
    Kernel T W → Option (BitVec 32 × BitVec 32) → Prop
  | refused {k' : Kernel T W}
      (hv : k'.view = k.view.setError t errno) :
      WaitEffect k w flag errno t k' none
  | parked {k' : Kernel T W} (p : BitVec 32 × BitVec 32) (hv : k'.view = k.view.parked w flag t) :
      WaitEffect k w flag errno t k' (some p)

theorem Wf.waitOn {k' : Kernel T W} (hk : k.Wf) {w : W} {flag : IpcFlag} {errno : Err} {t : T}
    (hr : k.view.stat t = .ready) (h : (k.dispatch t).waitOn w flag errno timeout = some (k', r)) :
    k'.Wf ∧ WaitEffect k w flag errno t k' r := by
  obtain ⟨u, hu, hturn⟩ := waitOn_turn h
  obtain rfl : t = u := Option.some.inj hu
  cases hturn with
  | refused _ => exact ⟨(hk.dispatch t).setError t _, .refused (by rw [setError_view]; rfl)⟩
  | parked _ hs =>
    obtain ⟨hw, hv⟩ := (hk.dispatch t).park_view hr hs
    exact ⟨hw, .parked _ hv⟩

theorem resumeFirst_nil {w : W} (h : k.view.waiting w = []) : k.resumeFirst w = k := by
  unfold Kernel.resumeFirst
  rw [show k.lists (.wait w) = [] from h]

theorem Wf.resumeFirst_view (hk : k.Wf) {w : W} {t : T} {l : List T} (h : k.view.waiting w = t :: l) :
    (k.resumeFirst w).Wf ∧ (k.resumeFirst w).view = k.view.resumed w t l := by
  obtain ⟨hw, _, hv⟩ := hk.ipcListResume_view h
  unfold Kernel.resumeFirst
  rw [show k.lists (.wait w) = t :: l from h]
  exact ⟨hw.schedule, by rw [schedule_view, hv]⟩

theorem Parked.resumeFirst {pc : T → Option W} (h : k.Parked pc) (w : W) :
    (k.resumeFirst w).Parked pc ∧
      (∀ w', w' ≠ w → (k.resumeFirst w).woken pc w' = k.woken pc w' ∧
        (k.resumeFirst w).view.waiting w' = k.view.waiting w') ∧
      ((k.resumeFirst w).view.waiting w ≠ [] → ((k.resumeFirst w).woken pc w).ncard = (k.woken pc w).ncard + 1 ∧
        k.view.waiting w ≠ []) := by
  cases hl : k.view.waiting w with
  | nil =>
    rw [resumeFirst_nil hl]
    exact ⟨h, fun _ _ => ⟨rfl, rfl⟩, fun hne => absurd hl hne⟩
  | cons t l =>
    obtain ⟨hk, hv⟩ := h.wf.resumeFirst_view hl
    obtain ⟨hparked, hnot, hself, hother⟩ := h.resume hk hl (by rw [hv]) (by rw [hv]) (by rw [hv])
    refine ⟨hparked, fun w' hw => ⟨hother w' hw, by simp [hv, hw]⟩, fun _ => ⟨?_, by simp⟩⟩
    rw [hself, Set.ncard_insert_of_notMem hnot (h.finite w)]

end RtThread.Kernel
