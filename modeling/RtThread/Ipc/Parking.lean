import Mathlib.Data.Set.Finite.Basic
import RtThread.Ipc.View

/-!
`pc t` is the suspend list on which the thread `t` was parked by the call it
has not returned from.
-/

namespace RtThread.Kernel

open Function

variable {T W : Type}

def woken (k : Kernel T W) (pc : T → Option W) (w : W) : Set T :=
  { t | pc t = some w ∧ k.view.stat t = .ready ∧ k.view.error t = .eok }

structure Parked (k : Kernel T W) (pc : T → Option W) : Prop where
  wf : k.Wf
  inCall : ∀ t w, t ∈ k.view.waiting w → pc t = some w ∧ k.view.error t = .eok
  finite : ∀ w, (k.woken pc w).Finite

variable {k k' : Kernel T W} {pc : T → Option W} {t : T} {w : W}

theorem woken_none (h : pc t = none) : t ∉ k.woken pc w := by
  simp [woken, h]

theorem woken_suspended (h : k.view.stat t = .suspend) : t ∉ k.woken pc w := by
  simp [woken, h]

theorem Wf.not_waiting (h : k.Wf) (hr : k.view.stat t = .ready) (w : W) : t ∉ k.view.waiting w := by
  intro hm
  have hs := h.view_suspend hm
  simp [hr] at hs

theorem Parked.start (hk : k.Wf) (hw : ∀ w, k.view.waiting w = []) : k.Parked (fun _ => none) := by
  refine ⟨hk, ?_, ?_⟩
  · intro t w ht; simp [hw] at ht
  · intro w
    have hempty : k.woken (fun _ => none) w = ∅ := Set.eq_empty_of_forall_notMem (fun t => woken_none rfl)
    simp [hempty]

theorem Parked.of_woken (h : k.Parked pc) (hk : k'.Wf) (hwoken : ∀ w, k'.woken pc w = k.woken pc w)
    (hin : ∀ u w, u ∈ k'.view.waiting w → u ∈ k.view.waiting w ∧ k'.view.error u = k.view.error u) :
    k'.Parked pc ∧ ∀ w, k'.woken pc w = k.woken pc w := by
  refine ⟨⟨hk, fun u w hu => ?_, fun w => by rw [hwoken]; exact h.finite w⟩, hwoken⟩
  rw [(hin u w hu).2]
  exact h.inCall u w (hin u w hu).1

theorem Parked.of_view (h : k.Parked pc) (hk : k'.Wf) (hv : k'.view = k.view) :
    k'.Parked pc ∧ ∀ w, k'.woken pc w = k.woken pc w :=
  h.of_woken hk (fun w => by simp only [woken, hv]) (fun u w hu => by rw [hv] at hu ⊢; exact ⟨hu, rfl⟩)

variable [DecidableEq T] [DecidableEq W]

theorem Wf.park_view {k k' : Kernel T W} (hk : k.Wf) {w : W} {t : T} {flag : IpcFlag} {time : BitVec 32}
    (hr : k.view.stat t = .ready) (h : (k.setError t .eok).suspendFor w t flag time = some k') :
    k'.Wf ∧ k'.view = k.view.parked w flag t := by
  have hr' : (k.setError t .eok).view.stat t = .ready := by rw [setError_view]; exact hr
  obtain ⟨hw, hv⟩ := (hk.setError t .eok).suspendFor_view hr' h
  exact ⟨hw, by rw [hv, setError_view]⟩

variable (h : k.Parked pc)

include h

section

variable (hk : k'.Wf)

include hk

section

omit [DecidableEq W]

theorem Parked.own (hpc : pc t = none) {e : Err} (hr : k.view.stat t = .ready) (hs : k'.view.stat = k.view.stat)
    (he : k'.view.error = update k.view.error t e) (hw : k'.view.waiting = k.view.waiting) :
    k'.Parked pc ∧ ∀ w, k'.woken pc w = k.woken pc w := by
  refine h.of_woken hk (fun w => ?_) (fun u w hu => ?_)
  · ext u
    by_cases hu : u = t
    · subst hu; exact iff_of_false (woken_none hpc) (woken_none hpc)
    · simp [woken, hs, he, hu]
  · rw [hw] at hu
    have hne : u ≠ t := fun he => h.wf.not_waiting hr w (he ▸ hu)
    exact ⟨hu, by rw [he, update_of_ne hne]⟩

theorem Parked.timeout (hsus : k.view.stat t = .suspend) (hs : k'.view.stat = update k.view.stat t .ready)
    (he : k'.view.error = update k.view.error t .etimeout)
    (hw : ∀ w, k'.view.waiting w = (k.view.waiting w).erase t) :
    k'.Parked pc ∧ ∀ w, k'.woken pc w = k.woken pc w := by
  refine h.of_woken hk (fun w => ?_) (fun u w hu => ?_)
  · ext u
    by_cases hu : u = t
    · subst hu; exact iff_of_false (by simp [woken, he]) (woken_suspended hsus)
    · simp [woken, hs, he, hu]
  · rw [hw, (h.wf.view_nodup w).mem_erase_iff] at hu
    exact ⟨hu.2, by rw [he, update_of_ne hu.1]⟩

end

theorem Parked.block (hr : k.view.stat t = .ready) (hs : k'.view.stat = update k.view.stat t .suspend)
    (he : k'.view.error = update k.view.error t .eok)
    (hself : ∀ u, u ∈ k'.view.waiting w ↔ u = t ∨ u ∈ k.view.waiting w)
    (hother : ∀ w', w' ≠ w → k'.view.waiting w' = k.view.waiting w') :
    k'.Parked (update pc t (some w)) ∧
      ∀ w', k'.woken (update pc t (some w)) w' = k.woken pc w' \ {t} := by
  have hwoken : ∀ w', k'.woken (update pc t (some w)) w' = k.woken pc w' \ {t} := by
    intro w'
    ext u
    by_cases hu : u = t
    · subst hu; simp [woken, hs]
    · simp [woken, hs, he, hu]
  refine ⟨⟨hk, ?_, fun w' => by rw [hwoken]; exact (h.finite w').sdiff⟩, hwoken⟩
  intro u w' hu
  obtain rfl | hut := eq_or_ne u t
  · obtain rfl : w' = w := by
      by_contra hw
      rw [hother w' hw] at hu
      exact h.wf.not_waiting hr w' hu
    simp [he]
  · rw [he, update_of_ne hut, update_of_ne hut]
    by_cases hw : w' = w
    · subst hw
      exact h.inCall u w' (((hself u).mp hu).resolve_left hut)
    · rw [hother w' hw] at hu
      exact h.inCall u w' hu

theorem Parked.resume {l : List T} (hl : k.view.waiting w = t :: l)
    (hs : k'.view.stat = update k.view.stat t .ready) (he : k'.view.error = k.view.error)
    (hw : k'.view.waiting = update k.view.waiting w l) :
    k'.Parked pc ∧ t ∉ k.woken pc w ∧ k'.woken pc w = insert t (k.woken pc w) ∧
      ∀ w', w' ≠ w → k'.woken pc w' = k.woken pc w' := by
  have hmem : t ∈ k.view.waiting w := by simp [hl]
  obtain ⟨hpc, herr⟩ := h.inCall t w hmem
  have hsus := h.wf.view_suspend hmem
  have hself : k'.woken pc w = insert t (k.woken pc w) := by
    ext u
    by_cases hu : u = t
    · subst hu; simp [woken, hs, he, hpc, herr]
    · simp [woken, hs, he, hu]
  have hother : ∀ w', w' ≠ w → k'.woken pc w' = k.woken pc w' := by
    intro w' hne
    ext u
    by_cases hu : u = t
    · subst hu; simp [woken, hpc, hne.symm]
    · simp [woken, hs, he, hu]
  refine ⟨⟨hk, ?_, ?_⟩, woken_suspended hsus, hself, hother⟩
  · intro u w' hu
    rw [he]
    refine h.inCall u w' ?_
    by_cases hne : w' = w
    · subst hne
      rw [hw, update_self] at hu
      simp [hl, hu]
    · simpa [hw, hne] using hu
  · intro w'
    by_cases hne : w' = w
    · subst hne; rw [hself]; exact (h.finite w').insert t
    · rw [hother w' hne]; exact h.finite w'

theorem Parked.resumeAll (hv : k'.view = k.view.resumedAll w) :
    k'.Parked pc ∧ ∀ w, k'.woken pc w = k.woken pc w := by
  refine h.of_woken hk (fun w' => ?_) (fun u w' hu => ?_)
  · ext u
    by_cases hu : u ∈ k.view.waiting w
    · exact iff_of_false (by simp [woken, hv, hu]) (woken_suspended (h.wf.view_suspend hu))
    · simp [woken, hv, hu]
  · have hne : w' ≠ w := fun hne => by simp [hv, hne] at hu
    have hmem : u ∈ k.view.waiting w' := by simpa [hv, hne] using hu
    exact ⟨hmem, by rw [hv]; exact if_neg (fun hu' => hne (h.wf.view_unique hmem hu'))⟩

end

theorem Parked.ipcListResumeAll (w : W) :
    (k.ipcListResumeAll w).Parked pc ∧ (∀ w', (k.ipcListResumeAll w).woken pc w' = k.woken pc w') ∧
      (k.ipcListResumeAll w).view = k.view.resumedAll w := by
  obtain ⟨hk, hv⟩ := h.wf.ipcListResumeAll_view w
  obtain ⟨hparked, hwoken⟩ := h.resumeAll hk hv
  exact ⟨hparked, hwoken, hv⟩

theorem Parked.resetList (w : W) : (k.ipcListResumeAll w).schedule.Parked pc ∧
      (∀ w', (k.ipcListResumeAll w).schedule.woken pc w' = k.woken pc w') ∧
      (k.ipcListResumeAll w).schedule.view = k.view.resumedAll w := by
  obtain ⟨hparked, hwoken, hv⟩ := h.ipcListResumeAll w
  obtain ⟨hparked', hwoken'⟩ := hparked.of_view hparked.wf.schedule (schedule_view _)
  exact ⟨hparked', fun w' => (hwoken' w').trans (hwoken w'), (schedule_view _).trans hv⟩

theorem Parked.expire (hk : k.timerExpire t = some k') :
    k'.Parked pc ∧ (∀ w, k'.woken pc w = k.woken pc w) ∧ k'.view = k.view.expired t := by
  obtain ⟨hw, hst, hv⟩ := h.wf.timerExpire_view hk
  obtain ⟨hparked, hwoken⟩ := h.timeout hw hst (by rw [hv]) (by rw [hv]) (fun w => by rw [hv])
  exact ⟨hparked, hwoken, hv⟩

omit [DecidableEq W]

theorem Parked.leave (hr : k.view.stat t = .ready) : k.Parked (update pc t none) ∧
      ∀ w, k.woken (update pc t none) w = k.woken pc w \ {t} := by
  have hwoken : ∀ w, k.woken (update pc t none) w = k.woken pc w \ {t} := by
    intro w
    ext u
    by_cases hu : u = t
    · subst hu; simp [woken]
    · simp [woken, hu]
  refine ⟨⟨h.wf, ?_, fun w => by rw [hwoken]; exact (h.finite w).sdiff⟩, hwoken⟩
  intro u w hu
  have hne : u ≠ t := fun he => h.wf.not_waiting hr w (he ▸ hu)
  rw [update_of_ne hne]
  exact h.inCall u w hu

end RtThread.Kernel
