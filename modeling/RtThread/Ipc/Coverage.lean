import RtThread.Ipc.TimedWait

/-!
`owed w` is the number of threads of the suspend list `w` that could get through now; the calls below keep as many of
them resumed as long as one is left suspended.
-/

namespace RtThread.Kernel

open Function

variable {T W : Type}

structure Covered (k : Kernel T W) (pc : T → Option W) (owed : W → ℕ) : Prop where
  parked : k.Parked pc
  cover : ∀ w, k.view.waiting w ≠ [] → owed w ≤ (k.woken pc w).ncard

namespace Covered

variable {k k' : Kernel T W} {pc : T → Option W} {owed owed' : W → ℕ} {t : T} {w : W}

theorem start (hk : k.Wf) (hw : ∀ w, k.view.waiting w = []) (owed : W → ℕ) : k.Covered (fun _ => none) owed :=
  ⟨Parked.start hk hw, fun w hne => absurd (hw w) hne⟩

variable (h : k.Covered pc owed)

include h

theorem transfer {pc' : T → Option W} (hk : k'.Parked pc')
    (hwait : k'.view.waiting = k.view.waiting) (hwoken : ∀ w, k'.woken pc' w = k.woken pc w)
    (howed : ∀ w, owed' w ≤ owed w) : k'.Covered pc' owed' := by
  refine ⟨hk, fun w hne => ?_⟩
  rw [hwait] at hne
  rw [hwoken]
  exact (howed w).trans (h.cover w hne)

theorem mono (howed : ∀ w, owed' w ≤ owed w) : k.Covered pc owed' :=
  h.transfer h.parked rfl (fun _ => rfl) howed

theorem dispatch (t : T) : (k.dispatch t).Covered pc owed := by
  obtain ⟨hparked, hwoken⟩ := h.parked.of_view (h.parked.wf.dispatch t) (dispatch_view k t)
  exact h.transfer hparked (by rw [dispatch_view]) hwoken (fun _ => le_rfl)

theorem tick (tick : BitVec 32) : Covered { k with tick } pc owed := by
  have hwf : Kernel.Wf { k with tick } := h.parked.wf.congr rfl rfl rfl
  obtain ⟨hparked, hwoken⟩ := h.parked.of_view hwf rfl
  exact h.transfer hparked rfl hwoken (fun _ => le_rfl)

theorem quiet (hw : k.woken pc w = ∅) (howed : owed w ≠ 0) : k.view.waiting w = [] := by
  by_contra hne
  have hle := h.cover w hne
  rw [hw, Set.ncard_empty] at hle
  omega

variable [DecidableEq T] [DecidableEq W]

section

variable (hr : k.view.stat t = .ready)

include hr

section

omit [DecidableEq W]

theorem leave (htake : ∀ w, t ∈ k.woken pc w → k.view.waiting w ≠ [] → owed' w ≤ (k.woken pc w).ncard - 1)
    (howed : ∀ w, t ∉ k.woken pc w → owed' w ≤ owed w) : k.Covered (update pc t none) owed' := by
  obtain ⟨hparked, hwoken⟩ := h.parked.leave hr
  refine ⟨hparked, fun w hne => ?_⟩
  rw [hwoken]
  by_cases ht : t ∈ k.woken pc w
  · rw [Set.ncard_sdiff_singleton_of_mem ht]
    exact htake w ht hne
  · rw [Set.sdiff_singleton_eq_self ht]
    exact (howed w ht).trans (h.cover w hne)

theorem fail (hnone : ∀ w, t ∈ k.woken pc w → owed w = 0) {errno : Err} (hk : k'.Wf)
    (hv : k'.view = k.view.setError t errno) : k'.Covered (update pc t none) owed := by
  have hleft : k.Covered (update pc t none) owed :=
    h.leave hr (fun w ht _ => by rw [hnone w ht]; exact Nat.zero_le _) (fun _ _ => le_rfl)
  obtain ⟨hparked, hwoken⟩ := hleft.parked.own hk (update_self ..) hr (by rw [hv]) (by rw [hv]) (by rw [hv])
  exact hleft.transfer hparked (by rw [hv]) hwoken (fun _ => le_rfl)

end

theorem block (hw : owed w = 0) (hpc : ∀ w', t ∈ k.woken pc w' → w' = w) {flag : IpcFlag} (hk : k'.Wf)
    (hv : k'.view = k.view.parked w flag t) :
    k'.Covered (update pc t (some w)) owed := by
  obtain ⟨hparked, hwoken⟩ := h.parked.block (w := w) hk hr (by rw [hv]) (by rw [hv])
    (fun u => by simp [hv, mem_enqueue]) (fun w' hw' => by simp [hv, hw'])
  refine ⟨hparked, fun w' hne => ?_⟩
  by_cases he : w' = w
  · rw [he, hw]
    exact Nat.zero_le _
  · rw [hwoken, Set.sdiff_singleton_eq_self (fun ht => he (hpc w' ht))]
    refine h.cover w' ?_
    simpa [hv, he] using hne

end

theorem resumeFirst (hw : owed' w ≤ owed w + 1) (hne : ∀ w', w' ≠ w → owed' w' ≤ owed w') :
    (k.resumeFirst w).Covered pc owed' := by
  obtain ⟨hparked, hother, hself⟩ := h.parked.resumeFirst w
  refine ⟨hparked, fun w' hwait => ?_⟩
  by_cases he : w' = w
  · subst he
    obtain ⟨hcard, hbefore⟩ := hself hwait
    rw [hcard]
    exact hw.trans (Nat.succ_le_succ (h.cover w' hbefore))
  · obtain ⟨hwoken, hwaiting⟩ := hother w' he
    rw [hwaiting] at hwait
    rw [hwoken]
    exact (hne w' he).trans (h.cover w' hwait)

theorem expire (hk : k.timerExpire t = some k') : k'.Covered pc owed := by
  obtain ⟨hparked, hwoken, hv⟩ := h.parked.expire hk
  refine ⟨hparked, fun w hne => ?_⟩
  rw [hwoken]
  refine h.cover w (fun hnil => hne ?_)
  simp [hv, hnil]

end Covered

end RtThread.Kernel
