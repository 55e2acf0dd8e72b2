import RtThread.Kernel.HighestFirst

namespace RtThread

open Transition Function List Option

variable {T W : Type} [DecidableEq T] [DecidableEq W]

/-- `ran` are the threads that the ticks were charged to. No timer expires in these ticks. -/
structure TimeSlices (T W : Type) where
  kernel : Kernel T W
  initTick : T → BitVec 32
  remainingTick : T → BitVec 32
  ran : List T

namespace TimeSlices

def charge (s : TimeSlices T W) (t : T) (left : BitVec 32) (k : Kernel T W) : TimeSlices T W :=
  { s with kernel := k, remainingTick := update s.remainingTick t left, ran := s.ran ++ [t] }

def tickIncrease (s : TimeSlices T W) (_ : Unit) : Option (TimeSlices T W) :=
  let k := { s.kernel with tick := s.kernel.tick + 1 }
  match k.current with
  | none => none
  | some t =>
    let left := s.remainingTick t - 1
    if left = 0 then k.threadYield.map (fun r => s.charge t (s.initTick t) r.1)
    else some (s.charge t left k)

structure RoundRobin (k : Kernel T W) (p : ℕ) (l : List T) : Prop where
  wf : k.Wf
  unlocked : k.lockNest = 0
  highest : ∀ q < p, k.lists (.ready q) = []
  list : k.lists (.ready p) = l
  current : k.current = l.head?

variable {k : Kernel T W} {s : TimeSlices T W} {p n : ℕ} {t : T} {l r : List T}

namespace RoundRobin

theorem threadYield (h : RoundRobin k p (t :: l)) :
    ∃ r, k.threadYield = some r ∧ RoundRobin r.1 p (l ++ [t]) := by
  obtain ⟨hready, hp⟩ := ((h.wf.placed t).ready_iff p).mp (h.list ▸ mem_cons_self)
  have hcur : k.current = some t := h.current
  by_cases hl : l = []
  · subst hl
    exact ⟨(k, .eok), by simp [Kernel.threadYield, hcur, hp, h.list], h⟩
  let j := (k.listRemove t).listInsertBefore (.ready p) t
  have hyield : k.threadYield = some (j.schedule, .eok) := by
    simp [Kernel.threadYield, hcur, hp, h.list, hready, hl, j]
  have hwf := h.wf.threadYield hyield
  have hj : j.Wf := hwf.congr j.schedule_thread.symm j.schedule_lists.symm j.schedule_readyGroup.symm
  have hlist : j.lists (.ready p) = l ++ [t] := by simp [j, Kernel.listInsertBefore, h.list]
  have hhighest : ∀ q < p, j.lists (.ready q) = [] := by
    intro q hq
    simp [j, Kernel.listInsertBefore, h.highest q hq, hq.ne]
  obtain ⟨q, hleast, hhead⟩ := hj.runsHighest h.unlocked (t := t) hready
  obtain rfl : q = p := by
    refine le_antisymm (hleast.2 (by simp [hlist])) (not_lt.mp fun hlt => ?_)
    exact hleast.1 (hhighest q hlt)
  refine ⟨_, hyield, hwf, ?_, by simpa using hhighest, by simpa using hlist, by rw [hhead, hlist]⟩
  rw [Kernel.schedule]
  split_ifs <;> exact h.unlocked

theorem tickIncrease (h : RoundRobin s.kernel p (t :: l)) :
    ∃ k, RoundRobin k p (if s.remainingTick t - 1 = 0 then l ++ [t] else t :: l) ∧ s.tickIncrease () =
      some (s.charge t (if s.remainingTick t - 1 = 0 then s.initTick t else s.remainingTick t - 1) k) := by
  have hk : RoundRobin { s.kernel with tick := s.kernel.tick + 1 } p (t :: l) :=
    ⟨h.wf.congr rfl rfl rfl, h.unlocked, h.highest, h.list, h.current⟩
  unfold TimeSlices.tickIncrease
  generalize ({ s.kernel with tick := s.kernel.tick + 1 } : Kernel T W) = k at hk ⊢
  simp only [hk.current, head?_cons]
  split_ifs
  · obtain ⟨r, hr, hnext⟩ := hk.threadYield
    exact ⟨r.1, hnext, by rw [hr, map_some]⟩
  · exact ⟨k, hk, rfl⟩

theorem slice (h : RoundRobin s.kernel p (t :: l)) (hn : (s.remainingTick t).toNat = n + 1) :
    ∃ k, RoundRobin k p (l ++ [t]) ∧ run TimeSlices.tickIncrease s (replicate (n + 1) ()) = some { s with
      kernel := k, remainingTick := update s.remainingTick t (s.initTick t), ran := s.ran ++ replicate (n + 1) t } := by
  induction n generalizing s with
  | zero =>
    obtain ⟨k, hk, htick⟩ := h.tickIncrease
    have hone : s.remainingTick t = 1 := BitVec.eq_of_toNat_eq hn
    rw [if_pos (by rw [hone]; rfl)] at hk htick
    exact ⟨k, hk, by rw [replicate_succ, run, htick]; rfl⟩
  | succ n ih =>
    obtain ⟨k, hk, htick⟩ := h.tickIncrease
    have hleft : (s.remainingTick t - 1).toNat = n + 1 := by
      rw [BitVec.toNat_sub_of_le (by simp [BitVec.le_def, hn]), hn]
      rfl
    have hne : s.remainingTick t - 1 ≠ 0 := fun hz => absurd (hz ▸ hleft) (by simp)
    rw [if_neg hne] at hk htick
    obtain ⟨k', hk', hrun⟩ := ih (s := s.charge t (s.remainingTick t - 1) k) hk (by simpa [charge] using hleft)
    refine ⟨k', hk', ?_⟩
    rw [replicate_succ, run, htick, bind_some, hrun]
    simp [charge, replicate_succ]

end RoundRobin

theorem time_slices (h : RoundRobin s.kernel p (l ++ r))
    (hfull : ∀ t ∈ l, s.remainingTick t = s.initTick t ∧ s.initTick t ≠ 0) :
    let slices := l.flatMap (fun t => replicate (s.initTick t).toNat t)
    ∃ k, RoundRobin k p (r ++ l) ∧ run tickIncrease s (replicate slices.length ()) =
      some { s with kernel := k, ran := s.ran ++ slices } := by
  induction l generalizing s r with
  | nil => exact ⟨s.kernel, by simpa using h, by simp [run]⟩
  | cons t l ih =>
    obtain ⟨⟨hremaining, hinit⟩, hl⟩ := forall_mem_cons.mp hfull
    obtain ⟨m, hm⟩ := Nat.exists_eq_succ_of_ne_zero (fun hz => hinit (BitVec.eq_of_toNat_eq hz))
    obtain ⟨k, hk, hrun⟩ := RoundRobin.slice (l := l ++ r) h (hremaining ▸ hm)
    rw [append_assoc] at hk
    obtain ⟨k', hk', hrest⟩ := ih (s := { s with kernel := k, ran := s.ran ++ replicate (m + 1) t }) hk hl
    refine ⟨k', by simpa using hk', ?_⟩
    rw [← hremaining, update_eq_self] at hrun
    simp only [flatMap_cons, length_append, length_replicate, replicate_add]
    rw [hm, run_append hrun, hrest, append_assoc]

def equalTid : Kernel Tid Unit :=
  bootKernel (fun _ => 20) [.startup .low, .startup .mid, .startup .high, .schedulerStart]

theorem time_slices_three : let tick := fun t : Tid => if t = .low then 3 else 2
    ∃ k, RoundRobin k 20 [.low, .mid, .high] ∧ run tickIncrease ⟨equalTid, tick, tick, []⟩ (replicate 7 ()) =
      some ⟨k, tick, tick, [.low, .low, .low, .mid, .mid, .high, .high]⟩ := by
  have hwf : equalTid.Wf := bootKernel_wf (by decide) _
  exact time_slices (l := [Tid.low, .mid, .high]) (r := []) ⟨hwf, by decide, by decide, by decide, by decide⟩
    (by decide)

end TimeSlices

end RtThread
