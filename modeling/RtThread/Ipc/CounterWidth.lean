import RtThread.Kernel.ReadyQueue
import RtThread.Ipc.Mutex
import RtThread.Ipc.Semaphore

namespace RtThread

open Transition Option List Kernel Nat

variable {T W : Type}

inductive DepthCall
  | take (time : BitVec 32)
  | release
  deriving DecidableEq

variable {w : W} {t u : T} {s : Kernel T W × Mutex T} {m n : ℕ} {time : BitVec 32}

def Mutex.Free (x : Mutex T) : Prop := x.value = 1 ∧ x.owner = none ∧ x.hold = 0

theorem Mutex.Free.owner_ne {x : Mutex T} (h : x.Free) : x.owner ≠ some t := by
  rw [h.2.1]
  simp

variable [DecidableEq T]

theorem priority_setError (k : Kernel T W) (t u : T) (e : Err) : (k.setError t e).priority u = k.priority u := by
  obtain rfl | hu := eq_or_ne u t
  · simp [priority, setError, setThread]
  · simp [priority, setError, setThread, hu]

variable [DecidableEq W]

def mutexCall (w : W) (s : Kernel T W × Mutex T) : DepthCall → Option (Kernel T W × Mutex T)
  | .take time =>
    (mutexTake s.1 w s.2 time).bind (fun (k, x, r) => if r = .returned .eok then some (k, x) else none)
  | .release =>
    match mutexRelease s.1 w s.2 with
    | (k, x, e) => if e = .eok then some (k, x) else none

structure Held (w : W) (t : T) (depth : ℕ) (s : Kernel T W × Mutex T) : Prop where
  running : s.1.current = some t
  waiting : s.1.lists (.wait w) = []
  owner : s.2.owner = some t
  value : s.2.value = 0
  priority : s.2.originalPriority = s.1.priority t
  hold : s.2.hold = depth % 256

theorem take_free (hrun : s.1.current = some t) (hw : s.1.lists (.wait w) = []) (hfree : s.2.Free) (time : BitVec 32) :
    ∃ s', mutexCall w s (.take time) = some s' ∧ Held w t 1 s' := by
  obtain ⟨hv, ho, hh⟩ := hfree
  refine ⟨(s.1.setError t .eok, { s.2 with
    value := s.2.value - 1, owner := some t, originalPriority := (s.1.setError t .eok).priority t
    hold := (s.2.hold + 1) % 256 }), ?_, hrun, hw, rfl, ?_, rfl, ?_⟩
  · simp [mutexCall, mutexTake, hrun, ho, hv]
  · simp [hv]
  · simp [hh]

theorem Held.take (h : Held w t m s) (time : BitVec 32) :
    ∃ s', mutexCall w s (.take time) = some s' ∧ Held w t (m + 1) s' := by
  refine ⟨(s.1.setError t .eok, { s.2 with hold := (s.2.hold + 1) % 256 }), ?_, h.running, h.waiting,
    h.owner, h.value,
    ?_, ?_⟩
  · simp [mutexCall, mutexTake, h.running, h.owner]
  · rw [priority_setError]
    exact h.priority
  · simp [h.hold]

theorem Held.release (h : Held w t (m + 1) s) (hm : m % 256 ≠ 0) :
    ∃ s', mutexCall w s .release = some s' ∧ Held w t m s' := by
  have hhold : (s.2.hold + 255) % 256 = m % 256 := by
    rw [h.hold]
    omega
  refine ⟨(s.1, { s.2 with hold := (s.2.hold + 255) % 256 }), ?_, h.running, h.waiting, h.owner, h.value,
    h.priority, hhold⟩
  simp [mutexCall, mutexRelease, h.running, h.owner, hhold, hm]

theorem Held.free (h : Held w t (m + 1) s) (hm : m % 256 = 0) :
    ∃ s', mutexCall w s .release = some s' ∧ s'.2.Free := by
  have hhold : (s.2.hold + 255) % 256 = 0 := by
    rw [h.hold]
    omega
  refine ⟨(s.1, { s.2 with value := 1, owner := none, originalPriority := 0xff, hold := 0 }), ?_, rfl, rfl, rfl⟩
  simp [mutexCall, mutexRelease, h.running, h.owner, hhold, h.priority, h.waiting, h.value]

section

variable (h : Held w t m s)

include h

theorem Held.refuses (hu : u ≠ t) {r : Kernel T W × Mutex T × Outcome}
    (hr : mutexTake (s.1.dispatch u) w s.2 time = some r) : r.2.2 ≠ .returned .eok := by
  have hd : (s.1.dispatch u).current = some u := rfl
  simp only [mutexTake, hd, h.owner, h.value] at hr
  rw [if_neg (by simpa using hu.symm)] at hr
  by_cases hz : time = 0
  · rw [if_pos hz] at hr
    rw [← Option.some.inj hr]
    simp
  · rw [if_neg hz] at hr
    obtain ⟨k, -, rfl⟩ := map_eq_some_iff.mp hr
    simp

theorem Held.takes (times : List (BitVec 32)) :
    ∃ s', run (mutexCall w) s (times.map .take) = some s' ∧ Held w t (m + times.length) s' := by
  induction times generalizing s m with
  | nil => exact ⟨s, rfl, h⟩
  | cons time times ih =>
    obtain ⟨s₁, hcall, h₁⟩ := h.take time
    obtain ⟨s₂, hrun, h₂⟩ := ih h₁
    refine ⟨s₂, by rw [map_cons, run, hcall, bind_some, hrun], ?_⟩
    rwa [length_cons, add_comm times.length, ← add_assoc]

theorem Held.releases {i : ℕ} (hi : i ≤ m) (hnot : ∀ j < i, (m - (j + 1)) % 256 ≠ 0) :
    ∃ s', run (mutexCall w) s (List.replicate i .release) = some s' ∧ Held w t (m - i) s' := by
  induction i generalizing s m with
  | zero => exact ⟨s, rfl, h⟩
  | succ i ih =>
    obtain ⟨m, rfl⟩ : ∃ m', m = m' + 1 := ⟨m - 1, by omega⟩
    obtain ⟨s₁, hcall, h₁⟩ := h.release (by simpa using hnot 0 (succ_pos i))
    obtain ⟨s₂, hrun, h₂⟩ := ih h₁ (by omega) (fun j hj => by
      have := hnot (j + 1) (by omega)
      rwa [show m + 1 - (j + 1 + 1) = m - (j + 1) by omega] at this)
    refine ⟨s₂, by rw [replicate_succ, run, hcall, bind_some, hrun], ?_⟩
    rwa [show m + 1 - (i + 1) = m - i by omega]

theorem Held.freed {i : ℕ} (hi : i < m)
    (hnot : ∀ j < i, (m - (j + 1)) % 256 ≠ 0) (hlast : (m - (i + 1)) % 256 = 0) :
    ∃ s', run (mutexCall w) s (List.replicate (i + 1) .release) = some s' ∧ s'.2.Free := by
  obtain ⟨s₁, hrun, h₁⟩ := h.releases hi.le hnot
  rw [show m - i = m - (i + 1) + 1 by omega] at h₁
  obtain ⟨s₂, hcall, hfree⟩ := h₁.free hlast
  refine ⟨s₂, ?_, hfree⟩
  rw [replicate_succ', run_append hrun, run, hcall]
  rfl

end

theorem takes_of_free (hrun : s.1.current = some t) (hw : s.1.lists (.wait w) = []) (hfree : s.2.Free)
    (times : List (BitVec 32)) (hn : 0 < times.length) :
    ∃ s', run (mutexCall w) s (times.map .take) = some s' ∧ Held w t times.length s' := by
  obtain ⟨time, times, rfl⟩ := exists_cons_of_ne_nil (ne_nil_of_length_pos hn)
  obtain ⟨s₁, hcall, h₁⟩ := take_free hrun hw hfree time
  obtain ⟨s₂, hrun', h₂⟩ := h₁.takes times
  refine ⟨s₂, by rw [map_cons, run, hcall, bind_some, hrun'], ?_⟩
  rwa [length_cons, add_comm]

def CountsDepth (w : W) (t : T) (s : Kernel T W × Mutex T) (n : ℕ) : Prop :=
  ∀ times : List (BitVec 32), times.length = n → ∀ k < n, ∃ s',
    run (mutexCall w) s (times.map .take ++ List.replicate k .release) = some s' ∧ s'.2.owner = some t ∧
    (∀ u, u ≠ t → ∀ time r, mutexTake (s'.1.dispatch u) w s'.2 time = some r → r.2.2 ≠ .returned .eok) ∧
    ∀ i ≤ n - k, ∃ s'', run (mutexCall w) s' (List.replicate i .release) = some s'' ∧ (s''.2.Free ↔ i = n - k)

theorem mutex_counts_depth_iff (hrun : s.1.current = some t) (hw : s.1.lists (.wait w) = []) (hfree : s.2.Free)
    (hn : 1 ≤ n) : CountsDepth w t s n ↔ n ≤ 256 := by
  constructor
  · intro hlaw
    by_contra hlarge
    -- the first release that makes the depth a multiple of 256
    obtain ⟨j, hj, hlast, hnot⟩ : ∃ j, j + 1 < n ∧ (n - (j + 1)) % 256 = 0 ∧
      ∀ i < j, (n - (i + 1)) % 256 ≠ 0 :=
      ⟨(n + 255) % 256, by omega, by omega, fun i hi => by omega⟩
    have hlen : (replicate n (0 : BitVec 32)).length = n := length_replicate
    obtain ⟨s₁, hrun₁, hheld⟩ := takes_of_free hrun hw hfree (replicate n 0) (by omega)
    rw [hlen] at hheld
    obtain ⟨s₂, hrun₂, hfree₂⟩ := hheld.freed (by omega) hnot hlast
    obtain ⟨s', hcalls, howner, -⟩ := hlaw _ hlen (j + 1) hj
    rw [run_append hrun₁, hrun₂] at hcalls
    exact hfree₂.owner_ne (Option.some.inj hcalls ▸ howner)
  · rintro hle times rfl k hk
    obtain ⟨s₁, hrun₁, hheld⟩ := takes_of_free hrun hw hfree times hn
    obtain ⟨s₂, hrun₂, hheld₂⟩ := hheld.releases hk.le (fun j hj => by omega)
    refine ⟨s₂, by rw [run_append hrun₁, hrun₂], hheld₂.owner,
      fun u hu time r => hheld₂.refuses hu, fun i hi => ?_⟩
    obtain hlt | rfl := lt_or_eq_of_le hi
    · obtain ⟨s₃, hrun₃, hheld₃⟩ := hheld₂.releases hi (fun j hj => by omega)
      exact ⟨s₃, hrun₃, iff_of_false (fun hf => hf.owner_ne hheld₃.owner) (by omega)⟩
    · obtain ⟨i, hi'⟩ : ∃ i, times.length - k = i + 1 := ⟨times.length - k - 1, by omega⟩
      rw [hi'] at hheld₂ ⊢
      obtain ⟨s₃, hrun₃, hfree₃⟩ := hheld₂.freed (lt_succ_self i) (fun j hj => by omega) (by simp)
      exact ⟨s₃, hrun₃, iff_of_true hfree₃ rfl⟩

def nestingStart : Kernel Tid Unit × Mutex Tid :=
  ((bootKernel Tid.priority [.startup .mid, .startup .low, .schedulerStart]).dispatch .mid, mutexInit .fifo)

theorem mutex_counts_depth_two : CountsDepth () .mid nestingStart 2 :=
  (mutex_counts_depth_iff rfl (by decide) ⟨rfl, rfl, rfl⟩ (by decide)).mpr (by decide)

theorem mutex_freed_at_depth_256 : ∃ s : Kernel Tid Unit × Mutex Tid,
    run (mutexCall ()) nestingStart ((List.replicate 257 0).map .take ++ [.release]) = some s ∧ s.2.Free ∧
      ¬ CountsDepth () .mid nestingStart 257 := by
  have hwait : nestingStart.1.lists (.wait ()) = [] := by decide
  obtain ⟨s₁, hrun₁, hheld⟩ := takes_of_free rfl hwait ⟨rfl, rfl, rfl⟩
    (replicate 257 0) (by rw [length_replicate]; decide)
  rw [length_replicate] at hheld
  obtain ⟨s₂, hcall, hfree⟩ := hheld.free rfl
  have hrun : run (mutexCall ()) nestingStart ((replicate 257 0).map .take ++ [.release]) = some s₂ := by
    rw [run_append hrun₁, run, hcall]
    rfl
  refine ⟨s₂, hrun, hfree, fun hlaw => ?_⟩
  obtain ⟨s', hcalls, howner, -⟩ := hlaw (replicate 257 0) length_replicate 1 (by decide)
  rw [show replicate 1 DepthCall.release = [.release] from rfl, hrun] at hcalls
  exact hfree.owner_ne (Option.some.inj hcalls ▸ howner)

inductive UnitCall
  | release
  | trytake
  deriving DecidableEq

def semCall (w : W) (s : Kernel T W × Semaphore) : UnitCall → Option (Kernel T W × Semaphore)
  | .release =>
    match semRelease s.1 w s.2 with
    | (k, x, e) => if e = .eok then some (k, x) else none
  | .trytake => (semTrytake s.1 w s.2).bind (fun (k, x, r) => if r = .returned .eok then some (k, x) else none)

def Yields (w : W) (s : Kernel T W × Semaphore) (n : ℕ) : Prop :=
  ∃ s', run (semCall w) s (List.replicate n .trytake) = some s' ∧
    ∃ r, semTrytake s'.1 w s'.2 = some r ∧ r.2.2 = .returned .etimeout

section Units

variable (k : Kernel T W) (x : Semaphore)

theorem run_releases (hw : k.lists (.wait w) = []) (hx : x.value < 65536) (n : ℕ) :
    run (semCall w) (k, x) (List.replicate n .release) = some (k, { x with value := (x.value + n) % 65536 }) := by
  induction n with
  | zero =>
    rw [add_zero, mod_eq_of_lt hx]
    rfl
  | succ n ih =>
    rw [replicate_succ', run_append ih]
    simp [run, semCall, semRelease, hw, add_assoc]

theorem run_trytakes (n : ℕ) :
    run (semCall w) (k, x) (List.replicate n .trytake) =
      if n ≤ x.value then some (k, { x with value := x.value - n }) else none := by
  induction n generalizing x with
  | zero => rfl
  | succ n ih =>
    rw [replicate_succ, run, semCall, semTrytake_eq]
    by_cases hv : 0 < x.value
    · simp only [hv, if_true, bind_some, ih]
      by_cases hn : n + 1 ≤ x.value
      · rw [if_pos (by omega), if_pos hn, Nat.sub_sub, Nat.add_comm 1]
      · rw [if_neg (by omega), if_neg hn]
    · rw [if_neg hv, if_neg (by omega)]
      rfl

theorem yields_iff (n : ℕ) : Yields w (k, x) n ↔ n = x.value := by
  unfold Yields
  rw [run_trytakes]
  constructor
  · rintro ⟨s', hrun, r, hr, hout⟩
    split_ifs at hrun with hn
    rw [← Option.some.inj hrun, semTrytake_eq] at hr
    dsimp only at hr
    split_ifs at hr with hv
    · rw [← Option.some.inj hr] at hout
      simp at hout
    · omega
  · rintro rfl
    refine ⟨_, if_pos le_rfl, _, semTrytake_eq .., ?_⟩
    simp

end Units

theorem sem_yields_all_iff (k : Kernel T W) (hw : k.lists (.wait w) = []) (value : BitVec 32) (flag : IpcFlag)
    (releases : ℕ) :
    (∃ s, run (semCall w) (k, semInit value flag) (List.replicate releases .release) = some s ∧
      Yields w s (value.toNat + releases)) ↔ value.toNat + releases < 65536 := by
  have hlt : (semInit value flag).value < 65536 := mod_lt _ (by decide)
  have hvalue : (semInit value flag).value = value.toNat % 65536 := rfl
  rw [run_releases k _ hw hlt]
  simp only [Option.some.injEq, exists_eq_left', yields_iff, hvalue]
  omega

theorem sem_yields_five : ∃ s, run (semCall ()) (nestingStart.1, semInit 3 .fifo)
    (List.replicate 2 .release) = some s ∧
    Yields () s 5 :=
  (sem_yields_all_iff nestingStart.1 (by decide) 3 .fifo 2).mpr (by decide)

theorem sem_loses_units : Yields () (nestingStart.1, semInit 65536 .fifo) 0 ∧
    ¬ Yields () (nestingStart.1, semInit 65536 .fifo) 65536 := by
  rw [yields_iff, yields_iff]
  exact ⟨rfl, by decide⟩

end RtThread
