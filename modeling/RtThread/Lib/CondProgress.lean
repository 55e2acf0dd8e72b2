import Mathlib.Algebra.Order.BigOperators.Group.Finset
import RtThread.Lib.CondDiscipline

namespace CondMonitor

open Function State Place

variable {T C L D τ X : Type*} [DecidableEq T] {P : Program T C L D τ X} {s s' : State T C L D} {t u : T}
  {c : C} {cmd : Cmd C L D τ}

theorem Place.Pushed.due_or {p q : Place C} {r : Result} (h : p.Pushed q) (hq : q.Due r) :
    p.Due r ∨ ∃ c a, p = .parked c a ∧ q = .woken .done := by
  cases h with
  | same | hand => exact .inl hq
  | wake => exact .inr ⟨_, _, rfl, rfl⟩

def Place.rank : Place C → ℕ
  | .run => 5
  | .dropped _ _ => 4
  | .parked _ _ => 3
  | .woken _ => 2
  | .queued _ | .handed _ => 1

theorem Place.Pushed.rank {p q : Place C} (h : p.Pushed q) : q.rank ≤ p.rank := by
  cases h with
  | same | hand => exact le_rfl
  | wake => exact Nat.le_succ 2

variable [DecidableEq C]

theorem step_isSome_of_free (hf : (s.place t).Free) {x : X}
    (hcmd : s.place t = .run → (P.cmd t (s.label t) s.data x).isSome) :
    (s.step P (.run t x)).isSome := by
  rw [step, turn]
  cases hp : s.place t with
  | run =>
    rw [Option.isSome_map]
    exact hcmd hp
  | queued r | parked c p =>
    rw [hp] at hf
    exact hf.elim
  | handed r | dropped c p | woken r => rfl

def Posts (P : Program T C L D τ X) (s : State T C L D) : Event T X → Prop
  | .run t x => s.place t = .run ∧ ∃ cmd c, P.cmd t (s.label t) s.data x = some cmd ∧
      (cmd = .signal c ∨ cmd = .broadcast c)
  | .expire _ => False

theorem State.exec_quiet (s : State T C L D) (t : T) (hs : ∀ c, cmd ≠ .signal c)
    (hb : ∀ c, cmd ≠ .broadcast c) :
    (s.exec P t cmd).list = s.list ∧ ∀ c, (s.exec P t cmd).value c ≤ s.value c := by
  have hpass : s.pass.list = s.list ∧ ∀ c, s.pass.value c ≤ s.value c := by
    unfold pass
    cases s.queue <;> exact ⟨rfl, fun _ => le_rfl⟩
  cases cmd with
  | lock =>
    unfold exec enter
    dsimp only
    split_ifs
    · exact ⟨rfl, fun _ => le_rfl⟩
    · split
      · exact ⟨rfl, fun _ => le_rfl⟩
      · split_ifs <;> exact ⟨rfl, fun _ => le_rfl⟩
  | unlock =>
    unfold exec
    split_ifs
    · exact hpass
    · exact ⟨rfl, fun _ => le_rfl⟩
    · exact ⟨rfl, fun _ => le_rfl⟩
  | wait c time =>
    unfold exec
    dsimp only
    split_ifs
    · exact hpass
    · exact ⟨rfl, fun _ => le_rfl⟩
  | signal c => exact absurd rfl (hs c)
  | broadcast c => exact absurd rfl (hb c)
  | tryTake c =>
    unfold exec
    dsimp only
    split_ifs
    · refine ⟨rfl, fun c' => ?_⟩
      exact update_le_iff.mpr ⟨Nat.sub_le _ _, fun _ _ => le_rfl⟩ c'
    · exact ⟨rfl, fun _ => le_rfl⟩
  | clear c => exact ⟨rfl, fun c' => update_le_iff.mpr ⟨Nat.zero_le _, fun _ _ => le_rfl⟩ c'⟩
  | assign d l => exact ⟨rfl, fun _ => le_rfl⟩

variable {e : Event T X}

theorem Inv.wake_step (h : Inv s) (hs : s.step P e = some s') (hu : e.thread ≠ u) {p : Patience}
    (hp : s.place u = .parked c p) (hne : s'.place u ≠ .parked c p) : Posts P s e := by
  have h' := h.step hs
  have hut : u ≠ e.thread := hu.symm
  cases step_effect hs with
  | @exec t x cmd hrun hcmd =>
    by_contra hnone
    have hlist : (s.exec P t cmd).list = s.list := (s.exec_quiet t (fun c hc => hnone ⟨hrun, cmd, c, hcmd, .inl hc⟩)
      (fun c hc => hnone ⟨hrun, cmd, c, hcmd, .inr hc⟩)).1
    obtain ⟨p', hp'⟩ := (h'.parked u c).mp (by rw [hlist]; exact (h.parked u c).mpr ⟨p, hp⟩)
    have hpush : (s.place u).Pushed ((s.exec P t cmd).place u) := h.pushed_exec hut cmd
    rw [hp, hp'] at hpush
    cases hpush
    exact hne hp'
  | handed hr => exact absurd ((update_of_ne hut _ _).trans hp) hne
  | take hd =>
    refine absurd ?_ hne
    rw [← hp]
    unfold State.take
    split_ifs <;> exact update_of_ne hut _ _
  | back hr =>
    refine absurd ?_ hne
    rw [← hp]
    unfold State.enter
    split
    · exact update_of_ne hut _ _
    · split_ifs <;> exact update_of_ne hut _ _
  | expired hd => exact absurd ((update_of_ne hut _ _).trans hp) hne

theorem posts_of_value (hs : s.step P e = some s') (hv : s.value c < s'.value c) : Posts P s e := by
  cases step_effect hs with
  | @exec t x cmd hrun hcmd =>
    by_contra hnone
    have hle := (s.exec_quiet (P := P) t (fun c hc => hnone ⟨hrun, cmd, c, hcmd, .inl hc⟩)
      (fun c hc => hnone ⟨hrun, cmd, c, hcmd, .inr hc⟩)).2 c
    exact absurd hv (not_lt.mpr hle)
  | handed hr => exact absurd hv (lt_irrefl _)
  | @take t x c' p hd =>
    refine absurd hv (not_lt.mpr ?_)
    unfold take
    split_ifs
    · exact update_le_iff.mpr ⟨Nat.sub_le _ _, fun _ _ => le_rfl⟩ c
    · exact le_rfl
    · exact le_rfl
  | @back t x r hr =>
    refine absurd hv (not_lt.mpr ?_)
    unfold enter
    split
    · exact le_rfl
    · split_ifs <;> exact le_rfl
  | expired hd => exact absurd hv (lt_irrefl _)

theorem rank_step (hs : s.step P e = some s') (he : e.thread = t) :
    (∃ x cmd, P.cmd t (s.label t) s.data x = some cmd ∧ cmd.After P (s.owner = some t) (s.label t) (s'.label t)) ∨
      (s.place t ≠ .run ∧ ∃ r, s'.label t = P.ret (s.label t) r) ∨
      s'.label t = s.label t ∧ (s'.place t).rank < (s.place t).rank := by
  cases step_effect hs with
  | @exec t' x cmd hrun hcmd =>
    obtain rfl : t' = t := he
    obtain ⟨-, hafter⟩ | ⟨hlabel, ⟨-, r, hr⟩ | ⟨c, time, -, hd⟩⟩ := exec_self s t' cmd
    · exact .inl ⟨x, cmd, hcmd, hafter⟩
    · refine .inr (.inr ⟨hlabel, ?_⟩)
      rw [hr, hrun]
      simp [rank]
    · refine .inr (.inr ⟨hlabel, ?_⟩)
      rw [hd, hrun]
      simp [rank]
  | @handed t' x r hr =>
    obtain rfl : t' = t := he
    exact .inr (.inl ⟨by rw [hr]; simp, r, update_self ..⟩)
  | @take t' x c p hd =>
    obtain rfl : t' = t := he
    refine .inr (.inr ⟨congrFun (s.take_label t' c p).1 t', ?_⟩)
    rw [hd]
    unfold take
    split_ifs <;> simp [rank]
  | @back t' x r hr =>
    obtain rfl : t' = t := he
    have hne : s.place t' ≠ .run := by
      rw [hr]
      simp
    unfold enter
    split
    · exact .inr (.inl ⟨hne, r, update_self ..⟩)
    · split_ifs
      · exact .inr (.inl ⟨hne, r, update_self ..⟩)
      · refine .inr (.inr ⟨rfl, ?_⟩)
        rw [hr]
        simp [rank]
  | @expired t' c hd =>
    obtain rfl : t' = t := he
    refine .inr (.inr ⟨rfl, ?_⟩)
    rw [hd]
    simp [rank]

def State.weight [Fintype T] (w : L → ℕ) (s : State T C L D) : ℕ := ∑ t, (6 * w (s.label t) + (s.place t).rank)

theorem Inv.weight_step [Fintype T] (h : Inv s) {w : L → ℕ}
    (hcmd : ∀ {t d x cmd own l l'}, P.cmd t l d x = some cmd → cmd.After P own l l' → w l' < w l)
    (hret : ∀ {l r}, Calling P l → w (P.ret l r) < w l)
    (hcall : ∀ t, s.place t ≠ .run → Calling P (s.label t))
    (hs : s.step P e = some s') : s'.weight w < s.weight w := by
  have hrank : ∀ p : Place C, p.rank ≤ 5 := by
    intro p
    cases p <;> simp [rank]
  have ht : 6 * w (s'.label e.thread) + (s'.place e.thread).rank < 6 * w (s.label e.thread) +
    (s.place e.thread).rank := by
    have hle := hrank (s'.place e.thread)
    obtain ⟨x, cmd, hc, hafter⟩ | ⟨hne, r, hl⟩ | ⟨hl, hlt⟩ := rank_step hs rfl
    · have := hcmd hc hafter
      omega
    · have := hret (r := r) (hcall e.thread hne)
      rw [hl]
      omega
    · rw [hl]
      omega
  refine Finset.sum_lt_sum (fun u _ => ?_) ⟨e.thread, Finset.mem_univ _, ht⟩
  by_cases hu : e.thread = u
  · rw [← hu]
    exact ht.le
  · rw [label_of_step hs hu]
    exact Nat.add_le_add_left (h.pushed_step hs hu).rank _

end CondMonitor
