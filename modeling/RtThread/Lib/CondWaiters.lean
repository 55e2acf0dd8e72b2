import Mathlib.Data.Fintype.Powerset
import RtThread.Lib.CondDiscipline

namespace CondMonitor

open Function State

variable {T C L D τ X : Type*} {P : Program T C L D τ X} {s s' : State T C L D} {t u : T}
  {c : C} {cmd : Cmd C L D τ}

def State.Served (s : State T C L D) (c : C) : Prop :=
  s.list c = [] ∧ ∀ F : Finset T, (∀ t ∈ F, (s.place t).Dropped c) → F.card ≤ s.value c

def State.Reaches (s : State T C L D) (c : C) : Prop :=
  ∀ F : Finset T, (∀ t ∈ F, (s.place t).Dropped c) → F.card ≤ if s.value c = 0 then 1 else s.value c

theorem State.Served.mono (h : s.Served c) (hl : s'.list c = []) (hv : s.value c ≤ s'.value c)
    (hd : ∀ u, (s'.place u).Dropped c → (s.place u).Dropped c) : s'.Served c :=
  ⟨hl, fun F hF => (h.2 F (fun t ht => hd t (hF t ht))).trans hv⟩

variable [DecidableEq T]

theorem State.pass_units (s : State T C L D) : s.pass.value = s.value ∧ s.pass.list = s.list := by
  unfold pass
  cases s.queue <;> exact ⟨rfl, rfl⟩

theorem State.enter_units (s : State T C L D) (t : T) (r : Result) (l : L) :
    (s.enter t r l).value = s.value ∧ (s.enter t r l).list = s.list := by
  unfold enter
  split
  · exact ⟨rfl, rfl⟩
  · split_ifs <;> exact ⟨rfl, rfl⟩

variable [DecidableEq C]

instance [Fintype T] (s : State T C L D) (c : C) : Decidable (s.Served c) := instDecidableAnd

instance [Fintype T] (s : State T C L D) (c : C) : Decidable (s.Reaches c) :=
  inferInstanceAs (Decidable (∀ F : Finset T, (∀ t ∈ F, (s.place t).Dropped c) →
    F.card ≤ if s.value c = 0 then 1 else s.value c))

def Cmd.Drains (c : C) : Cmd C L D τ → Prop
  | .wait c' _ | .tryTake c' | .clear c' => c' = c
  | .lock | .unlock | .signal _ | .broadcast _ | .assign _ _ => False

def Lasts (P : Program T C L D τ X) (s : State T C L D) (c : C) : Event T X → Prop
  | .run t x => s.place t = .run → ∀ cmd, P.cmd t (s.label t) s.data x = some cmd →
      ¬ cmd.Drains c ∧ (cmd = .signal c → s.value c + 1 < P.limit)
  | .expire _ => True

theorem State.grant_units_of_ne (s : State T C L D) (n : ℕ) {c' : C} (hc : c ≠ c') :
    (s.grant n c').value c = s.value c ∧ (s.grant n c').list c = s.list c := by
  unfold grant
  cases s.list c' with
  | nil => exact ⟨update_of_ne hc _ _, rfl⟩
  | cons u q => exact ⟨rfl, update_of_ne hc _ _⟩

theorem State.exec_units (s : State T C L D) (t : T) (hd : ¬ cmd.Drains c)
    (hw : cmd = .signal c → s.value c + 1 < P.limit) :
    s.value c ≤ (s.exec P t cmd).value c ∧ (s.list c = [] → (s.exec P t cmd).list c = []) := by
  cases cmd with
  | lock =>
    obtain ⟨hv, hl⟩ := s.enter_units t .done (P.ret (s.label t) .done)
    unfold exec
    dsimp only
    split_ifs
    · exact ⟨le_rfl, id⟩
    · rw [hv, hl]
      exact ⟨le_rfl, id⟩
  | unlock =>
    obtain ⟨hv, hl⟩ := s.pass_units
    unfold exec
    split_ifs
    · rw [moveTo_value, setPlace_value, moveTo_list, setPlace_list, hv, hl]
      exact ⟨le_rfl, id⟩
    · exact ⟨le_rfl, id⟩
    · exact ⟨le_rfl, id⟩
  | wait c' time =>
    obtain ⟨hv, hl⟩ := s.pass_units
    unfold exec
    dsimp only
    split_ifs
    · rw [setPlace_value, setPlace_list, hv, hl]
      exact ⟨le_rfl, id⟩
    · exact ⟨le_rfl, id⟩
  | signal c' =>
    unfold exec
    rw [moveTo_value, setPlace_value, moveTo_list, setPlace_list]
    by_cases hc : c = c'
    · subst hc
      unfold grant
      cases hl : s.list c with
      | nil =>
        refine ⟨?_, fun _ => hl⟩
        rw [setValue_value, update_self, Nat.mod_eq_of_lt (hw rfl)]
        exact Nat.le_succ _
      | cons u q => exact ⟨le_rfl, fun he => absurd he (by simp)⟩
    · obtain ⟨hv, hl⟩ := s.grant_units_of_ne P.limit hc
      rw [hv, hl]
      exact ⟨le_rfl, id⟩
  | broadcast c' =>
    unfold exec
    rw [moveTo_value, setPlace_value, moveTo_list, setPlace_list, grantAll_value,
      grantAll_list, setValue_value, setValue_list, setList_list]
    by_cases hc : c = c'
    · subst hc
      rw [update_self, update_self]
      refine ⟨?_, fun _ => rfl⟩
      split_ifs <;> omega
    · rw [update_of_ne hc, update_of_ne hc]
      exact ⟨le_rfl, id⟩
  | tryTake c' =>
    have hc : c ≠ c' := fun he => hd he.symm
    unfold exec
    dsimp only
    split_ifs
    · rw [moveTo_value, setPlace_value, setValue_value, update_of_ne hc]
      exact ⟨le_rfl, id⟩
    · exact ⟨le_rfl, id⟩
  | clear c' =>
    have hc : c ≠ c' := fun he => hd he.symm
    unfold exec
    rw [moveTo_value, setPlace_value, setValue_value, update_of_ne hc]
    exact ⟨le_rfl, id⟩
  | assign d l => exact ⟨le_rfl, id⟩

variable {e : Event T X}

theorem Inv.dropped_step (h : Inv s) (hs : s.step P e = some s') (hl : Lasts P s c e)
    (hu : (s'.place u).Dropped c) : (s.place u).Dropped c := by
  by_cases hut : e.thread = u
  · obtain ⟨-, hin | ⟨x, time, rfl, hp, hcmd⟩⟩ := h.inside_step hs hu.inside
    · cases step_effect hs with
      | @exec t x cmd hp hcmd =>
        obtain rfl : t = u := hut
        rw [hp] at hin
        exact hin.elim
      | @handed t x r hp =>
        obtain rfl : t = u := hut
        rw [hp] at hin
        exact hin.elim
      | @take t x c' p hp =>
        obtain rfl : t = u := hut
        rw [hp] at hin ⊢
        exact hin
      | @back t x r hp =>
        obtain rfl : t = u := hut
        rw [hp] at hin
        exact hin.elim
      | @expired t c' hp =>
        obtain rfl : t = u := hut
        rw [setList_place, setPlace_place, update_self] at hu
        exact hu.elim
    · exact absurd rfl (hl hp _ hcmd).1
  · exact (h.pushed_step hs hut).dropped hu

theorem State.Served.take (h : s.Served c) {c' : C} {p : Patience} (hp : s.place t = .dropped c' p) :
    (s.take t c' p).Served c := by
  by_cases hc : c' = c
  · subst hc
    have hone : 0 < s.value c' := by
      refine (h.2 {t} (fun u hu => ?_)).trans' (by simp)
      rw [Finset.mem_singleton.mp hu, hp]
      rfl
    unfold State.take
    rw [if_pos hone]
    refine ⟨h.1, fun F hF => ?_⟩
    rw [State.setValue_value, update_self]
    have hnot : t ∉ F := by
      intro ht
      have := hF t ht
      rw [State.setValue_place, State.setPlace_place, update_self] at this
      exact this
    have hle := h.2 (insert t F) (fun u hu => ?_)
    · rw [Finset.card_insert_of_notMem hnot] at hle
      omega
    · obtain rfl | hu := Finset.mem_insert.mp hu
      · rw [hp]
        rfl
      · have hut : u ≠ t := fun he => hnot (he ▸ hu)
        have := hF u hu
        rwa [State.setValue_place, State.setPlace_place, update_of_ne hut] at this
  · have hd : ∀ (q : Place C) (u : T), ¬ q.Dropped c → (update s.place t q u).Dropped c →
      (s.place u).Dropped c := by
      intro q u hq hu
      by_cases hut : u = t
      · rw [hut, update_self] at hu
        exact absurd hu hq
      · rwa [update_of_ne hut] at hu
    unfold State.take
    split_ifs
    · exact h.mono h.1 (update_of_ne (Ne.symm hc) _ _).ge (fun u => hd _ u id)
    · exact h.mono h.1 le_rfl (fun u => hd _ u id)
    · exact h.mono ((update_of_ne (Ne.symm hc) _ _).trans h.1) le_rfl (fun u => hd _ u id)

theorem State.Served.step (h : s.Served c) (hi : Inv s) (hs : s.step P e = some s') (hl : Lasts P s c e) :
    s'.Served c := by
  have hd : ∀ u, (s'.place u).Dropped c → (s.place u).Dropped c := fun u => hi.dropped_step hs hl
  cases step_effect hs with
  | @exec t x cmd hp hcmd =>
    obtain ⟨hdrain, hwrap⟩ := hl hp cmd hcmd
    obtain ⟨hv, hlist⟩ := s.exec_units t hdrain hwrap
    exact h.mono (hlist h.1) hv hd
  | handed hp => exact h.mono h.1 le_rfl hd
  | take hp => exact h.take hp
  | @back t x r hp =>
    obtain ⟨hv, hlist⟩ := s.enter_units t r (P.ret (s.label t) r)
    refine h.mono ?_ ?_ hd
    · rw [hlist]
      exact h.1
    · rw [hv]
  | @expired t c' hp =>
    refine h.mono ?_ le_rfl hd
    rw [setList_list]
    by_cases hc : c = c'
    · subst hc
      rw [update_self, h.1]
      rfl
    · rw [update_of_ne hc]
      exact h.1

theorem unit_step (hs : s.step P e = some s') (hl : Lasts P s c e) (hv : 0 < s.value c) :
    0 < s'.value c ∨ (s.place e.thread).Dropped c ∧ s'.place e.thread = .woken .done ∧ s'.label = s.label := by
  cases step_effect hs with
  | @exec t x cmd hp hcmd =>
    obtain ⟨hdrain, hwrap⟩ := hl hp cmd hcmd
    exact .inl (hv.trans_le (s.exec_units t hdrain hwrap).1)
  | handed hp => exact .inl hv
  | @take t x c' p hp =>
    by_cases hc : c' = c
    · subst hc
      refine .inr ⟨?_, ?_⟩
      · change (s.place t).Dropped c'
        rw [hp]
        rfl
      · refine ⟨?_, (s.take_label t c' p).1⟩
        unfold take
        rw [if_pos hv]
        exact update_self ..
    · refine .inl ?_
      unfold take
      split_ifs
      · exact hv.trans_eq (update_of_ne (Ne.symm hc) _ _).symm
      · exact hv
      · exact hv
  | @back t x r hp =>
    rw [(s.enter_units t r (P.ret (s.label t) r)).1]
    exact .inl hv
  | expired hp => exact .inl hv

theorem Inv.served_broadcast (h : Inv s) (t : T) (hr : s.Reaches c) : (s.exec P t (.broadcast c)).Served c := by
  refine ⟨update_self .., fun F hF => ?_⟩
  have hle := hr F (fun u hu => ?_)
  · exact hle.trans_eq (update_self c (if s.value c = 0 then 1 else s.value c) s.value).symm
  · by_cases hut : u = t
    · have := hF u hu
      rw [hut, State.exec, State.moveTo_place, State.setPlace_place, update_self] at this
      exact this.elim
    · exact (h.pushed_exec hut _).dropped (hF u hu)

theorem Inv.signal_units (h : Inv s) (hrun : s.place t = .run) (hw : s.value c + 1 < P.limit) :
    0 < (s.exec P t (.signal c)).value c ∨
      ∃ u, u ≠ t ∧ (s.place u).Inside c ∧ (s.exec P t (.signal c)).place u = .woken .done := by
  unfold State.exec
  cases hl : s.list c with
  | nil =>
    left
    rw [State.moveTo_value, State.setPlace_value]
    unfold State.grant
    rw [hl]
    rw [State.setValue_value, update_self, Nat.mod_eq_of_lt hw]
    exact Nat.succ_pos _
  | cons u q =>
    right
    obtain ⟨p, hp⟩ := (h.parked u c).mp (by rw [hl]; exact List.mem_cons_self)
    have hut : u ≠ t := by
      rintro rfl
      exact absurd (hrun.symm.trans hp) (by simp)
    refine ⟨u, hut, by rw [hp]; rfl, ?_⟩
    rw [State.moveTo_place, State.setPlace_place, update_of_ne hut]
    exact State.grant_place_head hl _

end CondMonitor
