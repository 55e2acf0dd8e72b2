import RtThread.Lib.CondMonitor

namespace CondMonitor

open Function State

variable {T C L D τ X : Type*} {P : Program T C L D τ X} {s s' : State T C L D} {t u : T}
  {c : C} {p : Place C} {r : Result} {l : L} {Holds : L → Prop}

def Place.Returns : Place C → Result → Prop
  | .run, _ => False
  | .queued r, r' | .handed r, r' | .woken r, r' => r' = r
  | .dropped _ _, r' | .parked _ _, r' => r' = .done ∨ r' = .expired

structure OwnedAt (P : Program T C L D τ X) (Holds : L → Prop) (s : State T C L D) (t : T) : Prop where
  run : s.place t = .run → (s.owner = some t ↔ Holds (s.label t))
  back : ∀ r, (s.place t).Returns r → Holds (P.ret (s.label t) r)

theorem OwnedAt.congr (h : OwnedAt P Holds s t) (hp : s'.place t = s.place t) (hl : s'.label t = s.label t)
    (ho : s'.owner = some t ↔ s.owner = some t) : OwnedAt P Holds s' t := by
  constructor
  · rw [hp, hl, ho]
    exact h.run
  · rw [hp, hl]
    exact h.back

theorem OwnedAt.setPlace (h : OwnedAt P Holds s t) (hp : p ≠ .run) (hr : ∀ r, p.Returns r → (s.place t).Returns r)
    (hp' : s'.place t = p) (hl : s'.label t = s.label t) : OwnedAt P Holds s' t := by
  constructor
  · intro hrun
    exact absurd (hp'.symm.trans hrun) hp
  · intro r hr'
    rw [hp'] at hr'
    rw [hl]
    exact h.back r (hr r hr')

def Calling (P : Program T C L D τ X) (l : L) : Prop :=
  ∃ t d x, P.cmd t l d x = some .lock ∨ ∃ c time, P.cmd t l d x = some (.wait c time)

def WaitsAt (P : Program T C L D τ X) (c : C) (l : L) : Prop := ∃ t d x time, P.cmd t l d x = some (.wait c time)

structure Lawful (P : Program T C L D τ X) (Holds : L → Prop) (s : State T C L D) : Prop where
  inv : Inv s
  owned : ∀ t, OwnedAt P Holds s t
  calling : ∀ t, s.place t ≠ .run → Calling P (s.label t)
  waiting : ∀ t c, (s.place t).Inside c → WaitsAt P c (s.label t)

theorem Lawful.run_of (h : Lawful P Holds s) (hc : ¬ Calling P (s.label t)) : s.place t = .run :=
  not_not.mp (fun hp => hc (h.calling t hp))

theorem Lawful.owner_of (h : Lawful P Holds s) (hh : Holds (s.label t)) (hc : ¬ Calling P (s.label t)) :
    s.owner = some t := ((h.owned t).run (h.run_of hc)).mpr hh

theorem Place.Due.unique {q : Place C} {r' : Result} (h : q.Due r) (h' : q.Due r') : r = r' := by
  cases q with
  | queued _ | handed _ | woken _ => exact h.symm.trans h'
  | _ => exact h.elim

theorem Place.Due.returns {q : Place C} (h : q.Due r) : q.Returns r := by
  cases q with
  | queued _ | handed _ | woken _ => exact h.symm
  | _ => exact h.elim

variable [DecidableEq T]

inductive Moves (P : Program T C L D τ X) (s : State T C L D) : Event T X → State T C L D → Prop
  | stay {e : Event T X} {s' : State T C L D} (hl : s'.label = s.label) (hd : s'.data = s.data) : Moves P s e s'
  | ret {t : T} {x : X} {s' : State T C L D} (r : Result) (hl : s'.label = update s.label t (P.ret (s.label t) r))
      (hd : s'.data = s.data) : Moves P s (.run t x) s'
  | assign {t : T} {x : X} {d : D} {l : L} (hrun : s.place t = .run)
      (hcmd : P.cmd t (s.label t) s.data x = some (.assign d l)) :
      Moves P s (.run t x) { s.moveTo t l with data := d }

theorem State.pass_label (s : State T C L D) : s.pass.label = s.label ∧ s.pass.data = s.data := by
  unfold pass
  cases s.queue <;> exact ⟨rfl, rfl⟩

theorem Moves.enter {x : X} (r r' : Result) : Moves P s (.run t x) (s.enter t r' (P.ret (s.label t) r)) := by
  unfold State.enter
  cases s.owner with
  | none => exact .ret r rfl rfl
  | some o =>
    dsimp only
    split_ifs
    · exact .ret r rfl rfl
    · exact .stay rfl rfl

theorem OwnedAt.moveTo (hl : s.owner = some t ↔ Holds l) : OwnedAt P Holds (s.moveTo t l) t := by
  constructor
  · intro _
    rw [moveTo_label, update_self]
    exact hl
  · intro r hr
    rw [moveTo_place, setPlace_place, update_self] at hr
    exact hr.elim

theorem OwnedAt.moveTo_of_ne (h : OwnedAt P Holds s u) (hut : u ≠ t) (l : L) : OwnedAt P Holds (s.moveTo t l) u :=
  h.congr (update_of_ne hut _ _) (update_of_ne hut _ _) Iff.rfl

theorem owned_moveTo (h : ∀ u, u ≠ t → OwnedAt P Holds s u) (hl : s.owner = some t ↔ Holds l) (u : T) :
    OwnedAt P Holds (s.moveTo t l) u := by
  by_cases hut : u = t
  · rw [hut]
    exact .moveTo hl
  · exact (h u hut).moveTo_of_ne hut l

theorem State.enter_data (s : State T C L D) (t : T) (r : Result) (l : L) : (s.enter t r l).data = s.data := by
  unfold enter
  split
  · rfl
  · split_ifs <;> rfl

section

variable (h : ∀ u, OwnedAt P Holds s u)

include h

theorem owned_enter (hnot : s.owner ≠ some t) (hr : Holds (P.ret (s.label t) r)) (u : T) :
    OwnedAt P Holds (s.enter t r (P.ret (s.label t) r)) u := by
  unfold enter
  cases ho : s.owner with
  | none =>
    obtain rfl | hut := eq_or_ne u t
    · constructor
      · intro _
        rw [moveTo_label, update_self]
        exact iff_of_true rfl hr
      · intro r' hr'
        rw [moveTo_place, setPlace_place, update_self] at hr'
        exact hr'.elim
    · refine (h u).congr (update_of_ne hut _ _) (update_of_ne hut _ _) ?_
      rw [ho]
      simpa using Ne.symm hut
  | some o =>
    dsimp only
    rw [if_neg (by rintro rfl; exact hnot ho)]
    obtain rfl | hut := eq_or_ne u t
    · constructor
      · intro hp
        rw [setPlace_place, update_self] at hp
        cases hp
      · intro r' hr'
        rw [setPlace_place, update_self] at hr'
        obtain rfl : r' = r := hr'
        exact hr
    · exact (h u).congr (update_of_ne hut _ _) rfl Iff.rfl

theorem owned_pass (hi : Inv s) (ho : s.owner = some t) (u : T) (hut : u ≠ t) : OwnedAt P Holds s.pass u := by
  have hnot : s.owner ≠ some u := fun hu => hut (Option.some.inj (hu.symm.trans ho))
  unfold State.pass
  cases hq : s.queue with
  | nil => exact (h u).congr rfl rfl (iff_of_false nofun hnot)
  | cons v q =>
    obtain ⟨r, hr, hhand⟩ := hi.queue_place (by rw [hq]; exact List.mem_cons_self)
    obtain rfl | huv := eq_or_ne u v
    · refine (h u).setPlace (by simp) (fun r' hr' => ?_) ((update_self ..).trans hhand) rfl
      rw [hr]
      exact hr'
    · refine (h u).congr (update_of_ne huv _ _) rfl (iff_of_false ?_ hnot)
      simpa using Ne.symm huv

end

variable [DecidableEq C]

theorem State.grant_label (s : State T C L D) (n : ℕ) (c : C) :
    (s.grant n c).label = s.label ∧ (s.grant n c).data = s.data := by
  unfold grant
  cases s.list c <;> exact ⟨rfl, rfl⟩

theorem State.take_label (s : State T C L D) (t : T) (c : C) (p : Patience) :
    (s.take t c p).label = s.label ∧ (s.take t c p).data = s.data := by
  unfold take
  split_ifs <;> exact ⟨rfl, rfl⟩

theorem Moves.exec {x : X} (hrun : s.place t = .run) {cmd : Cmd C L D τ}
    (hcmd : P.cmd t (s.label t) s.data x = some cmd) : Moves P s (.run t x) (s.exec P t cmd) := by
  cases cmd with
  | lock =>
    unfold State.exec
    dsimp only
    split_ifs
    · exact .ret .refused rfl rfl
    · exact .enter .done .done
  | unlock =>
    obtain ⟨hl, hd⟩ := s.pass_label
    unfold State.exec
    split_ifs
    · exact .ret .done (congrArg (update · t _) hl) hd
    · exact .ret .done rfl rfl
    · exact .ret .refused rfl rfl
  | wait c time =>
    obtain ⟨hl, hd⟩ := s.pass_label
    unfold State.exec
    dsimp only
    split_ifs
    · exact .stay hl hd
    · exact .ret .refused rfl rfl
  | signal c =>
    obtain ⟨hl, hd⟩ := s.grant_label P.limit c
    exact .ret .done (congrArg (update · t _) hl) hd
  | broadcast c => exact .ret .done rfl rfl
  | tryTake c =>
    unfold State.exec
    dsimp only
    split_ifs
    · exact .ret .done rfl rfl
    · exact .ret .expired rfl rfl
  | clear c => exact .ret .done rfl rfl
  | assign d l => exact .assign hrun hcmd

variable {e : Event T X}

theorem moves_of_step (hs : s.step P e = some s') : Moves P s e s' := by
  cases step_effect hs with
  | exec hp hcmd => exact .exec hp hcmd
  | handed hp => exact .ret _ rfl rfl
  | take hp =>
    obtain ⟨hl, hd⟩ := s.take_label _ _ _
    exact .stay hl hd
  | back hp => exact .enter _ _
  | expired hp => exact .stay rfl rfl

def Cmd.Keeps (P : Program T C L D τ X) (Holds : L → Prop) (l : L) (d : D) : Cmd C L D τ → Prop
  | .lock => (¬ Holds l → Holds (P.ret l .done)) ∧ (Holds l → Holds (P.ret l .refused))
  | .unlock => ¬ Holds (P.ret l .done) ∧ (¬ Holds l → ¬ Holds (P.ret l .refused))
  | .wait _ _ => (Holds l → Holds (P.ret l .done) ∧ Holds (P.ret l .expired)) ∧
      (¬ Holds l → ¬ Holds (P.ret l .refused))
  | .signal _ | .broadcast _ | .clear _ => Holds (P.ret l .done) ↔ Holds l
  | .tryTake _ => (Holds (P.ret l .done) ↔ Holds l) ∧ (Holds (P.ret l .expired) ↔ Holds l)
  | .assign d' l' => (Holds l' ↔ Holds l) ∧ (d' = d ∨ Holds l)

def Disciplined (P : Program T C L D τ X) (Holds : L → Prop) : Prop :=
  ∀ t l d x cmd, P.cmd t l d x = some cmd → cmd.Keeps P Holds l d

section

variable (h : ∀ u, OwnedAt P Holds s u)

include h

omit [DecidableEq T] in
theorem owned_setValue (c : C) (n : ℕ) (u : T) : OwnedAt P Holds (s.setValue c n) u :=
  (h u).congr rfl rfl Iff.rfl

theorem owned_grant (hi : Inv s) (n : ℕ) (c : C) (u : T) : OwnedAt P Holds (s.grant n c) u := by
  unfold grant
  cases hl : s.list c with
  | nil => exact (h u).congr rfl rfl Iff.rfl
  | cons v q =>
    obtain ⟨p, hp⟩ := (hi.parked v c).mp (by rw [hl]; exact List.mem_cons_self)
    obtain rfl | huv := eq_or_ne u v
    · refine (h u).setPlace (by simp) (fun r hr => ?_) (update_self ..) rfl
      rw [hp]
      exact .inl hr
    · exact (h u).congr (update_of_ne huv _ _) rfl Iff.rfl

theorem owned_grantAll (hi : Inv s) (c : C) (u : T) : OwnedAt P Holds (s.grantAll c) u := by
  by_cases hu : u ∈ s.list c
  · obtain ⟨p, hp⟩ := (hi.parked u c).mp hu
    refine (h u).setPlace (by simp) (fun r hr => ?_) (if_pos hu) rfl
    rw [hp]
    exact .inl hr
  · exact (h u).congr (if_neg hu) rfl Iff.rfl

theorem owned_take {q : Patience} (hp : s.place t = .dropped c q) (u : T) : OwnedAt P Holds (s.take t c q) u := by
  obtain rfl | hut := eq_or_ne u t
  · unfold take
    split_ifs
    · refine (h u).setPlace (by simp) (fun r hr => ?_) (update_self ..) rfl
      rw [hp]
      exact .inl hr
    · refine (h u).setPlace (by simp) (fun r hr => ?_) (update_self ..) rfl
      rw [hp]
      exact .inr hr
    · refine (h u).setPlace (by simp) (fun r hr => ?_) (update_self ..) rfl
      rw [hp]
      exact hr
  · unfold take
    split_ifs <;> exact (h u).congr (update_of_ne hut _ _) rfl Iff.rfl

end

section

variable (hd : Disciplined P Holds) (hi : Inv s) (h : ∀ u, OwnedAt P Holds s u)

include hd hi h

theorem owned_exec {x : X} {cmd : Cmd C L D τ}
    (hrun : s.place t = .run) (hcmd : P.cmd t (s.label t) s.data x = some cmd) (u : T) :
    OwnedAt P Holds (s.exec P t cmd) u := by
  have hkeep := hd _ _ _ _ _ hcmd
  have hown := (h t).run hrun
  have hothers : ∀ v, v ≠ t → OwnedAt P Holds s v := fun v _ => h v
  cases cmd with
  | lock =>
    unfold exec
    dsimp only
    split_ifs with ho
    · exact owned_moveTo hothers (iff_of_true ho (hkeep.2 (hown.mp ho))) u
    · exact owned_enter h ho (hkeep.1 (fun hl => ho (hown.mpr hl))) u
  | unlock =>
    unfold exec
    split_ifs with ho hn
    · exact owned_moveTo (owned_pass h hi ho) (iff_of_false (hi.pass ho hrun).2.1 hkeep.1) u
    · exact owned_moveTo hothers (iff_of_false ho hkeep.1) u
    · exact owned_moveTo hothers (iff_of_false ho (hkeep.2 (fun hl => ho (hown.mpr hl)))) u
  | wait c time =>
    unfold exec
    dsimp only
    split_ifs with ho
    · obtain ⟨hdone, hexp⟩ := hkeep.1 (hown.mp ho)
      have hlabel := s.pass_label.1
      obtain rfl | hut := eq_or_ne u t
      · constructor
        · intro hp
          rw [setPlace_place, update_self] at hp
          cases hp
        · intro r hr
          rw [setPlace_place, update_self] at hr
          rw [setPlace_label, hlabel]
          rcases hr with rfl | rfl
          · exact hdone
          · exact hexp
      · exact (owned_pass h hi ho u hut).congr (update_of_ne hut _ _) rfl Iff.rfl
    · exact owned_moveTo hothers (iff_of_false ho (hkeep.2 (fun hl => ho (hown.mpr hl)))) u
  | signal c =>
    have howner : (s.grant P.limit c).owner = s.owner := by
      unfold grant
      cases s.list c <;> rfl
    exact owned_moveTo (fun v _ => owned_grant h hi _ c v) (by rw [howner, hown]; exact hkeep.symm) u
  | broadcast c => exact owned_moveTo (fun v _ => owned_grantAll h hi c v) (hown.trans hkeep.symm) u
  | tryTake c =>
    unfold exec
    dsimp only
    split_ifs with hv
    · exact owned_moveTo (fun v _ => owned_setValue h c _ v) (hown.trans hkeep.1.symm) u
    · exact owned_moveTo hothers (hown.trans hkeep.2.symm) u
  | clear c => exact owned_moveTo (fun v _ => owned_setValue h c 0 v) (hown.trans hkeep.symm) u
  | assign d l => exact (owned_moveTo hothers (hown.trans hkeep.1.symm) u).congr rfl rfl Iff.rfl

theorem owned_step (hs : s.step P e = some s') (u : T) : OwnedAt P Holds s' u := by
  cases step_effect hs with
  | exec hp hcmd => exact owned_exec hd hi h hp hcmd u
  | @handed t x r hp =>
    have hback : Holds (P.ret (s.label t) r) := (h t).back r (by rw [hp]; rfl)
    exact owned_moveTo (fun v _ => h v) (iff_of_true (hi.handed t r hp) hback) u
  | take hp => exact owned_take h hp u
  | @back t x r hp =>
    have hback : Holds (P.ret (s.label t) r) := (h t).back r (by rw [hp]; rfl)
    refine owned_enter h (fun ho => ?_) hback u
    have := hi.owner t ho
    simp [hp] at this
  | @expired t c hp =>
    obtain rfl | hut := eq_or_ne u t
    · refine (h u).setPlace (by simp) (fun r hr => ?_) (update_self ..) rfl
      rw [hp]
      exact .inr hr
    · exact (h u).congr (update_of_ne hut _ _) rfl Iff.rfl

end

def Cmd.result (d : D) : Cmd C L D τ → D
  | .assign d' _ => d'
  | .lock | .unlock | .wait _ _ | .signal _ | .broadcast _ | .tryTake _ | .clear _ => d

theorem State.exec_data (P : Program T C L D τ X) (s : State T C L D) (t : T) (cmd : Cmd C L D τ) :
    (s.exec P t cmd).data = cmd.result s.data := by
  cases cmd with
  | lock =>
    unfold exec
    dsimp only
    split_ifs
    · rfl
    · exact s.enter_data ..
  | unlock =>
    unfold exec
    split_ifs
    · exact s.pass_label.2
    · rfl
    · rfl
  | wait c time =>
    unfold exec
    dsimp only
    split_ifs
    · exact s.pass_label.2
    · rfl
  | signal c => exact (s.grant_label P.limit c).2
  | broadcast c => rfl
  | tryTake c =>
    unfold exec
    dsimp only
    split_ifs <;> rfl
  | clear c | assign d l => rfl

theorem label_of_step (hs : s.step P e = some s') (hu : e.thread ≠ u) : s'.label u = s.label u := by
  cases moves_of_step hs with
  | stay hl hd => rw [hl]
  | ret r hl hd =>
    rw [hl]
    exact update_of_ne hu.symm _ _
  | assign hrun hcmd => exact update_of_ne hu.symm _ _

theorem Inv.inside_step (h : Inv s) (hs : s.step P e = some s') (hu : (s'.place u).Inside c) :
    s'.label u = s.label u ∧ ((s.place u).Inside c ∨
      ∃ x time, e = .run u x ∧ s.place u = .run ∧ P.cmd u (s.label u) s.data x = some (.wait c time)) := by
  by_cases hut : e.thread = u
  · cases step_effect hs with
    | @exec t x cmd hp hcmd =>
      obtain rfl : t = u := hut
      obtain ⟨hrun, -⟩ | ⟨hlabel, ⟨-, r, hr⟩ | ⟨c', time, rfl, hd⟩⟩ := exec_self s t cmd
      · rw [hrun] at hu
        exact hu.elim
      · rw [hr] at hu
        exact hu.elim
      · rw [hd] at hu
        obtain rfl : c' = c := hu
        exact ⟨hlabel, .inr ⟨x, time, rfl, hp, hcmd⟩⟩
    | @handed t x r hp =>
      obtain rfl : t = u := hut
      rw [State.moveTo_place, State.setPlace_place, update_self] at hu
      exact hu.elim
    | @take t x c' p hp =>
      obtain rfl : t = u := hut
      refine ⟨congrFun (s.take_label t c' p).1 t, .inl ?_⟩
      rw [hp]
      unfold State.take at hu
      split_ifs at hu
      · rw [State.setValue_place, State.setPlace_place, update_self] at hu
        exact hu.elim
      · rw [State.setPlace_place, update_self] at hu
        exact hu.elim
      · rw [State.setList_place, State.setPlace_place, update_self] at hu
        exact hu
    | @back t x r hp =>
      obtain rfl : t = u := hut
      obtain hrun | hqueued := s.enter_place t r (P.ret (s.label t) r)
      · rw [hrun] at hu
        exact hu.elim
      · rw [hqueued] at hu
        exact hu.elim
    | @expired t c' hp =>
      obtain rfl : t = u := hut
      rw [State.setList_place, State.setPlace_place, update_self] at hu
      exact hu.elim
  · exact ⟨label_of_step hs hut, .inl ((h.pushed_step hs hut).inside hu)⟩

theorem call_step (hs : s.step P e = some s') (he : e.thread = t) (hp : s.place t ≠ .run) :
    s'.data = s.data ∧ (s'.place t = .run ∧ (∃ r, (s.place t).Due r ∧ s'.label t = P.ret (s.label t) r) ∨
      s'.place t ≠ .run ∧ s'.label t = s.label t ∧ ∀ r, (s.place t).Due r → (s'.place t).Due r) := by
  cases step_effect hs with
  | @exec t' x cmd hrun hcmd =>
    obtain rfl : t' = t := he
    exact absurd hrun hp
  | @handed t' x r hr =>
    obtain rfl : t' = t := he
    refine ⟨rfl, .inl ⟨update_self .., r, ?_, update_self ..⟩⟩
    rw [hr]
    rfl
  | @take t' x c q hq =>
    obtain rfl : t' = t := he
    obtain ⟨hl, hd⟩ := s.take_label t' c q
    refine ⟨hd, .inr ⟨?_, congrFun hl t', fun r hr => ?_⟩⟩
    · unfold take
      split_ifs <;> simp
    · rw [hq] at hr
      exact hr.elim
  | @back t' x r hr =>
    obtain rfl : t' = t := he
    have hdue : (s.place t').Due r := by
      rw [hr]
      rfl
    refine ⟨s.enter_data .., ?_⟩
    unfold enter
    split
    · exact .inl ⟨update_self .., r, hdue, update_self ..⟩
    · split_ifs
      · exact .inl ⟨update_self .., r, hdue, update_self ..⟩
      · refine .inr ⟨by simp, rfl, fun r' hr' => ?_⟩
        rw [hdue.unique hr']
        rw [setPlace_place, update_self]
        rfl
  | @expired t' c hq =>
    obtain rfl : t' = t := he
    refine ⟨rfl, .inr ⟨by simp, rfl, fun r hr => ?_⟩⟩
    rw [hq] at hr
    exact hr.elim

section

variable (h : Lawful P Holds s) (hs : s.step P e = some s')

include h hs

theorem Lawful.calling_step (hu : s'.place u ≠ .run) : Calling P (s'.label u) := by
  by_cases hut : e.thread = u
  · cases step_effect hs with
    | @exec t x cmd hp hcmd =>
      obtain rfl : t = u := hut
      obtain ⟨hlabel, ⟨rfl, -⟩ | ⟨c, time, rfl, -⟩⟩ := (exec_self s t cmd).resolve_left (fun hr => hu hr.1)
      · rw [hlabel]
        exact ⟨t, s.data, x, .inl hcmd⟩
      · rw [hlabel]
        exact ⟨t, s.data, x, .inr ⟨c, time, hcmd⟩⟩
    | @handed t x r hp =>
      obtain rfl : t = u := hut
      exact absurd (update_self ..) hu
    | @take t x c p hp =>
      obtain rfl : t = u := hut
      rw [(s.take_label t c p).1]
      exact h.calling t (by rw [hp]; simp)
    | @back t x r hp =>
      obtain rfl : t = u := hut
      unfold enter at hu ⊢
      split at hu
      · exact absurd (update_self ..) hu
      · split_ifs at hu ⊢
        · exact absurd (update_self ..) hu
        · exact h.calling t (by rw [hp]; simp)
    | @expired t c hp =>
      obtain rfl : t = u := hut
      exact h.calling t (by rw [hp]; simp)
  · rw [label_of_step hs hut]
    apply h.calling
    intro hp
    exact hu ((h.inv.place_of_step hs hut (by rw [hp]; trivial)).trans hp)

theorem Lawful.waiting_step (hu : (s'.place u).Inside c) : WaitsAt P c (s'.label u) := by
  obtain ⟨hlabel, hin | ⟨x, time, -, -, hcmd⟩⟩ := h.inv.inside_step hs hu
  · rw [hlabel]
    exact h.waiting u c hin
  · rw [hlabel]
    exact ⟨u, s.data, x, time, hcmd⟩

end

theorem Lawful.step (hd : Disciplined P Holds) (h : Lawful P Holds s) (hs : s.step P e = some s') :
    Lawful P Holds s' :=
  ⟨h.inv.step hs, owned_step hd h.inv h.owned hs, fun _ hu => h.calling_step hs hu,
    fun _ _ hu => h.waiting_step hs hu⟩

variable (hd : Disciplined P Holds) (h : Lawful P Holds s) (hs : s.step P e = some s')

include hd h hs

theorem Lawful.data_of_step (hne : s'.data ≠ s.data) : s.owner = some e.thread := by
  cases moves_of_step hs with
  | stay hl hd' | ret r hl hd' => exact absurd hd' hne
  | assign hrun hcmd => exact ((h.owned _).run hrun).mpr ((hd _ _ _ _ _ hcmd).2.resolve_left hne)

theorem Lawful.data_kept (ho : s.owner = some u) (hu : e.thread ≠ u) : s'.data = s.data := by
  by_contra hne
  exact hu (Option.some.inj ((h.data_of_step hd hs hne).symm.trans ho))

end CondMonitor
