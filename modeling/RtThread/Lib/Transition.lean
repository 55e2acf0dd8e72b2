import Mathlib.Tactic.Common

namespace Transition

open Option

variable {σ α : Type*}

inductive Reachable (step : σ → α → Option σ) (C : σ → α → Prop) (init : σ → Prop) : σ → Prop
  | start {s : σ} (h : init s) : Reachable step C init s
  | next {s t : σ} {a : α} (h : Reachable step C init s) (hc : C s a) (ht : step s a = some t) :
      Reachable step C init t

variable {step : σ → α → Option σ} {C : σ → α → Prop} {I : σ → Prop} {s : σ}

theorem Reachable.invariant {init : σ → Prop} (hinit : ∀ s, init s → I s)
    (hstep : ∀ s a t, I s → C s a → step s a = some t → I t) {s : σ} (h : Reachable step C init s) : I s := by
  induction h with
  | start h => exact hinit _ h
  | next h hc ht ih => exact hstep _ _ _ ih hc ht

def run (step : σ → α → Option σ) : σ → List α → Option σ
  | s, [] => some s
  | s, a :: as => (step s a).bind (fun t => run step t as)

theorem run_concat (step : σ → α → Option σ) (s : σ) (as : List α) (a : α) :
    run step s (as ++ [a]) = (run step s as).bind (fun t => step t a) := by
  induction as generalizing s with
  | nil => simp [run]
  | cons b as ih => simp only [List.cons_append, run, ih, bind_assoc]

variable {as : List α}

theorem run_append {s' : σ} {bs : List α} (h : run step s as = some s') : run step s (as ++ bs) = run step s' bs := by
  induction as generalizing s with
  | nil =>
    rw [Option.some.inj h]
    rfl
  | cons a as ih =>
    obtain ⟨u, hu, hrun⟩ := bind_eq_some_iff.mp h
    rw [List.cons_append, run, hu, bind_some, ih hrun]

theorem run_simulation {τ : Type*} {step' : τ → α → Option τ} {R : σ → τ → Prop}
    (hstep : ∀ s t a s', R s t → step s a = some s' → ∃ t', step' t a = some t' ∧ R s' t')
    {s' : σ} {t : τ} (hR : R s t) (h : run step s as = some s') : ∃ t', run step' t as = some t' ∧ R s' t' := by
  induction as generalizing s t with
  | nil => exact ⟨t, rfl, Option.some.inj h ▸ hR⟩
  | cons a as ih =>
    obtain ⟨u, hu, hrun⟩ := bind_eq_some_iff.mp h
    obtain ⟨v, hv, hRv⟩ := hstep s t a u hR hu
    obtain ⟨t', ht', hR'⟩ := ih hRv hrun
    exact ⟨t', by rw [run, hv, bind_some, ht'], hR'⟩

theorem run_eq_foldl_of_refines {τ : Type*} {f : τ → α → τ} {R : σ → τ → Prop}
    (hstep : ∀ s t a, R s t → ∃ s', step s a = some s' ∧ R s' (f t a)) {t : τ} (as : List α) (hR : R s t) :
    ∃ s', run step s as = some s' ∧ R s' (as.foldl f t) := by
  induction as generalizing s t with
  | nil => exact ⟨s, rfl, hR⟩
  | cons a as ih =>
    obtain ⟨u, hu, hRu⟩ := hstep s t a hR
    obtain ⟨s', hs', hR'⟩ := ih hRu
    exact ⟨s', by rw [run, hu, bind_some, hs'], hR'⟩

theorem run_length_le {μ : σ → ℕ} (hI : ∀ s a t, I s → step s a = some t → I t)
    (hμ : ∀ s a t, I s → step s a = some t → μ t < μ s) {t : σ} (hs : I s) (h : run step s as = some t) :
    as.length ≤ μ s := by
  induction as generalizing s with
  | nil => exact Nat.zero_le _
  | cons a as ih =>
    obtain ⟨u, hu, hrun⟩ := bind_eq_some_iff.mp h
    have hle := ih (hI s a u hs hu) hrun
    have hlt := hμ s a u hs hu
    rw [List.length_cons]
    omega

instance decidableExistsEqSome {P : σ → Prop} [DecidablePred P] :
    ∀ o : Option σ, Decidable (∃ s, o = some s ∧ P s)
  | none => isFalse (fun ⟨_, h, _⟩ => nomatch h)
  | some s => decidable_of_iff (P s) ⟨fun h => ⟨s, rfl, h⟩, fun ⟨_, h, hp⟩ => Option.some.inj h ▸ hp⟩

section

variable {o : Option σ} {P P' Q : σ → Prop}

theorem exists_some_imp (h : ∃ s, o = some s ∧ P s) (hQ : ∀ s, o = some s → P s → Q s) :
    ∃ s, o = some s ∧ Q s := by
  obtain ⟨s, hs, hP⟩ := h
  exact ⟨s, hs, hQ s hs hP⟩

theorem exists_some_and (h : ∃ s, o = some s ∧ P s) (hQ : ∀ s, o = some s → P s → Q s) :
    ∃ s, o = some s ∧ P s ∧ Q s :=
  exists_some_imp h (fun s hs hP => ⟨hP, hQ s hs hP⟩)

theorem exists_some_and_and (h : ∃ s, o = some s ∧ P s ∧ P' s) (hQ : ∀ s, o = some s → P s → P' s → Q s) :
    ∃ s, o = some s ∧ P s ∧ P' s ∧ Q s :=
  exists_some_imp h (fun s hs hP => ⟨hP.1, hP.2, hQ s hs hP.1 hP.2⟩)

end

def StatesAlong (step : σ → α → Option σ) (P : σ → Prop) : σ → List α → Prop
  | s, [] => P s
  | s, a :: as => P s ∧ ∀ t, step s a = some t → StatesAlong step P t as

def StepsAlong (step : σ → α → Option σ) (C : σ → α → Prop) : σ → List α → Prop
  | _, [] => True
  | s, a :: as => ∀ t, step s a = some t → C s a ∧ StepsAlong step C t as

instance StepsAlong.decidable {step : σ → α → Option σ} {C : σ → α → Prop} [∀ s a, Decidable (C s a)] :
    ∀ s as, Decidable (StepsAlong step C s as)
  | _, [] => isTrue trivial
  | s, a :: as =>
    match h : step s a with
    | none => isTrue (by simp [StepsAlong, h])
    | some t =>
      have : Decidable (StepsAlong step C t as) := StepsAlong.decidable t as
      decidable_of_iff (C s a ∧ StepsAlong step C t as) (by simp [StepsAlong, h])

theorem StepsAlong.of_invariant (hC : ∀ s a, I s → C s a)
    (hI : ∀ s a t, I s → step s a = some t → I t) (hs : I s)
    (as : List α) : StepsAlong step C s as := by
  induction as generalizing s with
  | nil => trivial
  | cons a as ih => exact fun t ht => ⟨hC s a hs, ih (hI s a t hs ht)⟩

theorem StepsAlong.of_forall (h : ∀ s a, C s a) (s : σ) (as : List α) : StepsAlong step C s as :=
  .of_invariant (I := fun _ => True) (fun s a _ => h s a) (fun _ _ _ _ _ => trivial) trivial as

theorem Reachable.of_run {init : σ → Prop} {t : σ} (h : Reachable step C init s) (hc : StepsAlong step C s as)
    (hr : run step s as = some t) : Reachable step C init t := by
  induction as generalizing s with
  | nil =>
    obtain rfl : s = t := by simpa [run] using hr
    exact h
  | cons a as ih =>
    obtain ⟨u, hu, ht⟩ := bind_eq_some_iff.mp hr
    obtain ⟨hca, hrest⟩ := hc u hu
    exact ih (h.next hca hu) hrest ht

theorem Reachable.of_free_run {init : σ → Prop} {t : σ} (h : init s) (hr : run step s as = some t) :
    Reachable step (fun _ _ => True) init t :=
  .of_run (.start h) (.of_forall (fun _ _ => trivial) s as) hr

variable {P : σ → Prop}

theorem StatesAlong.head (h : StatesAlong step P s as) : P s := by
  cases as with
  | nil => exact h
  | cons a as => exact h.1

theorem StatesAlong.of_run {t : σ} (h : StatesAlong step P s as) (hr : run step s as = some t) : P t := by
  induction as generalizing s with
  | nil => exact Option.some.inj hr ▸ h
  | cons a as ih =>
    obtain ⟨u, hu, ht⟩ := bind_eq_some_iff.mp hr
    exact ih (h.2 u hu) ht

theorem StatesAlong.of_invariant (hP : ∀ s, I s → P s)
    (hI : ∀ s a t, I s → step s a = some t → I t) (hs : I s) (as : List α) : StatesAlong step P s as := by
  induction as generalizing s with
  | nil => exact hP s hs
  | cons a as ih => exact ⟨hP s hs, fun t ht => ih (hI s a t hs ht)⟩

theorem run_invariant (hI : ∀ s a t, I s → step s a = some t → I t) (hs : I s) {t : σ}
    (hr : run step s as = some t) :
    I t :=
  (StatesAlong.of_invariant (fun _ h => h) hI hs as).of_run hr

theorem statesAlong_iff_stepsAlong_of_kept (hI : ∀ s a t, I s → P s → C s a → step s a = some t → I t)
    (hP : ∀ s a t, I s → P s → step s a = some t → (P t ↔ C s a)) {s : σ} (as : List α) (hs : I s)
    (hp : P s) :
    StatesAlong step P s as ↔ StepsAlong step C s as := by
  induction as generalizing s with
  | nil => simp [StatesAlong, StepsAlong, hp]
  | cons a as ih =>
    constructor
    -- `P` in the next state gives the condition of this step, and lets the rest of the run use `hP` again
    · rintro ⟨_, h⟩ t ht
      have hpt : P t := (h t ht).head
      have hc := (hP s a t hs hp ht).mp hpt
      exact ⟨hc, (ih (hI s a t hs hp hc ht) hpt).mp (h t ht)⟩
    · intro h
      refine ⟨hp, ?_⟩
      intro t ht
      obtain ⟨hc, hrest⟩ := h t ht
      exact (ih (hI s a t hs hp hc ht) ((hP s a t hs hp ht).mpr hc)).mpr hrest

theorem statesAlong_iff_stepsAlong (hI : ∀ s a t, I s → step s a = some t → I t)
    (hP : ∀ s a t, I s → P s → step s a = some t → (P t ↔ C s a)) {s : σ} (as : List α) (hs : I s)
    (hp : P s) :
    StatesAlong step P s as ↔ StepsAlong step C s as := by
  apply statesAlong_iff_stepsAlong_of_kept _ hP as hs hp
  intro s a t hs _ _ ht
  exact hI s a t hs ht

end Transition
