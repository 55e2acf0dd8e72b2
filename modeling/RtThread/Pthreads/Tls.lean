import Mathlib.Data.Int.Notation
import RtThread.Lib.Transition

/-!
`pthread_tls.c`: a table of keys for all threads, and for each thread an area of values that is allocated when it first
sets one. `none` is the NULL of a value, of a destructor and of an area.
-/

namespace RtThread

open Transition Function List Option

def pthreadKeyMax : ℕ := 8

inductive KeyErrno
  | einval | eagain
  deriving DecidableEq

structure PthreadKeyData (D : Type) where
  isUsed : Bool
  destructor : Option D

inductive Access (α : Type)
  | done (a : α)
  | wild

structure TlsState (T V D : Type) where
  threadKeys : ℕ → PthreadKeyData D
  tls : T → Option (ℕ → Option V)

namespace TlsState

variable {T V D : Type} [DecidableEq T]

def keyUsed (s : TlsState T V D) (key : ℤ) : Access Bool :=
  if pthreadKeyMax ≤ key then .done false
  else if key < 0 then .wild
  else .done (s.threadKeys key.toNat).isUsed

def pthreadGetspecific (s : TlsState T V D) (t : T) (key : ℤ) : Access (Option V) :=
  match s.tls t with
  | none => .done none
  | some slots =>
    match s.keyUsed key with
    | .wild => .wild
    | .done used => .done (if used then slots key.toNat else none)

def pthreadSetspecific (s : TlsState T V D) (t : T) (key : ℤ) (value : Option V)
    (malloc : Option (ℕ → Option V)) :
    Access (TlsState T V D × Except KeyErrno Unit) :=
  let area := (s.tls t).or malloc
  match s.keyUsed key with
  | .wild => .wild
  | .done false => .done ({ s with tls := update s.tls t area }, .error .einval)
  | .done true =>
    match area with
    | none => .wild
    | some slots =>
      .done ({ s with tls := update s.tls t (some (update slots key.toNat value)) }, .ok ())

def pthreadKeyCreate (s : TlsState T V D) (destructor : Option D) : TlsState T V D × Except KeyErrno ℕ :=
  match (List.range pthreadKeyMax).find? (fun index => !(s.threadKeys index).isUsed) with
  | some index => ({ s with threadKeys := update s.threadKeys index ⟨true, destructor⟩ }, .ok index)
  | none => (s, .error .eagain)

def pthreadKeyDelete (s : TlsState T V D) (key : ℤ) : Access (TlsState T V D × Except KeyErrno Unit) :=
  if pthreadKeyMax ≤ key then .done (s, .error .einval)
  else if key < 0 then .wild
  else .done ({ s with threadKeys := update s.threadKeys key.toNat ⟨false, none⟩ }, .ok ())

def InUse (s : TlsState T V D) (key : ℤ) : Prop :=
  0 ≤ key ∧ key < pthreadKeyMax ∧ (s.threadKeys key.toNat).isUsed = true

def Stores (s : TlsState T V D) (t : T) (key : ℤ) (malloc : Option (ℕ → Option V)) : Prop :=
  0 ≤ key ∧ (s.InUse key → s.tls t ≠ none ∨ malloc ≠ none)

section

variable {s : TlsState T V D} {key : ℤ}

section

omit [DecidableEq T]

theorem keyUsed_inUse (h : s.InUse key) : s.keyUsed key = .done true := by
  obtain ⟨h0, hlt, hused⟩ := h
  rw [TlsState.keyUsed, if_neg (Int.not_le.mpr hlt), if_neg (Int.not_lt.mpr h0), hused]

theorem keyUsed_not_inUse (h0 : 0 ≤ key) (h : ¬ s.InUse key) : s.keyUsed key = .done false := by
  unfold TlsState.keyUsed
  split_ifs with hle hneg
  · rfl
  · exact absurd hneg (Int.not_lt.mpr h0)
  · have hused := fun hused => h ⟨h0, Int.not_le.mp hle, hused⟩
    rw [Bool.eq_false_iff.mpr hused]

theorem keyUsed_neg (h : key < 0) : s.keyUsed key = .wild := by
  have hle : ¬ (pthreadKeyMax : ℤ) ≤ key := by
    omega
  rw [TlsState.keyUsed, if_neg hle, if_pos h]

theorem InUse.lt (h : s.InUse key) : key.toNat < pthreadKeyMax := by
  have hcast := Int.toNat_of_nonneg h.1
  have hlt := h.2.1
  omega

end

theorem pthreadSetspecific_wild_iff (t : T) (value : Option V) (malloc : Option (ℕ → Option V)) :
    s.pthreadSetspecific t key value malloc = .wild ↔ ¬ s.Stores t key malloc := by
  simp only [pthreadSetspecific]
  by_cases hneg : key < 0
  · rw [keyUsed_neg hneg]
    exact iff_of_true rfl fun h => absurd h.1 (Int.not_le.mpr hneg)
  have h0 := Int.not_lt.mp hneg
  by_cases hkey : s.InUse key
  · rw [keyUsed_inUse hkey]
    cases hslots : (s.tls t).or malloc with
    | none =>
      obtain ⟨htls, hmalloc⟩ := or_eq_none_iff.mp hslots
      apply iff_of_true rfl
      intro h
      obtain h | h := h.2 hkey
      · exact h htls
      · exact h hmalloc
    | some slots =>
      apply iff_of_false nofun
      apply not_not.mpr
      refine ⟨h0, fun _ => ?_⟩
      by_contra hnone
      obtain ⟨htls, hmalloc⟩ := not_or.mp hnone
      rw [not_not.mp htls, not_not.mp hmalloc] at hslots
      cases hslots
  · rw [keyUsed_not_inUse h0 hkey]
    exact iff_of_false nofun (not_not.mpr ⟨h0, fun h => absurd h hkey⟩)

theorem pthreadSetspecific_frame {t : T} {value : Option V} {malloc : Option (ℕ → Option V)} {s' : TlsState T V D}
    {result : Except KeyErrno Unit} (h : s.pthreadSetspecific t key value malloc = .done (s', result)) :
    ∃ area, s' = { s with tls := update s.tls t area } := by
  simp only [pthreadSetspecific] at h
  split at h
  · cases h
  · cases h
    exact ⟨_, rfl⟩
  · split at h
    · cases h
    · cases h
      exact ⟨_, rfl⟩

end

end TlsState

inductive TlsCall (T V D : Type)
  | keyCreate (destructor : Option D)
  | keyDelete (key : ℤ)
  | setspecific (t : T) (key : ℤ) (value : Option V) (malloc : Option (ℕ → Option V))
  | getspecific (t : T) (key : ℤ)

/-- With the tables, the map that they stand for: `specific t k` is what `t` has set for `k` since `k` was created.
`gets` are the values that were returned, each with the one that the map has. -/
structure TlsSystem (T V D : Type) where
  state : TlsState T V D
  specific : T → ℕ → Option (Option V)
  gets : List (Option V × Option V)
  wild : Bool

namespace TlsSystem

variable {T V D : Type}

def init : TlsSystem T V D where
  state := ⟨fun _ => ⟨false, none⟩, fun _ => none⟩
  specific _ _ := none
  gets := []
  wild := false

def due (s : TlsSystem T V D) (t : T) (key : ℤ) : Option V :=
  if 0 ≤ key then (s.specific t key.toNat).join else none

def forget (s : TlsSystem T V D) (key : ℕ) : T → ℕ → Option (Option V) :=
  fun t => update (s.specific t) key none

def Tracks (keys : ℕ → PthreadKeyData D)
    (tls : T → Option (ℕ → Option V)) (specific : T → ℕ → Option (Option V)) : Prop :=
  ∀ t k v, specific t k = some v → k < pthreadKeyMax ∧ (keys k).isUsed = true ∧
  ∃ slots, tls t = some slots ∧ slots k = v

def Inv (s : TlsSystem T V D) : Prop := Tracks s.state.threadKeys s.state.tls s.specific

theorem init_inv : (init : TlsSystem T V D).Inv := by
  intro t k v hv
  cases hv

def Good (s : TlsSystem T V D) : Prop := s.wild = false ∧ ∀ p ∈ s.gets, p.1 = p.2

theorem init_good : (init : TlsSystem T V D).Good := ⟨rfl, fun _ hp => absurd hp not_mem_nil⟩

variable [DecidableEq T]

def exec (s : TlsSystem T V D) : TlsCall T V D → TlsSystem T V D
  | .keyCreate destructor =>
    match s.state.pthreadKeyCreate destructor with
    | (state, .ok key) => { s with state := state, specific := s.forget key }
    | (state, .error _) => { s with state := state }
  | .keyDelete key =>
    match s.state.pthreadKeyDelete key with
    | .wild => { s with wild := true }
    | .done (state, .ok _) => { s with state := state, specific := s.forget key.toNat }
    | .done (state, .error _) => { s with state := state }
  | .setspecific t key value malloc =>
    match s.state.pthreadSetspecific t key value malloc with
    | .wild => { s with wild := true }
    | .done (state, .ok _) =>
      { s with
        state := state
        specific := update s.specific t (update (s.specific t) key.toNat (some value)) }
    | .done (state, .error _) => { s with state := state }
  | .getspecific t key =>
    match s.state.pthreadGetspecific t key with
    | .wild => { s with wild := true }
    | .done value => { s with gets := s.gets ++ [(value, s.due t key)] }

def step (s : TlsSystem T V D) (c : TlsCall T V D) : Option (TlsSystem T V D) := some (s.exec c)

/-- Keys are not negative, a thread that sets a value gets an area, and an area holds NULL for a key that its thread
has not set since the key was created. -/
def Safe (s : TlsSystem T V D) : TlsCall T V D → Prop
  | .keyCreate _ => True
  | .keyDelete key => 0 ≤ key
  | .setspecific t key _ malloc => s.state.Stores t key malloc
  | .getspecific t key => ∀ slots, s.state.tls t = some slots →
    0 ≤ key ∧ (s.state.InUse key → s.specific t key.toNat = none → slots key.toNat = none)

section

variable {keys : ℕ → PthreadKeyData D} {tls : T → Option (ℕ → Option V)}
  {specific : T → ℕ → Option (Option V)}

variable (h : Tracks keys tls specific)

include h

omit [DecidableEq T] in
theorem Tracks.forget (key : ℕ) (data : PthreadKeyData D) :
    Tracks (update keys key data) tls (fun t => update (specific t) key none) := by
  intro t k v hv
  dsimp only at hv
  obtain rfl | hk := eq_or_ne k key
  · rw [update_self] at hv
    cases hv
  · rw [update_of_ne hk] at hv ⊢
    exact h t k v hv

theorem Tracks.area (t : T) (malloc : Option (ℕ → Option V)) :
    Tracks keys (update tls t ((tls t).or malloc)) specific := by
  intro u k v hv
  obtain ⟨hlt, hused, slots, hslots, hk⟩ := h u k v hv
  refine ⟨hlt, hused, slots, ?_, hk⟩
  obtain rfl | hu := eq_or_ne u t
  · rw [update_self, hslots]
    rfl
  · rw [update_of_ne hu]
    exact hslots

theorem Tracks.store {t : T} {key : ℕ} {slots : ℕ → Option V}
    (hlt : key < pthreadKeyMax) (hused : (keys key).isUsed = true) (hslots : tls t = some slots) (value : Option V) :
    Tracks keys (update tls t (some (update slots key value)))
      (update specific t (update (specific t) key (some value))) := by
  intro u k v hv
  obtain rfl | hu := eq_or_ne u t
  · rw [update_self] at hv ⊢
    obtain rfl | hk := eq_or_ne k key
    · rw [update_self] at hv
      exact ⟨hlt, hused, _, rfl, by rw [update_self, some.inj hv]⟩
    · rw [update_of_ne hk] at hv
      obtain ⟨hlt', hused', slots', hslots', hv'⟩ := h u k v hv
      obtain rfl := some.inj (hslots.symm.trans hslots')
      exact ⟨hlt', hused', _, rfl, by rw [update_of_ne hk, hv']⟩
  · rw [update_of_ne hu] at hv ⊢
    exact h u k v hv

end

section

variable {s : TlsSystem T V D} {t : T} {key : ℤ}

variable (h : s.Inv)

include h

section

omit [DecidableEq T]

theorem Inv.due_of_not_inUse (t : T) (hkey : ¬ s.state.InUse key) : s.due t key = none := by
  unfold due
  split_ifs with h0
  · cases hv : s.specific t key.toNat with
    | none => rfl
    | some v =>
      obtain ⟨hlt, hused, -⟩ := h t _ v hv
      exact absurd ⟨h0, by omega, hused⟩ hkey
  · rfl

theorem Inv.due_eq {slots : ℕ → Option V} (htls : s.state.tls t = some slots) (h0 : 0 ≤ key)
    (hsafe : s.specific t key.toNat = none → slots key.toNat = none) : s.due t key = slots key.toNat := by
  rw [due, if_pos h0]
  cases hv : s.specific t key.toNat with
  | none => exact (hsafe hv).symm
  | some v =>
    obtain ⟨-, -, slots', hslots, rfl⟩ := h t _ v hv
    obtain rfl := some.inj (htls.symm.trans hslots)
    rfl

end

theorem Inv.keyCreate (destructor : Option D) : (s.exec (.keyCreate destructor)).Inv := by
  simp only [exec, TlsState.pthreadKeyCreate]
  cases (List.range pthreadKeyMax).find? (fun index => !(s.state.threadKeys index).isUsed) with
  | none => exact h
  | some index => exact Tracks.forget h index _

theorem Inv.keyDelete (key : ℤ) : (s.exec (.keyDelete key)).Inv := by
  simp only [exec, TlsState.pthreadKeyDelete]
  split_ifs
  · exact h
  · exact h
  · exact Tracks.forget h key.toNat _

theorem Inv.setspecific (t : T) (key : ℤ) (value : Option V) (malloc : Option (ℕ → Option V)) :
    (s.exec (.setspecific t key value malloc)).Inv := by
  simp only [exec, TlsState.pthreadSetspecific]
  by_cases hneg : key < 0
  · rw [TlsState.keyUsed_neg hneg]
    exact h
  have harea : Tracks s.state.threadKeys _ s.specific := Tracks.area h t malloc
  by_cases hkey : s.state.InUse key
  · rw [TlsState.keyUsed_inUse hkey]
    cases hslots : (s.state.tls t).or malloc with
    | none => exact h
    | some slots =>
      have hself : update s.state.tls t ((s.state.tls t).or malloc) t = some slots := by
        rw [update_self, hslots]
      have hstore := harea.store hkey.lt hkey.2.2 hself value
      rw [update_idem] at hstore
      exact hstore
  · rw [TlsState.keyUsed_not_inUse (Int.not_lt.mp hneg) hkey]
    exact harea

theorem Inv.getspecific (t : T) (key : ℤ) : (s.exec (.getspecific t key)).Inv := by
  simp only [exec]
  cases s.state.pthreadGetspecific t key with
  | wild | done value => exact h

theorem Inv.exec (c : TlsCall T V D) : (s.exec c).Inv := by
  cases c with
  | keyCreate destructor => exact h.keyCreate destructor
  | keyDelete key => exact h.keyDelete key
  | setspecific t key value malloc => exact h.setspecific t key value malloc
  | getspecific t key => exact h.getspecific t key

end

section

variable {s : TlsSystem T V D} {t : T} {key : ℤ}

section

omit [DecidableEq T]

theorem good_gets_concat (hs : s.Good) (value due : Option V) :
    ({ s with gets := s.gets ++ [(value, due)] } : TlsSystem T V D).Good ↔ value = due := by
  constructor
  · intro h
    exact h.2 (value, due) (mem_append_right _ (mem_singleton_self _))
  · intro h
    exact ⟨hs.1, forall_mem_append.mpr ⟨hs.2, forall_mem_singleton.mpr h⟩⟩

theorem not_good_wild : ¬ ({ s with wild := true } : TlsSystem T V D).Good :=
  fun h => Bool.noConfusion h.1

end

theorem good_keyCreate (hs : s.Good) (destructor : Option D) : (s.exec (.keyCreate destructor)).Good := by
  simp only [exec, TlsState.pthreadKeyCreate]
  cases (List.range pthreadKeyMax).find? (fun index => !(s.state.threadKeys index).isUsed) with
  | none | some index => exact hs

theorem good_keyDelete_iff (hs : s.Good) (key : ℤ) : (s.exec (.keyDelete key)).Good ↔ 0 ≤ key := by
  simp only [exec, TlsState.pthreadKeyDelete]
  split_ifs with hle hneg
  · exact iff_of_true hs (by omega)
  · exact iff_of_false not_good_wild (Int.not_le.mpr hneg)
  · exact iff_of_true hs (Int.not_lt.mp hneg)

theorem good_setspecific_iff (hs : s.Good) (t : T) (key : ℤ) (value : Option V) (malloc : Option (ℕ → Option V)) :
    (s.exec (.setspecific t key value malloc)).Good ↔ s.state.Stores t key malloc := by
  have hwild : s.state.pthreadSetspecific t key value malloc = .wild ↔ _ :=
    TlsState.pthreadSetspecific_wild_iff t value malloc
  simp only [exec]
  cases hset : s.state.pthreadSetspecific t key value malloc with
  | wild => exact iff_of_false not_good_wild (hwild.mp hset)
  | done r =>
    obtain ⟨state, result⟩ := r
    have hstores : s.state.Stores t key malloc := by
      by_contra h
      rw [hwild.mpr h] at hset
      cases hset
    cases result with
    | error e | ok u => exact iff_of_true hs hstores

theorem good_getspecific_iff (hi : s.Inv) (hs : s.Good) (t : T) (key : ℤ) :
    (s.exec (.getspecific t key)).Good ↔ s.Safe (.getspecific t key) := by
  simp only [exec, TlsState.pthreadGetspecific]
  cases htls : s.state.tls t with
  | none =>
    apply iff_of_true
    · apply (good_gets_concat hs none (s.due t key)).mpr
      unfold due
      split_ifs with h0
      · cases hv : s.specific t key.toNat with
        | none => rfl
        | some v =>
          obtain ⟨-, -, slots, hslots, -⟩ := hi t _ v hv
          rw [htls] at hslots
          cases hslots
      · rfl
    · intro slots h
      rw [htls] at h
      cases h
  | some slots =>
    have hsafe : s.Safe (.getspecific t key) ↔
        0 ≤ key ∧ (s.state.InUse key → s.specific t key.toNat = none → slots key.toNat = none) := by
      constructor
      · intro h
        exact h slots htls
      · intro h slots' hslots
        obtain rfl := some.inj (htls.symm.trans hslots)
        exact h
    rw [hsafe]
    by_cases hneg : key < 0
    · rw [TlsState.keyUsed_neg hneg]
      exact iff_of_false not_good_wild fun h => absurd h.1 (Int.not_le.mpr hneg)
    have h0 := Int.not_lt.mp hneg
    by_cases hkey : s.state.InUse key
    · rw [TlsState.keyUsed_inUse hkey]
      apply (good_gets_concat hs (slots key.toNat) (s.due t key)).trans
      constructor
      · intro hget
        refine ⟨h0, fun _ hv => ?_⟩
        rw [hget, due, if_pos h0, hv]
        rfl
      · intro h
        exact (hi.due_eq htls h0 (h.2 hkey)).symm
    · rw [TlsState.keyUsed_not_inUse h0 hkey]
      apply (good_gets_concat hs none (s.due t key)).trans
      rw [hi.due_of_not_inUse t hkey]
      exact iff_of_true rfl ⟨h0, fun h => absurd h hkey⟩

theorem good_exec_iff (hi : s.Inv) (hs : s.Good) (c : TlsCall T V D) : (s.exec c).Good ↔ s.Safe c := by
  cases c with
  | keyCreate destructor => exact iff_of_true (good_keyCreate hs destructor) trivial
  | keyDelete key => exact good_keyDelete_iff hs key
  | setspecific t key value malloc => exact good_setspecific_iff hs t key value malloc
  | getspecific t key => exact good_getspecific_iff hi hs t key

end

theorem specific_is_map_iff (calls : List (TlsCall T V D)) :
    StatesAlong step Good (init : TlsSystem T V D) calls ↔ StepsAlong step Safe init calls := by
  apply statesAlong_iff_stepsAlong ?_ ?_ calls init_inv init_good
  · intro s c s' hi hs
    cases hs
    exact hi.exec c
  · intro s c s' hi hg hs
    cases hs
    exact good_exec_iff hi hg c

theorem specific_not_map :
    (run step (init : TlsSystem ℕ ℕ ℕ) [.keyCreate none, .setspecific 0 0 (some 7) (some fun _ => none),
      .keyDelete 0,
      .keyCreate none, .getspecific 0 0]).any (fun s => s.gets == [(some 7, none)]) = true ∧
    (run step (init : TlsSystem ℕ ℕ ℕ) [.keyCreate none, .keyCreate none,
      .setspecific 0 0 none (some fun _ => some 9), .getspecific 0 1]).any
      (fun s => s.gets == [(some 9, none)]) = true ∧
    (run step (init : TlsSystem ℕ ℕ ℕ) [.keyCreate none, .setspecific 0 0 (some 7) none]).any
    (fun s => s.wild) = true := by
  decide +kernel

end TlsSystem

end RtThread
