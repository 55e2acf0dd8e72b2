import RtThread.Pthreads.Tls

/-!
The handlers of `pthread_cleanup_push` and the destructors of the keys, up to a thread's end by `pthread_exit` or by
the return of its start routine. Other threads make their calls between two handlers or keys of a `pthread_exit`;
handlers and destructors make none themselves.
-/

namespace RtThread

open Transition Function List Option TlsState

variable {T V D H : Type} [DecidableEq T]

def pthreadCleanupPop (cleanup : List H) (execute : ℤ) : List H × List H :=
  if execute ≠ 0 then
    match cleanup with
    | [] => ([], [])
    | handler :: next => (next, [handler])
  else (cleanup, [])

def pthreadCleanupPush (cleanup : List H) (handler : H) (malloc : Bool) : List H :=
  if malloc then handler :: cleanup else cleanup

def TlsState.destruct (s : TlsState T V D) (t : T) (index : ℕ) : Access (Option (D × V)) :=
  match s.tls t with
  | none => .wild
  | some slots =>
    if (s.threadKeys index).isUsed then
      match slots index with
      | none => .done none
      | some data =>
        match (s.threadKeys index).destructor with
        | none => .wild
        | some destructor => .done (some (destructor, data))
    else .done none

def destructorCall (key : PthreadKeyData D) (value : Option V) : Option (D × V) :=
  match key.isUsed, key.destructor, value with
  | true, some destructor, some data => some (destructor, data)
  | _, _, _ => none

def TlsState.owed (s : TlsState T V D) (t : T) : List (ℕ × D × V) :=
  match s.tls t with
  | none => []
  | some slots =>
    (List.range pthreadKeyMax).filterMap fun index =>
      (destructorCall (s.threadKeys index) (slots index)).map (Prod.mk index)

inductive EndPhase
  | running
  | unwinding
  | walking (index : ℕ)
  | ended
  deriving DecidableEq

/-- `cleanup` is the code's list. `pending` are the handlers that were pushed and not popped, `due` and `ran` the ones
that were to run and that ran; `owed` and `destroyed` are the destructor calls. -/
structure CleanupData (V D H : Type) where
  phase : EndPhase
  cleanup : List H
  pending : List H
  ran : List H
  due : List H
  destroyed : List (ℕ × D × V)
  owed : List (ℕ × D × V)

namespace CleanupData

def init : CleanupData V D H := ⟨.running, [], [], [], [], [], []⟩

def push (d : CleanupData V D H) (handler : H) (malloc : Bool) : CleanupData V D H :=
  { d with cleanup := pthreadCleanupPush d.cleanup handler malloc, pending := handler :: d.pending }

def pop (d : CleanupData V D H) (execute : ℤ) : CleanupData V D H :=
  { d with
    cleanup := (pthreadCleanupPop d.cleanup execute).1
    ran := d.ran ++ (pthreadCleanupPop d.cleanup execute).2
    pending := d.pending.tail
    due := if execute ≠ 0 then d.due ++ d.pending.take 1 else d.due }

def toEnd (d : CleanupData V D H) (phase : EndPhase) (owed : List (ℕ × D × V)) : CleanupData V D H :=
  { d with phase := phase, due := d.due ++ d.pending, pending := [], owed := owed }

def Good (d : CleanupData V D H) : Prop :=
  match d.phase with
  | .running => d.cleanup = d.pending ∧ d.ran = d.due
  | .unwinding => d.ran ++ d.cleanup = d.due
  | .walking _ => d.ran = d.due
  | .ended => d.ran = d.due ∧ ∀ call ∈ d.owed, call ∈ d.destroyed

end CleanupData

inductive CleanupCall (T V D H : Type)
  | push (t : T) (handler : H) (malloc : Bool)
  | pop (t : T) (execute : ℤ)
  | keyCreate (destructor : Option D)
  | setspecific (t : T) (key : ℤ) (value : Option V) (malloc : Option (ℕ → Option V))
  | ret (t : T)
  | exit (t : T)
  | goOn (t : T)

structure CleanupSystem (T V D H : Type) where
  tls : TlsState T V D
  data : T → CleanupData V D H
  wild : Bool

namespace CleanupSystem

def init : CleanupSystem T V D H where
  tls := ⟨fun _ => ⟨false, none⟩, fun _ => none⟩
  data _ := .init
  wild := false

def put (s : CleanupSystem T V D H) (t : T) (d : CleanupData V D H) : CleanupSystem T V D H :=
  { s with data := update s.data t d }

def setspecific (s : CleanupSystem T V D H) (t : T) (key : ℤ) (value : Option V)
    (malloc : Option (ℕ → Option V)) :
    CleanupSystem T V D H :=
  match s.tls.pthreadSetspecific t key value malloc with
  | .wild => { s with wild := true }
  | .done (tls, _) => { s with tls := tls }

def unwind (s : CleanupSystem T V D H) (t : T) : CleanupSystem T V D H :=
  match (s.data t).cleanup with
  | handler :: next => s.put t { s.data t with cleanup := next, ran := (s.data t).ran ++ [handler] }
  | [] => s.put t { s.data t with phase := if (s.tls.tls t).isSome then .walking 0 else .ended }

def walk (s : CleanupSystem T V D H) (t : T) (index : ℕ) : CleanupSystem T V D H :=
  if index < pthreadKeyMax then
    match s.tls.destruct t index with
    | .wild => { s with wild := true }
    | .done call =>
      s.put t { s.data t with
        phase := .walking (index + 1)
        destroyed := (s.data t).destroyed ++ (call.map (Prod.mk index)).toList }
  else
    { s.put t { s.data t with phase := .ended } with
      tls := { s.tls with tls := update s.tls.tls t none } }

def goOn (s : CleanupSystem T V D H) (t : T) : Option (CleanupSystem T V D H) :=
  match (s.data t).phase with
  | .running | .ended => none
  | .unwinding => some (s.unwind t)
  | .walking index => some (s.walk t index)

def step (s : CleanupSystem T V D H) : CleanupCall T V D H → Option (CleanupSystem T V D H)
  | .push t handler malloc =>
    if (s.data t).phase = .running then some (s.put t ((s.data t).push handler malloc)) else none
  | .pop t execute => if (s.data t).phase = .running then some (s.put t ((s.data t).pop execute)) else none
  | .keyCreate destructor => some { s with tls := (s.tls.pthreadKeyCreate destructor).1 }
  | .setspecific t key value malloc =>
    if (s.data t).phase = .running then some (s.setspecific t key value malloc) else none
  | .ret t => if (s.data t).phase = .running then some (s.put t ((s.data t).toEnd .ended (s.tls.owed t))) else none
  | .exit t => if (s.data t).phase = .running then some (s.put t ((s.data t).toEnd .unwinding (s.tls.owed t))) else none
  | .goOn t => s.goOn t

def Good (s : CleanupSystem T V D H) : Prop := s.wild = false ∧ ∀ t, (s.data t).Good

/-- A handler finds memory, `pthread_cleanup_pop(0)` finds no handler, a thread that returns has no handler and no
destructor to run, and a key whose value `pthread_exit` finds not NULL has a destructor. -/
def Safe (s : CleanupSystem T V D H) : CleanupCall T V D H → Prop
  | .push _ _ malloc => malloc = true
  | .pop t execute => execute ≠ 0 ∨ (s.data t).cleanup = []
  | .keyCreate _ => True
  | .setspecific t key _ malloc => s.tls.Stores t key malloc
  | .ret t => (s.data t).cleanup = [] ∧ s.tls.owed t = []
  | .exit _ => True
  | .goOn t => ∀ index slots, (s.data t).phase = .walking index → index < pthreadKeyMax →
      s.tls.tls t = some slots →
    (s.tls.threadKeys index).isUsed = true → slots index ≠ none → (s.tls.threadKeys index).destructor ≠ none

end CleanupSystem

namespace TlsState

variable {s : TlsState T V D} {t : T}

def Due (s : TlsState T V D) (t : T) (call : ℕ × D × V) : Prop :=
  call.1 < pthreadKeyMax ∧ ∃ slots, s.tls t = some slots ∧
    destructorCall (s.threadKeys call.1) (slots call.1) = some call.2

omit [DecidableEq T]

theorem mem_owed_iff (call : ℕ × D × V) : call ∈ s.owed t ↔ s.Due t call := by
  unfold owed Due
  cases s.tls t with
  | none => simp
  | some slots =>
    simp only [mem_filterMap, mem_range, map_eq_some_iff, Option.some.injEq, exists_eq_left']
    constructor
    · rintro ⟨index, hlt, value, hcall, rfl⟩
      exact ⟨hlt, hcall⟩
    · rintro ⟨hlt, hcall⟩
      exact ⟨call.1, hlt, call.2, hcall, rfl⟩

theorem destructorCall_used {key : PthreadKeyData D} {value : Option V} {call : D × V}
    (h : destructorCall key value = some call) : key.isUsed = true := by
  unfold destructorCall at h
  split at h
  · assumption
  · cases h

theorem Due.keyCreate {call : ℕ × D × V} (h : s.Due t call) (destructor : Option D) :
    (s.pthreadKeyCreate destructor).1.Due t call := by
  unfold pthreadKeyCreate
  cases hfind : (List.range pthreadKeyMax).find? (fun index => !(s.threadKeys index).isUsed) with
  | none => exact h
  | some index =>
    obtain ⟨hlt, slots, hslots, hcall⟩ := h
    have hne : call.1 ≠ index := by
      rintro rfl
      have hunused := find?_some hfind
      rw [destructorCall_used hcall] at hunused
      cases hunused
    refine ⟨hlt, slots, hslots, ?_⟩
    dsimp only
    rw [update_of_ne hne, hcall]

theorem pthreadKeyCreate_tls (s : TlsState T V D) (destructor : Option D) :
    (s.pthreadKeyCreate destructor).1.tls = s.tls := by
  unfold pthreadKeyCreate
  split <;> rfl

theorem destruct_cases {slots : ℕ → Option V} (htls : s.tls t = some slots) (index : ℕ) :
    (s.destruct t index = .wild ∧ (s.threadKeys index).isUsed = true ∧ slots index ≠ none ∧
      (s.threadKeys index).destructor = none) ∨
    (s.destruct t index = .done (destructorCall (s.threadKeys index) (slots index)) ∧
      ((s.threadKeys index).isUsed = true → slots index ≠ none → (s.threadKeys index).destructor ≠ none)) := by
  unfold destruct destructorCall
  rw [htls]
  dsimp only
  cases (s.threadKeys index).isUsed with
  | false => exact .inr ⟨rfl, nofun⟩
  | true =>
    cases slots index with
    | none => exact .inr ⟨by cases (s.threadKeys index).destructor <;> rfl, fun _ h => absurd rfl h⟩
    | some data =>
      cases (s.threadKeys index).destructor with
      | none => exact .inl ⟨rfl, rfl, nofun, rfl⟩
      | some destructor => exact .inr ⟨rfl, fun _ _ => nofun⟩

end TlsState

namespace CleanupSystem

def Kept (tls : TlsState T V D) (t : T) (d : CleanupData V D H) : Prop :=
  match d.phase with
  | .running => d.destroyed = []
  | .unwinding => ∀ call ∈ d.owed, tls.Due t call
  | .walking index => tls.tls t ≠ none ∧ ∀ call ∈ d.owed, call ∈ d.destroyed ∨ index ≤ call.1 ∧
      tls.Due t call
  | .ended => True

def Inv (s : CleanupSystem T V D H) : Prop := ∀ t, Kept s.tls t (s.data t)

section

omit [DecidableEq T]

theorem Kept.mono {tls tls' : TlsState T V D} {t : T} {d : CleanupData V D H} (h : Kept tls t d)
    (htls : tls.tls t ≠ none → tls'.tls t ≠ none) (hdue : ∀ call, tls.Due t call → tls'.Due t call) :
    Kept tls' t d := by
  unfold Kept at h ⊢
  cases hphase : d.phase with
  | running =>
    rw [hphase] at h
    exact h
  | unwinding =>
    rw [hphase] at h
    exact fun call hcall => hdue call (h call hcall)
  | walking index =>
    rw [hphase] at h
    exact ⟨htls h.1, fun call hcall => (h.2 call hcall).imp_right fun h => ⟨h.1, hdue call h.2⟩⟩
  | ended => trivial

theorem init_inv : (init : CleanupSystem T V D H).Inv := fun _ => rfl

theorem init_good : (init : CleanupSystem T V D H).Good := ⟨rfl, fun _ => ⟨rfl, rfl⟩⟩

end

theorem Kept.of_update {tls : TlsState T V D} {t u : T} {d : CleanupData V D H} (h : Kept tls u d) (hu : u ≠ t)
    (area : Option (ℕ → Option V)) : Kept { tls with tls := update tls.tls t area } u d := by
  have harea : update tls.tls t area u = tls.tls u := update_of_ne hu _ _
  apply h.mono
  · intro h
    exact harea.trans_ne h
  · rintro call ⟨hlt, slots, hslots, hcall⟩
    exact ⟨hlt, slots, harea.trans hslots, hcall⟩

section

variable {s : CleanupSystem T V D H} {t : T}

theorem Inv.put (hi : s.Inv) {d : CleanupData V D H} (hd : Kept s.tls t d) : (s.put t d).Inv := by
  intro u
  obtain rfl | hu := eq_or_ne u t
  · show Kept s.tls u (update s.data u d u)
    rw [update_self]
    exact hd
  · show Kept s.tls u (update s.data t d u)
    rw [update_of_ne hu]
    exact hi u

theorem good_put_iff (hs : s.Good) (d : CleanupData V D H) : (s.put t d).Good ↔ d.Good := by
  constructor
  · intro h
    have ht := h.2 t
    dsimp only [put] at ht
    rwa [update_self] at ht
  · intro h
    refine ⟨hs.1, fun u => ?_⟩
    dsimp only [put]
    obtain rfl | hu := eq_or_ne u t
    · rwa [update_self]
    · rw [update_of_ne hu]
      exact hs.2 u

section

omit [DecidableEq T]

theorem not_good_wild : ¬ ({ s with wild := true } : CleanupSystem T V D H).Good :=
  fun h => Bool.noConfusion h.1

theorem Good.running (hs : s.Good) (hphase : (s.data t).phase = .running) :
    (s.data t).cleanup = (s.data t).pending ∧ (s.data t).ran = (s.data t).due := by
  have h := hs.2 t
  unfold CleanupData.Good at h
  rwa [hphase] at h

theorem Inv.running (hi : s.Inv) (hphase : (s.data t).phase = .running) : (s.data t).destroyed = [] := by
  have h := hi t
  unfold Kept at h
  rwa [hphase] at h

end

section

variable (hs : s.Good) (hphase : (s.data t).phase = .running)

include hs hphase

theorem good_push_iff (handler : H) (malloc : Bool) :
    (s.put t ((s.data t).push handler malloc)).Good ↔ malloc = true := by
  obtain ⟨hcleanup, hran⟩ := hs.running hphase
  rw [good_put_iff hs]
  simp only [CleanupData.Good, CleanupData.push, hphase, pthreadCleanupPush]
  cases malloc with
  | true => exact iff_of_true ⟨by rw [if_pos rfl, hcleanup], hran⟩ rfl
  | false =>
    apply iff_of_false _ Bool.false_ne_true
    rintro ⟨h, -⟩
    rw [hcleanup] at h
    exact cons_ne_self _ _ h.symm

theorem good_pop_iff (execute : ℤ) :
    (s.put t ((s.data t).pop execute)).Good ↔ execute ≠ 0 ∨ (s.data t).cleanup = [] := by
  obtain ⟨hcleanup, hran⟩ := hs.running hphase
  rw [good_put_iff hs]
  simp only [CleanupData.Good, CleanupData.pop, hphase, pthreadCleanupPop, ← hcleanup, ← hran]
  by_cases hexecute : execute ≠ 0
  · apply iff_of_true _ (.inl hexecute)
    rw [if_pos hexecute, if_pos hexecute]
    cases (s.data t).cleanup with
    | nil | cons handler next => exact ⟨rfl, rfl⟩
  · rw [if_neg hexecute, if_neg hexecute]
    -- nothing is removed, which is right only if there is nothing
    cases (s.data t).cleanup with
    | nil => exact iff_of_true ⟨rfl, append_nil _⟩ (.inr rfl)
    | cons handler next =>
      apply iff_of_false
      · rintro ⟨h, -⟩
        exact cons_ne_self _ _ h
      · rintro (h | h)
        · exact hexecute h
        · cases h

end

theorem good_ret_iff (hi : s.Inv) (hs : s.Good) (hphase : (s.data t).phase = .running) :
    (s.put t ((s.data t).toEnd .ended (s.tls.owed t))).Good ↔ (s.data t).cleanup = [] ∧ s.tls.owed t = [] := by
  obtain ⟨hcleanup, hran⟩ := hs.running hphase
  rw [good_put_iff hs]
  simp only [CleanupData.Good, CleanupData.toEnd, hi.running hphase, ← hcleanup, ← hran]
  constructor
  · rintro ⟨hdue, howed⟩
    refine ⟨self_eq_append_right.mp hdue, eq_nil_iff_forall_not_mem.mpr fun call hcall => ?_⟩
    exact not_mem_nil (howed call hcall)
  · rintro ⟨hnil, howed⟩
    rw [hnil, howed, append_nil]
    exact ⟨rfl, fun _ h => h⟩

theorem good_exit (hs : s.Good) (hphase : (s.data t).phase = .running) :
    (s.put t ((s.data t).toEnd .unwinding (s.tls.owed t))).Good := by
  obtain ⟨hcleanup, hran⟩ := hs.running hphase
  rw [good_put_iff hs]
  simp only [CleanupData.Good, CleanupData.toEnd]
  rw [hcleanup, hran]

theorem good_setspecific_iff (hs : s.Good) (t : T) (key : ℤ) (value : Option V) (malloc : Option (ℕ → Option V)) :
    (s.setspecific t key value malloc).Good ↔ s.tls.Stores t key malloc := by
  have hwild : s.tls.pthreadSetspecific t key value malloc = .wild ↔ _ := pthreadSetspecific_wild_iff t value malloc
  unfold setspecific
  cases hset : s.tls.pthreadSetspecific t key value malloc with
  | wild => exact iff_of_false not_good_wild (hwild.mp hset)
  | done r =>
    apply iff_of_true hs
    by_contra h
    rw [hwild.mpr h] at hset
    cases hset

end

section

variable {s : CleanupSystem T V D H} {t : T}

section

variable (hi : s.Inv)

include hi

section

omit [DecidableEq T]

theorem Inv.unwinding (hphase : (s.data t).phase = .unwinding) : ∀ call ∈ (s.data t).owed, s.tls.Due t call := by
  have h := hi t
  unfold Kept at h
  rwa [hphase] at h

theorem Inv.walking {index : ℕ} (hphase : (s.data t).phase = .walking index) : s.tls.tls t ≠ none ∧
      ∀ call ∈ (s.data t).owed, call ∈ (s.data t).destroyed ∨ index ≤ call.1 ∧ s.tls.Due t call := by
  have h := hi t
  unfold Kept at h
  rwa [hphase] at h

theorem Inv.keyCreate (destructor : Option D) :
    ({ s with tls := (s.tls.pthreadKeyCreate destructor).1 } : CleanupSystem T V D H).Inv := by
  intro u
  apply (hi u).mono
  · intro h
    rw [pthreadKeyCreate_tls]
    exact h
  · intro call h
    exact h.keyCreate destructor

end

theorem good_unwind (hs : s.Good) (hphase : (s.data t).phase = .unwinding) : (s.unwind t).Good := by
  have hran := hs.2 t
  unfold CleanupData.Good at hran
  rw [hphase] at hran
  unfold unwind
  cases hcleanup : (s.data t).cleanup with
  | cons handler next =>
    rw [hcleanup] at hran
    simp only [good_put_iff hs, CleanupData.Good, hphase]
    rw [List.append_assoc, singleton_append, hran]
  | nil =>
    rw [hcleanup, append_nil] at hran
    simp only [good_put_iff hs, CleanupData.Good]
    cases htls : s.tls.tls t with
    | some slots => exact hran
    | none =>
      -- without an area no destructor is owed
      refine ⟨hran, fun call hcall => ?_⟩
      obtain ⟨-, slots, hslots, -⟩ := hi.unwinding hphase call hcall
      rw [htls] at hslots
      cases hslots

theorem Inv.unwind (hphase : (s.data t).phase = .unwinding) : (s.unwind t).Inv := by
  unfold CleanupSystem.unwind
  cases (s.data t).cleanup with
  | cons handler next =>
    apply hi.put
    have h := hi t
    unfold Kept at h ⊢
    rw [hphase] at h
    rw [hphase]
    exact h
  | nil =>
    apply hi.put
    unfold Kept
    cases htls : s.tls.tls t with
    | none => trivial
    | some slots =>
      refine ⟨some_ne_none slots, fun call hcall => .inr ⟨Nat.zero_le _, ?_⟩⟩
      exact hi.unwinding hphase call hcall

theorem good_walk_iff (hs : s.Good) {index : ℕ} (hphase : (s.data t).phase = .walking index) :
    (s.walk t index).Good ↔ ∀ slots, index < pthreadKeyMax → s.tls.tls t = some slots →
      (s.tls.threadKeys index).isUsed = true → slots index ≠ none →
      (s.tls.threadKeys index).destructor ≠ none := by
  obtain ⟨hsome, howed⟩ := hi.walking hphase
  obtain ⟨slots, htls⟩ := ne_none_iff_exists'.mp hsome
  have hran := hs.2 t
  unfold CleanupData.Good at hran
  rw [hphase] at hran
  unfold walk
  split_ifs with hlt
  · obtain ⟨hwild, hused, hvalue, hnull⟩ | ⟨hdone, hcall⟩ := destruct_cases htls index
    · rw [hwild]
      exact iff_of_false not_good_wild fun h => h slots hlt htls hused hvalue hnull
    · rw [hdone]
      apply iff_of_true
      · simp only [good_put_iff hs, CleanupData.Good]
        exact hran
      · intro slots' _ hslots
        obtain rfl := Option.some.inj (htls.symm.trans hslots)
        exact hcall
  · apply iff_of_true
    · apply (good_put_iff hs { s.data t with phase := .ended }).mpr
      refine ⟨hran, fun call hcall => ?_⟩
      obtain h | ⟨hle, hdue⟩ := howed call hcall
      · exact h
      · exact absurd (Nat.lt_of_le_of_lt hle hdue.1) hlt
    · intro _ h
      exact absurd h hlt

theorem Inv.walk {index : ℕ} (hphase : (s.data t).phase = .walking index) : (s.walk t index).Inv := by
  obtain ⟨hsome, howed⟩ := hi.walking hphase
  obtain ⟨slots, htls⟩ := ne_none_iff_exists'.mp hsome
  unfold CleanupSystem.walk
  split_ifs with hlt
  · obtain ⟨hwild, -⟩ | ⟨hdone, -⟩ := destruct_cases htls index
    · rw [hwild]
      exact hi
    · rw [hdone]
      apply hi.put
      refine ⟨hsome, fun call hcall => ?_⟩
      obtain h | ⟨hle, hdue⟩ := howed call hcall
      · exact .inl (mem_append_left _ h)
      · obtain heq | hlt' := Nat.eq_or_lt_of_le hle
        · obtain ⟨-, slots', hslots, hkey⟩ := hdue
          obtain rfl := Option.some.inj (htls.symm.trans hslots)
          rw [← heq] at hkey
          apply Or.inl
          apply mem_append_right
          rw [hkey, heq]
          exact mem_singleton_self _
        · exact .inr ⟨hlt', hdue⟩
  · -- the area is gone, and with it the thread
    intro u
    obtain rfl | hu := eq_or_ne u t
    · dsimp only [CleanupSystem.put]
      rw [update_self]
      trivial
    · dsimp only [CleanupSystem.put]
      rw [update_of_ne hu]
      exact (hi u).of_update hu none

variable (hphase : (s.data t).phase = .running)

include hphase

theorem Inv.setspecific (key : ℤ) (value : Option V)
    (malloc : Option (ℕ → Option V)) : (s.setspecific t key value malloc).Inv := by
  unfold CleanupSystem.setspecific
  cases hset : s.tls.pthreadSetspecific t key value malloc with
  | wild => exact hi
  | done r =>
    obtain ⟨tls, result⟩ := r
    obtain ⟨area, rfl⟩ := pthreadSetspecific_frame hset
    intro u
    obtain rfl | hu := eq_or_ne u t
    · unfold Kept
      rw [hphase]
      exact hi.running hphase
    · exact (hi u).of_update hu area

omit [DecidableEq T]

theorem Inv.kept_running {d : CleanupData V D H}
    (hd : d.phase = (s.data t).phase) (hdestroyed : d.destroyed = (s.data t).destroyed) : Kept s.tls t d := by
  unfold Kept
  rw [hd, hphase]
  exact hdestroyed.trans (hi.running hphase)

end

variable {s' : CleanupSystem T V D H} {c : CleanupCall T V D H} (hi : s.Inv)

include hi

theorem step_inv (h : s.step c = some s') : s'.Inv := by
  cases c with
  | keyCreate destructor =>
    cases h
    exact hi.keyCreate destructor
  | goOn t =>
    simp only [step, goOn] at h
    split at h
    · cases h
    · cases h
    · cases h
      exact hi.unwind ‹_›
    · cases h
      exact hi.walk ‹_›
  | push t handler malloc | pop t execute =>
    obtain ⟨hphase, h⟩ := ite_none_right_eq_some.mp h
    cases h
    exact hi.put (hi.kept_running hphase rfl rfl)
  | setspecific t key value malloc =>
    obtain ⟨hphase, h⟩ := ite_none_right_eq_some.mp h
    cases h
    exact hi.setspecific hphase key value malloc
  | ret t =>
    obtain ⟨hphase, h⟩ := ite_none_right_eq_some.mp h
    cases h
    exact hi.put trivial
  | exit t =>
    obtain ⟨hphase, h⟩ := ite_none_right_eq_some.mp h
    cases h
    exact hi.put fun call hcall => (mem_owed_iff call).mp hcall

theorem step_good_iff (hs : s.Good) (h : s.step c = some s') : s'.Good ↔ s.Safe c := by
  cases c with
  | keyCreate destructor =>
    cases h
    exact iff_of_true hs trivial
  | goOn t =>
    simp only [step, goOn] at h
    split at h
    · cases h
    · cases h
    next hphase =>
      cases h
      apply iff_of_true (good_unwind hi hs hphase)
      intro index slots hwalking
      rw [hphase] at hwalking
      cases hwalking
    next index hphase =>
      cases h
      apply (good_walk_iff hi hs hphase).trans
      constructor
      · intro hkey index' slots hwalking
        rw [hphase] at hwalking
        cases hwalking
        exact hkey slots
      · intro hsafe slots
        exact hsafe index slots hphase
  | push t handler malloc =>
    obtain ⟨hphase, h⟩ := ite_none_right_eq_some.mp h
    cases h
    exact good_push_iff hs hphase handler malloc
  | pop t execute =>
    obtain ⟨hphase, h⟩ := ite_none_right_eq_some.mp h
    cases h
    exact good_pop_iff hs hphase execute
  | setspecific t key value malloc =>
    obtain ⟨-, h⟩ := ite_none_right_eq_some.mp h
    cases h
    exact good_setspecific_iff hs t key value malloc
  | ret t =>
    obtain ⟨hphase, h⟩ := ite_none_right_eq_some.mp h
    cases h
    exact good_ret_iff hi hs hphase
  | exit t =>
    obtain ⟨hphase, h⟩ := ite_none_right_eq_some.mp h
    cases h
    exact iff_of_true (good_exit hs hphase) trivial

end

section

variable {s : CleanupSystem T V D H} {t : T}

def left (d : CleanupData V D H) : ℕ :=
  match d.phase with
  | .running | .ended => 0
  | .unwinding => d.cleanup.length + pthreadKeyMax + 2
  | .walking index => pthreadKeyMax - index + 1

theorem left_unwind (hphase : (s.data t).phase = .unwinding) : left ((s.unwind t).data t) < left (s.data t) := by
  unfold unwind
  cases hcleanup : (s.data t).cleanup with
  | cons handler next =>
    simp only [put, update_self, left, hphase, hcleanup, length_cons]
    omega
  | nil =>
    simp only [put, update_self, left, hphase, hcleanup]
    cases s.tls.tls t with
    | none => exact Nat.succ_pos _
    | some slots =>
      show pthreadKeyMax - 0 + 1 < _
      omega

theorem left_walk {index : ℕ} (hphase : (s.data t).phase = .walking index) :
    (s.walk t index).wild = true ∨ left ((s.walk t index).data t) < left (s.data t) := by
  unfold walk
  split_ifs with hlt
  · cases s.tls.destruct t index with
    | wild => exact .inl rfl
    | done call =>
      apply Or.inr
      simp only [put, update_self, left, hphase]
      omega
  · apply Or.inr
    simp only [put, update_self, left, hphase]
    omega

theorem exit_ends (hphase : (s.data t).phase ≠ .running) :
    ∃ n s', run step s (List.replicate n (.goOn t)) = some s' ∧
    (s'.wild = true ∨ (s'.data t).phase = .ended) := by
  -- each piece is one less to come
  induction hn : left (s.data t) using Nat.strongRecOn generalizing s with
  | ind n ih =>
    have hgo : ∀ s', s.goOn t = some s' → (s'.data t).phase ≠ .running →
        s'.wild = true ∨ left (s'.data t) < left (s.data t) →
        ∃ n s', run step s (List.replicate n (.goOn t)) = some s' ∧
        (s'.wild = true ∨ (s'.data t).phase = .ended) := by
      intro s' hs' hrunning hnext
      obtain hwild | hlt := hnext
      · refine ⟨1, s', ?_, .inl hwild⟩
        simp only [List.replicate_one, run, step, hs', bind_some]
      · obtain ⟨m, u, hrun, hu⟩ := ih _ (hn ▸ hlt) hrunning rfl
        refine ⟨m + 1, u, ?_, hu⟩
        simp only [List.replicate_succ, run, step, hs', bind_some]
        exact hrun
    cases hp : (s.data t).phase with
    | running => exact absurd hp hphase
    | ended => exact ⟨0, s, rfl, .inr hp⟩
    | unwinding =>
      apply hgo (s.unwind t)
      · simp only [goOn, hp]
      · unfold unwind
        split
        · simp [put, hp]
        · simp only [put, update_self]
          split <;> simp
      · exact .inr (left_unwind hp)
    | walking index =>
      apply hgo (s.walk t index)
      · simp only [goOn, hp]
      · unfold walk
        split_ifs
        · split
          · simp [hp]
          · simp [put]
        · simp [put]
      · exact left_walk hp

end

theorem cleanup_runs_iff (calls : List (CleanupCall T V D H)) :
    StatesAlong step Good (init : CleanupSystem T V D H) calls ↔ StepsAlong step Safe init calls := by
  apply statesAlong_iff_stepsAlong ?_ ?_ calls init_inv init_good
  · intro s c s' hi h
    exact step_inv hi h
  · intro s c s' hi hs h
    exact step_good_iff hi hs h

theorem cleanup_not_run :
    (run step (init : CleanupSystem ℕ ℕ ℕ ℕ) [.push 0 5 true, .pop 0 0, .exit 0, .goOn 0, .goOn 0]).any
      (fun s => decide ((s.data 0).phase = .ended) && (s.data 0).ran == [5] && (s.data 0).due == []) = true ∧
    (run step (init : CleanupSystem ℕ ℕ ℕ ℕ) [.push 0 5 true, .keyCreate (some 3),
      .setspecific 0 0 (some 7) (some fun _ => none), .ret 0]).any
      (fun s => (s.data 0).ran == [] && (s.data 0).due == [5] && (s.data 0).destroyed == [] &&
        (s.data 0).owed == [(0, 3, 7)]) = true ∧
    (run step (init : CleanupSystem ℕ ℕ ℕ ℕ)
      [.keyCreate none, .setspecific 0 0 (some 7) (some fun _ => none), .exit 0,
      .goOn 0, .goOn 0]).any (fun s => s.wild) = true := by
  decide +kernel

end CleanupSystem

end RtThread
