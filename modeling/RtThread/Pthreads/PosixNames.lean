import Mathlib.Tactic.Common

/-!
The named objects of `semaphore.c` and `mqueue.c`, in linked lists, newest first; every call runs under the lock of its
list. A queue is found by the name of its kernel object. `posix_sem_find` takes the address of the pointer to the kernel
object for that object, so that it compares the bytes of the pointers `sem` and `next`.
-/

namespace RtThread

open List Nat

def rtNameMax : ℕ := 8

def ObjectName : Type := { bytes : List (BitVec 8) // 0#8 ∉ bytes ∧ bytes.length < rtNameMax }

instance : DecidableEq ObjectName := inferInstanceAs (DecidableEq (Subtype _))

def strncmp : ℕ → List (BitVec 8) → List (BitVec 8) → Bool
  | 0, _, _ => true
  | n + 1, s, t =>
    if s.headD 0#8 = t.headD 0#8 then
      if s.headD 0#8 = 0#8 then true else strncmp n s.tail t.tail
    else false

def pointerBytes (p : BitVec 32) : List (BitVec 8) :=
  [p.extractLsb' 0 8, p.extractLsb' 8 8, p.extractLsb' 16 8, p.extractLsb' 24 8]

inductive NamedKind
  | semaphore | queue
  deriving DecidableEq

structure NamedEntry where
  id : ℕ
  refcount : ℕ
  unlinked : Bool
  self : BitVec 32
  object : BitVec 32
  name : ObjectName

def posixFind {E : Type} (same : E → Option E → Bool) : List E → Option E
  | [] => none
  | e :: rest => if same e rest.head? then some e else posixFind same rest

def posixMqFind (list : List NamedEntry) (name : ObjectName) : Option NamedEntry :=
  posixFind (fun e _ => strncmp rtNameMax e.name.1 name.1) list

def posixSemFind (list : List NamedEntry) (name : ObjectName) : Option NamedEntry :=
  posixFind (fun e next =>
    strncmp rtNameMax (pointerBytes e.object ++ pointerBytes (next.elim 0 NamedEntry.self)) name.1) list

def NamedKind.find : NamedKind → List NamedEntry → ObjectName → Option NamedEntry
  | .semaphore => posixSemFind
  | .queue => posixMqFind

def posixUpdate (id : ℕ) (f : NamedEntry → NamedEntry) (list : List NamedEntry) : List NamedEntry :=
  list.map fun e => if e.id = id then f e else e

def posixDelete (id : ℕ) (list : List NamedEntry) : List NamedEntry := list.filter fun e => e.id ≠ id

inductive NameErrno
  | einval | enoent | eexist | enfile
  deriving DecidableEq

structure OpenFlag where
  creat : Bool
  excl : Bool

def NamedKind.openObject (kind : NamedKind) (list : List NamedEntry) (name : ObjectName) (oflag : OpenFlag) (id : ℕ)
    (malloc create : Option (BitVec 32)) : List NamedEntry × Except NameErrno ℕ :=
  if oflag.creat then
    if oflag.excl && (kind.find list name).isSome then (list, .error .eexist)
    else
      match malloc, create with
      | some self, some object => (⟨id, 1, false, self, object, name⟩ :: list, .ok id)
      | _, _ => (list, .error .enfile)
  else
    match kind.find list name with
    | some e => (posixUpdate e.id (fun e => { e with refcount := (e.refcount + 1) % 65536 }) list, .ok e.id)
    | none => (list, .error .enoent)

def semOpen := NamedKind.semaphore.openObject

def mqOpen := NamedKind.queue.openObject

def NamedEntry.LastClose (e : NamedEntry) : Prop := (e.refcount + 65535) % 65536 = 0 ∧ e.unlinked = true

instance (e : NamedEntry) : Decidable e.LastClose := instDecidableAnd

def posixClose (list : List NamedEntry) (e : NamedEntry) : List NamedEntry :=
  if e.LastClose then posixDelete e.id list
  else posixUpdate e.id (fun e' => { e' with refcount := (e.refcount + 65535) % 65536 }) list

def semClose := posixClose

def mqClose := posixClose

def NamedKind.unlink (kind : NamedKind) (list : List NamedEntry) (name : ObjectName) :
    List NamedEntry × Except NameErrno ℕ :=
  match kind.find list name with
  | some e =>
    if e.refcount = 0 then (posixDelete e.id list, .ok e.id)
    else (posixUpdate e.id (fun e => { e with unlinked := true }) list, .ok e.id)
  | none => (list, .error .enoent)

def semUnlink := NamedKind.semaphore.unlink

def mqUnlink := NamedKind.queue.unlink

def PosixStops {E : Type} (same : E → Option E → Bool) (list : List E) (k : ℕ) : Prop :=
  ∃ e, list[k]? = some e ∧ same e list[k + 1]? = true

section

variable {E : Type} {same : E → Option E → Bool} {e : E} {list : List E}

theorem posixStops_zero : PosixStops same (e :: list) 0 ↔ same e list.head? = true := by
  rw [head?_eq_getElem?]
  constructor
  · rintro ⟨e', he, h⟩
    cases he
    exact h
  · intro h
    exact ⟨e, rfl, h⟩

theorem posixFind_eq_none_iff : posixFind same list = none ↔ ∀ k, ¬ PosixStops same list k := by
  induction list with
  | nil =>
    apply iff_of_true rfl
    rintro k ⟨e, he, -⟩
    cases he
  | cons e rest ih =>
    unfold posixFind
    split
    next h =>
      apply iff_of_false nofun
      intro hnone
      exact hnone 0 (posixStops_zero.mpr h)
    next h =>
      rw [ih]
      constructor
      · intro hnone k
        cases k with
        | zero => exact fun hstop => h (posixStops_zero.mp hstop)
        | succ k => exact hnone k
      · intro hnone k
        exact hnone (k + 1)

theorem posixFind_eq_some_iff : posixFind same list = some e ↔
    ∃ k, list[k]? = some e ∧ PosixStops same list k ∧ ∀ j < k, ¬ PosixStops same list j := by
  induction list with
  | nil =>
    apply iff_of_false nofun
    rintro ⟨k, he, -⟩
    cases he
  | cons e₁ rest ih =>
    unfold posixFind
    split
    next h =>
      have hstop := posixStops_zero.mpr h
      constructor
      · intro heq
        exact ⟨0, heq, hstop, fun j hj => absurd hj (not_lt_zero j)⟩
      · rintro ⟨k, he, -, hfirst⟩
        cases k with
        | zero => exact he
        | succ k => exact absurd hstop (hfirst 0 (succ_pos k))
    next h =>
      rw [ih]
      constructor
      · rintro ⟨k, he, hstop, hfirst⟩
        refine ⟨k + 1, he, hstop, fun j hj => ?_⟩
        cases j with
        | zero => exact fun hstop => h (posixStops_zero.mp hstop)
        | succ j => exact hfirst j (lt_of_succ_lt_succ hj)
      · rintro ⟨k, he, hstop, hfirst⟩
        cases k with
        | zero => exact absurd (posixStops_zero.mp hstop) h
        | succ k => exact ⟨k, he, hstop, fun j hj => hfirst (j + 1) (succ_lt_succ hj)⟩

end

theorem posixFind_mem {E : Type} {same : E → Option E → Bool} {list : List E} {e : E}
    (h : posixFind same list = some e) : e ∈ list := by
  obtain ⟨k, he, -⟩ := posixFind_eq_some_iff.mp h
  exact mem_of_getElem? he

variable {name : ObjectName} {id : ℕ} {f : NamedEntry → NamedEntry} {list : List NamedEntry} {e : NamedEntry}

theorem NamedKind.find_mem {kind : NamedKind} (h : kind.find list name = some e) : e ∈ list := by
  cases kind with
  | semaphore | queue => exact posixFind_mem h

theorem NamedKind.openObject_cases (kind : NamedKind) (list : List NamedEntry) (name : ObjectName) (oflag : OpenFlag)
    (id : ℕ) (malloc create : Option (BitVec 32)) :
    (∃ self object, oflag.creat = true ∧ (oflag.excl = true → kind.find list name = none) ∧
      malloc = some self ∧
      create = some object ∧
      kind.openObject list name oflag id malloc create = (⟨id, 1, false, self, object, name⟩ :: list, .ok id)) ∨
    (∃ e, oflag.creat = false ∧ kind.find list name = some e ∧ kind.openObject list name oflag id malloc create =
      (posixUpdate e.id (fun e => { e with refcount := (e.refcount + 1) % 65536 }) list, .ok e.id)) ∨
    ∃ err, kind.openObject list name oflag id malloc create = (list, .error err) := by
  unfold openObject
  cases oflag.creat with
  | false =>
    cases hfind : kind.find list name with
    | none => exact .inr (.inr ⟨_, rfl⟩)
    | some e => exact .inr (.inl ⟨e, rfl, rfl, rfl⟩)
  | true =>
    rw [if_pos rfl]
    split_ifs with hexists
    · exact .inr (.inr ⟨_, rfl⟩)
    · cases malloc with
      | none => exact .inr (.inr ⟨_, rfl⟩)
      | some self =>
        cases create with
        | none => exact .inr (.inr ⟨_, rfl⟩)
        | some object =>
          refine .inl ⟨self, object, rfl, fun hexcl => ?_, rfl, rfl, rfl⟩
          rw [hexcl] at hexists
          exact Option.not_isSome_iff_eq_none.mp hexists

theorem strncmp_eq_true_iff {n : ℕ} {s t : List (BitVec 8)} (hs : 0#8 ∉ s) (ht : 0#8 ∉ t) (hn : s.length < n) :
    strncmp n s t = true ↔ s = t := by
  induction s generalizing n t with
  | nil =>
    obtain ⟨n, rfl⟩ : ∃ m, n = m + 1 := ⟨n - 1, by omega⟩
    cases t with
    | nil => simp [strncmp]
    | cons b t =>
      have hb : ¬ 0#8 = b := fun h => ht (h ▸ mem_cons_self)
      simp [strncmp, hb]
  | cons a s ih =>
    obtain ⟨n, rfl⟩ : ∃ m, n = m + 1 := ⟨n - 1, by omega⟩
    have ha : ¬ a = 0#8 := fun h => hs (h ▸ mem_cons_self)
    cases t with
    | nil => simp [strncmp, ha]
    | cons b t =>
      have hrest := ih (fun h => hs (mem_cons_of_mem _ h)) (fun h => ht (mem_cons_of_mem _ h)) (lt_of_succ_lt_succ hn)
      obtain rfl | hab := eq_or_ne a b
      · simp [strncmp, ha, hrest]
      · simp [strncmp, hab]

theorem strncmp_name {a b : ObjectName} : strncmp rtNameMax a.1 b.1 = true ↔ a = b :=
  (strncmp_eq_true_iff a.2.1 b.2.1 a.2.2).trans Subtype.ext_iff.symm

theorem posixMqFind_eq (list : List NamedEntry) (name : ObjectName) :
    posixMqFind list name = list.find? fun e => decide (e.name = name) := by
  unfold posixMqFind
  induction list with
  | nil => rfl
  | cons e rest ih =>
    rw [posixFind, find?_cons]
    by_cases h : e.name = name
    · rw [if_pos (strncmp_name.mpr h), decide_eq_true h]
    · rw [if_neg fun hc => h (strncmp_name.mp hc), decide_eq_false h, ih]

theorem strncmp_iff_isPrefix {n : ℕ} {s t : List (BitVec 8)} (ht : 0#8 ∉ t) (hn : t.length < n)
    (hs : t.length < s.length) :
    strncmp n s t = true ↔ t ++ [0#8] <+: s := by
  induction t generalizing n s with
  | nil =>
    obtain ⟨n, rfl⟩ : ∃ m, n = m + 1 := ⟨n - 1, by omega⟩
    cases s with
    | nil => cases hs
    | cons b s =>
      by_cases hb : b = 0#8
      · simp [strncmp, hb]
      · simp [strncmp, hb, Ne.symm hb]
  | cons a t ih =>
    obtain ⟨n, rfl⟩ : ∃ m, n = m + 1 := ⟨n - 1, by omega⟩
    have ha : ¬ a = 0#8 := fun h => ht (h ▸ mem_cons_self)
    cases s with
    | nil => cases hs
    | cons b s =>
      have hrest := ih (fun h => ht (mem_cons_of_mem _ h)) (lt_of_succ_lt_succ hn) (lt_of_succ_lt_succ hs)
      obtain rfl | hab := eq_or_ne b a
      · simp [strncmp, ha, hrest]
      · simp [strncmp, hab, Ne.symm hab]

def SemSpells (list : List NamedEntry) (name : ObjectName) (k : ℕ) : Prop :=
  ∃ e, list[k]? = some e ∧
    name.1 ++ [0#8] <+: pointerBytes e.object ++ pointerBytes (list[k + 1]?.elim 0 NamedEntry.self)

def SemNamed (list : List NamedEntry) (name : ObjectName) (e : NamedEntry) : Prop :=
  ∃ k, list[k]? = some e ∧ SemSpells list name k ∧ ∀ j < k, ¬ SemSpells list name j

theorem semSpells_iff {k : ℕ} : SemSpells list name k ↔ PosixStops (fun e next =>
      strncmp rtNameMax (pointerBytes e.object ++ pointerBytes (next.elim 0 NamedEntry.self)) name.1) list k := by
  apply exists_congr
  intro e
  apply and_congr_right
  intro _
  have hlength : name.1.length < (pointerBytes e.object ++ pointerBytes (list[k + 1]?.elim 0 NamedEntry.self)).length :=
    name.2.2
  exact (strncmp_iff_isPrefix name.2.1 name.2.2 hlength).symm

theorem posixSemFind_eq_none_iff : posixSemFind list name = none ↔ ∀ k, ¬ SemSpells list name k := by
  simp only [semSpells_iff]
  exact posixFind_eq_none_iff

theorem posixSemFind_eq_some_iff : posixSemFind list name = some e ↔ SemNamed list name e := by
  simp only [SemNamed, semSpells_iff]
  exact posixFind_eq_some_iff

theorem posixUpdate_entry_id (hf : ∀ e, (f e).id = e.id) (e : NamedEntry) :
    (if e.id = id then f e else e).id = e.id := by
  split
  · exact hf e
  · rfl

theorem mem_posixUpdate : e ∈ posixUpdate id f list ↔ ∃ e' ∈ list, (if e'.id = id then f e' else e') = e :=
  List.mem_map

theorem mem_posixDelete : e ∈ posixDelete id list ↔ e ∈ list ∧ e.id ≠ id := by
  rw [posixDelete, mem_filter, decide_eq_true_eq]

def PosixListed (list : List NamedEntry) (i : ℕ) : Prop := ∃ e ∈ list, e.id = i

theorem listed_cons {i : ℕ} : PosixListed (e :: list) i ↔ e.id = i ∨ PosixListed list i := by
  simp only [PosixListed, mem_cons, exists_eq_or_imp]

theorem listed_posixUpdate (hf : ∀ e, (f e).id = e.id)
    (i : ℕ) : PosixListed (posixUpdate id f list) i ↔ PosixListed list i := by
  constructor
  · rintro ⟨e, he, rfl⟩
    obtain ⟨e', he', rfl⟩ := mem_posixUpdate.mp he
    exact ⟨e', he', (posixUpdate_entry_id hf e').symm⟩
  · rintro ⟨e, he, rfl⟩
    exact ⟨_, mem_posixUpdate.mpr ⟨e, he, rfl⟩, posixUpdate_entry_id hf e⟩

theorem listed_posixDelete (i : ℕ) : PosixListed (posixDelete id list) i ↔ PosixListed list i ∧ i ≠ id := by
  constructor
  · rintro ⟨e, he, rfl⟩
    obtain ⟨he, hne⟩ := mem_posixDelete.mp he
    exact ⟨⟨e, he, rfl⟩, hne⟩
  · rintro ⟨⟨e, he, rfl⟩, hne⟩
    exact ⟨e, mem_posixDelete.mpr ⟨he, hne⟩, rfl⟩

def PosixSorted (list : List NamedEntry) : Prop := list.Pairwise fun e e' => e'.id < e.id

variable {list : List NamedEntry} (h : PosixSorted list)

include h

theorem PosixSorted.update (hf : ∀ e, (f e).id = e.id) : PosixSorted (posixUpdate id f list) := by
  apply pairwise_map.mpr
  apply h.imp
  intro e e' hlt
  rw [posixUpdate_entry_id hf, posixUpdate_entry_id hf]
  exact hlt

theorem PosixSorted.delete (id : ℕ) : PosixSorted (posixDelete id list) :=
  h.filter _

theorem PosixSorted.le_of_find? {p : NamedEntry → Bool} {e' : NamedEntry}
    (hfind : list.find? p = some e') (he : e ∈ list) (hp : p e = true) : e.id ≤ e'.id := by
  induction list with
  | nil => cases he
  | cons e₁ rest ih =>
    obtain ⟨hlt, hrest⟩ := pairwise_cons.mp h
    rw [find?_cons] at hfind
    cases hp₁ : p e₁ with
    | true =>
      rw [hp₁] at hfind
      cases hfind
      obtain rfl | he := mem_cons.mp he
      · exact Nat.le_refl _
      · exact Nat.le_of_lt (hlt e he)
    | false =>
      rw [hp₁] at hfind
      obtain rfl | he := mem_cons.mp he
      · rw [hp] at hp₁
        cases hp₁
      · exact ih hrest hfind he

theorem PosixSorted.eq_of_id {e' : NamedEntry} (he : e ∈ list) (he' : e' ∈ list) (hid : e.id = e'.id) : e = e' := by
  induction list with
  | nil => cases he
  | cons e₁ rest ih =>
    obtain ⟨hlt, hrest⟩ := pairwise_cons.mp h
    obtain rfl | hmem := mem_cons.mp he
    · obtain rfl | hmem' := mem_cons.mp he'
      · rfl
      · exact absurd hid (Nat.ne_of_gt (hlt e' hmem'))
    · obtain rfl | hmem' := mem_cons.mp he'
      · exact absurd hid (Nat.ne_of_lt (hlt e hmem))
      · exact ih hrest hmem hmem'

end RtThread
