import RtThread.Lib.Transition
import RtThread.Pthreads.PosixNames

namespace RtThread

open Transition Function List Option NamedKind

inductive NameCall
  | openName (name : ObjectName) (oflag : OpenFlag) (malloc create : Option (BitVec 32))
  | close (id : ℕ)
  | unlink (name : ObjectName)

/-- With the list, the name space that it stands for: the name of each object, whether it has been unlinked, and how
many have it open. `answers` are the objects that calls by name have come to, each with the one that the name stood
for. -/
structure NameSystem where
  list : List NamedEntry
  fresh : ℕ
  name : ℕ → Option ObjectName
  unlinked : ℕ → Bool
  openers : ℕ → ℕ
  answers : List (Option ℕ × Option ℕ)

namespace NameSystem

def init : NameSystem := ⟨[], 0, fun _ => none, fun _ => false, fun _ => 0, []⟩

def lookup (s : NameSystem) (name : ObjectName) : Option ℕ :=
  (List.range s.fresh).find? fun i => decide (s.name i = some name) && !s.unlinked i

def answered (s : NameSystem) (name : ObjectName) (oflag : OpenFlag) (result : Option ℕ) :
    List (Option ℕ × Option ℕ) :=
  if oflag.creat && (oflag.excl || (s.lookup name).isNone) then s.answers
  else s.answers ++ [(result, s.lookup name)]

def opened (s : NameSystem) (kind : NamedKind) (name : ObjectName) (oflag : OpenFlag)
    (malloc create : Option (BitVec 32)) : NameSystem :=
  match kind.openObject s.list name oflag s.fresh malloc create with
  | (list, .ok id) =>
    { s with
      list := list
      fresh := if oflag.creat then s.fresh + 1 else s.fresh
      name := if oflag.creat then update s.name id (some name) else s.name
      openers := update s.openers id (s.openers id + 1)
      answers := s.answered name oflag (some id) }
  | (list, .error _) => { s with list := list, answers := s.answered name oflag none }

def unlinkedName (s : NameSystem) (kind : NamedKind) (name : ObjectName) : NameSystem :=
  match kind.unlink s.list name with
  | (list, .ok id) =>
    { s with
      list := list
      unlinked := update s.unlinked id true
      answers := s.answers ++ [(some id, s.lookup name)] }
  | (list, .error _) => { s with list := list, answers := s.answers ++ [(none, s.lookup name)] }

def step (kind : NamedKind) (s : NameSystem) : NameCall → Option NameSystem
  | .openName name oflag malloc create => some (s.opened kind name oflag malloc create)
  | .close id =>
    if 0 < s.openers id then
      (s.list.find? fun e => e.id = id).map fun e =>
        { s with list := posixClose s.list e, openers := update s.openers id (s.openers id - 1) }
    else none
  | .unlink name => some (s.unlinkedName kind name)

structure Good (s : NameSystem) : Prop where
  answers : ∀ p ∈ s.answers, p.1 = p.2
  unique : ∀ i j n, s.name i = some n → s.name j = some n → s.unlinked i = false →
    s.unlinked j = false → i = j
  destroyed : ∀ i, s.name i ≠ none → (¬ (∃ e ∈ s.list, e.id = i) ↔ s.unlinked i = true ∧ s.openers i = 0)

/-- When the search for the name comes to the object that it stands for. A queue that has been unlinked and is still
open must not have the name, unless a new one has it too; for a semaphore the bytes of the pointers decide. -/
def Finds (kind : NamedKind) (s : NameSystem) (name : ObjectName) : Prop :=
  match kind with
  | .queue => s.lookup name = none → ∀ e ∈ s.list, e.name ≠ name
  | .semaphore =>
    match s.lookup name with
    | none => ∀ k, ¬ SemSpells s.list name k
    | some i => ∃ e, SemNamed s.list name e ∧ e.id = i

/-- The name is free for `O_CREAT`, the search is right, and the count of openers has not come round to 0. With
`O_EXCL` a queue is not made twice; a semaphore may be if the search does not find the first one. -/
def Lawful (kind : NamedKind) (s : NameSystem) : NameCall → Prop
  | .openName name oflag malloc create =>
    if oflag.creat then
      if oflag.excl then
        kind = .semaphore → (∀ k, ¬ SemSpells s.list name k) → malloc ≠ none → create ≠ none →
        s.lookup name = none
      else s.lookup name = none
    else s.Finds kind name
  | .close id => s.unlinked id = true → (s.openers id - 1) % 65536 = 0 → s.openers id = 1
  | .unlink name => s.Finds kind name ∧ ∀ i, s.lookup name = some i → s.openers i % 65536 = 0 → s.openers i = 0

structure Inv (s : NameSystem) : Prop where
  fresh : ∀ i, s.name i ≠ none ↔ i < s.fresh
  unborn : ∀ i, s.fresh ≤ i → s.unlinked i = false ∧ s.openers i = 0
  entries : ∀ e ∈ s.list, s.name e.id = some e.name ∧ e.unlinked = s.unlinked e.id ∧
    e.refcount = s.openers e.id % 65536
  sorted : PosixSorted s.list
  older : ∀ i j n, i < j → s.name i = some n → s.name j = some n → s.unlinked i = true

section

variable {s : NameSystem} {n : ObjectName}

theorem Inv.lookup_none_iff (hi : s.Inv) : s.lookup n = none ↔ ∀ i, s.name i = some n → s.unlinked i = true := by
  rw [lookup, find?_eq_none]
  simp only [mem_range, Bool.and_eq_true, decide_eq_true_eq, Bool.not_eq_true', not_and, Bool.not_eq_false]
  constructor
  · intro h i hn
    exact h i ((hi.fresh i).mp (by rw [hn]; exact some_ne_none n)) hn
  · intro h i _ hn
    exact h i hn

theorem lookup_some {i : ℕ} (h : s.lookup n = some i) : s.name i = some n ∧ s.unlinked i = false := by
  have hp := find?_some h
  simpa only [Bool.and_eq_true, decide_eq_true_eq, Bool.not_eq_true'] using hp

theorem Good.listed (hg : s.Good) {i : ℕ} (hn : s.name i ≠ none) (hu : s.unlinked i = false) :
    PosixListed s.list i := by
  by_contra h
  obtain ⟨hu', -⟩ := (hg.destroyed i hn).mp h
  rw [hu] at hu'
  cases hu'

theorem Good.mqFind_iff (hg : s.Good) (hi : s.Inv) :
    (posixMqFind s.list n).map NamedEntry.id = s.lookup n ↔
    (s.lookup n = none → ∀ e ∈ s.list, e.name ≠ n) := by
  rw [posixMqFind_eq]
  cases hl : s.lookup n with
  | none =>
    rw [map_eq_none_iff, find?_eq_none]
    simp only [decide_eq_true_eq, forall_const, ne_eq]
  | some i =>
    apply iff_of_true _ nofun
    obtain ⟨hn, hu⟩ := lookup_some hl
    obtain ⟨e, he, rfl⟩ := hg.listed (hn ▸ some_ne_none n) hu
    have hname : e.name = n := Option.some.inj ((hi.entries e he).1.symm.trans hn)
    obtain ⟨e', hfind⟩ : ∃ e', s.list.find? (fun e => decide (e.name = n)) = some e' := by
      apply isSome_iff_exists.mp
      rw [find?_isSome]
      exact ⟨e, he, decide_eq_true hname⟩
    have he' := mem_of_find?_eq_some hfind
    have hname' : e'.name = n := by simpa only [decide_eq_true_eq] using find?_some hfind
    have hn' : s.name e'.id = some n := hname' ▸ (hi.entries e' he').1
    rw [hfind, map_some]
    congr 1
    -- the first one is not older than the one that is not unlinked
    obtain hlt | heq | hgt := Nat.lt_trichotomy e.id e'.id
    · rw [hi.older _ _ n hlt hn hn'] at hu
      cases hu
    · exact heq.symm
    · exact absurd (hi.sorted.le_of_find? hfind he (decide_eq_true hname)) (Nat.not_le.mpr hgt)

end

section

variable {s s' : NameSystem} {kind : NamedKind}

theorem Good.finds_iff (hg : s.Good) (hi : s.Inv) (n : ObjectName) :
    (kind.find s.list n).map NamedEntry.id = s.lookup n ↔ s.Finds kind n := by
  cases kind with
  | semaphore =>
    dsimp only [Finds, find]
    cases s.lookup n with
    | none => rw [map_eq_none_iff, posixSemFind_eq_none_iff]
    | some i => simp only [map_eq_some_iff, posixSemFind_eq_some_iff]
  | queue => exact hg.mqFind_iff hi

theorem Good.excl_iff (hg : s.Good) (hi : s.Inv) (n : ObjectName) (malloc create : Option (BitVec 32)) :
    (kind.find s.list n = none → malloc ≠ none → create ≠ none → s.lookup n = none) ↔
      (kind = .semaphore → (∀ k, ¬ SemSpells s.list n k) → malloc ≠ none → create ≠ none →
        s.lookup n = none) := by
  cases kind with
  | semaphore =>
    rw [find, posixSemFind_eq_none_iff]
    exact ⟨fun h _ => h, fun h => h rfl⟩
  | queue =>
    apply iff_of_true _ nofun
    intro hfind _ _
    by_contra hl
    have hid := (hg.mqFind_iff hi).mpr fun h => absurd h hl
    rw [show posixMqFind s.list n = none from hfind] at hid
    exact hl hid.symm

theorem good_answer_iff (hg : s.Good) {list : List NamedEntry} {o : ℕ → ℕ} {u : ℕ → Bool}
    {answer : Option ℕ × Option ℕ} (hunlinked : ∀ i, u i = false → s.unlinked i = false)
    (hdestroyed : answer.1 = answer.2 →
      ∀ i, s.name i ≠ none → (¬ PosixListed list i ↔ u i = true ∧ o i = 0)) :
    ({ s with list := list, openers := o, unlinked := u, answers := s.answers ++ [answer] } :
      NameSystem).Good ↔ answer.1 = answer.2 := by
  constructor
  · intro h
    exact h.answers answer (mem_append_right _ (mem_singleton_self _))
  · intro h
    refine ⟨?_, ?_, hdestroyed h⟩
    · exact forall_mem_append.mpr ⟨hg.answers, forall_mem_singleton.mpr h⟩
    · intro i j n hi hj hui huj
      exact hg.unique i j n hi hj (hunlinked i hui) (hunlinked j huj)

theorem Good.destroyed_open (hg : s.Good) {e : NamedEntry} (he : e ∈ s.list) {f : NamedEntry → NamedEntry}
    (hf : ∀ e, (f e).id = e.id) (i : ℕ) (hn : s.name i ≠ none) :
    ¬ PosixListed (posixUpdate e.id f s.list) i ↔
      s.unlinked i = true ∧ update s.openers e.id (s.openers e.id + 1) i = 0 := by
  rw [listed_posixUpdate hf]
  by_cases hid : i = e.id
  · subst hid
    rw [update_self]
    exact iff_of_false (fun h => h ⟨e, he, rfl⟩) fun h => Nat.succ_ne_zero _ h.2
  · rw [update_of_ne hid]
    exact hg.destroyed i hn

variable {oflag : OpenFlag}

variable (hi : s.Inv) (hg : s.Good) (n : ObjectName)

include hi hg n

theorem good_openPlain_iff (ho : oflag.creat = false)
    (malloc create : Option (BitVec 32)) : (s.opened kind n oflag malloc create).Good ↔ s.Finds kind n := by
  rw [← hg.finds_iff hi n]
  simp only [opened, openObject, answered, ho, Bool.false_and, Bool.false_eq_true, if_false]
  cases hfind : kind.find s.list n with
  | some e =>
    apply good_answer_iff hg (fun _ h => h)
    intro _ i hn
    exact hg.destroyed_open (f := fun e => { e with refcount := (e.refcount + 1) % 65536 }) (find_mem hfind)
      (fun _ => rfl) i hn
  | none =>
    apply good_answer_iff hg (fun _ h => h)
    intro _ i hn
    exact hg.destroyed i hn

theorem good_create_iff (self object : BitVec 32) :
    ({ s with
      list := ⟨s.fresh, 1, false, self, object, n⟩ :: s.list
      fresh := s.fresh + 1
      name := update s.name s.fresh (some n)
      openers := update s.openers s.fresh (s.openers s.fresh + 1) } : NameSystem).Good ↔
      s.lookup n = none := by
  have hfresh : s.name s.fresh = none := by
    by_contra h
    exact Nat.lt_irrefl _ ((hi.fresh _).mp h)
  have hunborn := hi.unborn s.fresh (Nat.le_refl _)
  constructor
  · intro h
    by_contra hlookup
    obtain ⟨i, hl⟩ := ne_none_iff_exists'.mp hlookup
    obtain ⟨hn, hu⟩ := lookup_some hl
    have hne : i ≠ s.fresh := by
      rintro rfl
      rw [hfresh] at hn
      cases hn
    exact hne (h.unique i s.fresh n ((update_of_ne hne _ _).trans hn) (update_self ..) hu hunborn.1)
  · intro hl
    have hold := hi.lookup_none_iff.mp hl
    -- no other object that is not unlinked has the name
    have hother : ∀ i m, update s.name s.fresh (some n) i = some m → s.unlinked i = false →
        i = s.fresh ∧ m = n ∨ s.name i = some m ∧ m ≠ n := by
      intro i m hm hu
      by_cases hne : i = s.fresh
      · subst hne
        rw [update_self] at hm
        exact .inl ⟨rfl, (Option.some.inj hm).symm⟩
      · rw [update_of_ne hne] at hm
        refine .inr ⟨hm, ?_⟩
        rintro rfl
        rw [hold i hm] at hu
        cases hu
    refine ⟨hg.answers, ?_, ?_⟩
    · intro i j m hmi hmj hui huj
      obtain ⟨rfl, rfl⟩ | ⟨hmi, hne⟩ := hother i m hmi hui
      · obtain ⟨rfl, -⟩ | ⟨-, hne⟩ := hother j _ hmj huj
        · rfl
        · exact absurd rfl hne
      · obtain ⟨-, heq⟩ | ⟨hmj, -⟩ := hother j m hmj huj
        · exact absurd heq hne
        · exact hg.unique i j m hmi hmj hui huj
    · intro i hn
      dsimp only at hn ⊢
      by_cases hne : i = s.fresh
      · subst hne
        apply iff_of_false
        · intro h
          exact h ⟨_, mem_cons_self, rfl⟩
        · rintro ⟨hu, -⟩
          rw [hunborn.1] at hu
          cases hu
      · rw [update_of_ne hne] at hn ⊢
        have hlisted : PosixListed (⟨s.fresh, 1, false, self, object, n⟩ :: s.list) i ↔ PosixListed s.list i :=
          listed_cons.trans (or_iff_right (Ne.symm hne))
        exact (not_congr hlisted).trans (hg.destroyed i hn)

theorem good_openCreate_iff (ho : oflag.creat = true) (he : oflag.excl = false) (malloc create : Option (BitVec 32)) :
    (s.opened kind n oflag malloc create).Good ↔ s.lookup n = none := by
  simp only [opened, openObject, answered, ho, he, Bool.true_and, Bool.false_or, Bool.false_and, Bool.false_eq_true,
    if_true, if_false]
  cases hl : s.lookup n with
  | none =>
    apply iff_of_true _ rfl
    cases malloc with
    | none => exact hg
    | some self =>
      cases create with
      | none => exact hg
      | some object => exact (good_create_iff hi hg n self object).mpr hl
  | some i =>
    apply iff_of_false _ (some_ne_none i)
    -- whether there is a new object or none, it is not the one that has the name
    have hwrong : ∀ {t : NameSystem} {result : Option ℕ}, t.answers = s.answers ++ [(result, some i)] →
        result ≠ some i → ¬ t.Good := by
      intro t result ht hne h
      exact hne (h.answers (result, some i) (ht ▸ mem_append_right _ (mem_singleton_self _)))
    cases malloc with
    | none => exact hwrong rfl nofun
    | some self =>
      cases create with
      | none => exact hwrong rfl nofun
      | some object =>
        apply hwrong rfl
        intro heq
        have hlt := (hi.fresh i).mp ((lookup_some hl).1 ▸ some_ne_none n)
        rw [Option.some.inj heq] at hlt
        exact Nat.lt_irrefl _ hlt

theorem good_openExcl_iff (ho : oflag.creat = true) (he : oflag.excl = true) (malloc create : Option (BitVec 32)) :
    (s.opened kind n oflag malloc create).Good ↔
      (kind.find s.list n = none → malloc ≠ none → create ≠ none → s.lookup n = none) := by
  simp only [opened, openObject, answered, ho, he, Bool.true_and, Bool.true_or, if_true]
  cases hfind : kind.find s.list n with
  | some e => exact iff_of_true hg nofun
  | none =>
    cases malloc with
    | none => exact iff_of_true hg fun _ h => absurd rfl h
    | some self =>
      cases create with
      | none => exact iff_of_true hg fun _ _ h => absurd rfl h
      | some object =>
        apply (good_create_iff hi hg n self object).trans
        constructor
        · intro h _ _ _
          exact h
        · intro h
          exact h rfl (some_ne_none _) (some_ne_none _)

end

section

variable {s s' : NameSystem} {kind : NamedKind}

variable (hi : s.Inv) (hg : s.Good)

include hi hg

theorem good_close_iff {e : NamedEntry} (he : e ∈ s.list) (hopen : 0 < s.openers e.id) :
    ({ s with
      list := posixClose s.list e
      openers := update s.openers e.id (s.openers e.id - 1) } : NameSystem).Good ↔
      (s.unlinked e.id = true → (s.openers e.id - 1) % 65536 = 0 → s.openers e.id = 1) := by
  obtain ⟨hname, hunlinked, hcount⟩ := hi.entries e he
  have hnone : s.name e.id ≠ none := hname ▸ some_ne_none _
  have hlast : e.LastClose ↔ (s.openers e.id - 1) % 65536 = 0 ∧ s.unlinked e.id = true := by
    have hrefcount : (e.refcount + 65535) % 65536 = (s.openers e.id - 1) % 65536 := by omega
    unfold NamedEntry.LastClose
    rw [hrefcount, hunlinked]
  -- the other objects are as they were
  have hother : ∀ (list : List NamedEntry) i, i ≠ e.id → s.name i ≠ none →
    (PosixListed list i ↔ PosixListed s.list i) →
      (¬ PosixListed list i ↔ s.unlinked i = true ∧ update s.openers e.id (s.openers e.id - 1) i = 0) := by
    intro list i hne hn hlisted
    rw [update_of_ne hne]
    exact (not_congr hlisted).trans (hg.destroyed i hn)
  unfold posixClose
  split_ifs with hclose
  · have hdelete := hlast.mp hclose
    constructor
    · intro h _ _
      have hgone := (h.destroyed e.id hnone).mp fun hlisted => ((listed_posixDelete e.id).mp hlisted).2 rfl
      dsimp only at hgone
      rw [update_self] at hgone
      omega
    · intro h
      refine ⟨hg.answers, hg.unique, fun i hn => ?_⟩
      by_cases hne : i = e.id
      · subst hne
        apply iff_of_true
        · intro hlisted
          exact ((listed_posixDelete e.id).mp hlisted).2 rfl
        · refine ⟨hdelete.2, ?_⟩
          dsimp only
          rw [update_self, h hdelete.2 hdelete.1]
      · exact hother _ i hne hn ((listed_posixDelete i).trans (and_iff_left hne))
  · have hdelete := fun h => hclose (hlast.mpr h)
    apply iff_of_true
    · refine ⟨hg.answers, hg.unique, fun i hn => ?_⟩
      have hlisted : PosixListed (posixUpdate e.id _ s.list) i ↔ PosixListed s.list i :=
        listed_posixUpdate (f := fun e' => { e' with refcount := (e.refcount + 65535) % 65536 }) (fun _ => rfl) i
      by_cases hne : i = e.id
      · subst hne
        apply iff_of_false
        · intro h
          exact h (hlisted.mpr ⟨e, he, rfl⟩)
        · rintro ⟨hu, hzero⟩
          dsimp only at hu hzero
          rw [update_self] at hzero
          exact hdelete ⟨by rw [hzero], hu⟩
      · exact hother _ i hne hn hlisted
    · intro hu hzero
      exact absurd ⟨hzero, hu⟩ hdelete

theorem good_unlinked_iff {e : NamedEntry} (he : e ∈ s.list) {list : List NamedEntry}
    (hlisted : ∀ i, PosixListed list i ↔ PosixListed s.list i ∧ (i = e.id → s.openers e.id % 65536 ≠ 0))
    (due : Option ℕ) :
    ({ s with
      list := list
      unlinked := update s.unlinked e.id true
      answers := s.answers ++ [(some e.id, due)] } : NameSystem).Good ↔
      some e.id = due ∧ (s.openers e.id % 65536 = 0 → s.openers e.id = 0) := by
  have hnone : s.name e.id ≠ none := (hi.entries e he).1 ▸ some_ne_none _
  constructor
  · intro h
    refine ⟨h.answers _ (mem_append_right _ (mem_singleton_self _)), fun hzero => ?_⟩
    exact ((h.destroyed e.id hnone).mp fun hl => ((hlisted e.id).mp hl).2 rfl hzero).2
  · rintro ⟨rfl, hcount⟩
    apply (good_answer_iff hg ?_ ?_).mpr rfl
    · intro i hu
      by_cases hne : i = e.id
      · subst hne
        rw [update_self] at hu
        cases hu
      · rwa [update_of_ne hne] at hu
    · intro _ i hn
      rw [hlisted]
      by_cases hne : i = e.id
      · subst hne
        rw [update_self]
        constructor
        · intro h
          refine ⟨rfl, hcount ?_⟩
          by_contra hzero
          exact h ⟨⟨e, he, rfl⟩, fun _ => hzero⟩
        · rintro ⟨-, hzero⟩ ⟨-, h⟩
          exact h rfl (by rw [hzero])
      · rw [update_of_ne hne]
        exact (not_congr (and_iff_left fun h => absurd h hne)).trans (hg.destroyed i hn)

theorem good_unlink_iff (n : ObjectName) : (s.unlinkedName kind n).Good ↔
    s.Finds kind n ∧ ∀ i, s.lookup n = some i → s.openers i % 65536 = 0 → s.openers i = 0 := by
  rw [← hg.finds_iff hi n]
  unfold unlinkedName unlink
  cases hfind : kind.find s.list n with
  | none =>
    apply (good_answer_iff hg (fun _ h => h) ?_).trans
    · constructor
      · intro (h : none = s.lookup n)
        refine ⟨h, fun i hl => ?_⟩
        rw [← h] at hl
        cases hl
      · intro h
        exact h.1
    · intro _ i hn
      exact hg.destroyed i hn
  | some e =>
    have he := find_mem hfind
    have hcount := (hi.entries e he).2.2
    have hsplit : (some e.id = s.lookup n ∧ (s.openers e.id % 65536 = 0 → s.openers e.id = 0)) ↔
        (some e.id = s.lookup n ∧ ∀ i, s.lookup n = some i → s.openers i % 65536 = 0 → s.openers i = 0) := by
      apply and_congr_right
      intro heq
      rw [← heq]
      constructor
      · rintro h i hi
        cases hi
        exact h
      · intro h
        exact h e.id rfl
    refine Iff.trans ?_ hsplit
    dsimp only
    split_ifs with hzero
    · apply good_unlinked_iff hi hg he
      intro i
      rw [listed_posixDelete]
      rw [hcount] at hzero
      exact and_congr_right fun _ => ⟨fun hne h => absurd h hne, fun h hid => h hid hzero⟩
    · apply good_unlinked_iff hi hg he
      intro i
      rw [hcount] at hzero
      exact (listed_posixUpdate (f := fun e' => { e' with unlinked := true }) (fun _ => rfl) i).trans
        (and_iff_left fun _ => hzero).symm

end

section

variable {s s' : NameSystem} {kind : NamedKind}

variable {answers : List (Option ℕ × Option ℕ)}

section

variable (hi : s.Inv) {id : ℕ} (hid : s.name id ≠ none)

include hi hid

variable {u : ℕ → Bool} {o : ℕ → ℕ} (hother : ∀ i, i ≠ id → u i = s.unlinked i ∧ o i = s.openers i)
  (hu : s.unlinked id = true → u id = true)

include hother hu

theorem Inv.change {list : List NamedEntry}
    (hentries : ∀ e ∈ list, s.name e.id = some e.name ∧ e.unlinked = u e.id ∧ e.refcount = o e.id % 65536)
    (hsorted : PosixSorted list) :
    ({ s with list := list, unlinked := u, openers := o, answers := answers } : NameSystem).Inv where
  fresh := hi.fresh
  unborn := by
    intro i hle
    have hne : i ≠ id := by
      rintro rfl
      exact absurd ((hi.fresh i).mp hid) (Nat.not_lt.mpr hle)
    obtain ⟨hu', ho'⟩ := hother i hne
    dsimp only
    rw [hu', ho']
    exact hi.unborn i hle
  entries := hentries
  sorted := hsorted
  older := by
    intro i j n hlt hni hnj
    have hold := hi.older i j n hlt hni hnj
    obtain rfl | hne := eq_or_ne i id
    · exact hu hold
    · exact (hother i hne).1.trans hold

theorem Inv.setEntry {f : NamedEntry → NamedEntry} (hf : ∀ e, (f e).id = e.id ∧ (f e).name = e.name)
    (hentry : ∀ e ∈ s.list, e.id = id → (f e).unlinked = u id ∧ (f e).refcount = o id % 65536) :
    ({ s with list := posixUpdate id f s.list, unlinked := u, openers := o, answers := answers } : NameSystem).Inv := by
  apply hi.change hid hother hu _ (hi.sorted.update fun e => (hf e).1)
  intro e he
  obtain ⟨e', he', rfl⟩ := mem_posixUpdate.mp he
  obtain ⟨hname, hunlinked, hcount⟩ := hi.entries e' he'
  split_ifs with heq
  · obtain ⟨hfid, hfname⟩ := hf e'
    rw [hfid, hfname, heq]
    exact ⟨heq ▸ hname, hentry e' he' heq⟩
  · obtain ⟨hu', ho'⟩ := hother e'.id heq
    rw [hu', ho']
    exact ⟨hname, hunlinked, hcount⟩

theorem Inv.delete :
    ({ s with list := posixDelete id s.list, unlinked := u, openers := o, answers := answers } : NameSystem).Inv := by
  apply hi.change hid hother hu _ (hi.sorted.delete id)
  intro e he
  obtain ⟨he, hne⟩ := mem_posixDelete.mp he
  obtain ⟨hu', ho'⟩ := hother e.id hne
  rw [hu', ho']
  exact hi.entries e he

end

theorem Inv.create (hi : s.Inv) {n : ObjectName} (hl : s.lookup n = none) (self object : BitVec 32)
    (answers : List (Option ℕ × Option ℕ)) :
    ({ s with
      list := ⟨s.fresh, 1, false, self, object, n⟩ :: s.list
      fresh := s.fresh + 1
      name := update s.name s.fresh (some n)
      openers := update s.openers s.fresh (s.openers s.fresh + 1)
      answers := answers } : NameSystem).Inv := by
  have hunborn := hi.unborn s.fresh (Nat.le_refl _)
  have hlt : ∀ e ∈ s.list, e.id < s.fresh := fun e he => (hi.fresh e.id).mp ((hi.entries e he).1 ▸ some_ne_none _)
  refine ⟨?_, ?_, ?_, ?_, ?_⟩
  · intro i
    dsimp only
    by_cases hne : i = s.fresh
    · subst hne
      rw [update_self]
      exact iff_of_true (some_ne_none n) (Nat.lt_succ_self _)
    · rw [update_of_ne hne, hi.fresh]
      omega
  · intro i hle
    dsimp only at hle ⊢
    rw [update_of_ne (by omega)]
    exact hi.unborn i (by omega)
  · intro e he
    dsimp only
    obtain rfl | he := mem_cons.mp he
    · rw [update_self, update_self, hunborn.2]
      exact ⟨rfl, hunborn.1.symm, rfl⟩
    · have hne : e.id ≠ s.fresh := Nat.ne_of_lt (hlt e he)
      rw [update_of_ne hne, update_of_ne hne]
      exact hi.entries e he
  · exact pairwise_cons.mpr ⟨hlt, hi.sorted⟩
  · intro i j m hij hni hnj
    dsimp only at hni hnj ⊢
    by_cases hj : j = s.fresh
    · subst hj
      rw [update_self] at hnj
      rw [update_of_ne (Nat.ne_of_lt hij)] at hni
      cases hnj
      exact hi.lookup_none_iff.mp hl i hni
    · rw [update_of_ne hj] at hnj
      have hjlt := (hi.fresh j).mp (hnj ▸ some_ne_none m)
      rw [update_of_ne (Nat.ne_of_lt (Nat.lt_trans hij hjlt))] at hni
      exact hi.older i j m hij hni hnj

theorem Inv.opened (hi : s.Inv) (hg : s.Good) {n : ObjectName} {oflag : OpenFlag} {malloc create : Option (BitVec 32)}
    (hl : s.Lawful kind (.openName n oflag malloc create)) : (s.opened kind n oflag malloc create).Inv := by
  have hanswers : ∀ answers, ({ s with answers := answers } : NameSystem).Inv :=
    fun answers => ⟨hi.fresh, hi.unborn, hi.entries, hi.sorted, hi.older⟩
  dsimp only [Lawful] at hl
  unfold NameSystem.opened
  obtain ⟨self, object, hcreat, hexcl, rfl, rfl, hopen⟩ | ⟨e, hcreat, hfind, hopen⟩ | ⟨err, hopen⟩ :=
    kind.openObject_cases s.list n oflag s.fresh malloc create
  · rw [hopen]
    rw [hcreat] at hl
    simp only [hcreat, if_true]
    apply hi.create
    cases he : oflag.excl with
    | false =>
      rw [he] at hl
      exact hl
    | true =>
      rw [he] at hl
      exact (hg.excl_iff hi n _ _).mpr hl (hexcl he) (some_ne_none _) (some_ne_none _)
  · rw [hopen]
    simp only [hcreat, Bool.false_eq_true, if_false]
    obtain ⟨hname, -, -⟩ := hi.entries e (find_mem hfind)
    apply hi.setEntry (f := fun e => { e with refcount := (e.refcount + 1) % 65536 }) (hname ▸ some_ne_none _)
    · exact fun i hne => ⟨rfl, update_of_ne hne _ _⟩
    · exact id
    · exact fun _ => ⟨rfl, rfl⟩
    · intro e' he' heq
      obtain ⟨-, hunlinked, hcount⟩ := hi.entries e' he'
      rw [heq] at hunlinked hcount
      refine ⟨hunlinked, ?_⟩
      rw [update_self]
      dsimp only
      omega
  · rw [hopen]
    exact hanswers _

theorem Inv.closed (hi : s.Inv) {e : NamedEntry} (he : e ∈ s.list) (hopen : 0 < s.openers e.id) :
    ({ s with
      list := posixClose s.list e
      openers := update s.openers e.id (s.openers e.id - 1) } : NameSystem).Inv := by
  obtain ⟨hname, -, hcount⟩ := hi.entries e he
  have hother : ∀ i, i ≠ e.id → s.unlinked i = s.unlinked i ∧
      update s.openers e.id (s.openers e.id - 1) i = s.openers i :=
    fun i hne => ⟨rfl, update_of_ne hne _ _⟩
  unfold posixClose
  split_ifs
  · exact hi.delete (hname ▸ some_ne_none _) hother id
  · apply hi.setEntry (hname ▸ some_ne_none _)
    · exact hother
    · exact id
    · exact fun _ => ⟨rfl, rfl⟩
    · intro e' he' heq
      obtain ⟨-, hunlinked, -⟩ := hi.entries e' he'
      rw [heq] at hunlinked
      refine ⟨hunlinked, ?_⟩
      rw [update_self]
      dsimp only
      omega

theorem Inv.unlinkedName (hi : s.Inv) (n : ObjectName) : (s.unlinkedName kind n).Inv := by
  unfold NameSystem.unlinkedName unlink
  cases hfind : kind.find s.list n with
  | none => exact ⟨hi.fresh, hi.unborn, hi.entries, hi.sorted, hi.older⟩
  | some e =>
    obtain ⟨hname, -, -⟩ := hi.entries e (find_mem hfind)
    have hother : ∀ i, i ≠ e.id → update s.unlinked e.id true i = s.unlinked i ∧ s.openers i = s.openers i :=
      fun i hne => ⟨update_of_ne hne _ _, rfl⟩
    have hself : s.unlinked e.id = true → update s.unlinked e.id true e.id = true := fun _ => update_self ..
    dsimp only
    split_ifs
    · exact hi.delete (hname ▸ some_ne_none _) hother hself
    · apply hi.setEntry (hname ▸ some_ne_none _)
      · exact hother
      · exact hself
      · exact fun _ => ⟨rfl, rfl⟩
      · intro e' he' heq
        obtain ⟨-, -, hcount⟩ := hi.entries e' he'
        rw [heq] at hcount
        exact ⟨(update_self e.id true s.unlinked).symm, hcount⟩

theorem step_close {id : ℕ} (h : s.step kind (.close id) = some s') :
    ∃ e ∈ s.list, e.id = id ∧ 0 < s.openers e.id ∧
    s' = { s with list := posixClose s.list e, openers := update s.openers e.id (s.openers e.id - 1) } := by
  obtain ⟨hopen, h⟩ := ite_none_right_eq_some.mp h
  obtain ⟨e, hfind, rfl⟩ := map_eq_some_iff.mp h
  have hid : e.id = id := by simpa only [decide_eq_true_eq] using find?_some hfind
  subst hid
  exact ⟨e, mem_of_find?_eq_some hfind, rfl, hopen, rfl⟩

theorem Inv.step (hi : s.Inv) (hg : s.Good) {c : NameCall} (hl : s.Lawful kind c) (h : s.step kind c = some s') :
    s'.Inv := by
  cases c with
  | openName n oflag malloc create =>
    cases h
    exact hi.opened hg hl
  | close id =>
    obtain ⟨e, he, rfl, hopen, rfl⟩ := step_close h
    exact hi.closed he hopen
  | unlink n =>
    cases h
    exact hi.unlinkedName n

theorem step_good_iff (hi : s.Inv) (hg : s.Good) {c : NameCall} (h : s.step kind c = some s') :
    s'.Good ↔ s.Lawful kind c := by
  cases c with
  | openName n oflag malloc create =>
    cases h
    dsimp only [Lawful]
    cases hcreat : oflag.creat with
    | false => exact good_openPlain_iff hi hg n hcreat malloc create
    | true =>
      cases hexcl : oflag.excl with
      | false => exact good_openCreate_iff hi hg n hcreat hexcl malloc create
      | true => exact (good_openExcl_iff hi hg n hcreat hexcl malloc create).trans (hg.excl_iff hi n malloc create)
  | close id =>
    obtain ⟨e, he, rfl, hopen, rfl⟩ := step_close h
    exact good_close_iff hi hg he hopen
  | unlink n =>
    cases h
    exact good_unlink_iff hi hg n

end

theorem init_inv : init.Inv where
  fresh i := iff_of_false (fun h => h rfl) (Nat.not_lt_zero i)
  unborn _ _ := ⟨rfl, rfl⟩
  entries _ he := absurd he not_mem_nil
  sorted := List.Pairwise.nil
  older := nofun

theorem init_good : init.Good := ⟨fun _ hp => absurd hp not_mem_nil, nofun, fun _ h => absurd rfl h⟩

theorem name_space_iff (kind : NamedKind) (calls : List NameCall) :
    StatesAlong (step kind) Good init calls ↔ StepsAlong (step kind) (Lawful kind) init calls := by
  apply statesAlong_iff_stepsAlong_of_kept ?_ ?_ calls init_inv init_good
  · intro s c s' hi hg hl h
    exact hi.step hg hl h
  · intro s c s' hi hg h
    exact step_good_iff hi hg h

theorem name_space_broken :
    (run (step .semaphore) init [.openName ⟨[97#8], by decide⟩ ⟨true, false⟩ (some 0x3ffb1000#32)
      (some 0x3ffb2014#32),
      .openName ⟨[97#8], by decide⟩ ⟨false, false⟩ none none]).any
      (fun s => s.answers == [(none, some 0)]) = true ∧
    (run (step .queue) init [.openName ⟨[97#8], by decide⟩ ⟨true, false⟩ (some 0x3ffb1000#32)
      (some 0x3ffb2014#32),
      .openName ⟨[97#8], by decide⟩ ⟨true, false⟩ (some 0x3ffb3000#32) (some 0x3ffb4000#32)]).any
      (fun s => s.answers == [(some 1, some 0)]) = true ∧
    (run (step .queue) init [.openName ⟨[97#8], by decide⟩ ⟨true, false⟩ (some 0x3ffb1000#32)
      (some 0x3ffb2014#32),
      .unlink ⟨[97#8], by decide⟩, .openName ⟨[97#8], by decide⟩ ⟨false, false⟩ none none]).any
      (fun s => s.answers == [(some 0, some 0), (some 0, none)]) = true := by
  decide +kernel

end NameSystem

end RtThread
