import Mathlib.Data.List.Nodup
import RtThread.Lib.Transition
import RtThread.Pthreads.PosixNames

/-!
Named and unnamed semaphores in the one list of `semaphore.c`. A named one lies in a block of the heap, an unnamed one
in storage of the caller of `sem_init`; `posix_sem_delete` frees what it takes out of the list.
-/

namespace RtThread

open Transition Function List Option

inductive PosixSemErrno
  | einval | enomem | ebusy
  deriving DecidableEq

inductive PosixSemCall
  | semInit (name : ObjectName) (self : BitVec 32) (create : Option (BitVec 32)) (value : ℕ)
  | semDestroy (id : ℕ)
  | semOpen (name : ObjectName) (oflag : OpenFlag) (malloc create : Option (BitVec 32)) (value : ℕ)
  | semClose (id : ℕ)
  | semUnlink (name : ObjectName)
  /-- Threads post and wait, and leave the semaphore with this value and with waiting threads or without. -/
  | others (id : ℕ) (value : ℕ) (waiting : Bool)

/-- `value` is that of the kernel semaphore, if there is one. `allocated` are the blocks of `sem_open`, `frees` the
arguments of `rt_free`, and `answers` the prescribed results of `sem_init` and `sem_destroy`, each with the one that is
due. -/
structure PosixSemSystem where
  list : List NamedEntry
  fresh : ℕ
  unamed : ℕ → Bool
  value : ℕ → Option ℕ
  waiting : ℕ → Bool
  allocated : ℕ → Bool
  frees : List ℕ
  answers : List (Except PosixSemErrno Unit × Except PosixSemErrno Unit)

namespace PosixSemSystem

open PosixSemSystem

def init : PosixSemSystem := ⟨[], 0, fun _ => false, fun _ => none, fun _ => false, fun _ => false, [], []⟩

def semInit (s : PosixSemSystem) (name : ObjectName) (self : BitVec 32) (create : Option (BitVec 32)) (value : ℕ) :
    PosixSemSystem :=
  { s with
    list := ⟨s.fresh, 1, false, self, create.getD 0, name⟩ :: s.list
    fresh := s.fresh + 1
    unamed := update s.unamed s.fresh true
    value := update s.value s.fresh (create.map fun _ => value % 65536)
    answers := if create.isNone then s.answers ++ [(.ok (), .error .enomem)] else s.answers }

def delete (s : PosixSemSystem) (id : ℕ) : PosixSemSystem :=
  { s with list := posixDelete id s.list, frees := s.frees ++ [id] }

def answer (s : PosixSemSystem) (id : ℕ) (result : Except PosixSemErrno Unit) : PosixSemSystem :=
  if s.unamed id && !s.waiting id then { s with answers := s.answers ++ [(result, .ok ())] } else s

def semDestroy (s : PosixSemSystem) (id : ℕ) : Option PosixSemSystem :=
  if s.unamed id then
    match s.value id with
    | none => none
    | some 0 => some (s.answer id (.error .ebusy))
    | some (_ + 1) => some ((s.answer id (.ok ())).delete id)
  else some (s.answer id (.error .einval))

def opened (s : PosixSemSystem) (name : ObjectName) (oflag : OpenFlag)
    (malloc create : Option (BitVec 32)) (value : ℕ) :
    PosixSemSystem :=
  match RtThread.semOpen s.list name oflag s.fresh malloc create with
  | (list, .ok _) =>
    if oflag.creat then
      { s with
        list := list
        fresh := s.fresh + 1
        unamed := update s.unamed s.fresh false
        value := update s.value s.fresh (some (value % 65536))
        allocated := update s.allocated s.fresh true }
    else { s with list := list }
  | (_, .error e) =>
    if e = .enfile ∧ malloc.isSome then
      { s with
        fresh := s.fresh + 1
        allocated := update s.allocated s.fresh true
        frees := s.frees ++ [s.fresh] }
    else s

def closed (s : PosixSemSystem) (e : NamedEntry) : PosixSemSystem :=
  if e.LastClose then s.delete e.id else { s with list := RtThread.semClose s.list e }

def unlinked (s : PosixSemSystem) (name : ObjectName) : PosixSemSystem :=
  match posixSemFind s.list name with
  | some e => if e.refcount = 0 then s.delete e.id else { s with list := (RtThread.semUnlink s.list name).1 }
  | none => s

def step (s : PosixSemSystem) : PosixSemCall → Option PosixSemSystem
  | .semInit name self create value => some (s.semInit name self create value)
  | .semDestroy id => (s.list.find? fun e => e.id = id).bind fun _ => s.semDestroy id
  | .semOpen name oflag malloc create value => some (s.opened name oflag malloc create value)
  | .semClose id => (s.list.find? fun e => e.id = id).map s.closed
  | .semUnlink name => some (s.unlinked name)
  | .others id value waiting =>
    some { s with
      value := update s.value id ((s.value id).map fun _ => value)
      waiting := update s.waiting id waiting }

structure Good (s : PosixSemSystem) : Prop where
  allocated : ∀ i ∈ s.frees, s.allocated i = true
  once : s.frees.Nodup
  answers : ∀ p ∈ s.answers, p.1 = p.2

/-- The kernel semaphore of `sem_init` is created; `sem_destroy` is called only on an unnamed semaphore that has threads
waiting and the value 0, and no unnamed semaphore comes to its deletion by its name. -/
def Kept (s : PosixSemSystem) : PosixSemCall → Prop
  | .semInit _ _ create _ => create ≠ none
  | .semDestroy id => s.unamed id = true → s.value id = some 0 ∧ s.waiting id = true
  | .semOpen _ _ _ _ _ => True
  | .semClose id => ∀ e ∈ s.list, e.id = id → e.LastClose → s.unamed id = false
  | .semUnlink name => ∀ e, SemNamed s.list name e → e.refcount = 0 → s.unamed e.id = false
  | .others _ _ _ => True

structure Inv (s : PosixSemSystem) : Prop where
  fresh : ∀ e ∈ s.list, e.id < s.fresh
  sorted : PosixSorted s.list
  owner : ∀ e ∈ s.list, s.unamed e.id = !s.allocated e.id
  freed : ∀ i ∈ s.frees, i < s.fresh ∧ ¬ PosixListed s.list i
  unborn : ∀ i, s.fresh ≤ i → s.allocated i = false

section

variable {s s' : PosixSemSystem}

variable {e : NamedEntry}

theorem Inv.cons (hi : s.Inv) (hid : e.id = s.fresh) :
    (∀ e' ∈ e :: s.list, e'.id < s.fresh + 1) ∧ PosixSorted (e :: s.list) ∧
      ∀ i ∈ s.frees, i < s.fresh + 1 ∧ ¬ PosixListed (e :: s.list) i := by
  refine ⟨?_, ?_, ?_⟩
  · intro e' he'
    obtain rfl | he' := mem_cons.mp he'
    · omega
    · exact Nat.lt_succ_of_lt (hi.fresh e' he')
  · apply pairwise_cons.mpr
    rw [hid]
    exact ⟨hi.fresh, hi.sorted⟩
  · intro i hf
    obtain ⟨hlt, hnot⟩ := hi.freed i hf
    refine ⟨Nat.lt_succ_of_lt hlt, fun h => ?_⟩
    obtain heq | h := listed_cons.mp h
    · omega
    · exact hnot h

theorem Good.once_append (hg : s.Good) {i : ℕ} (hnot : i ∉ s.frees) : (s.frees ++ [i]).Nodup := by
  rw [← concat_eq_append]
  exact List.Nodup.concat hnot hg.once

theorem Inv.setEntry (hi : s.Inv) (id : ℕ) {f : NamedEntry → NamedEntry} (hf : ∀ e, (f e).id = e.id) :
    ({ s with list := posixUpdate id f s.list } : PosixSemSystem).Inv := by
  have hlisted : ∀ e ∈ posixUpdate id f s.list, PosixListed s.list e.id :=
    fun e he => (listed_posixUpdate hf e.id).mp ⟨e, he, rfl⟩
  refine ⟨?_, hi.sorted.update hf, ?_, ?_, hi.unborn⟩
  · intro e he
    obtain ⟨e', he', hid⟩ := hlisted e he
    exact hid ▸ hi.fresh e' he'
  · intro e he
    obtain ⟨e', he', hid⟩ := hlisted e he
    exact hid ▸ hi.owner e' he'
  · intro i hfreed
    obtain ⟨hlt, hnot⟩ := hi.freed i hfreed
    exact ⟨hlt, fun h => hnot ((listed_posixUpdate hf i).mp h)⟩

theorem Inv.delete (hi : s.Inv) (he : e ∈ s.list) : (s.delete e.id).Inv where
  fresh e' he' := hi.fresh e' (mem_posixDelete.mp he').1
  sorted := hi.sorted.delete e.id
  owner e' he' := hi.owner e' (mem_posixDelete.mp he').1
  freed := by
    intro i hf
    obtain hf | hf := mem_append.mp hf
    · obtain ⟨hlt, hnot⟩ := hi.freed i hf
      exact ⟨hlt, fun h => hnot ((listed_posixDelete i).mp h).1⟩
    · obtain rfl := mem_singleton.mp hf
      exact ⟨hi.fresh e he, fun h => ((listed_posixDelete e.id).mp h).2 rfl⟩
  unborn := hi.unborn

theorem good_delete_iff (hi : s.Inv) (hg : s.Good) (he : e ∈ s.list) :
    (s.delete e.id).Good ↔ s.unamed e.id = false := by
  have howner : s.allocated e.id = true ↔ s.unamed e.id = false := by
    rw [hi.owner e he]
    cases s.allocated e.id <;> decide
  constructor
  · intro h
    exact howner.mp (h.allocated e.id (mem_append_right _ (mem_singleton_self _)))
  · intro hnamed
    refine ⟨?_, ?_, hg.answers⟩
    · exact forall_mem_append.mpr ⟨hg.allocated, forall_mem_singleton.mpr (howner.mpr hnamed)⟩
    · apply hg.once_append
      intro hfreed
      exact (hi.freed e.id hfreed).2 ⟨e, he, rfl⟩

theorem Inv.answer (hi : s.Inv) (id : ℕ) (result : Except PosixSemErrno Unit) : (s.answer id result).Inv := by
  unfold PosixSemSystem.answer
  split
  · exact ⟨hi.fresh, hi.sorted, hi.owner, hi.freed, hi.unborn⟩
  · exact hi

theorem good_answer_iff (hg : s.Good) (id : ℕ) (result : Except PosixSemErrno Unit) :
    (s.answer id result).Good ↔ (s.unamed id = true → s.waiting id = false → result = .ok ()) := by
  unfold answer
  split
  next h =>
    obtain ⟨hunamed, hwaiting⟩ := Bool.and_eq_true_iff.mp h
    constructor
    · intro h' _ _
      exact h'.answers _ (mem_append_right _ (mem_singleton_self _))
    · intro h'
      have hanswer := h' hunamed ((Bool.not_eq_true' _).mp hwaiting)
      exact ⟨hg.allocated, hg.once, forall_mem_append.mpr ⟨hg.answers, forall_mem_singleton.mpr hanswer⟩⟩
  next h =>
    apply iff_of_true hg
    intro hunamed hwaiting
    exact absurd (Bool.and_eq_true_iff.mpr ⟨hunamed, (Bool.not_eq_true' _).mpr hwaiting⟩) h

theorem Inv.semInit (hi : s.Inv) (name : ObjectName) (self : BitVec 32) (create : Option (BitVec 32)) (value : ℕ) :
    (s.semInit name self create value).Inv where
  fresh := (hi.cons rfl).1
  sorted := (hi.cons rfl).2.1
  owner := by
    intro e he
    dsimp only [PosixSemSystem.semInit]
    obtain rfl | he := mem_cons.mp he
    · rw [update_self, hi.unborn _ (Nat.le_refl _)]
      rfl
    · rw [update_of_ne (Nat.ne_of_lt (hi.fresh e he))]
      exact hi.owner e he
  freed := (hi.cons rfl).2.2
  unborn i hle := hi.unborn i (Nat.le_of_succ_le hle)

theorem good_semInit_iff (hg : s.Good) (name : ObjectName) (self : BitVec 32)
    (create : Option (BitVec 32)) (value : ℕ) :
    (s.semInit name self create value).Good ↔ create ≠ none := by
  cases create with
  | some object => exact iff_of_true ⟨hg.allocated, hg.once, hg.answers⟩ (some_ne_none _)
  | none =>
    apply iff_of_false _ (fun h => h rfl)
    intro h
    cases h.answers (.ok (), .error .enomem) (mem_append_right _ (mem_singleton_self _))

section

variable (hi : s.Inv)

include hi

theorem Inv.opened (name : ObjectName) (oflag : OpenFlag) (malloc create : Option (BitVec 32)) (value : ℕ) :
    (s.opened name oflag malloc create value).Inv := by
  have hne : ∀ e ∈ s.list, e.id ≠ s.fresh := fun e he => Nat.ne_of_lt (hi.fresh e he)
  have hunborn : ∀ i, s.fresh + 1 ≤ i → update s.allocated s.fresh true i = false := by
    intro i hle
    rw [update_of_ne (Nat.ne_of_gt hle)]
    exact hi.unborn i (Nat.le_of_succ_le hle)
  unfold PosixSemSystem.opened RtThread.semOpen
  obtain ⟨self, object, hcreat, -, -, -, hopen⟩ | ⟨e, hcreat, -, hopen⟩ | ⟨err, hopen⟩ :=
    NamedKind.semaphore.openObject_cases s.list name oflag s.fresh malloc create
  · rw [hopen]
    simp only [hcreat, if_true]
    refine ⟨(hi.cons rfl).1, (hi.cons rfl).2.1, ?_, (hi.cons rfl).2.2, hunborn⟩
    intro e he
    dsimp only
    obtain rfl | he := mem_cons.mp he
    · rw [update_self, update_self]
      rfl
    · rw [update_of_ne (hne e he), update_of_ne (hne e he)]
      exact hi.owner e he
  · rw [hopen]
    simp only [hcreat, Bool.false_eq_true, if_false]
    exact hi.setEntry e.id fun _ => rfl
  · rw [hopen]
    dsimp only
    split_ifs
    · refine ⟨fun e he => Nat.lt_succ_of_lt (hi.fresh e he), hi.sorted, ?_, ?_, hunborn⟩
      · intro e he
        dsimp only
        rw [update_of_ne (hne e he)]
        exact hi.owner e he
      · intro i hf
        obtain hf | hf := mem_append.mp hf
        · obtain ⟨hlt, hnot⟩ := hi.freed i hf
          exact ⟨Nat.lt_succ_of_lt hlt, hnot⟩
        · obtain rfl := mem_singleton.mp hf
          refine ⟨Nat.lt_succ_self _, ?_⟩
          rintro ⟨e, he, heq⟩
          exact hne e he heq
    · exact hi

theorem good_opened (hg : s.Good) (name : ObjectName) (oflag : OpenFlag) (malloc create : Option (BitVec 32))
    (value : ℕ) : (s.opened name oflag malloc create value).Good := by
  have hkeep : ∀ i ∈ s.frees, update s.allocated s.fresh true i = true := by
    intro i hf
    rw [update_of_ne (Nat.ne_of_lt (hi.freed i hf).1)]
    exact hg.allocated i hf
  unfold opened
  split
  · split_ifs
    · exact ⟨hkeep, hg.once, hg.answers⟩
    · exact ⟨hg.allocated, hg.once, hg.answers⟩
  · split_ifs
    · refine ⟨?_, ?_, hg.answers⟩
      · exact forall_mem_append.mpr ⟨hkeep, forall_mem_singleton.mpr (update_self ..)⟩
      · apply hg.once_append
        intro hfreed
        exact Nat.lt_irrefl _ (hi.freed _ hfreed).1
    · exact hg

theorem Inv.closed (he : e ∈ s.list) : (s.closed e).Inv := by
  unfold PosixSemSystem.closed
  split_ifs with hlast
  · exact hi.delete he
  · unfold RtThread.semClose posixClose
    rw [if_neg hlast]
    exact hi.setEntry e.id fun _ => rfl

theorem good_closed_iff (hg : s.Good) (he : e ∈ s.list) :
    (s.closed e).Good ↔ (e.LastClose → s.unamed e.id = false) := by
  unfold closed
  split_ifs with hlast
  · apply (good_delete_iff hi hg he).trans
    constructor
    · intro h _
      exact h
    · intro h
      exact h hlast
  · exact iff_of_true ⟨hg.allocated, hg.once, hg.answers⟩ fun h => absurd h hlast

theorem Inv.unlinked (name : ObjectName) : (s.unlinked name).Inv := by
  unfold PosixSemSystem.unlinked
  cases hfind : posixSemFind s.list name with
  | none => exact hi
  | some e =>
    dsimp only
    split_ifs with hzero
    · exact hi.delete (posixFind_mem hfind)
    · have hlist : (RtThread.semUnlink s.list name).1 = posixUpdate e.id
        (fun e => { e with unlinked := true }) s.list := by
        simp only [RtThread.semUnlink, NamedKind.unlink, NamedKind.find, hfind, if_neg hzero]
      rw [hlist]
      exact hi.setEntry e.id fun _ => rfl

theorem good_unlinked_iff (hg : s.Good) (name : ObjectName) : (s.unlinked name).Good ↔
    ∀ e, SemNamed s.list name e → e.refcount = 0 → s.unamed e.id = false := by
  simp only [← posixSemFind_eq_some_iff]
  unfold unlinked
  cases hfind : posixSemFind s.list name with
  | none => exact iff_of_true hg nofun
  | some e =>
    dsimp only
    split_ifs with hzero
    · apply (good_delete_iff hi hg (posixFind_mem hfind)).trans
      constructor
      · intro h e' he' _
        cases he'
        exact h
      · intro h
        exact h e rfl hzero
    · apply iff_of_true ⟨hg.allocated, hg.once, hg.answers⟩
      intro e' he' hzero'
      cases he'
      exact absurd hzero' hzero

theorem Inv.semDestroy (he : e ∈ s.list) (h : s.semDestroy e.id = some s') : s'.Inv := by
  unfold PosixSemSystem.semDestroy at h
  split_ifs at h
  · split at h
    · cases h
    · cases h
      exact hi.answer _ _
    · cases h
      apply (hi.answer e.id (.ok ())).delete
      unfold PosixSemSystem.answer
      split
      · exact he
      · exact he
  · cases h
    exact hi.answer _ _

theorem good_semDestroy_iff (hg : s.Good) (he : e ∈ s.list) (h : s.semDestroy e.id = some s') :
    s'.Good ↔ (s.unamed e.id = true → s.value e.id = some 0 ∧ s.waiting e.id = true) := by
  unfold semDestroy at h
  split_ifs at h with hunamed
  · split at h
    · cases h
    next hvalue =>
      -- EBUSY is right only if somebody waits
      cases h
      apply (good_answer_iff hg e.id (.error .ebusy)).trans
      rw [hvalue]
      cases s.waiting e.id with
      | true => exact iff_of_true nofun fun _ => ⟨rfl, rfl⟩
      | false =>
        apply iff_of_false
        · intro h
          cases h hunamed rfl
        · intro h
          cases (h hunamed).2
    next v hvalue =>
      -- the storage of the caller is freed
      cases h
      have hgood : (s.answer e.id (.ok ())).Good := (good_answer_iff hg e.id (.ok ())).mpr fun _ _ => rfl
      have hanswer : (s.answer e.id (.ok ())).list = s.list ∧ (s.answer e.id (.ok ())).unamed = s.unamed := by
        unfold answer
        split
        · exact ⟨rfl, rfl⟩
        · exact ⟨rfl, rfl⟩
      apply iff_of_false
      · intro h
        have hnamed := (good_delete_iff (hi.answer e.id (.ok ())) hgood (hanswer.1.symm ▸ he)).mp h
        rw [hanswer.2, hunamed] at hnamed
        cases hnamed
      · intro h
        rw [hvalue] at h
        cases (h hunamed).1
  · cases h
    apply (good_answer_iff hg e.id (.error .einval)).trans
    exact iff_of_true (fun h => absurd h hunamed) fun h => absurd h hunamed

end

variable {c : PosixSemCall} (hi : s.Inv)

include hi

theorem step_inv (h : s.step c = some s') : s'.Inv := by
  cases c with
  | semInit name self create value =>
    cases h
    exact hi.semInit name self create value
  | semDestroy id =>
    obtain ⟨e, hfind, h⟩ := bind_eq_some_iff.mp h
    obtain rfl : e.id = id := by simpa only [decide_eq_true_eq] using find?_some hfind
    exact hi.semDestroy (mem_of_find?_eq_some hfind) h
  | semOpen name oflag malloc create value =>
    cases h
    exact hi.opened name oflag malloc create value
  | semClose id =>
    obtain ⟨e, hfind, rfl⟩ := map_eq_some_iff.mp h
    exact hi.closed (mem_of_find?_eq_some hfind)
  | semUnlink name =>
    cases h
    exact hi.unlinked name
  | others id value waiting =>
    cases h
    exact ⟨hi.fresh, hi.sorted, hi.owner, hi.freed, hi.unborn⟩

theorem step_good_iff (hg : s.Good) (h : s.step c = some s') : s'.Good ↔ s.Kept c := by
  cases c with
  | semInit name self create value =>
    cases h
    exact good_semInit_iff hg name self create value
  | semDestroy id =>
    obtain ⟨e, hfind, h⟩ := bind_eq_some_iff.mp h
    obtain rfl : e.id = id := by simpa only [decide_eq_true_eq] using find?_some hfind
    exact good_semDestroy_iff hi hg (mem_of_find?_eq_some hfind) h
  | semOpen name oflag malloc create value =>
    cases h
    exact iff_of_true (good_opened hi hg name oflag malloc create value) trivial
  | semClose id =>
    obtain ⟨e, hfind, rfl⟩ := map_eq_some_iff.mp h
    have he := mem_of_find?_eq_some hfind
    obtain rfl : e.id = id := by simpa only [decide_eq_true_eq] using find?_some hfind
    apply (good_closed_iff hi hg he).trans
    constructor
    · intro h e' he' hid hlast
      obtain rfl := hi.sorted.eq_of_id he he' hid.symm
      exact h hlast
    · intro h
      exact h e he rfl
  | semUnlink name =>
    cases h
    exact good_unlinked_iff hi hg name
  | others id value waiting =>
    cases h
    exact iff_of_true ⟨hg.allocated, hg.once, hg.answers⟩ trivial

end

theorem init_inv : init.Inv :=
  ⟨fun _ h => absurd h not_mem_nil, List.Pairwise.nil, fun _ h => absurd h not_mem_nil,
    fun _ h => absurd h not_mem_nil, fun _ _ => rfl⟩

theorem init_good : init.Good :=
  ⟨fun _ h => absurd h not_mem_nil, List.Pairwise.nil, fun _ h => absurd h not_mem_nil⟩

theorem posix_sem_frees_iff (calls : List PosixSemCall) :
    StatesAlong step Good init calls ↔ StepsAlong step Kept init calls := by
  apply statesAlong_iff_stepsAlong ?_ ?_ calls init_inv init_good
  · intro s c s' hi h
    exact step_inv hi h
  · intro s c s' hi hg h
    exact step_good_iff hi hg h

theorem posix_sem_frees_storage :
    (run step init [.semInit ⟨[97#8], by decide⟩ 0x3ffb1000#32 (some 0x3ffb2014#32) 1, .semDestroy 0]).any
      (fun s => s.frees == [0] && !s.allocated 0) = true ∧
    (run step init [.semInit ⟨[97#8], by decide⟩ 0x3ffb1000#32 (some 0x3ffb2014#32) 0, .semDestroy 0]).any
      (fun s => decide (s.answers = [(.error .ebusy, .ok ())])) = true ∧
    (run step init [.semInit ⟨[97#8], by decide⟩ 0x3ffb1000#32 none 1]).any
      (fun s => decide (s.answers = [(.ok (), .error .enomem)])) = true := by
  decide +kernel

end PosixSemSystem

end RtThread
