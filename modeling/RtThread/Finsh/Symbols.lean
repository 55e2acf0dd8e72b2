import Mathlib.Data.List.TakeWhile
import Mathlib.Tactic.Common

namespace RtThread

open List

def finshNameMax : ℕ := 16

def finshVariableMax : ℕ := 8

structure FinshSymbol where
  name : List Char
  address : BitVec 32

/-- An entry of `global_variable` that is not in use has an empty name. The two lists have the newest symbol first. -/
structure FinshTables where
  globalVariable : List FinshSymbol
  sysvarTable : List FinshSymbol
  sysvarList : List FinshSymbol
  syscallTable : List FinshSymbol
  syscallList : List FinshSymbol
  freeNode : Bool
  variables_length : globalVariable.length = finshVariableMax
  name_length : ∀ v ∈ globalVariable, v.name.length ≤ finshNameMax

structure FinshId where
  name : List Char
  ne_nil : name ≠ []
  length_le : name.length ≤ finshNameMax

inductive FinshError
  | memoryFull | unknownSymbol

inductive FinshIdNode
  | var (symbol : FinshSymbol)
  | sysvar (symbol : FinshSymbol)
  | syscall (symbol : FinshSymbol)

/-- Whether `strncmp` finds no difference. -/
def sameFirst (s t : List Char) (n : ℕ) : Bool := s.take n = t.take n

def lookupAppended (table list : List FinshSymbol) (name : List Char) : Option FinshSymbol :=
  (table.find? (fun v => v.name = name)).or (list.find? (fun v => sameFirst v.name name name.length))

def Named (symbols : List FinshSymbol) (id : FinshId) : Prop := ∃ v ∈ symbols, v.name = id.name

/-- The name is in the static table, or no symbol appended after the one with that name, or none at all without one,
has a name that begins with it. -/
def Unhidden (table list : List FinshSymbol) (id : FinshId) : Prop :=
  Named table id ∨ ∀ v ∈ list.takeWhile (fun v => v.name ≠ id.name), ¬ id.name <+: v.name

namespace FinshTables

variable (tables : FinshTables)

def sysvars : List FinshSymbol := tables.sysvarTable ++ tables.sysvarList

def syscalls : List FinshSymbol := tables.syscallTable ++ tables.syscallList

def finshVarLookup (name : List Char) : Option FinshSymbol :=
  tables.globalVariable.find? (fun v => sameFirst v.name name finshNameMax)

def finshSysvarLookup (name : List Char) : Option FinshSymbol :=
  lookupAppended tables.sysvarTable tables.sysvarList name

def finshSyscallLookup (name : List Char) : Option FinshSymbol :=
  lookupAppended tables.syscallTable tables.syscallList name

def finshNodeAllocate (node : FinshIdNode) : Except FinshError FinshIdNode :=
  if tables.freeNode then .ok node else .error .memoryFull

def finshNodeNewId (id : List Char) : Except FinshError FinshIdNode :=
  match tables.finshVarLookup id with
  | some v => tables.finshNodeAllocate (.var v)
  | none =>
    match tables.finshSysvarLookup id with
    | some v => tables.finshNodeAllocate (.sysvar v)
    | none =>
      match tables.finshSyscallLookup id with
      | some v => tables.finshNodeAllocate (.syscall v)
      | none => .error .unknownSymbol

def Unknown (id : FinshId) : Prop :=
  ¬Named tables.globalVariable id ∧ ¬Named tables.sysvars id ∧ ¬Named tables.syscalls id

def Exact (id : FinshId) : Except FinshError FinshIdNode → Prop
  | .ok (.var v) => v ∈ tables.globalVariable ∧ v.name = id.name
  | .ok (.sysvar v) => ¬Named tables.globalVariable id ∧ v ∈ tables.sysvars ∧ v.name = id.name
  | .ok (.syscall v) =>
    ¬Named tables.globalVariable id ∧ ¬Named tables.sysvars id ∧ v ∈ tables.syscalls ∧ v.name = id.name
  | .error .unknownSymbol => tables.Unknown id
  | .error .memoryFull => False

def Meets (id : FinshId) : Prop :=
  (tables.freeNode ∨ tables.Unknown id) ∧
  (¬Named tables.globalVariable id → Unhidden tables.sysvarTable tables.sysvarList id ∧
    (¬Named tables.sysvars id → Unhidden tables.syscallTable tables.syscallList id))

end FinshTables

variable {list table : List FinshSymbol} {id : FinshId} {v : FinshSymbol}

theorem sameFirst_length {s : List Char} : sameFirst s id.name id.name.length = true ↔ id.name <+: s := by
  rw [sameFirst, decide_eq_true_iff, take_length, prefix_iff_eq_take, eq_comm]

theorem find_appended (h : list.find? (fun v => sameFirst v.name id.name id.name.length) = some v) :
    v.name = id.name ↔ ∀ v ∈ list.takeWhile (fun v => v.name ≠ id.name), ¬ id.name <+: v.name := by
  induction list with
  | nil => cases h
  | cons u list ih =>
    rw [find?_cons] at h
    by_cases hu : u.name = id.name
    · rw [sameFirst_length.mpr (hu ▸ prefix_rfl)] at h
      cases h
      simp [hu]
    · split at h
      next hsame =>
        obtain rfl := Option.some.inj h
        refine iff_of_false hu (fun hall => hall _ ?_ (sameFirst_length.mp hsame))
        simp [hu]
      next hsame =>
        have hnot : ¬ id.name <+: u.name := fun hp => by simp [sameFirst_length.mpr hp] at hsame
        rw [ih h]
        simp [hu, hnot]

theorem lookupAppended_some (h : lookupAppended table list id.name = some v) :
    v ∈ table ++ list ∧ (v.name = id.name ↔ Unhidden table list id) := by
  obtain hfound | ⟨hnone, hfound⟩ := Option.or_eq_some_iff.mp h
  · have hname : v.name = id.name := by simpa using find?_some hfound
    have hmem := mem_of_find?_eq_some hfound
    exact ⟨mem_append_left _ hmem, iff_of_true hname (.inl ⟨v, hmem, hname⟩)⟩
  · refine ⟨mem_append_right _ (mem_of_find?_eq_some hfound), ?_⟩
    rw [find_appended hfound, Unhidden, or_iff_right]
    rintro ⟨u, hu, hname⟩
    simpa [hname] using find?_eq_none.mp hnone u hu

theorem lookupAppended_none (h : lookupAppended table list id.name = none) :
    ¬Named (table ++ list) id ∧ Unhidden table list id := by
  obtain ⟨htable, hlist⟩ := Option.or_eq_none_iff.mp h
  have hnot : ∀ u ∈ list, ¬ id.name <+: u.name := by
    intro u hu hp
    exact find?_eq_none.mp hlist u hu (sameFirst_length.mpr hp)
  refine ⟨?_, .inr (fun u hu => hnot u (takeWhile_subset _ hu))⟩
  rintro ⟨u, hu, hname⟩
  obtain hu | hu := mem_append.mp hu
  · simpa [hname] using find?_eq_none.mp htable u hu
  · exact hnot u hu (hname ▸ prefix_rfl)

namespace FinshTables

variable {tables : FinshTables}

theorem sameFirst_nameMax (hv : v ∈ tables.globalVariable) :
    sameFirst v.name id.name finshNameMax = true ↔ v.name = id.name := by
  rw [sameFirst, decide_eq_true_iff, take_of_length_le (tables.name_length v hv), take_of_length_le id.length_le]

theorem finshVarLookup_some (h : tables.finshVarLookup id.name = some v) :
    v ∈ tables.globalVariable ∧ v.name = id.name := by
  have hmem := mem_of_find?_eq_some h
  have hsame := find?_some h
  exact ⟨hmem, (sameFirst_nameMax hmem).mp hsame⟩

theorem finshVarLookup_none (h : tables.finshVarLookup id.name = none) : ¬Named tables.globalVariable id := by
  rintro ⟨v, hv, hname⟩
  exact find?_eq_none.mp h v hv ((sameFirst_nameMax hv).mpr hname)

theorem finsh_node_new_id_iff (tables : FinshTables) (id : FinshId) :
    tables.Exact id (tables.finshNodeNewId id.name) ↔ tables.Meets id := by
  unfold finshNodeNewId Meets
  cases hvar : tables.finshVarLookup id.name with
  | some v =>
    have hv := finshVarLookup_some hvar
    have hnamed : Named tables.globalVariable id := ⟨v, hv⟩
    cases hfree : tables.freeNode <;> simp [finshNodeAllocate, hfree, Exact, Unknown, hnamed, hv]
  | none =>
    have hnovar := finshVarLookup_none hvar
    cases hsysvar : tables.finshSysvarLookup id.name with
    | some v =>
      obtain ⟨hmem, hiff⟩ := lookupAppended_some hsysvar
      have hmem : v ∈ tables.sysvars := hmem
      have hnamed (hname : v.name = id.name) : Named tables.sysvars id := ⟨v, hmem, hname⟩
      cases hfree : tables.freeNode <;> simp [finshNodeAllocate, hfree, Exact, Unknown, hnovar, hmem,
        ← hiff] <;> tauto
    | none =>
      obtain ⟨hnosysvar, hsys⟩ := lookupAppended_none hsysvar
      have hnosysvar : ¬Named tables.sysvars id := hnosysvar
      cases hsyscall : tables.finshSyscallLookup id.name with
      | some v =>
        obtain ⟨hmem, hiff⟩ := lookupAppended_some hsyscall
        have hmem : v ∈ tables.syscalls := hmem
        have hnamed (hname : v.name = id.name) : Named tables.syscalls id := ⟨v, hmem, hname⟩
        cases hfree : tables.freeNode <;>
          simp [finshNodeAllocate, hfree, Exact, Unknown, hnovar, hnosysvar, hsys, hmem, ← hiff]
        tauto
      | none =>
        obtain ⟨hnosyscall, hcall⟩ := lookupAppended_none hsyscall
        have hunknown : tables.Unknown id := ⟨hnovar, hnosysvar, hnosyscall⟩
        exact iff_of_true hunknown ⟨.inr hunknown, fun _ => ⟨hsys, fun _ => hcall⟩⟩

def listThread : FinshTables where
  globalVariable := List.replicate finshVariableMax ⟨[], 0⟩
  sysvarTable := []
  sysvarList := []
  syscallTable := []
  syscallList := [⟨"list_thread".toList, 0x400d1000⟩]
  freeNode := true
  variables_length := rfl
  name_length := fun _ hv => List.eq_of_mem_replicate hv ▸ Nat.zero_le _

def listId : FinshId := ⟨['l', 'i', 's', 't'], List.cons_ne_nil _ _, Nat.le_of_ble_eq_true rfl⟩

theorem finsh_node_new_id_begins : ¬ listThread.Exact listId (listThread.finshNodeNewId listId.name) ∧
    listThread.finshNodeNewId listId.name = .ok (.syscall ⟨"list_thread".toList, 0x400d1000⟩) := by
  refine ⟨?_, rfl⟩
  rintro ⟨-, -, -, hname⟩
  exact absurd hname (by decide)

end FinshTables

end RtThread
