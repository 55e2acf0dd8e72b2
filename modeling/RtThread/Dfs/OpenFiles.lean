import RtThread.Dfs.Posix
import RtThread.Lib.Transition

namespace RtThread

open Transition List Option Prod

variable {Dev : Type}

def FsTable.Leads (table : FsTable Dev) (d : DfsFd) : Prop :=
  ∃ fs, table.reach d = some fs ∧ fs.generation = d.generation

def FsTable.Good (table : FsTable Dev) (d : DfsFd) : Prop := d.magic = true → table.Leads d

variable {table : FsTable Dev} {d d' : DfsFd}

theorem FsTable.Leads.congr (h : table.Leads d) (hfs : d'.fs = d.fs) (hgen : d'.generation = d.generation) :
    table.Leads d' := by
  obtain ⟨fs, hreach, heq⟩ := h
  refine ⟨fs, ?_, by rw [hgen, heq]⟩
  unfold FsTable.reach at hreach ⊢
  rw [hfs, hreach]

structure DfsFd.SameFile (d d' : DfsFd) : Prop where
  magic : d'.magic = d.magic
  refCount : d'.refCount = d.refCount
  fs : d'.fs = d.fs
  generation : d'.generation = d.generation

theorem DfsFd.SameFile.refl (d : DfsFd) : d.SameFile d := ⟨rfl, rfl, rfl, rfl⟩

theorem DfsFd.SameFile.good (h : d.SameFile d') (hg : table.Good d) : table.Good d' := by
  intro hm
  rw [h.magic] at hm
  exact (hg hm).congr h.fs h.generation

theorem good_cleared : table.Good .cleared := nofun

theorem good_put (hg : table.Good d) : table.Good d.put := by
  unfold DfsFd.put
  split_ifs
  · exact good_cleared
  · intro hm
    exact (hg hm).congr rfl rfl

namespace FsTable

variable {path : List Char} {i : ℕ} {fs : Filesystem Dev} {found : Option (ℕ × Filesystem Dev) × ℕ}

theorem lookupTurn_mem {entry : Option (Filesystem Dev) × ℕ} (h : (lookupTurn path found entry).1 = some (i, fs)) :
    found.1 = some (i, fs) ∨ entry = (some fs, i) ∧ fs.path <+: path := by
  obtain ⟨entry, j⟩ := entry
  cases entry with
  | none => exact .inl h
  | some iter =>
    simp only [lookupTurn] at h
    split_ifs at h with hpre
    · exact .inl h
    · exact .inl h
    · cases h
      exact .inr ⟨rfl, not_not.mp (not_or.mp hpre).2⟩

theorem foldl_lookupTurn_mem {entries : List (Option (Filesystem Dev) × ℕ)}
    (h : (entries.foldl (lookupTurn path) found).1 = some (i, fs)) :
    found.1 = some (i, fs) ∨ (some fs, i) ∈ entries ∧ fs.path <+: path := by
  induction entries generalizing found with
  | nil => exact .inl h
  | cons entry entries ih =>
    rcases ih h with hfound | ⟨hmem, hpre⟩
    · exact (lookupTurn_mem hfound).imp_right (And.imp_left (fun hnew => by simp [hnew]))
    · exact .inr ⟨mem_cons_of_mem _ hmem, hpre⟩

theorem getElem?_of_lookup (h : table.lookup path = some (i, fs)) :
    table[i]? = some (some fs) ∧ fs.path <+: path := by
  obtain ⟨hmem, hpre⟩ := (foldl_lookupTurn_mem h).resolve_left nofun
  exact ⟨mem_zipIdx_iff_getElem?.mp hmem, hpre⟩

theorem Leads.set (h : table.Leads d) (hne : d.fs ≠ some i) (x : Option (Filesystem Dev)) :
    FsTable.Leads (table.set i x) d := by
  obtain ⟨fs, hreach, heq⟩ := h
  refine ⟨fs, ?_, heq⟩
  obtain ⟨j, hj, hentry⟩ := bind_eq_some_iff.mp hreach
  have hij : i ≠ j := fun he => hne (by rw [hj, he])
  rw [reach, hj, bind_some, getElem?_set_ne hij]
  exact hentry

theorem Leads.fs_ne (h : table.Leads d) (hi : table[i]? = some none) : d.fs ≠ some i := by
  obtain ⟨fs, hreach, -⟩ := h
  intro hfs
  simp [reach, hfs, hi] at hreach

theorem not_leads_set (hfs : d.fs = some i) : ¬FsTable.Leads (table.set i none) d := by
  rintro ⟨fs, hreach, -⟩
  rw [reach, hfs, bind_some, getElem?_set_self'] at hreach
  cases h : table[i]? <;> simp [h] at hreach

end FsTable

structure DfsFd.Opened (table : FsTable Dev) (d : DfsFd) (r : DfsFd × DfsResult) : Prop where
  magic : r.1.magic = d.magic
  refCount : r.1.refCount = d.refCount
  leads : ∀ n, r.2 = .ok n → table.Leads r.1

theorem dfsFileOpen_opened (table : FsTable Dev) (workingDirectory : List Char) (answer : OpenAnswer) (d : DfsFd)
    (path : List Char) (flags : BitVec 32) :
    d.Opened table (dfsFileOpen table workingDirectory answer d path flags) := by
  unfold dfsFileOpen
  cases dfsNormalizePath answer.alloc workingDirectory none path with
  | none => exact ⟨rfl, rfl, nofun⟩
  | some fullpath =>
    dsimp only
    cases hl : table.lookup fullpath with
    | none => exact ⟨rfl, rfl, nofun⟩
    | some found =>
      obtain ⟨i, fs⟩ := found
      have hleads : ∀ d' : DfsFd, d'.fs = some i → d'.generation = fs.generation → table.Leads d' := by
        intro d' hfs hgen
        refine ⟨fs, ?_, hgen.symm⟩
        rw [FsTable.reach, hfs, bind_some, (FsTable.getElem?_of_lookup hl).1]
        rfl
      dsimp only
      by_cases hopen : fs.ops.openOp = false
      · rw [if_pos hopen]
        exact ⟨rfl, rfl, nofun⟩
      · rw [if_neg hopen]
        cases answer.io.result with
        | error e => exact ⟨rfl, rfl, nofun⟩
        | ok n =>
          by_cases hdir : flags &&& oDirectory = 0
          · rw [if_pos hdir]
            exact ⟨rfl, rfl, fun _ _ => hleads _ rfl rfl⟩
          · rw [if_neg hdir]
            exact ⟨rfl, rfl, fun _ _ => hleads _ rfl rfl⟩

structure KeepsFile (table : FsTable Dev) (f : DfsFd → Option (DfsFd × DfsResult)) : Prop where
  same : ∀ d d' r, f d = some (d', r) → d.SameFile d'
  isSome : ∀ d, table.Leads d → (f d).isSome = true

theorem keepsFile_map {g : Filesystem Dev → DfsFd → DfsFd × DfsResult}
    (hg : ∀ fs (d : DfsFd), d.SameFile (g fs d).1) :
    KeepsFile table (fun d => (table.reach d).map (fun fs => g fs d)) where
  same d d' r h := by
    obtain ⟨fs, -, heq⟩ := map_eq_some_iff.mp h
    have hsame := hg fs d
    rwa [heq] at hsame
  isSome d h := by
    obtain ⟨fs, hreach, -⟩ := h
    rw [hreach]
    rfl

theorem dfsFileClose_keepsFile (table : FsTable Dev) (answer : DfsResult) :
    KeepsFile table (dfsFileClose table answer) := by
  apply keepsFile_map
  intro fs d
  split
  · exact .refl d
  · exact ⟨rfl, rfl, rfl, rfl⟩

theorem dfsFileRead_keepsFile (table : FsTable Dev) (answer : IoAnswer) :
    KeepsFile table (dfsFileRead table answer) := by
  apply keepsFile_map
  intro fs d
  split_ifs
  · exact .refl d
  · split
    · exact ⟨rfl, rfl, rfl, rfl⟩
    · exact ⟨rfl, rfl, rfl, rfl⟩

theorem dfsFileWrite_keepsFile (table : FsTable Dev) (answer : IoAnswer) :
    KeepsFile table (dfsFileWrite table answer) := by
  apply keepsFile_map
  intro fs d
  split_ifs
  · exact .refl d
  · exact ⟨rfl, rfl, rfl, rfl⟩

theorem KeepsFile.of_null {f : DfsFd → Option (DfsFd × DfsResult)} (hf : KeepsFile table f) (r : DfsResult) :
    KeepsFile table (fun d => if d.fs = none then some (d, r) else f d) where
  same d d' r' h := by
    split_ifs at h
    · cases h
      exact .refl d
    · exact hf.same d d' r' h
  isSome d hd := by
    split_ifs
    · rfl
    · exact hf.isSome d hd

theorem dfsFileLseek_keepsFile (table : FsTable Dev) (answer : IoAnswer) :
    KeepsFile table (dfsFileLseek table answer) := by
  apply KeepsFile.of_null
  apply keepsFile_map
  intro fs d
  split_ifs
  · exact .refl d
  · split
    · exact ⟨rfl, rfl, rfl, rfl⟩
    · exact ⟨rfl, rfl, rfl, rfl⟩

namespace Dfs

variable {s s' : Dfs Dev} {fd : ℕ} {result : DfsResult} {deviceName : Option (List Char)} {path type : List Char}
  {answer : MountAnswer Dev}

def OpenFilesLead (s : Dfs Dev) : Prop := ∀ d ∈ s.fdTable, s.filesystemTable.Good d

theorem OpenFilesLead.setFd (h : s.OpenFilesLead) (fd : ℕ) (hd : s.filesystemTable.Good d) :
    (s.setFd fd d).OpenFilesLead := by
  intro d' hmem
  rcases mem_or_eq_of_mem_set hmem with hold | rfl
  · exact h d' hold
  · exact hd

theorem OpenFilesLead.fdPut (h : s.OpenFilesLead) (fd : ℕ) : (s.fdPut fd).OpenFilesLead := by
  unfold Dfs.fdPut
  cases hd : s.fdTable[fd]? with
  | none => exact h
  | some d => exact h.setFd fd (good_put (h d (mem_of_getElem? hd)))

theorem fdGet_eq_some (h : s.fdGet fd = some (d, s')) :
    ∃ d₀, s.fdTable[fd]? = some d₀ ∧ d₀.magic = true ∧ d = { d₀ with refCount := d₀.refCount + 1 } ∧
      s' = s.setFd fd d := by
  unfold fdGet at h
  cases hd : s.fdTable[fd]? with
  | none => simp [hd] at h
  | some d₀ =>
    simp only [hd] at h
    obtain ⟨hm, h⟩ := ite_none_right_eq_some.mp h
    cases h
    exact ⟨d₀, rfl, hm, rfl, rfl⟩

@[simp] theorem setFd_setFd (s : Dfs Dev) (fd : ℕ) (d d' : DfsFd) : (s.setFd fd d).setFd fd d' = s.setFd fd d' := by
  simp [setFd]

theorem fdNew_eq_some (h : s.fdNew = some (fd, s')) :
    fd < s.fdTable.length ∧ ∃ d, d.magic = true ∧ d.refCount = 1 ∧ s' = s.setFd fd d := by
  unfold fdNew at h
  split at h
  · cases h
  · obtain ⟨d₀, hd, heq⟩ := map_eq_some_iff.mp h
    cases heq
    exact ⟨(List.getElem?_eq_some_iff.mp hd).1, _, rfl, rfl, rfl⟩

theorem findSlot_eq_ok {path : List Char} {table : FsTable Dev} {i j : ℕ} {fs : Option ℕ}
    (h : findSlot path table i fs = .ok j) :
    (fs = some j ∨ ∃ k, j = i + k ∧ table[k]? = some none) ∧ ∀ iter, some iter ∈ table →
    iter.path ≠ path := by
  induction table generalizing i fs with
  | nil =>
    refine ⟨?_, by simp⟩
    cases fs with
    | none => cases h
    | some fs =>
      cases h
      exact .inl rfl
  | cons entry rest ih =>
    cases entry with
    | none =>
      obtain ⟨hslot, hpaths⟩ := ih h
      refine ⟨?_, fun iter hmem => hpaths iter (by simpa using hmem)⟩
      rcases hslot with hfs | ⟨k, rfl, hk⟩
      · cases fs with
        | none =>
          cases hfs
          exact .inr ⟨0, rfl, rfl⟩
        | some fs => exact .inl hfs
      · exact .inr ⟨k + 1, by omega, hk⟩
    | some iter =>
      rw [findSlot] at h
      split_ifs at h with hpath
      obtain ⟨hslot, hpaths⟩ := ih h
      refine ⟨?_, fun iter' hmem => ?_⟩
      · rcases hslot with hfs | ⟨k, rfl, hk⟩
        · exact .inl hfs
        · exact .inr ⟨k + 1, by omega, hk⟩
      · rcases mem_cons.mp hmem with heq | hmem
        · cases heq
          exact hpath
        · exact hpaths iter' hmem

theorem setFs_self {i : ℕ} {fs : Option (Filesystem Dev)} (h : s.filesystemTable[i]? = some fs) :
    s.setFs i fs = s := by
  obtain ⟨-, rfl⟩ := List.getElem?_eq_some_iff.mp h
  rw [setFs, set_getElem_self]

section

variable (h : s.OpenFilesLead)

include h

theorem OpenFilesLead.fdGet (hget : s.fdGet fd = some (d, s')) :
    s.filesystemTable.Leads d ∧ s'.filesystemTable = s.filesystemTable ∧ s'.OpenFilesLead := by
  obtain ⟨d₀, hd, hm, rfl, rfl⟩ := fdGet_eq_some hget
  have hleads : s.filesystemTable.Leads { d₀ with refCount := d₀.refCount + 1 } :=
    (h d₀ (mem_of_getElem? hd) hm).congr rfl rfl
  exact ⟨hleads, rfl, h.setFd fd (fun _ => hleads)⟩

theorem OpenFilesLead.onFd {f : DfsFd → Option (DfsFd × DfsResult)} (hf : KeepsFile s.filesystemTable f) (fd : ℕ) :
    ∃ s' result, s.onFd fd f = some (s', result) ∧ s'.OpenFilesLead := by
  unfold Dfs.onFd
  cases hget : s.fdGet fd with
  | none => exact ⟨s, _, rfl, h⟩
  | some p =>
    obtain ⟨d, s₁⟩ := p
    obtain ⟨hleads, htable, h₁⟩ := h.fdGet hget
    obtain ⟨⟨d', r⟩, hd'⟩ := isSome_iff_exists.mp (hf.isSome d hleads)
    have hgood : s₁.filesystemTable.Good d' := by
      rw [htable]
      exact (hf.same d d' r hd').good (fun _ => hleads)
    dsimp only
    rw [hd']
    exact ⟨_, _, rfl, (h₁.setFd fd hgood).fdPut fd⟩

theorem OpenFilesLead.closed (hget : s.fdGet fd = some (d, s')) (answer : DfsResult) :
    ∃ d' r, dfsFileClose s'.filesystemTable answer d = some (d', r) ∧ (s'.setFd fd d').OpenFilesLead := by
  obtain ⟨hleads, htable, h'⟩ := h.fdGet hget
  have hf := dfsFileClose_keepsFile s'.filesystemTable answer
  rw [← htable] at hleads
  obtain ⟨⟨d', r⟩, hd'⟩ := isSome_iff_exists.mp (hf.isSome d hleads)
  exact ⟨d', r, hd', h'.setFd fd ((hf.same d d' r hd').good (fun _ => hleads))⟩

theorem OpenFilesLead.posixClose (answer : DfsResult) (fd : ℕ) :
    ∃ s' result, s.posixClose answer fd = some (s', result) ∧ s'.OpenFilesLead := by
  unfold Dfs.posixClose
  cases hget : s.fdGet fd with
  | none => exact ⟨s, _, rfl, h⟩
  | some p =>
    obtain ⟨d', r, hclose, h₁⟩ := h.closed hget answer
    dsimp only
    rw [hclose]
    cases r with
    | error e => exact ⟨_, _, rfl, h₁.fdPut fd⟩
    | ok n => exact ⟨_, _, rfl, (h₁.fdPut fd).fdPut fd⟩

theorem OpenFilesLead.posixClosedir (answer : DfsResult) (fd : ℕ) :
    ∃ s' result, s.posixClosedir answer fd = some (s', result) ∧ s'.OpenFilesLead := by
  unfold Dfs.posixClosedir
  cases hget : s.fdGet fd with
  | none => exact ⟨s, _, rfl, h⟩
  | some p =>
    obtain ⟨d', r, hclose, h₁⟩ := h.closed hget answer
    dsimp only
    rw [hclose]
    exact ⟨_, _, rfl, (h₁.fdPut fd).fdPut fd⟩

theorem OpenFilesLead.posixLseek (answer : IoAnswer) (fd : ℕ) (offset : BitVec 32)
    (whence : Whence) : ∃ s' result, s.posixLseek answer fd offset whence = some (s', result) ∧
    s'.OpenFilesLead := by
  apply h.onFd
  have hf := dfsFileLseek_keepsFile s.filesystemTable answer
  refine ⟨?_, ?_⟩
  · intro d d' r hd
    cases hoff : seekOffset d offset whence with
    | none =>
      simp only [hoff] at hd
      cases hd
      exact .refl d
    | some offset' =>
      simp only [hoff] at hd
      split_ifs at hd
      · cases hd
        exact .refl d
      · obtain ⟨⟨d'', r'⟩, hseek, heq⟩ := map_eq_some_iff.mp hd
        cases heq
        exact hf.same d d'' r' hseek
  · intro d hd
    cases seekOffset d offset whence with
    | none => rfl
    | some offset' =>
      dsimp only
      split_ifs
      · rfl
      · rw [isSome_map]
        exact hf.isSome d hd

end

section

variable (hfd : fd < s.fdTable.length)

include hfd

theorem getElem?_setFd (d : DfsFd) : (s.setFd fd d).fdTable[fd]? = some d := by
  simp [setFd, hfd]

theorem fdPut_setFd (d : DfsFd) : (s.setFd fd d).fdPut fd = s.setFd fd d.put := by
  rw [fdPut, getElem?_setFd hfd]
  exact setFd_setFd s fd d d.put

theorem fdGet_setFd (hm : d.magic = true) : (s.setFd fd d).fdGet fd = some ({ d with refCount := d.refCount + 1 },
      s.setFd fd { d with refCount := d.refCount + 1 }) := by
  rw [fdGet, getElem?_setFd hfd]
  simp [hm]

end

theorem fdNew_fdGet (h : s.fdNew = some (fd, s')) :
    fd < s.fdTable.length ∧ ∃ d, d.refCount = 2 ∧ s'.fdGet fd = some (d, s.setFd fd d) := by
  obtain ⟨hfd, d, hm, hone, rfl⟩ := fdNew_eq_some h
  refine ⟨hfd, _, ?_, fdGet_setFd hfd hm⟩
  simp [hone]

theorem put_put (h : d.refCount = 2) : d.put.put = .cleared := by
  simp [DfsFd.put, h]

section

variable (h : s.OpenFilesLead) (hfd : fd < s.fdTable.length)

include h hfd

theorem OpenFilesLead.gaveUp (hd : d.refCount = 2) (d₁ : DfsFd) :
    ((((s.setFd fd d₁).setFd fd d).fdPut fd).fdPut fd).OpenFilesLead := by
  rw [setFd_setFd, fdPut_setFd hfd, fdPut_setFd hfd, put_put hd]
  exact h.setFd fd good_cleared

variable {d₁ : DfsFd} (htwo : d₁.refCount = 2) {r : DfsFd × DfsResult} (hr : d₁.Opened s.filesystemTable r)

include htwo hr

theorem OpenFilesLead.opened : ((s.setFd fd d₁).opened fd r).1.OpenFilesLead := by
  obtain ⟨d, r⟩ := r
  cases r with
  | error e => exact h.gaveUp hfd (hr.refCount.trans htwo) d₁
  | ok n =>
    rw [Dfs.opened, setFd_setFd, fdPut_setFd hfd]
    exact h.setFd fd (good_put (fun _ => hr.leads n rfl))

theorem OpenFilesLead.openedDir {dirAlloc : Bool}
    {closeAnswer : DfsResult} (hs : (s.setFd fd d₁).openedDir dirAlloc closeAnswer fd r = some (s', result)) :
    s'.OpenFilesLead := by
  have hopened := h.opened hfd htwo hr
  obtain ⟨d, r⟩ := r
  cases r with
  | error e =>
    obtain rfl : _ = s' := congrArg fst (Option.some.inj hs)
    exact hopened
  | ok n =>
    unfold Dfs.openedDir at hs
    split_ifs at hs
    · obtain rfl : _ = s' := congrArg fst (Option.some.inj hs)
      exact hopened
    · obtain ⟨⟨d', r'⟩, hclose, heq⟩ := map_eq_some_iff.mp hs
      obtain rfl : _ = s' := congrArg fst heq
      have hsame := (dfsFileClose_keepsFile _ _).same d d' r' hclose
      exact h.gaveUp hfd (hsame.refCount.trans (hr.refCount.trans htwo)) d₁

end

theorem OpenFilesLead.posixOpen (h : s.OpenFilesLead) {answer : OpenAnswer} {file : List Char} {flags : BitVec 32}
    (hs : s.posixOpen answer file flags = some (s', result)) : s'.OpenFilesLead := by
  unfold Dfs.posixOpen at hs
  cases hnew : s.fdNew with
  | none =>
    rw [hnew] at hs
    cases hs
    exact h
  | some p =>
    obtain ⟨hfd, d₁, htwo, hget⟩ := fdNew_fdGet hnew
    simp only [hnew, hget, map_some] at hs
    obtain rfl : _ = s' := congrArg fst (Option.some.inj hs)
    exact h.opened hfd htwo (dfsFileOpen_opened ..)

theorem OpenFilesLead.posixOpendir (h : s.OpenFilesLead) {answer : OpenAnswer} {dirAlloc : Bool}
    {closeAnswer : DfsResult} {name : List Char}
    (hs : s.posixOpendir answer dirAlloc closeAnswer name = some (s', result)) : s'.OpenFilesLead := by
  unfold Dfs.posixOpendir at hs
  cases hnew : s.fdNew with
  | none =>
    rw [hnew] at hs
    cases hs
    exact h
  | some p =>
    obtain ⟨hfd, d₁, htwo, hget⟩ := fdNew_fdGet hnew
    simp only [hnew, hget, bind_some] at hs
    exact h.openedDir hfd htwo (dfsFileOpen_opened ..) hs

theorem dfsInit_lead (operationTable : List (Option FsOps)) (filesystemsMax fdMax : ℕ) (openCount : Dev → ℕ) :
    (dfsInit operationTable filesystemsMax fdMax openCount).OpenFilesLead := by
  intro d hmem
  rw [eq_of_mem_replicate hmem]
  exact good_cleared

variable [DecidableEq Dev]

@[simp] theorem deviceOpen_fdTable (s : Dfs Dev) (devId : Option Dev) : (s.deviceOpen devId).fdTable = s.fdTable := by
  cases devId <;> rfl

@[simp] theorem deviceOpen_filesystemTable (s : Dfs Dev) (devId : Option Dev) :
    (s.deviceOpen devId).filesystemTable = s.filesystemTable := by
  cases devId <;> rfl

@[simp] theorem deviceClose_fdTable (s : Dfs Dev) (devId : Option Dev) :
    (s.deviceClose devId).fdTable = s.fdTable := by
  cases devId <;> rfl

@[simp] theorem deviceClose_filesystemTable (s : Dfs Dev) (devId : Option Dev) :
    (s.deviceClose devId).filesystemTable = s.filesystemTable := by
  cases devId <;> rfl

structure MountedIn (s : Dfs Dev) (i : ℕ) (fs : Filesystem Dev) (s' : Dfs Dev) : Prop where
  empty : s.filesystemTable[i]? = some none
  generation : fs.generation = s.mounts
  state : s' = { s.deviceOpen fs.devId with
    filesystemTable := s.filesystemTable.set i (some fs)
    mounts := s.mounts + 1 }

theorem deviceClose_deviceOpen (s : Dfs Dev) (devId : Option Dev) : (s.deviceOpen devId).deviceClose devId = s := by
  cases devId with
  | none => rfl
  | some dev => simp [deviceOpen, deviceClose]

/-- What a mount that fails leaves behind: nothing, or the counted open of a device that answered `-RT_ENOSYS`. -/
def Left (s : Dfs Dev) (answer : MountAnswer Dev) (devId : Option Dev) (s' : Dfs Dev) : Prop :=
  s' = s ∨ devId ≠ none ∧ answer.deviceOpen = .enosys ∧ s' = s.deviceOpen devId

theorem deviceOpen_setFs (s : Dfs Dev) (devId : Option Dev) (i : ℕ) (fs : Option (Filesystem Dev)) :
    (s.setFs i fs).deviceOpen devId = (s.deviceOpen devId).setFs i fs := by
  cases devId <;> rfl

theorem mountAt_cases {i : ℕ} (hi : s.filesystemTable[i]? = some none) (answer : MountAnswer Dev) (devId : Option Dev)
    (fullpath : List Char) (ops : FsOps) :
    (∃ s' e, s.mountAt answer devId fullpath ops i = (s', .error e) ∧ s.Left answer devId s') ∨
      ∃ s', s.mountAt answer devId fullpath ops i = (s', .ok 0) ∧
      s.MountedIn i ⟨devId, fullpath, ops, s.mounts⟩ s' := by
  have hback : ∀ fs, (s.setFs i fs).setFs i none = s := by
    intro fs
    rw [setFs, setFs, set_set]
    exact setFs_self hi
  unfold mountAt
  dsimp only
  split_ifs with hfailed henosys
  · exact .inl ⟨_, _, rfl, .inl (hback _)⟩
  · refine .inl ⟨_, _, rfl, .inr ⟨henosys.1, henosys.2, ?_⟩⟩
    rw [← deviceOpen_setFs, hback]
  · cases answer.mount with
    | error e => exact .inl ⟨_, _, rfl, .inl (by rw [deviceClose_deviceOpen, hback])⟩
    | ok n =>
      refine .inr ⟨_, rfl, hi, rfl, ?_⟩
      cases devId with
      | none | some dev => rfl

theorem dfsMount_cases (hs : s.dfsMount answer deviceName path type = some (s', result)) :
    (s.Left answer (deviceName.bind answer.find) s' ∧ ∃ e, result = .error e) ∨ ∃ i fs, s.MountedIn i fs s' ∧
      dfsNormalizePath answer.alloc s.workingDirectory none path = some fs.path ∧
      (∀ iter, some iter ∈ s.filesystemTable → iter.path ≠ path) ∧ result = .ok 0 := by
  have hsame : ∀ e, some (s, .error e) = some (s', result) →
      s.Left answer (deviceName.bind answer.find) s' ∧ ∃ e, result = .error e := by
    intro e heq
    cases heq
    exact ⟨.inl rfl, e, rfl⟩
  unfold Dfs.dfsMount at hs
  by_cases hdev : deviceName ≠ none ∧ deviceName.bind answer.find = none
  · rw [if_pos hdev] at hs
    exact .inl (hsame _ hs)
  rw [if_neg hdev] at hs
  rcases hops : findOps type s.operationTable with _ | _ | ops
  · rw [hops] at hs
    cases hs
  · rw [hops] at hs
    exact .inl (hsame _ hs)
  rw [hops] at hs
  dsimp only at hs
  by_cases hmount : ops.mountOp = false
  · rw [if_pos hmount] at hs
    exact .inl (hsame _ hs)
  rw [if_neg hmount] at hs
  cases hpath : dfsNormalizePath answer.alloc s.workingDirectory none path with
  | none =>
    rw [hpath] at hs
    exact .inl (hsame _ hs)
  | some fullpath =>
    rw [hpath] at hs
    obtain ⟨isDir, -, heq⟩ := map_eq_some_iff.mp hs
    split_ifs at heq
    · exact .inl (hsame _ (congrArg some heq))
    · cases hslot : findSlot path s.filesystemTable 0 none with
      | error e =>
        rw [hslot] at heq
        exact .inl (hsame _ (congrArg some heq))
      | ok i =>
        rw [hslot] at heq
        obtain ⟨hi, hpaths⟩ := findSlot_eq_ok hslot
        obtain ⟨k, rfl, hk⟩ := hi.resolve_left nofun
        rw [Nat.zero_add] at heq
        rcases mountAt_cases hk answer (deviceName.bind answer.find) fullpath ops with
          ⟨s'', e, he, hleft⟩ | ⟨s'', he, hmounted⟩
        · cases he.symm.trans heq
          exact .inl ⟨hleft, e, rfl⟩
        · cases he.symm.trans heq
          exact .inr ⟨k, _, hmounted, rfl, hpaths, rfl⟩

theorem OpenFilesLead.dfsMount (h : s.OpenFilesLead)
    (hs : s.dfsMount answer deviceName path type = some (s', result)) : s'.OpenFilesLead := by
  rcases dfsMount_cases hs with ⟨rfl | ⟨-, -, rfl⟩, -⟩ | ⟨i, fs, hmounted, -⟩
  · exact h
  · intro d hmem hm
    rw [deviceOpen_filesystemTable]
    exact h d (by simpa using hmem) hm
  · rw [hmounted.state]
    intro d hmem hm
    have hleads := h d (by simpa using hmem) hm
    exact hleads.set (hleads.fs_ne hmounted.empty) (some fs)

end Dfs

def DfsCall.onDescriptor : DfsCall Dev → Prop
  | .read .. | .write .. | .lseek .. | .close .. | .closedir .. => True
  | _ => False

namespace Dfs

variable {s s' : Dfs Dev} [DecidableEq Dev]

def unmountTarget (s : Dfs Dev) (alloc : Bool) (specialfile : List Char) : Option (ℕ × Filesystem Dev) :=
  (dfsNormalizePath alloc s.workingDirectory none specialfile).bind (mountedAt s.filesystemTable)

def Unused (s : Dfs Dev) : DfsCall Dev → Prop
  | .unmount alloc answer specialfile => ∀ target ∈ s.unmountTarget alloc specialfile,
      target.2.ops.unmountOp = true → answer.isOk = true → ∀ d ∈ s.fdTable, d.magic = true →
      d.fs ≠ some target.1
  | _ => True

structure OpenFilesStay (s : Dfs Dev) : Prop where
  lead : s.OpenFilesLead
  defined : ∀ c, c.onDescriptor → (s.step c).isSome = true

section

variable (h : s.OpenFilesLead)

include h

theorem OpenFilesLead.unmounted_iff (devId : Option Dev) (i : ℕ) :
    ((s.deviceClose devId).setFs i none).OpenFilesLead ↔ ∀ d ∈ s.fdTable, d.magic = true → d.fs ≠ some i := by
  have hfd : ((s.deviceClose devId).setFs i none).fdTable = s.fdTable := deviceClose_fdTable s devId
  have htable : ((s.deviceClose devId).setFs i none).filesystemTable = s.filesystemTable.set i none := by
    rw [setFs, deviceClose_filesystemTable]
  unfold OpenFilesLead
  rw [hfd, htable]
  refine forall₂_congr (fun d hmem => forall_congr' (fun hm => ⟨?_, ?_⟩))
  · intro hleads hfs
    exact FsTable.not_leads_set hfs hleads
  · intro hne
    exact (h d hmem hm).set hne none

theorem OpenFilesLead.dfsUnmount (alloc : Bool) (answer : DfsResult) (specialfile : List Char) :
    (s.dfsUnmount alloc answer specialfile).1.OpenFilesLead ↔ s.Unused (.unmount alloc answer specialfile) := by
  simp only [Dfs.dfsUnmount, Unused, unmountTarget]
  cases hpath : dfsNormalizePath alloc s.workingDirectory none specialfile with
  | none => simp [h]
  | some fullpath =>
    simp only [bind_some]
    cases htarget : mountedAt s.filesystemTable fullpath with
    | none => simp [h]
    | some target =>
      obtain ⟨i, fs⟩ := target
      by_cases hop : fs.ops.unmountOp = false
      · simp [hop, h]
      · cases answer with
        | error e => simp [h, Except.isOk, Except.toBool]
        | ok n =>
          have hcleared := h.unmounted_iff fs.devId i
          simpa [hop, Except.isOk, Except.toBool] using hcleared

theorem OpenFilesLead.step {c : DfsCall Dev} (hs : s.step c = some s') : s'.OpenFilesLead ↔ s.Unused c := by
  obtain ⟨⟨s'', result⟩, hcall, rfl⟩ := map_eq_some_iff.mp hs
  have hcalled : (∃ s₁ r, s.call c = some (s₁, r) ∧ s₁.OpenFilesLead) → s''.OpenFilesLead := by
    rintro ⟨s₁, r, hcall', h₁⟩
    obtain rfl : s₁ = s'' := congrArg fst (Option.some.inj (hcall'.symm.trans hcall))
    exact h₁
  cases c with
  | mount answer deviceName path type => exact iff_of_true (h.dfsMount hcall) trivial
  | unmount alloc answer specialfile =>
    obtain rfl : _ = s'' := congrArg fst (Option.some.inj hcall)
    exact h.dfsUnmount alloc answer specialfile
  | openFile answer file flags => exact iff_of_true (h.posixOpen hcall) trivial
  | read answer fd => exact iff_of_true (hcalled (h.onFd (dfsFileRead_keepsFile _ _) fd)) trivial
  | write answer fd => exact iff_of_true (hcalled (h.onFd (dfsFileWrite_keepsFile _ _) fd)) trivial
  | lseek answer fd offset whence => exact iff_of_true (hcalled (h.posixLseek answer fd offset whence)) trivial
  | close answer fd => exact iff_of_true (hcalled (h.posixClose answer fd)) trivial
  | opendir answer dirAlloc closeAnswer name => exact iff_of_true (h.posixOpendir hcall) trivial
  | closedir answer fd => exact iff_of_true (hcalled (h.posixClosedir answer fd)) trivial

theorem OpenFilesLead.defined {c : DfsCall Dev} (hc : c.onDescriptor) : (s.step c).isSome = true := by
  have hcalled : (∃ s₁ r, s.call c = some (s₁, r) ∧ s₁.OpenFilesLead) → (s.step c).isSome = true := by
    rintro ⟨s₁, r, hcall, -⟩
    rw [Dfs.step, hcall]
    rfl
  cases c with
  | mount | unmount | openFile | opendir => exact absurd hc nofun
  | read answer fd => exact hcalled (h.onFd (dfsFileRead_keepsFile _ _) fd)
  | write answer fd => exact hcalled (h.onFd (dfsFileWrite_keepsFile _ _) fd)
  | lseek answer fd offset whence => exact hcalled (h.posixLseek answer fd offset whence)
  | close answer fd => exact hcalled (h.posixClose answer fd)
  | closedir answer fd => exact hcalled (h.posixClosedir answer fd)

theorem OpenFilesLead.stay : s.OpenFilesStay := ⟨h, fun _ hc => h.defined hc⟩

end

theorem open_files_stay_iff (operationTable : List (Option FsOps)) (filesystemsMax fdMax : ℕ)
    (openCount : Dev → ℕ)
    (cs : List (DfsCall Dev)) :
    StatesAlong step OpenFilesStay (dfsInit operationTable filesystemsMax fdMax openCount) cs ↔
      StepsAlong step Unused (dfsInit operationTable filesystemsMax fdMax openCount) cs := by
  have hinit := dfsInit_lead operationTable filesystemsMax fdMax openCount
  apply statesAlong_iff_stepsAlong_of_kept _ _ cs hinit hinit.stay
  · intro s c s' hlead _ hc hs
    exact (hlead.step hs).mpr hc
  · intro s c s' hlead _ hs
    exact ⟨fun h => (hlead.step hs).mp h.lead, fun hc => ((hlead.step hs).mpr hc).stay⟩

end Dfs

def romOps : FsOps where
  name := ['r', 'o', 'm']
  fullpath := false
  mountOp := true
  unmountOp := true
  openOp := true
  closeOp := true
  readOp := true
  writeOp := false
  lseekOp := true

def agrees : IoAnswer := ⟨.ok 0, 0, 0⟩

def mountRoot : DfsCall Unit :=
  .mount ⟨fun _ => none, true, ⟨true, true, agrees⟩, .ok 0, .eok, .ok 0⟩ none ['/'] ['r', 'o', 'm']

def romInit : Dfs Unit := dfsInit [some romOps, none, none, none] 4 4 (fun _ => 0)

/-- The file system is unmounted while a file is open, and another one is mounted in its entry: until then a read
follows a null pointer, and afterwards it reads from the wrong file system. -/
theorem open_file_unmounted : ∃ s s',
    run Dfs.step romInit [mountRoot, .openFile ⟨true, true, agrees⟩ ['/', 'a'] 0,
      .unmount true (.ok 0) ['/']] = some s ∧
      s.step (.read agrees 0) = none ∧ ¬s.OpenFilesStay ∧
      s.step mountRoot = some s' ∧ (s'.fdTable.map (·.generation)).head? = some 0 ∧
      (s'.fdTable.head?.bind s'.filesystemTable.reach).map (·.generation) = some 1 := by
  obtain ⟨s, hs, hread, s', hs', hopened, hreached⟩ : ∃ s, run Dfs.step romInit
          [mountRoot, .openFile ⟨true, true, agrees⟩ ['/', 'a'] 0, .unmount true (.ok 0) ['/']] = some s ∧
        (s.step (.read agrees 0)).isNone ∧ ∃ s', s.step mountRoot = some s' ∧
          (s'.fdTable.map (·.generation)).head? = some 0 ∧
          (s'.fdTable.head?.bind s'.filesystemTable.reach).map (·.generation) = some 1 := by decide +kernel
  have hnone : s.step (.read agrees 0) = none := isNone_iff_eq_none.mp hread
  refine ⟨s, s', hs, hnone, fun hstay => ?_, hs', hopened, hreached⟩
  have hsome := hstay.defined (.read agrees 0) trivial
  rw [hnone] at hsome
  exact absurd hsome nofun

end RtThread
