import RtThread.Dfs.OpenFiles
import RtThread.Dfs.PathBuffer

namespace RtThread

open Transition List

variable {Dev : Type}

def dfsPathMax : ℕ := 256

def cString (memory : List Char) : List Char := memory.takeWhile (· ≠ nul)

def strncpyPath (src : List Char) : List Char := (src ++ List.replicate dfsPathMax nul).take dfsPathMax

/-- A descriptor is free, the file system of the path has an `open` that answers, and there is memory for the `DIR`. -/
def Dfs.Opens (s : Dfs Dev) (answer : OpenAnswer) (dirAlloc : Bool) (name : List Char) : Prop :=
  (∃ d ∈ s.fdTable, d.refCount ≤ 0) ∧ dirAlloc = true ∧ (∃ n, answer.io.result = .ok n) ∧
    ∃ fullpath i fs, dfsNormalizePath answer.alloc s.workingDirectory none name = some fullpath ∧
      s.filesystemTable.lookup fullpath = some (i, fs) ∧ fs.ops.openOp = true

theorem dfsFileOpen_ok_iff (table : FsTable Dev) (workingDirectory : List Char) (answer : OpenAnswer) (d : DfsFd)
    (name : List Char) (flags : BitVec 32) :
    (∃ n, (dfsFileOpen table workingDirectory answer d name flags).2 = .ok n) ↔
    (∃ n, answer.io.result = .ok n) ∧
      ∃ fullpath i fs, dfsNormalizePath answer.alloc workingDirectory none name = some fullpath ∧
        table.lookup fullpath = some (i, fs) ∧ fs.ops.openOp = true := by
  unfold dfsFileOpen
  cases hpath : dfsNormalizePath answer.alloc workingDirectory none name with
  | none => simp
  | some fullpath =>
    cases hl : table.lookup fullpath with
    | none => simp [hl]
    | some found =>
      obtain ⟨i, fs⟩ := found
      cases hop : fs.ops.openOp with
      | false => simp [hl, hop]
      | true =>
        cases answer.io.result with
        | error e => simp [hl, hop]
        | ok n =>
          refine iff_of_true ?_ ⟨⟨n, rfl⟩, fullpath, i, fs, rfl, hl, hop⟩
          simp only [hl, hop, Bool.true_eq_false, if_false]
          split_ifs <;> exact ⟨0, rfl⟩

theorem Dfs.isSome_fdNew (s : Dfs Dev) : s.fdNew.isSome ↔ ∃ d ∈ s.fdTable, d.refCount ≤ 0 := by
  unfold fdNew
  cases hfree : s.fdTable.findIdx? (fun d => d.refCount ≤ 0) with
  | none => simpa using findIdx?_eq_none_iff.mp hfree
  | some fd =>
    obtain ⟨hfd, hd, -⟩ := findIdx?_eq_some_iff_getElem.mp hfree
    refine iff_of_true ?_ ⟨_, getElem_mem hfd, of_decide_eq_true hd⟩
    simp [getElem?_eq_getElem hfd]

theorem Dfs.posixOpendir_ok_iff {s s' : Dfs Dev} {answer : OpenAnswer} {dirAlloc : Bool}
    {closeAnswer result : DfsResult}
    {name : List Char} (h : s.posixOpendir answer dirAlloc closeAnswer name = some (s', result)) :
    (∃ fd, result = .ok fd) ↔ s.Opens answer dirAlloc name := by
  unfold posixOpendir at h
  rw [Opens, ← isSome_fdNew]
  cases hnew : s.fdNew with
  | none =>
    rw [hnew] at h
    cases h
    simp
  | some p =>
    obtain ⟨-, d, -, hget⟩ := fdNew_fdGet hnew
    simp only [hnew, hget, Option.bind_some] at h
    rw [← dfsFileOpen_ok_iff _ _ _ d _ oDirectory]
    generalize hr : dfsFileOpen _ _ _ _ _ _ = r at h
    change dfsFileOpen s.filesystemTable s.workingDirectory answer d name oDirectory = r at hr
    rw [hr]
    obtain ⟨d', opened⟩ := r
    cases opened with
    | error e =>
      cases h
      simp
    | ok n =>
      cases dirAlloc with
      | false =>
        obtain ⟨_, -, heq⟩ := Option.map_eq_some_iff.mp h
        cases heq
        simp
      | true =>
        cases h
        simp

structure WorkDir (Dev : Type) where
  dfs : Dfs Dev
  array : List Char
  entered : List Char

structure ChdirAnswer where
  alloc : Bool
  dirOpen : OpenAnswer
  dirAlloc : Bool
  dirGivenUp : DfsResult
  dirClose : DfsResult

namespace WorkDir

def path (s : WorkDir Dev) : List Char := cString s.array

/-- A relative path is joined with the working directory, which then has to end in its array. -/
def Readable (s : WorkDir Dev) (path : List Char) : Prop := path.head? = some '/' ∨ nul ∈ s.array

instance (s : WorkDir Dev) (path : List Char) : Decidable (s.Readable path) := instDecidableOr

def enter (s : WorkDir Dev) (answer : ChdirAnswer) (fullpath : List Char) : Option (WorkDir Dev × DfsResult) :=
  (Dfs.posixOpendir { s.dfs with workingDirectory := s.path } answer.dirOpen answer.dirAlloc answer.dirGivenUp
    fullpath).bind (fun
    | (dfs, .error e) => some ({ s with dfs }, .error e)
    | (dfs, .ok fd) => (dfs.posixClosedir answer.dirClose fd).map (fun (dfs, _) =>
        ({ dfs, array := strncpyPath fullpath
           entered := (dfsNormalizePath true s.path none fullpath).getD [] }, .ok 0)))

def chdir (s : WorkDir Dev) (answer : ChdirAnswer) : Option (List Char) → Option (WorkDir Dev × DfsResult)
  | none => some (s, .ok 0)
  | some path =>
    let path := cString path
    if dfsPathMax < path.length then some (s, .error .enotdir)
    else if ¬ s.Readable path then none
    else
      match dfsNormalizePath answer.alloc s.path none path with
      | none => some (s, .error .enotdir)
      | some fullpath => if ¬ s.Readable fullpath then none else s.enter answer fullpath

def step (s : WorkDir Dev) (c : ChdirAnswer × Option (List Char)) : Option (WorkDir Dev) :=
  (s.chdir c.1 c.2).map Prod.fst

def init (dfs : Dfs Dev) : WorkDir Dev := ⟨dfs, strncpyPath ['/'], ['/']⟩

structure Good (s : WorkDir Dev) : Prop where
  ends : nul ∈ s.array
  inside : s.array.length = dfsPathMax
  normalised : Normalised s.path
  entered : s.path = s.entered
  failed : ∀ answer path s' e, s.chdir answer path = some (s', .error e) → s'.array = s.array

def Enters (s : WorkDir Dev) (answer : ChdirAnswer) (path fullpath : List Char) : Prop :=
  (cString path).length ≤ dfsPathMax ∧ dfsNormalizePath answer.alloc s.path none (cString path) = some fullpath ∧
    Dfs.Opens { s.dfs with workingDirectory := s.path } answer.dirOpen answer.dirAlloc fullpath

def Fits (s : WorkDir Dev) (c : ChdirAnswer × Option (List Char)) : Prop :=
  ∀ path fullpath, c.2 = some path → s.Enters c.1 path fullpath →
    fullpath.head? = some '/' ∧ fullpath.length < dfsPathMax

variable {s s' : WorkDir Dev} {answer : ChdirAnswer} {path fullpath : List Char} {result : DfsResult}

theorem enter_cases (h : s.enter answer fullpath = some (s', result)) :
    let opens := Dfs.Opens { s.dfs with workingDirectory := s.path } answer.dirOpen answer.dirAlloc fullpath
    (∃ dfs e, s' = { s with dfs } ∧ result = .error e ∧ ¬ opens) ∨
      ∃ dfs, s' = ⟨dfs, strncpyPath fullpath, (dfsNormalizePath true s.path none fullpath).getD []⟩ ∧
      result = .ok 0 ∧
        opens := by
  obtain ⟨⟨dfs, opened⟩, hopen, h⟩ := Option.bind_eq_some_iff.mp h
  have hiff := Dfs.posixOpendir_ok_iff hopen
  cases opened with
  | error e =>
    cases h
    exact .inl ⟨dfs, e, rfl, rfl, fun hopens => nomatch hiff.mpr hopens⟩
  | ok fd =>
    obtain ⟨⟨dfs', closed⟩, -, h⟩ := Option.map_eq_some_iff.mp h
    cases h
    exact .inr ⟨dfs', rfl, rfl, hiff.mp ⟨fd, rfl⟩⟩

theorem chdir_cases (h : s.chdir answer (some path) = some (s', result)) :
    (∃ dfs e, s' = { s with dfs } ∧ result = .error e ∧ ∀ fullpath, ¬ s.Enters answer path fullpath) ∨
      ∃ fullpath dfs, s.Enters answer path fullpath ∧ result = .ok 0 ∧
        s' = ⟨dfs, strncpyPath fullpath, (dfsNormalizePath true s.path none fullpath).getD []⟩ := by
  unfold chdir at h
  dsimp only at h
  split_ifs at h with hlong
  · cases h
    exact .inl ⟨s.dfs, _, rfl, rfl, fun fullpath hin => hin.1.not_gt hlong⟩
  · cases hpath : dfsNormalizePath answer.alloc s.path none (cString path) with
    | none =>
      rw [hpath] at h
      cases h
      exact .inl ⟨s.dfs, _, rfl, rfl, fun fullpath hin => nomatch hpath.symm.trans hin.2.1⟩
    | some fullpath =>
      rw [hpath] at h
      dsimp only at h
      split_ifs at h
      rcases enter_cases h with ⟨dfs, e, hs', hfailed, hnot⟩ | ⟨dfs, hs', hok, hopens⟩
      · refine .inl ⟨dfs, e, hs', hfailed, fun fullpath' hin => hnot ?_⟩
        rw [Option.some.inj (hpath.symm.trans hin.2.1)]
        exact hin.2.2
      · exact .inr ⟨fullpath, dfs, ⟨not_lt.mp hlong, hpath, hopens⟩, hok, hs'⟩

theorem chdir_failed {path : Option (List Char)} {e : DfsErr} (h : s.chdir answer path = some (s', .error e)) :
    s'.array = s.array := by
  cases path with
  | none => cases h
  | some path =>
    rcases chdir_cases h with ⟨dfs, e, rfl, -⟩ | ⟨fullpath, dfs, -, hok, -⟩
    · rfl
    · cases hok

theorem Good.of_eq (h : s.Good) (harray : s'.array = s.array) (hentered : s'.entered = s.entered) : s'.Good := by
  have hpath : s'.path = s.path := congrArg cString harray
  exact ⟨harray ▸ h.ends, harray ▸ h.inside, hpath ▸ h.normalised, by rw [hpath, hentered, h.entered],
    fun _ _ _ _ => chdir_failed⟩

end WorkDir

theorem length_strncpyPath (src : List Char) : (strncpyPath src).length = dfsPathMax := by
  simp [strncpyPath]

variable {src : List Char}

theorem nul_mem_strncpyPath (h : nul ∉ src) : nul ∈ strncpyPath src ↔ src.length < dfsPathMax := by
  rw [strncpyPath, take_append, mem_append, take_replicate, mem_replicate]
  have htake : nul ∉ src.take dfsPathMax := fun hmem => h (mem_of_mem_take hmem)
  simp only [htake, false_or, ne_eq, and_true]
  omega

theorem cString_strncpyPath (h : nul ∉ src) (hlen : src.length < dfsPathMax) : cString (strncpyPath src) = src := by
  have hpos : 0 < dfsPathMax - src.length := by omega
  obtain ⟨n, hn⟩ := Nat.exists_eq_succ_of_ne_zero hpos.ne'
  rw [strncpyPath, take_append, take_of_length_le hlen.le, take_replicate, min_eq_left (by omega), hn, cString,
    takeWhile_append_of_pos (by grind)]
  simp

theorem head?_cString_strncpyPath (h : src.head? ≠ some '/') : (cString (strncpyPath src)).head? ≠ some '/' := by
  intro hhead
  obtain ⟨rest, hrest⟩ := head?_eq_some_iff.mp hhead
  have hcopied : '/' :: rest <+: src ++ List.replicate dfsPathMax nul :=
    hrest ▸ ( takeWhile_prefix _).trans ( take_prefix _ _)
  cases src with
  | nil => exact absurd (eq_of_mem_replicate (hcopied.subset mem_cons_self)) (by decide)
  | cons c src =>
    obtain ⟨tail, htail⟩ := hcopied
    exact h (congrArg List.head? htail).symm

namespace WorkDir

theorem Good.entered_iff {s : WorkDir Dev} (h : s.Good) {path fullpath : List Char} {alloc : Bool} (dfs : Dfs Dev)
    (hpath : dfsNormalizePath alloc s.path none (cString path) = some fullpath) :
    Good ⟨dfs, strncpyPath fullpath, (dfsNormalizePath true s.path none fullpath).getD []⟩ ↔
      fullpath.head? = some '/' ∧ fullpath.length < dfsPathMax := by
  have hnul : ∀ memory, nul ∉ cString memory := fun memory hmem => by simpa using mem_takeWhile_imp hmem
  by_cases hhead : fullpath.head? = some '/'
  · obtain ⟨hnormal, hchars⟩ := normalised_of_head? h.normalised.head? hpath hhead
    have hfull : nul ∉ fullpath := by
      intro hmem
      rcases hchars nul hmem with hslash | hmem | hmem
      · exact absurd hslash (by decide)
      · exact hnul _ hmem
      · exact hnul _ hmem
    rw [and_iff_right hhead, ← nul_mem_strncpyPath hfull]
    constructor
    · exact Good.ends
    · intro hends
      have hcopied := cString_strncpyPath hfull ((nul_mem_strncpyPath hfull).mp hends)
      refine ⟨hends, length_strncpyPath fullpath, ?_, ?_, fun _ _ _ _ => chdir_failed⟩
      · rw [WorkDir.path, hcopied]
        exact hnormal
      · rw [WorkDir.path, hcopied, hnormal.dfsNormalizePath_eq]
        rfl
  · exact iff_of_false (fun hg => head?_cString_strncpyPath hhead hg.normalised.head?) (fun hf => hhead hf.1)

theorem working_directory_iff (dfs : Dfs Dev) (cs : List (ChdirAnswer × Option (List Char))) :
    StatesAlong step Good (init dfs) cs ↔ StepsAlong step Fits (init dfs) cs := by
  have hinit : (init dfs).Good := by
    have hroot : (init dfs).path = ['/'] := cString_strncpyPath (by decide) (by decide)
    refine ⟨(nul_mem_strncpyPath (by decide)).mpr (by decide), length_strncpyPath ['/'], ?_, hroot,
      fun _ _ _ _ => chdir_failed⟩
    exact ⟨[], nofun, rfl⟩
  apply statesAlong_iff_stepsAlong_of_kept (I := fun _ => True) _ _ cs trivial hinit
  · exact fun _ _ _ _ _ _ _ => trivial
  · rintro s ⟨answer, path⟩ s' - hgood hs
    obtain ⟨⟨s', result⟩, hcall, rfl⟩ := Option.map_eq_some_iff.mp hs
    cases path with
    | none =>
      cases hcall
      exact iff_of_true hgood nofun
    | some path =>
      rcases chdir_cases hcall with ⟨dfs, e, rfl, rfl, hnot⟩ | ⟨fullpath, dfs, hin, rfl, rfl⟩
      · refine iff_of_true (hgood.of_eq rfl rfl) ?_
        intro path' fullpath' heq hin
        cases heq
        exact absurd hin (hnot fullpath')
      · rw [hgood.entered_iff dfs hin.2.1]
        constructor
        · intro hfits path' fullpath' heq hin'
          cases heq
          rwa [Option.some.inj (hin'.2.1.symm.trans hin.2.1)]
        · exact fun hfits => hfits path fullpath rfl hin

end WorkDir

def chdirAgrees : ChdirAnswer := ⟨true, ⟨true, true, agrees⟩, true, .ok 0, .ok 0⟩

def rootMounted : Dfs Unit := { romInit with filesystemTable := [some ⟨none, ['/'], romOps, 0⟩] }

theorem working_directory_lost :
    (∃ s, run WorkDir.step (WorkDir.init rootMounted) [(chdirAgrees, some ['.', '.'])] = some s ∧ s.path = [] ∧
      ¬ s.Good) ∧
    ∃ s, run WorkDir.step (WorkDir.init rootMounted)
    [(chdirAgrees, some ('/' :: List.replicate 255 'a'))] = some s ∧
      nul ∉ s.array ∧ ¬ s.Good := by
  constructor
  · refine exists_some_and (by decide +kernel) (fun s _ hpath hgood => ?_)
    have hhead := hgood.normalised.head?
    rw [hpath] at hhead
    cases hhead
  · exact exists_some_and (by decide +kernel) (fun s _ hends hgood => hends hgood.ends)

end RtThread
