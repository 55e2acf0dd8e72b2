import RtThread.Dfs.PathNames
import RtThread.Dfs.OpenFiles

namespace RtThread

open List FsTable

variable {Dev : Type}

namespace FsTable

def Mounted (table : FsTable Dev) (i : ℕ) (fs : Filesystem Dev) : Prop := table[i]? = some (some fs)

def DistinctBy {α : Type} (table : FsTable Dev) (key : Filesystem Dev → α) : Prop :=
  ∀ i j fs fs', table.Mounted i fs → table.Mounted j fs' → key fs = key fs' → i = j

def Distinct (table : FsTable Dev) : Prop := table.DistinctBy (·.path)

end FsTable

def Covers (mount path : List Char) : Prop := mount = path ∨ mount = ['/'] ∨ mount ++ ['/'] <+: path

def pathBelow (mount path : List Char) : List Char := if mount = ['/'] then path else path.drop mount.length

variable {mount path : List Char} {table : FsTable Dev}

theorem Covers.isPrefix (h : Covers mount path) (hpath : path.head? = some '/') : mount <+: path := by
  rcases h with rfl | rfl | h
  · exact prefix_refl mount
  · obtain ⟨rest, rfl⟩ := head?_eq_some_iff.mp hpath
    exact prefix_append ['/'] rest
  · exact (prefix_append mount ['/']).trans h

theorem covers_iff (hmount : mount.head? = some '/') (hpath : path.head? = some '/') :
    Covers mount path ↔
      mount <+: path ∧ ¬(1 < mount.length ∧ mount.length < path.length ∧ path[mount.length]? ≠ some '/') := by
  constructor
  · intro h
    refine ⟨h.isPrefix hpath, ?_⟩
    rcases h with rfl | rfl | ⟨rest, rfl⟩ <;> simp
  · rintro ⟨⟨rest, rfl⟩, hnext⟩
    cases rest with
    | nil => exact .inl (append_nil mount).symm
    | cons c rest =>
      by_cases hlen : 1 < mount.length
      · have hc : c = '/' := by simpa [hlen] using hnext
        exact .inr (.inr ⟨rest, by simp [hc]⟩)
      · obtain ⟨others, rfl⟩ := head?_eq_some_iff.mp hmount
        obtain rfl := length_eq_zero_iff.mp (by simpa using hlen)
        exact .inr (.inl rfl)

def IsLongest (path : List Char) (entries : List (Option (Filesystem Dev) × ℕ)) :
    Option (ℕ × Filesystem Dev) × ℕ → Prop
  | (none, n) => n = 0 ∧ ∀ fs i, (some fs, i) ∈ entries → ¬Covers fs.path path
  | (some (i, fs), n) => n = fs.path.length ∧ (some fs, i) ∈ entries ∧ Covers fs.path path ∧
      ∀ fs' j, (some fs', j) ∈ entries → Covers fs'.path path → fs'.path.length ≤ n

theorem isLongest_foldl {entries : List (Option (Filesystem Dev) × ℕ)}
    (hentries : ∀ fs i, (some fs, i) ∈ entries → fs.path.head? = some '/') (hpath : path.head? = some '/') :
    IsLongest path entries (entries.foldl (FsTable.lookupTurn path) (none, 0)) := by
  induction entries using reverseRecOn with
  | nil => exact ⟨rfl, nofun⟩
  | append_singleton entries entry ih =>
    have ih := ih (fun fs i hmem => hentries fs i (mem_append_left _ hmem))
    rw [foldl_append, foldl_cons]
    generalize entries.foldl (lookupTurn path) (none, 0) = found at ih ⊢
    obtain ⟨_ | iter, i⟩ := entry
    · obtain ⟨_ | ⟨j, fs⟩, n⟩ := found <;> simpa [lookupTurn, IsLongest] using ih
    have hcovers := covers_iff (hentries iter i (by simp)) hpath
    have hnew : ∀ {P : Filesystem Dev → Prop}, (∀ fs j, (some fs, j) ∈ entries → P fs) → P iter →
        ∀ fs j, (some fs, j) ∈ entries ++ [(some iter, i)] → P fs := by
      intro P hold hiter fs j hmem
      rcases mem_append.mp hmem with hmem | hmem
      · exact hold fs j hmem
      · cases mem_singleton.mp hmem
        exact hiter
    have hkept : ¬Covers iter.path path ∨ iter.path.length < found.2 →
        IsLongest path (entries ++ [(some iter, i)]) found := by
      intro hiter
      obtain ⟨_ | ⟨j, fs⟩, n⟩ := found
      · obtain ⟨rfl, hnone⟩ := ih
        exact ⟨rfl, hnew hnone (hiter.resolve_right (Nat.not_lt_zero _))⟩
      · obtain ⟨hn, hmem, hc, hmax⟩ := ih
        exact ⟨hn, mem_append_left _ hmem, hc, hnew hmax (fun hc => (hiter.resolve_left (not_not.mpr hc)).le)⟩
    unfold lookupTurn
    dsimp only
    split_ifs with hpre hnext
    · exact hkept (hpre.symm.imp_left (fun hnot hc => hnot (hc.isPrefix hpath)))
    · exact hkept (.inl (fun hc => (hcovers.mp hc).2 hnext))
    · obtain ⟨hlen, hpre⟩ := not_or.mp hpre
      refine ⟨rfl, by simp, hcovers.mpr ⟨not_not.mp hpre, hnext⟩,
        hnew (fun fs' j hmem hc => ?_) (fun _ => le_rfl)⟩
      obtain ⟨_ | ⟨k, fs⟩, n⟩ := found
      · exact absurd hc (ih.2 fs' j hmem)
      · exact (ih.2.2.2 fs' j hmem hc).trans (not_lt.mp hlen)

theorem isLongest_lookup (hpaths : ∀ i fs, table.Mounted i fs → Normalised fs.path)
    (hpath : path.head? = some '/') :
    ∃ n, IsLongest path table.zipIdx (table.lookup path, n) :=
  ⟨_, isLongest_foldl (fun fs i h => (hpaths i fs (mem_zipIdx_iff_getElem?.mp h)).head?) hpath⟩

theorem dfsSubdir_eq (hpath : Normalised path) (hcovers : Covers mount path) (hne : mount ≠ path) :
    dfsSubdir mount path = some (pathBelow mount path) ∧ (pathBelow mount path).head? = some '/' := by
  unfold dfsSubdir pathBelow
  by_cases hroot : mount = ['/']
  · subst hroot
    obtain ⟨_ | ⟨name, names⟩, hnames, rfl⟩ := hpath
    · exact absurd rfl hne
    · obtain ⟨hnil, -, -, hslash⟩ := hnames name mem_cons_self
      obtain ⟨c, chars, rfl⟩ := exists_cons_of_ne_nil hnil
      have hc : c ≠ '/' := fun heq => hslash (by simp [heq])
      cases names <;> simp [rooted, joined, intercalate, intersperse, hc]
  · obtain ⟨rest, rfl⟩ := (hcovers.resolve_left hne).resolve_left hroot
    simp [hroot]

theorem lookup_is_longest (hpaths : ∀ i fs, table.Mounted i fs → Normalised fs.path) (hdistinct : table.Distinct)
    (hpath : Normalised path) :
    (∀ i fs, table.lookup path = some (i, fs) ↔ table.Mounted i fs ∧ Covers fs.path path ∧
      ∀ j fs', table.Mounted j fs' → Covers fs'.path path → fs'.path.length ≤ fs.path.length) ∧
    (table.lookup path = none ↔ ∀ i fs, table.Mounted i fs → ¬Covers fs.path path) ∧
    ∀ i fs, table.lookup path = some (i, fs) → (dfsSubdir fs.path path = none ↔ fs.path = path) ∧
      (fs.path ≠ path → dfsSubdir fs.path path = some (pathBelow fs.path path) ∧
        (pathBelow fs.path path).head? = some '/') := by
  have hmem : ∀ i fs, (some fs, i) ∈ table.zipIdx ↔ table.Mounted i fs := fun i fs => mem_zipIdx_iff_getElem?
  obtain ⟨n, hlongest⟩ := isLongest_lookup hpaths hpath.head?
  generalize table.lookup path = found at hlongest ⊢
  rcases found with _ | ⟨k, fs₀⟩
  · obtain ⟨-, hnone⟩ := hlongest
    have hnone : ∀ i fs, table.Mounted i fs → ¬Covers fs.path path := fun i fs h => hnone fs i ((hmem i fs).mpr h)
    exact ⟨fun i fs => iff_of_false nofun (fun h => hnone i fs h.1 h.2.1), iff_of_true rfl hnone, nofun⟩
  · obtain ⟨rfl, hmounted, hcovers, hmax⟩ := hlongest
    have hmounted := (hmem k fs₀).mp hmounted
    have hmax : ∀ j fs', table.Mounted j fs' → Covers fs'.path path → fs'.path.length ≤ fs₀.path.length :=
      fun j fs' h => hmax fs' j ((hmem j fs').mpr h)
    refine ⟨fun i fs => ⟨?_, ?_⟩, iff_of_false nofun (fun h => h k fs₀ hmounted hcovers), ?_⟩
    · intro h
      cases h
      exact ⟨hmounted, hcovers, hmax⟩
    · rintro ⟨hfs, hc, hle⟩
      have hlen := (hmax i fs hfs hc).antisymm (hle k fs₀ hmounted hcovers)
      have heq : fs.path = fs₀.path := (prefix_of_prefix_length_le (hc.isPrefix hpath.head?)
        (hcovers.isPrefix hpath.head?) hlen.le).eq_of_length hlen
      obtain rfl := hdistinct i k fs fs₀ hfs hmounted heq
      cases hfs.symm.trans hmounted
      rfl
    · intro i fs h
      cases h
      refine ⟨⟨fun hnone => ?_, ?_⟩, dfsSubdir_eq hpath hcovers⟩
      · by_contra hne
        rw [(dfsSubdir_eq hpath hcovers hne).1] at hnone
        cases hnone
      · intro heq
        rw [heq, dfsSubdir, if_pos rfl]

def nestedMounts : FsTable Unit :=
  [some ⟨none, ['/'], romOps, 0⟩, none, some ⟨none, ['/', 'a', '/', 'b'], romOps, 1⟩,
    some ⟨none, ['/', 'a'], romOps, 2⟩]

theorem lookup_is_longest_nested : nestedMounts.lookup ['/', 'a', '/', 'b', '/', 'c'] =
    some (2, ⟨none, ['/', 'a', '/', 'b'], romOps, 1⟩) := by
  have hmounted : ∀ i fs, nestedMounts.Mounted i fs →
      (i, fs.path) ∈ [(0, ['/']), (2, ['/', 'a', '/', 'b']), (3, ['/', 'a'])] := by
    rintro (_ | _ | _ | _ | i) fs h <;> cases h <;> decide
  have hpaths : ∀ i fs, nestedMounts.Mounted i fs → Normalised fs.path := by
    intro i fs h
    have hmem := hmounted i fs h
    simp only [mem_cons, Prod.mk.injEq, not_mem_nil, or_false] at hmem
    rcases hmem with ⟨-, hp⟩ | ⟨-, hp⟩ | ⟨-, hp⟩ <;> rw [hp]
    exacts [⟨[], nofun, rfl⟩, ⟨[['a'], ['b']], by simp [IsName], rfl⟩, ⟨[['a']], by simp [IsName], rfl⟩]
  have hdistinct : nestedMounts.Distinct := by
    intro i j fs fs' h h' heq
    have hmem := hmounted i fs h
    have hmem' := hmounted j fs' h'
    simp only [heq, mem_cons, Prod.mk.injEq, not_mem_nil, or_false] at hmem hmem'
    rcases hmem with ⟨rfl, hp⟩ | ⟨rfl, hp⟩ | ⟨rfl, hp⟩ <;> simp [hp] at hmem' <;> exact hmem'.symm
  have hpath : Normalised ['/', 'a', '/', 'b', '/', 'c'] := ⟨[['a'], ['b'], ['c']], by simp [IsName], rfl⟩
  refine ((lookup_is_longest hpaths hdistinct hpath).1 2 _).mpr ⟨rfl, .inr (.inr ⟨['c'], rfl⟩),
    fun j fs' h _ => ?_⟩
  have hmem := hmounted j fs' h
  simp only [mem_cons, Prod.mk.injEq, not_mem_nil, or_false] at hmem
  rcases hmem with ⟨-, hp⟩ | ⟨-, hp⟩ | ⟨-, hp⟩ <;> rw [hp] <;> decide

variable {fs : Filesystem Dev}

theorem covers_of_lookup {i : ℕ} (hpaths : ∀ i fs, table.Mounted i fs → Normalised fs.path)
    (hpath : path.head? = some '/') (h : table.lookup path = some (i, fs)) : Covers fs.path path := by
  obtain ⟨n, hlongest⟩ := isLongest_lookup hpaths hpath
  rw [h] at hlongest
  exact hlongest.2.2.1

def storedPath (fs : Filesystem Dev) (fullpath : List Char) : List Char :=
  if fs.ops.fullpath then fullpath else (dfsSubdir fs.path fullpath).getD ['/']

/-- What `dfs_file_unlink` returns, or the call that it makes of the file system's `unlink`. -/
inductive UnlinkOutcome
  | einval
  | enoent
  | ebusy
  | enosys
  | called (fs : ℕ) (path : List Char)
  deriving DecidableEq

def scanOpen (i : ℕ) (mountpath : List Char) : List DfsFd → Option Bool
  | [] => some false
  | fd :: rest =>
    if fd.fs ≠ some i then scanOpen i mountpath rest
    else fd.path.bind (fun path => if path = mountpath then some true else scanOpen i mountpath rest)

namespace Dfs

def fdIsOpen (s : Dfs Dev) (alloc : Bool) (pathname : List Char) : Option Bool :=
  match dfsNormalizePath alloc s.workingDirectory none pathname with
  | none => some false
  | some fullpath =>
    match s.filesystemTable.lookup fullpath with
    | none => some false
    | some (i, fs) => scanOpen i (pathBelow fs.path fullpath) s.fdTable

def dfsFileUnlink (s : Dfs Dev) (alloc allocAgain unlinkOp : Bool) (path : List Char) : Option UnlinkOutcome :=
  match dfsNormalizePath alloc s.workingDirectory none path with
  | none => some .einval
  | some fullpath =>
    match s.filesystemTable.lookup fullpath with
    | none => some .enoent
    | some (i, fs) =>
      (s.fdIsOpen allocAgain fullpath).map (fun isOpen =>
        if isOpen then .ebusy else if unlinkOp then .called i (storedPath fs fullpath) else .enosys)

end Dfs

/-- The mount table when a file was opened, and the absolute path that its name was normalised to. -/
structure Opening (Dev : Type) where
  table : FsTable Dev
  fullpath : List Char

/-- The descriptor has the file system and the path that `dfs_file_open` has given it. -/
def OpenedAs (d : DfsFd) (o : Opening Dev) : Prop :=
  ∃ workingDirectory answer fd name flags d' n, workingDirectory.head? = some '/' ∧ answer.dup = true ∧
    dfsFileOpen o.table workingDirectory answer fd name flags = (d', .ok n) ∧
    dfsNormalizePath answer.alloc workingDirectory none name = some o.fullpath ∧ d.fs = d'.fs ∧ d.path = d'.path

/-- The descriptor is not in use, or is open and its path still leads where it led when it was opened. -/
def Holds (table : FsTable Dev) (d : DfsFd) (o : Opening Dev) : Prop :=
  d.fs = none ∨ OpenedAs d o ∧ table.lookup o.fullpath = o.table.lookup o.fullpath

/-- `fd_is_open` answers whether a descriptor has been opened with the path, and `dfs_file_unlink` calls the file
system's `unlink` only if none has. -/
def Dfs.Protects (s : Dfs Dev) (openings : List (DfsFd × Opening Dev)) (path fullpath : List Char) : Prop :=
  (∃ b, s.fdIsOpen true path = some b ∧
    (b = true ↔ ∃ e ∈ openings, e.1.fs ≠ none ∧ e.2.fullpath = fullpath)) ∧
  ∀ unlinkOp i p, s.dfsFileUnlink true true unlinkOp path = some (.called i p) →
    ∀ e ∈ openings, e.1.fs ≠ none → e.2.fullpath ≠ fullpath

theorem normalised_of_lookup {workingDirectory : List Char} {i : ℕ}
    (hdirectory : workingDirectory.head? = some '/') (hpaths : ∀ i fs, table.Mounted i fs → Normalised fs.path)
    {filename : List Char} {alloc : Bool} (hpath : dfsNormalizePath alloc workingDirectory none filename = some path)
    (hfs : table.lookup path = some (i, fs)) : Normalised path := by
  obtain ⟨hmounted, rest, rfl⟩ := getElem?_of_lookup hfs
  obtain ⟨mount, hmount⟩ := head?_eq_some_iff.mp (hpaths i fs hmounted).head?
  exact (normalised_of_head? hdirectory hpath (by rw [hmount]; rfl)).1

theorem scanOpen_eq {i : ℕ} {fds : List DfsFd} (h : ∀ d ∈ fds, d.fs = some i → d.path ≠ none) :
    ∃ b, scanOpen i path fds = some b ∧ (b = true ↔ ∃ d ∈ fds, d.fs = some i ∧ d.path = some path) := by
  induction fds with
  | nil => exact ⟨false, rfl, by simp⟩
  | cons d fds ih =>
    obtain ⟨b, hb, hiff⟩ := ih (fun d hmem => h d (mem_cons_of_mem _ hmem))
    have hd := h d mem_cons_self
    by_cases hfs : d.fs = some i
    · obtain ⟨p, hp⟩ := Option.ne_none_iff_exists'.mp (hd hfs)
      by_cases hpath : p = path
      · exact ⟨true, by simp [scanOpen, hfs, hp, hpath], by simp [hfs, hp, hpath]⟩
      · exact ⟨b, by simp [scanOpen, hfs, hp, hpath, hb], by simp [hfs, hp, hpath, hiff]⟩
    · exact ⟨b, by simp [scanOpen, hfs, hb], by simp [hfs, hiff]⟩

theorem storedPath_eq (hpath : Normalised path) (hcovers : Covers fs.path path)
    (htype : fs.path = ['/'] ∨ fs.ops.fullpath = false) :
    storedPath fs path = if fs.path = path then ['/'] else pathBelow fs.path path := by
  unfold storedPath
  split_ifs with hfull heq heq
  · rcases htype with hroot | htype
    · rw [← heq, hroot]
    · rw [htype] at hfull
      cases hfull
  · rw [pathBelow, if_pos (htype.resolve_right (by simp [hfull]))]
  · rw [dfsSubdir, if_pos (by rw [heq])]
    rfl
  · rw [(dfsSubdir_eq hpath hcovers heq).1]
    rfl

theorem pathBelow_inj {path' : List Char} (hpath : mount <+: path) (hpath' : mount <+: path') :
    pathBelow mount path = pathBelow mount path' ↔ path = path' := by
  unfold pathBelow
  split_ifs
  · rfl
  · obtain ⟨rest, rfl⟩ := hpath
    obtain ⟨rest', rfl⟩ := hpath'
    simp

theorem storedPath_eq_pathBelow_iff {path' : List Char} (hpath : Normalised path)
    (hcovers : Covers fs.path path) (hpath' : Normalised path') (hcovers' : Covers fs.path path')
    (hfs : fs.path = ['/'] ∨ fs.ops.fullpath = false ∧ path ≠ fs.path) :
    storedPath fs path' = pathBelow fs.path path ↔ path' = path := by
  have hpre := hcovers.isPrefix hpath.head?
  rw [storedPath_eq hpath' hcovers' (hfs.imp_right And.left)]
  split_ifs with heq
  · subst heq
    by_cases hroot : fs.path = ['/']
    · rw [pathBelow, if_pos hroot, hroot]
    · obtain ⟨-, hne⟩ := hfs.resolve_left hroot
      refine iff_of_false (fun hslash => ?_) (Ne.symm hne)
      obtain ⟨rest, rfl⟩ := hpre
      rw [pathBelow, if_neg hroot, drop_left] at hslash
      subst hslash
      refine hpath.getLast?_ne ?_ (by simp)
      simp [ne_nil_of_mem (mem_of_mem_head? hpath'.head?)]
  · exact pathBelow_inj (hcovers'.isPrefix hpath'.head?) hpre

theorem storedPath_ne_pathBelow (hmount : fs.path ≠ []) (hbelow : fs.path <+: path) (hroot : fs.path ≠ ['/'])
    (hfs : ¬(fs.ops.fullpath = false ∧ path ≠ fs.path)) : storedPath fs path ≠ pathBelow fs.path path := by
  obtain ⟨rest, rfl⟩ := hbelow
  rw [pathBelow, if_neg hroot, drop_left, storedPath]
  split_ifs with hfull
  · intro heq
    exact hmount (by simpa using heq)
  · have hnil : rest = [] := by simpa [hfull] using hfs
    simp [hnil, dfsSubdir]

theorem OpenedAs.stored {d : DfsFd} {o : Opening Dev} (h : OpenedAs d o) : ∃ i fs,
    o.table.lookup o.fullpath = some (i, fs) ∧ fs.ops.openOp = true ∧ d.fs = some i ∧
      d.path = some (storedPath fs o.fullpath) := by
  obtain ⟨workingDirectory, answer, fd, name, flags, d', n, -, hdup, hopen, hpath, hfs, hd⟩ := h
  rw [dfsFileOpen, hpath] at hopen
  cases hl : o.table.lookup o.fullpath with
  | none => simp [hl] at hopen
  | some found =>
    obtain ⟨i, fs⟩ := found
    simp only [hl] at hopen
    by_cases hop : fs.ops.openOp = false
    · simp [hop] at hopen
    · have hkept : d'.fs = some i ∧ d'.path = some (storedPath fs o.fullpath) := by
        rw [if_neg hop] at hopen
        cases hio : answer.io.result with
        | error e => simp [hio] at hopen
        | ok m =>
          simp only [hio] at hopen
          unfold storedPath
          split_ifs at hopen ⊢ with hdir hfull hfull <;> cases hopen <;>
            simp [DfsFd.prepared, DfsFd.answered, *]
      exact ⟨i, fs, rfl, Bool.of_not_eq_false hop, hfs.trans hkept.1, hd.trans hkept.2⟩

theorem exists_openedAs {i : ℕ} {fullpath : List Char} (hpath : Normalised fullpath)
    (hl : table.lookup fullpath = some (i, fs)) (hop : fs.ops.openOp = true) :
    ∃ d, OpenedAs d ⟨table, fullpath⟩ := by
  obtain ⟨d, hd⟩ : ∃ d, dfsFileOpen table ['/'] ⟨true, true, agrees⟩ .cleared fullpath 0 = (d, .ok 0) := by
    rw [dfsFileOpen, hpath.dfsNormalizePath_eq]
    simp [hl, hop, agrees]
  exact ⟨d, ['/'], _, _, fullpath, 0, d, 0, rfl, rfl, hd, hpath.dfsNormalizePath_eq _ _, rfl, rfl⟩

section

variable {s : Dfs Dev} {fullpath : List Char} (hdirectory : s.workingDirectory.head? = some '/')
  (hpaths : ∀ i fs, s.filesystemTable.Mounted i fs → Normalised fs.path)

include hdirectory hpaths

theorem fdIsOpen_eq (hpath : dfsNormalizePath true s.workingDirectory none path = some fullpath)
    (hfs : ∀ i fs, s.filesystemTable.lookup fullpath = some (i, fs) → fs.ops.openOp = true →
      fs.path = ['/'] ∨ fs.ops.fullpath = false ∧ fullpath ≠ fs.path)
    {openings : List (DfsFd × Opening Dev)} (hopen : ∀ e ∈ openings, Holds s.filesystemTable e.1 e.2)
    (hfds : s.fdTable = openings.map Prod.fst) :
    ∃ b, s.fdIsOpen true path = some b ∧
    (b = true ↔ ∃ e ∈ openings, e.1.fs ≠ none ∧ e.2.fullpath = fullpath) := by
  have hstored : ∀ e ∈ openings, e.1.fs ≠ none →
    ∃ i fs, s.filesystemTable.lookup e.2.fullpath = some (i, fs) ∧
      fs.ops.openOp = true ∧ e.1.fs = some i ∧ e.1.path = some (storedPath fs e.2.fullpath) := by
    intro e hmem hne
    obtain ⟨hopened, hsame⟩ := (hopen e hmem).resolve_left hne
    rw [hsame]
    exact hopened.stored
  simp only [Dfs.fdIsOpen, hpath]
  cases hl : s.filesystemTable.lookup fullpath with
  | none =>
    refine ⟨false, rfl, iff_of_false nofun ?_⟩
    rintro ⟨e, hmem, hne, rfl⟩
    obtain ⟨i, fs, hl', -⟩ := hstored e hmem hne
    rw [hl] at hl'
    cases hl'
  | some found =>
    obtain ⟨i, fs⟩ := found
    have hnormal := normalised_of_lookup hdirectory hpaths hpath hl
    have hcovers := covers_of_lookup hpaths hnormal.head? hl
    -- a descriptor of this file system has been opened with the path that is stored in it
    have hfound : ∀ e ∈ openings, e.1.fs = some i → e.1.path = some (storedPath fs e.2.fullpath) ∧
        (storedPath fs e.2.fullpath = pathBelow fs.path fullpath ↔ e.2.fullpath = fullpath) := by
      intro e hmem hi
      have hne : e.1.fs ≠ none := by simp [hi]
      obtain ⟨j, fs', hl', hop, hj, hd⟩ := hstored e hmem hne
      cases hi.symm.trans hj
      cases (getElem?_of_lookup hl).1.symm.trans (getElem?_of_lookup hl').1
      obtain ⟨⟨workingDirectory, answer, -, name, -, -, -, hdir, -, -, hname, -⟩, -⟩ :=
        (hopen e hmem).resolve_left hne
      have hnormal' := normalised_of_lookup hdir hpaths hname hl'
      exact ⟨hd, storedPath_eq_pathBelow_iff hnormal hcovers hnormal' (covers_of_lookup hpaths hnormal'.head? hl')
        (hfs i fs hl hop)⟩
    rw [hfds]
    obtain ⟨b, hb, hiff⟩ := @scanOpen_eq (pathBelow fs.path fullpath) i (openings.map Prod.fst)
      (fun d hmem hdfs => by
      obtain ⟨e, he, rfl⟩ := mem_map.mp hmem
      simp [(hfound e he hdfs).1])
    refine ⟨b, hb, hiff.trans ⟨?_, ?_⟩⟩
    · rintro ⟨d, hmem, hdfs, hd⟩
      obtain ⟨e, he, rfl⟩ := mem_map.mp hmem
      obtain ⟨hd', heq⟩ := hfound e he hdfs
      exact ⟨e, he, by simp [hdfs], heq.mp (Option.some.inj (hd'.symm.trans hd))⟩
    · rintro ⟨e, hmem, hne, heq⟩
      obtain ⟨j, fs', hl', -, hj, -⟩ := hstored e hmem hne
      rw [heq, hl] at hl'
      cases hl'
      obtain ⟨hd, hiff'⟩ := hfound e hmem hj
      exact ⟨e.1, mem_map_of_mem hmem, hj, hd.trans (congrArg some (hiff'.mpr heq))⟩

theorem open_files_found_iff (hpath : dfsNormalizePath true s.workingDirectory none path = some fullpath) :
    (∀ openings : List (DfsFd × Opening Dev), (∀ e ∈ openings, Holds s.filesystemTable e.1 e.2) →
      Dfs.Protects { s with fdTable := openings.map Prod.fst } openings path fullpath) ↔
    ∀ i fs, s.filesystemTable.lookup fullpath = some (i, fs) → fs.ops.openOp = true →
      fs.path = ['/'] ∨ fs.ops.fullpath = false ∧ fullpath ≠ fs.path := by
  constructor
  · intro h i fs hl hop
    have hnormal := normalised_of_lookup hdirectory hpaths hpath hl
    obtain ⟨d, hopened⟩ := exists_openedAs hnormal hl hop
    obtain ⟨j, fs', hl', -, hj, hd⟩ := hopened.stored
    cases hl.symm.trans hl'
    obtain ⟨⟨b, hb, hiff⟩, -⟩ := h [(d, ⟨s.filesystemTable, fullpath⟩)]
      (by simpa using .inr ⟨hopened, rfl⟩)
    obtain rfl : b = true := hiff.mpr ⟨_, mem_singleton_self _, by simp [hj], rfl⟩
    -- the one descriptor is found, so what is stored in it is what is looked for
    have hfound : storedPath fs fullpath = pathBelow fs.path fullpath := by
      simpa [Dfs.fdIsOpen, hpath, hl, scanOpen, hj, hd] using hb
    by_contra hcond
    obtain ⟨hroot, hcond⟩ := not_or.mp hcond
    have hmount := ne_nil_of_mem (mem_of_mem_head? (hpaths i fs (getElem?_of_lookup hl).1).head?)
    have hbelow := (covers_of_lookup hpaths hnormal.head? hl).isPrefix hnormal.head?
    exact storedPath_ne_pathBelow hmount hbelow hroot hcond hfound
  · intro hfs openings hopen
    have hfound := fun path hpath => @fdIsOpen_eq Dev path { s with fdTable := openings.map Prod.fst } fullpath
      hdirectory hpaths hpath hfs openings hopen rfl
    refine ⟨hfound path hpath, fun unlinkOp i p hcalled e hmem hne heq => ?_⟩
    obtain ⟨hopened, hsame⟩ := (hopen e hmem).resolve_left hne
    obtain ⟨j, fs, hl, -⟩ := hopened.stored
    rw [← hsame, heq] at hl
    have hnormal := normalised_of_lookup hdirectory hpaths hpath hl
    obtain ⟨b, hb, hiff⟩ := hfound fullpath (hnormal.dfsNormalizePath_eq _ _)
    have htrue : b = true := hiff.mpr ⟨e, hmem, hne, heq⟩
    simp [Dfs.dfsFileUnlink, hpath, hl, hb, htrue] at hcalled

end

def oneOpen : Dfs Unit where
  operationTable := [some romOps]
  filesystemTable := [some ⟨none, ['/'], romOps, 0⟩, some ⟨none, ['/', 'b'], romOps, 1⟩]
  fdTable := []
  workingDirectory := ['/']
  openCount := fun _ => 0
  mounts := 2

/-- The file was opened before the second file system was mounted. -/
def beforeMount : Opening Unit := ⟨[some ⟨none, ['/'], romOps, 0⟩, none], ['/', 'a']⟩

theorem open_files_found_relative : ∃ d, OpenedAs d beforeMount ∧
    Dfs.fdIsOpen { oneOpen with fdTable := [d] } true ['b', '/', '.', '.', '/', 'a'] = some true := by
  have hmounted : ∀ i fs, oneOpen.filesystemTable.Mounted i fs → Normalised fs.path := by
    rintro (_ | _ | i) fs h <;> cases h
    · exact ⟨[], nofun, rfl⟩
    · exact ⟨[['b']], by simp [IsName], rfl⟩
  have hnormal : Normalised ['/', 'a'] := ⟨[['a']], by simp [IsName], rfl⟩
  obtain ⟨d, hopened⟩ : ∃ d, OpenedAs d beforeMount := exists_openedAs hnormal rfl rfl
  have hpath : dfsNormalizePath true ['/'] none ['b', '/', '.', '.', '/', 'a'] = some ['/', 'a'] := by decide
  have hspec := (open_files_found_iff (s := oneOpen) rfl hmounted hpath).mpr
    (fun i fs hl _ => by cases hl; exact .inl rfl)
  obtain ⟨⟨b, hb, hiff⟩, -⟩ := hspec [(d, beforeMount)] (by simpa using .inr ⟨hopened, rfl⟩)
  obtain ⟨i, fs, -, -, hi, -⟩ := hopened.stored
  refine ⟨d, hopened, hb.trans (congrArg some (hiff.mpr ⟨_, mem_singleton_self _, by simp [hi], rfl⟩))⟩

def twoMounted : FsTable Unit := [some ⟨none, ['/'], romOps, 0⟩, some ⟨none, ['/', 'a'], romOps, 1⟩]

theorem open_mount_point_unlinked : ∃ d,
    dfsFileOpen twoMounted ['/'] ⟨true, true, agrees⟩ .cleared ['/', 'a'] oDirectory = (d, .ok 0) ∧
    OpenedAs d ⟨twoMounted, ['/', 'a']⟩ ∧
    Dfs.fdIsOpen { oneOpen with filesystemTable := twoMounted, fdTable := [d] } true ['/', 'a'] = some false ∧
    Dfs.dfsFileUnlink { oneOpen with filesystemTable := twoMounted, fdTable := [d] } true true true ['/', 'a'] =
      some (.called 1 ['/']) :=
  ⟨_, rfl, ⟨['/'], ⟨true, true, agrees⟩, .cleared, ['/', 'a'], oDirectory, _, 0, rfl, rfl,
    rfl, by decide, rfl, rfl⟩,
    by decide, by decide⟩

end RtThread
