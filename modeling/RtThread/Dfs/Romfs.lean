import Mathlib.Data.List.Nodup
import RtThread.Dfs.PathNames

/-! The lookup of `dfs_romfs.c`. -/

namespace RtThread

open List

inductive RomfsDirent
  | mk (type : BitVec 32) (name : List Char) (data : Option (List RomfsDirent)) (size : BitVec 32)

def romfsDirentFile : BitVec 32 := 0

def romfsDirentDir : BitVec 32 := 1

inductive RomfsResult
  | entry (dirent : RomfsDirent) (size : BitVec 32)
  | null
  | outside

namespace RomfsDirent

def type : RomfsDirent → BitVec 32
  | mk type _ _ _ => type

def name : RomfsDirent → List Char
  | mk _ name _ _ => name

def data : RomfsDirent → Option (List RomfsDirent)
  | mk _ _ data _ => data

def size : RomfsDirent → BitVec 32
  | mk _ _ _ size => size

def checkDirent (dirent : RomfsDirent) : Bool :=
  (dirent.type = romfsDirentFile ∨ dirent.type = romfsDirentDir) ∧ dirent.size ≠ ~~~0

end RomfsDirent

def nextSubpath (path : List Char) : List Char × List Char :=
  ((skipSlashes path).takeWhile (· ≠ '/'), (skipSlashes path).dropWhile (· ≠ '/'))

def searchFolder (subpath : List Char) : ℕ → List RomfsDirent → Except RomfsResult RomfsDirent
  | 0, _ => .error .null
  | _ + 1, [] => .error .outside
  | n + 1, dirent :: dirents =>
    if dirent.checkDirent = false then .error .null
    else if dirent.name.length = subpath.length ∧ dirent.name.take subpath.length = subpath then .ok dirent
    else searchFolder subpath n dirents

def romfsWalk : ℕ → Option (List RomfsDirent) → BitVec 32 → List Char × List Char → RomfsResult
  | 0, _, _, _ => .null
  | _ + 1, none, _, _ => .null
  | fuel + 1, some dirents, size, (subpath, rest) =>
    match searchFolder subpath size.toNat dirents with
    | .error result => result
    | .ok dirent =>
      if (nextSubpath rest).1 = [] then .entry dirent dirent.size
      else if dirent.type = romfsDirentDir then romfsWalk fuel dirent.data dirent.size (nextSubpath rest)
      else .null

def dfsRomfsLookup (root : RomfsDirent) (path : List Char) : RomfsResult :=
  if root.checkDirent = false then .null
  else if path = ['/'] then .entry root root.size
  -- every turn reads at least one character
  else romfsWalk path.length root.data root.size (nextSubpath path)

namespace RomfsDirent

def entries (dirent : RomfsDirent) : List RomfsDirent := dirent.data.getD []

inductive Tree : RomfsDirent → Prop
  | file {dirent : RomfsDirent} (htype : dirent.type = romfsDirentFile) (hsize : dirent.size ≠ ~~~0) : Tree dirent
  | dir {dirent : RomfsDirent} (htype : dirent.type = romfsDirentDir) (hsize : dirent.size ≠ ~~~0)
      (hlen : dirent.size.toNat = dirent.entries.length) (hnames : (dirent.entries.map name).Nodup)
      (hentries : ∀ e ∈ dirent.entries, Tree e) : Tree dirent

def Reaches (dirent : RomfsDirent) : List (List Char) → RomfsDirent → Prop
  | [], e => e = dirent
  | name :: names, e => dirent.type = romfsDirentDir ∧ ∃ e' ∈ dirent.entries, e'.name = name ∧
      e'.Reaches names e

variable {dirent e e' : RomfsDirent} {names : List (List Char)} {subpath : List Char}

variable (h : dirent.Tree)

include h

theorem Tree.checkDirent : dirent.checkDirent = true := by
  cases h with
  | file htype hsize => exact decide_eq_true ⟨.inl htype, hsize⟩
  | dir htype hsize => exact decide_eq_true ⟨.inr htype, hsize⟩

theorem Tree.unique (he : e ∈ dirent.entries) (he' : e' ∈ dirent.entries) (hname : e.name = e'.name)
    (htype : dirent.type = romfsDirentDir) : e = e' ∧ e.Tree := by
  cases h with
  | file hfile => exact absurd (hfile.symm.trans htype) (by decide)
  | dir _ _ _ hnames hentries => exact ⟨inj_on_of_nodup_map hnames he he' hname, hentries e he⟩

theorem Reaches.unique (he : dirent.Reaches names e) (he' : dirent.Reaches names e') : e = e' := by
  induction names generalizing dirent with
  | nil => exact he.trans he'.symm
  | cons name names ih =>
    obtain ⟨htype, e₁, hmem, rfl, hrest⟩ := he
    obtain ⟨-, e₂, hmem', hname, hrest'⟩ := he'
    obtain ⟨rfl, htree⟩ := h.unique hmem hmem' hname.symm htype
    exact ih htree hrest hrest'

end RomfsDirent

open RomfsDirent

variable {dirent : RomfsDirent} {names : List (List Char)} {subpath : List Char}

theorem searchFolder_spec {dirents : List RomfsDirent} (h : ∀ e ∈ dirents, e.checkDirent = true) :
    (∃ e ∈ dirents, e.name = subpath ∧ searchFolder subpath dirents.length dirents = .ok e) ∨
      searchFolder subpath dirents.length dirents = .error .null ∧ ∀ e ∈ dirents, e.name ≠ subpath := by
  induction dirents with
  | nil => exact .inr ⟨rfl, nofun⟩
  | cons e dirents ih =>
    have hname : (e.name.length = subpath.length ∧ e.name.take subpath.length = subpath) ↔ e.name = subpath := by
      constructor
      · rintro ⟨hlen, htake⟩
        rwa [← hlen, take_length] at htake
      · rintro rfl
        exact ⟨rfl, take_length⟩
    rw [length_cons, searchFolder, if_neg (by simp [h e mem_cons_self])]
    by_cases he : e.name = subpath
    · exact .inl ⟨e, mem_cons_self, he, if_pos (hname.mpr he)⟩
    · rw [if_neg (mt hname.mp he)]
      apply (ih (fun e' he' => h e' (mem_cons_of_mem _ he'))).imp
      · rintro ⟨e', hmem, hfound⟩
        exact ⟨e', mem_cons_of_mem _ hmem, hfound⟩
      · rintro ⟨hnull, hall⟩
        exact ⟨hnull, forall_mem_cons.mpr ⟨he, hall⟩⟩

theorem length_le_slashed (names : List (List Char)) : names.length ≤ (slashed names).length := by
  induction names with
  | nil => exact le_rfl
  | cons name names ih =>
    simp only [slashed, flatMap_cons, length_append, length_cons] at ih ⊢
    omega

theorem nextSubpath_slashed {name : List Char} (hname : IsName name) (names : List (List Char)) :
    nextSubpath (slashed (name :: names)) = (name, slashed names) := by
  obtain ⟨hne, -, -, hslash⟩ := hname
  have hskip : skipSlashes (slashed (name :: names)) = name ++ slashed names := by
    obtain ⟨c, rest, rfl⟩ := exists_cons_of_ne_nil hne
    have hc : c ≠ '/' := fun heq => hslash (by simp [heq])
    simp [slashed, skipSlashes, hc]
  have htail : (slashed names).takeWhile (· ≠ '/') = [] ∧
    (slashed names).dropWhile (· ≠ '/') = slashed names := by
    cases names <;> simp [slashed]
  rw [nextSubpath, hskip, takeWhile_append_of_pos (by grind), dropWhile_append_of_pos (by grind), htail.1,
    htail.2, append_nil]

theorem romfsWalk_spec {fuel : ℕ} (htree : dirent.Tree) (htype : dirent.type = romfsDirentDir)
    (hnames : ∀ name ∈ names, IsName name) (hfuel : names.length < fuel) :
    (∃ e, dirent.Reaches (subpath :: names) e ∧
        romfsWalk fuel dirent.data dirent.size (subpath, slashed names) = .entry e e.size) ∨
      romfsWalk fuel dirent.data dirent.size (subpath, slashed names) = .null ∧
        ∀ e, ¬ dirent.Reaches (subpath :: names) e := by
  induction fuel generalizing dirent subpath names with
  | zero => exact absurd hfuel (Nat.not_lt_zero _)
  | succ fuel ih =>
    cases htree with
    | file hfile => exact absurd (hfile.symm.trans htype) (by decide)
    | dir _ hsize hlen hdistinct hentries =>
      have htree := Tree.dir htype hsize hlen hdistinct hentries
      unfold RomfsDirent.entries at hlen hentries
      cases hdata : dirent.data with
      | none =>
        refine .inr ⟨rfl, ?_⟩
        rintro e ⟨-, e', hmem, -⟩
        simp [RomfsDirent.entries, hdata] at hmem
      | some dirents =>
        have hmem_iff : ∀ e, e ∈ dirent.entries ↔ e ∈ dirents := by simp [RomfsDirent.entries, hdata]
        rw [hdata, Option.getD_some] at hlen hentries
        rw [romfsWalk, hlen]
        have hsearch := @searchFolder_spec subpath dirents (fun e he => (hentries e he).checkDirent)
        rcases hsearch with ⟨e, hmem, rfl, hfound⟩ | ⟨hnull, hall⟩
        · rw [hfound]
          have hbelow : ∀ e', dirent.Reaches (e.name :: names) e' ↔ e.Reaches names e' := by
            intro e'
            constructor
            · rintro ⟨-, e₁, hmem', hname, hrest⟩
              rwa [(htree.unique ((hmem_iff e).mpr hmem) hmem' hname.symm htype).1]
            · intro hrest
              exact ⟨htype, e, (hmem_iff e).mpr hmem, rfl, hrest⟩
          simp only [hbelow]
          cases names with
          | nil => exact .inl ⟨e, rfl, rfl⟩
          | cons name names =>
            have hname := hnames name mem_cons_self
            rw [nextSubpath_slashed hname, if_neg hname.1]
            by_cases hdir : e.type = romfsDirentDir
            · rw [if_pos hdir]
              exact ih (hentries e hmem) hdir (fun n hn => hnames n (mem_cons_of_mem _ hn))
                (Nat.lt_of_succ_lt_succ hfuel)
            · rw [if_neg hdir]
              exact .inr ⟨rfl, fun e' he' => hdir he'.1⟩
        · rw [hnull]
          refine .inr ⟨rfl, ?_⟩
          rintro e ⟨-, e', hmem, hname, -⟩
          exact hall e' ((hmem_iff e').mp hmem) hname

theorem romfs_lookup_resolves {root : RomfsDirent} (htree : root.Tree) (hroot : root.type = romfsDirentDir)
    {path : List Char} (hpath : Normalised path) :
    (∀ e size, dfsRomfsLookup root path = .entry e size ↔ root.Reaches (components path) e ∧ size = e.size) ∧
      (dfsRomfsLookup root path = .null ↔ ∀ e, ¬ root.Reaches (components path) e) := by
  obtain ⟨names, hnames, rfl⟩ := hpath
  rw [components_rooted hnames]
  have hspec : (∃ e, root.Reaches names e ∧ dfsRomfsLookup root (rooted names) = .entry e e.size) ∨
      dfsRomfsLookup root (rooted names) = .null ∧ ∀ e, ¬ root.Reaches names e := by
    unfold dfsRomfsLookup
    rw [if_neg (by simp [htree.checkDirent])]
    cases names with
    | nil => exact .inl ⟨root, rfl, rfl⟩
    | cons name names =>
      have hname := hnames name mem_cons_self
      have hslashed : rooted (name :: names) = slashed (name :: names) := rooted_eq_slashed (by simp)
      have hlen : names.length < (slashed (name :: names)).length := by
        have hle := length_le_slashed names
        simp only [slashed, flatMap_cons, length_append, length_cons] at hle ⊢
        omega
      have hroot' : slashed (name :: names) ≠ ['/'] := by
        simpa [slashed] using fun h => absurd h hname.1
      rw [hslashed, if_neg hroot', nextSubpath_slashed hname]
      exact romfsWalk_spec htree hroot (fun n hn => hnames n (mem_cons_of_mem _ hn)) hlen
  rcases hspec with ⟨e, he, hlookup⟩ | ⟨hnull, hnone⟩
  · rw [hlookup]
    constructor
    · intro e' size
      constructor
      · intro h
        cases h
        exact ⟨he, rfl⟩
      · rintro ⟨he', rfl⟩
        rw [he.unique htree he']
    · exact iff_of_false (by simp) (fun h => h e he)
  · rw [hnull]
    constructor
    · intro e size
      exact iff_of_false (by simp) (fun h => hnone e h.1)
    · exact iff_of_true rfl hnone

def romFile (c : Char) : RomfsDirent := .mk romfsDirentFile [c] none 5

def romFolder : RomfsDirent := .mk romfsDirentDir ['d'] (some [romFile 'a', romFile 'b']) 2

def romRoot : RomfsDirent := .mk romfsDirentDir ['/'] (some [romFile 'r', romFolder]) 2

theorem romfs_lookup_resolves_nested : dfsRomfsLookup romRoot (rooted [['d'], ['b']]) = .entry (romFile 'b') 5 := by
  have hfile (c : Char) : (romFile c).Tree := .file rfl (show (5 : BitVec 32) ≠ ~~~0 by decide)
  have hfolder : romFolder.Tree :=
    .dir rfl (by decide) rfl (by simp [romFolder, romFile, entries, data, name])
      (by simp [romFolder, entries, data, hfile])
  have hroot : romRoot.Tree :=
    .dir rfl (by decide) rfl (by simp [romRoot, romFolder, romFile, entries, data, name])
      (by simp [romRoot, entries, data, hfile, hfolder])
  have hpath : Normalised (rooted [['d'], ['b']]) := ⟨[['d'], ['b']], by simp [IsName], rfl⟩
  refine ((romfs_lookup_resolves hroot rfl hpath).1 (romFile 'b') 5).mpr ⟨?_, rfl⟩
  rw [show components (rooted [['d'], ['b']]) = [['d'], ['b']] by decide]
  exact ⟨rfl, romFolder, mem_cons_of_mem _ mem_cons_self, rfl, rfl, romFile 'b',
    mem_cons_of_mem _ mem_cons_self, rfl, rfl⟩

end RtThread
