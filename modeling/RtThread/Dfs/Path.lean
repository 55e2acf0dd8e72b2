import Mathlib.Data.List.DropRight

/-! Path names, as `dfs_normalize_path` and `dfs_subdir` of `dfs.c` make them. -/

namespace RtThread

open List

inductive NormalizeTurn
  | next (dst src : List Char)
  | done (dst : List Char)
  | null
  deriving DecidableEq

def skipSlashes (src : List Char) : List Char := src.dropWhile (· = '/')

def upOne (dst src : List Char) : NormalizeTurn :=
  if dst = [] then .null else .next (dst.dropLast.rdropWhile (· ≠ '/')) src

def copyName (dst src : List Char) : NormalizeTurn :=
  let dst := dst ++ src.takeWhile (· ≠ '/')
  match src.dropWhile (· ≠ '/') with
  | [] => .done dst
  | _ :: rest => .next (dst ++ ['/']) (skipSlashes rest)

/-- `dst` is what has been written, `src` what is left to read. They share one string, but the reading is never behind
the writing. -/
def normalizeTurn (dst : List Char) : List Char → NormalizeTurn
  | ['.'] => .done dst
  | '.' :: '/' :: rest => .next dst (skipSlashes rest)
  | ['.', '.'] => upOne dst []
  | '.' :: '.' :: '/' :: rest => upOne dst (skipSlashes rest)
  | src => copyName dst src

def normalizeLoop : ℕ → List Char → List Char → Option (List Char)
  | 0, _, _ => none
  | fuel + 1, dst, src =>
    match normalizeTurn dst src with
    | .next dst src => normalizeLoop fuel dst src
    | .done dst => some dst
    | .null => none

def trimSlash (path : List Char) : List Char :=
  if 1 < path.length ∧ path.getLast? = some '/' then path.dropLast else path

def dfsNormalizePath (alloc : Bool) (workingDirectory : List Char) (directory : Option (List Char))
    (filename : List Char) : Option (List Char) :=
  if alloc then
    let fullpath :=
      if filename.head? ≠ some '/' then directory.getD workingDirectory ++ '/' :: filename else filename
    -- every turn reads at least one character
    (normalizeLoop (fullpath.length + 1) [] fullpath).map trimSlash
  else none

def dfsSubdir (directory filename : List Char) : Option (List Char) :=
  if directory.length = filename.length then none
  else
    let dir := directory.length
    if filename[dir]? ≠ some '/' ∧ dir ≠ 0 then some (filename.drop (dir - 1)) else some (filename.drop dir)

theorem length_skipSlashes_le (src : List Char) : (skipSlashes src).length ≤ src.length :=
  (dropWhile_suffix _).length_le

section

variable {dst src dst' src' : List Char} (h : normalizeTurn dst src = .next dst' src')

include h

theorem normalizeTurn_reads : ∃ read ≠ [], read ++ src' = src := by
  have hup : ∀ src'', upOne dst src'' = .next dst' src' → src' = src'' := by
    intro src'' h
    unfold upOne at h
    split_ifs at h
    cases h
    rfl
  have hskip : ∀ rest, ∃ read, read ++ skipSlashes rest = rest := fun _ => dropWhile_suffix _
  unfold normalizeTurn at h
  split at h
  · cases h
  · rename_i rest
    cases h
    obtain ⟨read, hread⟩ := hskip rest
    exact ⟨'.' :: '/' :: read, by simp, by simp [hread]⟩
  · rw [hup _ h]
    exact ⟨['.', '.'], by simp, rfl⟩
  · rename_i rest
    rw [hup _ h]
    obtain ⟨read, hread⟩ := hskip rest
    exact ⟨'.' :: '.' :: '/' :: read, by simp, by simp [hread]⟩
  · unfold copyName at h
    split at h
    · cases h
    · rename_i c rest heq
      cases h
      obtain ⟨read, hread⟩ := hskip rest
      refine ⟨src.takeWhile (· ≠ '/') ++ c :: read, by simp, ?_⟩
      rw [List.append_assoc, List.cons_append, hread, ← heq]
      exact takeWhile_append_dropWhile

theorem normalizeTurn_lt : src'.length < src.length := by
  obtain ⟨read, hne, rfl⟩ := normalizeTurn_reads h
  have hpos := length_pos_iff.mpr hne
  rw [length_append]
  omega

end

end RtThread
