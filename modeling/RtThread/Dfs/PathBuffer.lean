import RtThread.Dfs.PathNames

/-!
`dfs_normalize_path` as it rewrites its string in place. An access outside of the allocated string has no result.
-/

namespace RtThread

def nul : Char := Char.ofNat 0

/-- The string under rewriting: `below` lies before `dst`, `gap` from there to `src`, and `ahead` from `src` to the end,
with the character that ends it. -/
structure PathBuffer where
  below : List Char
  gap : List Char
  ahead : List Char

inductive BufferTurn
  | next (b : PathBuffer)
  | done (b : PathBuffer)
  | null

namespace PathBuffer

def advance (b : PathBuffer) (n : ℕ) : PathBuffer := ⟨b.below, b.gap ++ b.ahead.take n, b.ahead.drop n⟩

def put (b : PathBuffer) (c : Char) : Option PathBuffer :=
  if b.gap = [] then none else some ⟨b.below ++ [c], b.gap.tail, b.ahead⟩

def skipFrom (below gap : List Char) : List Char → Option PathBuffer
  | [] => none
  | c :: ahead => if c = '/' then skipFrom below (gap ++ [c]) ahead else some ⟨below, gap, c :: ahead⟩

def skip (b : PathBuffer) : Option PathBuffer := skipFrom b.below b.gap b.ahead

def copyFrom (below gap : List Char) : List Char → Option (Char × PathBuffer)
  | [] => none
  | c :: ahead =>
    if c = nul ∨ c = '/' then some (c, ⟨below, gap ++ [c], ahead⟩)
    else copyFrom (below ++ [c]) (gap ++ [c]).tail ahead

def copied (b : PathBuffer) : Option BufferTurn :=
  (copyFrom b.below b.gap b.ahead).bind (fun (c, b) =>
    if c = '/' then ((b.put '/').bind skip).map .next else some (.done b))

def up (b : PathBuffer) : BufferTurn :=
  if b.below = [] then .null
  else
    let kept := b.below.dropLast.rdropWhile (· ≠ '/')
    .next ⟨kept, b.below.drop kept.length ++ b.gap, b.ahead⟩

def turn (b : PathBuffer) : Option BufferTurn :=
  match b.ahead with
  | [] => none
  | ['.'] => none
  | '.' :: c :: rest =>
    if c = nul then (b.advance 1).copied
    else if c = '/' then (b.advance 2).skip.map .next
    else if c = '.' then
      match rest with
      | [] => none
      | c :: _ =>
        if c = nul then some (b.advance 2).up
        else if c = '/' then (b.advance 3).skip.map up
        else b.copied
    else b.copied
  | _ => b.copied

def finish (b : PathBuffer) : Option (List Char) :=
  if b.gap ++ b.ahead = [] ∨ b.below = [] then none else some (trimSlash b.below)

def loop : ℕ → PathBuffer → Option (Option (List Char))
  | 0, _ => none
  | fuel + 1, b => b.turn.bind (fun
    | .next b => loop fuel b
    | .done b => b.finish.map some
    | .null => some none)

end PathBuffer

def normalizeInPlace (alloc : Bool) (workingDirectory : List Char) (directory : Option (List Char))
    (filename : List Char) : Option (Option (List Char)) :=
  if alloc then
    let fullpath := fullPath (directory.getD workingDirectory) filename
    PathBuffer.loop (fullpath.length + 1) ⟨[], [], fullpath ++ [nul]⟩
  else some none

inductive BufferTurn.Agrees : NormalizeTurn → BufferTurn → Prop
  | next {dst src : List Char} (gap : List Char) : Agrees (.next dst src) (.next ⟨dst, gap, src ++ [nul]⟩)
  | done {dst gap : List Char} (ahead : List Char) (h : gap ≠ []) : Agrees (.done dst) (.done ⟨dst, gap, ahead⟩)
  | null : Agrees .null .null

namespace PathBuffer

variable {dst gap src : List Char}

theorem skip_eq (dst gap src : List Char) :
    ∃ gap', skip ⟨dst, gap, src ++ [nul]⟩ = some ⟨dst, gap', skipSlashes src ++ [nul]⟩ := by
  induction src generalizing gap with
  | nil => exact ⟨gap, rfl⟩
  | cons c src ih =>
    simp only [skip, List.cons_append, skipFrom, skipSlashes, List.dropWhile_cons, decide_eq_true_eq] at ih ⊢
    split_ifs
    · exact ih _
    · exact ⟨gap, rfl⟩

theorem copied_agrees (hsrc : nul ∉ src) :
    ∃ t, copied ⟨dst, gap, src ++ [nul]⟩ = some t ∧ BufferTurn.Agrees (copyName dst src) t := by
  induction src generalizing dst gap with
  | nil => exact ⟨_, rfl, by simpa [copyName] using .done [] (by simp)⟩
  | cons c src ih =>
    by_cases hc : c = '/'
    · subst hc
      obtain ⟨gap', hskip⟩ := skip_eq (dst ++ ['/']) (gap ++ ['/']).tail src
      have hname : copyName dst ('/' :: src) = .next (dst ++ ['/']) (skipSlashes src) := by
        simp [copyName]
      refine ⟨_, ?_, hname ▸ BufferTurn.Agrees.next gap'⟩
      simp [copied, copyFrom, put, hskip]
    · have hnul : c ≠ nul := fun h => hsrc (by simp [h])
      have hname : copyName dst (c :: src) = copyName (dst ++ [c]) src := by
        simp [copyName, hc]
      obtain ⟨t, ht, hagrees⟩ := @ih (dst ++ [c]) (gap ++ [c]).tail (fun h => hsrc (List.mem_cons_of_mem c h))
      refine ⟨t, ?_, hname ▸ hagrees⟩
      rw [← ht]
      simp [copied, copyFrom, hc, hnul]

theorem turn_agrees (hsrc : nul ∉ src) :
    ∃ t, turn ⟨dst, gap, src ++ [nul]⟩ = some t ∧ BufferTurn.Agrees (normalizeTurn dst src) t := by
  have hup : ∀ gap' src', BufferTurn.Agrees (upOne dst src') (up ⟨dst, gap', src' ++ [nul]⟩) := by
    intro gap' src'
    unfold upOne up
    split_ifs
    · exact .null
    · exact .next _
  unfold normalizeTurn
  split
  · exact ⟨_, rfl, .done [] (by simp)⟩
  · rename_i rest
    obtain ⟨gap', hskip⟩ := skip_eq dst (gap ++ ['.', '/']) rest
    exact ⟨_, congrArg (Option.map BufferTurn.next) hskip, .next gap'⟩
  · exact ⟨_, rfl, hup (gap ++ ['.', '.']) []⟩
  · rename_i rest
    obtain ⟨gap', hskip⟩ := skip_eq dst (gap ++ ['.', '.', '/']) rest
    exact ⟨_, congrArg (Option.map up) hskip, hup gap' _⟩
  · rename_i hdot hslash hdots hback
    have hnul : nul ≠ '.' := by decide
    have hturn : turn ⟨dst, gap, src ++ [nul]⟩ = copied ⟨dst, gap, src ++ [nul]⟩ := by
      rcases src with _ | ⟨c, _ | ⟨c₁, _ | ⟨c₂, rest⟩⟩⟩
      · grind [turn]
      · grind [turn]
      · have hslash' := hslash []
        grind [turn]
      · have hslash' := hslash (c₂ :: rest)
        have hback' := hback rest
        grind [turn]
    rw [hturn]
    exact copied_agrees hsrc

def returned : Option (List Char) → Option (Option (List Char))
  | some [] => none
  | path => some path

theorem trimSlash_eq_nil_iff (path : List Char) : trimSlash path = [] ↔ path = [] := by
  unfold trimSlash
  rcases path with _ | ⟨a, _ | ⟨b, path⟩⟩
  · simp
  · simp
  · split_ifs <;> simp

theorem loop_eq {fuel : ℕ} (hsrc : nul ∉ src) (hfuel : src.length < fuel) :
    loop fuel ⟨dst, gap, src ++ [nul]⟩ = returned ((normalizeLoop fuel dst src).map trimSlash) := by
  induction fuel generalizing dst gap src with
  | zero => exact absurd hfuel (Nat.not_lt_zero _)
  | succ fuel ih =>
    obtain ⟨t, hturn, hagrees⟩ := @turn_agrees dst gap src hsrc
    rw [loop, normalizeLoop, hturn, Option.bind_some]
    cases hnext : normalizeTurn dst src with
    | next dst' src' =>
      obtain ⟨read, hne, rfl⟩ := normalizeTurn_reads hnext
      have hlt := normalizeTurn_lt hnext
      rw [hnext] at hagrees
      cases hagrees
      exact ih (fun h => hsrc (List.mem_append_right read h)) (by omega)
    | done dst' =>
      rw [hnext] at hagrees
      cases hagrees with
      | @done _ gap ahead hgap =>
        have hnil := trimSlash_eq_nil_iff dst'
        by_cases hdst : dst' = []
        · simp [finish, hdst, trimSlash, returned]
        · have hne := mt hnil.mp hdst
          simp only [finish, List.append_eq_nil_iff, hgap, hdst, false_and, or_self, if_false, Option.map_some]
          unfold returned
          split
          · rename_i heq
            exact absurd (Option.some.inj heq) hne
          · rfl
    | null =>
      rw [hnext] at hagrees
      cases hagrees
      rfl

end PathBuffer

open PathBuffer

theorem normalizeInPlace_eq {workingDirectory filename : List Char} {directory : Option (List Char)}
    (hpath : nul ∉ fullPath (directory.getD workingDirectory) filename) :
    normalizeInPlace true workingDirectory directory filename =
      returned (dfsNormalizePath true workingDirectory directory filename) :=
  loop_eq hpath (Nat.lt_succ_self _)

theorem normalize_inside_iff {workingDirectory filename : List Char} {directory : Option (List Char)} (alloc : Bool)
    (hdirectory : (directory.getD workingDirectory).head? = some '/') (hnul : nul ∉ directory.getD workingDirectory)
    (hfilename : nul ∉ filename) :
    (∃ result, normalizeInPlace alloc workingDirectory directory filename = some result ∧
        ∀ path ∈ result, path.head? = some '/') ↔
      alloc = true → (resolve (components (fullPath (directory.getD workingDirectory) filename))).1 ≠ 1 := by
  cases alloc with
  | false => simp [normalizeInPlace]
  | true =>
    have hfull : nul ∉ fullPath (directory.getD workingDirectory) filename := by
      unfold fullPath
      split_ifs
      · have hslash : nul ≠ '/' := by decide
        simp [hnul, hfilename, hslash]
      · exact hfilename
    have hnames := isName_of_mem_resolve (fullPath (directory.getD workingDirectory) filename)
    rw [normalizeInPlace_eq hfull, dfsNormalizePath_eq (head?_fullPath (.inr hdirectory))]
    generalize resolve (components (fullPath (directory.getD workingDirectory) filename)) = place at hnames ⊢
    obtain ⟨_ | _ | above, names⟩ := place
    · simp [finished, returned, rooted]
    · have hhead := head?_joined_ne hnames
      cases hpath : joined names with
      | nil => simp [finished, returned, hpath]
      | cons c rest => simpa [finished, returned, hpath] using hhead
    · simp [finished, returned]

theorem normalize_inside_iff_twice : ∃ result,
    normalizeInPlace true ['/', 'a'] none ['.', '.', '/', '.', '.', '/', '.', '.'] = some result ∧
      ∀ path ∈ result, path.head? = some '/' :=
  (@normalize_inside_iff ['/', 'a'] ['.', '.', '/', '.', '.', '/', '.', '.'] none true rfl (by decide)
    (by decide)).mpr (fun _ => by decide)

theorem normalize_above_root : normalizeInPlace true ['/'] none ['/', '.', '.'] = none ∧
    normalizeInPlace true ['/'] none ['/', '.', '.', '/', 'a'] = some (some ['a']) := by
  decide

end RtThread
