import RtThread.Dfs.Path

namespace RtThread

open List

def components (path : List Char) : List (List Char) :=
  (path.splitOn '/').filter (fun name => name ≠ [] ∧ name ≠ ['.'])

/-- Follows one name: `above` counts the steps from the root to above it, which lead nowhere. -/
def follow (place : ℕ × List (List Char)) (name : List Char) : ℕ × List (List Char) :=
  let (above, names) := place
  if name ≠ ['.', '.'] then (above, names ++ [name])
  else if names = [] then (above + 1, [])
  else (above, names.dropLast)

def resolve (names : List (List Char)) : ℕ × List (List Char) := names.foldl follow (0, [])

def joined (names : List (List Char)) : List Char := ['/'].intercalate names

def rooted (names : List (List Char)) : List Char := '/' :: joined names

def slashed (names : List (List Char)) : List Char := names.flatMap ('/' :: ·)

def IsName (name : List Char) : Prop := name ≠ [] ∧ name ≠ ['.'] ∧ name ≠ ['.', '.'] ∧ '/' ∉ name

def Normalised (path : List Char) : Prop := ∃ names, (∀ name ∈ names, IsName name) ∧ path = rooted names

def fullPath (directory filename : List Char) : List Char :=
  if filename.head? ≠ some '/' then directory ++ '/' :: filename else filename

variable {name rest : List Char}

theorem components_append_slash (a b : List Char) : components (a ++ '/' :: b) = components a ++ components b := by
  unfold components
  rw [← filter_append]
  exact congrArg _ (splitOnP_append_cons a b rfl)

theorem components_skipSlashes (path : List Char) : components (skipSlashes path) = components path := by
  induction path with
  | nil => rfl
  | cons c path ih =>
    unfold skipSlashes at ih ⊢
    by_cases hc : c = '/'
    · subst hc
      rw [dropWhile_cons_of_pos (by simp), ih]
      exact (components_append_slash [] path).symm
    · rw [dropWhile_cons_of_neg (by simpa using hc)]

theorem components_of_not_mem (h : '/' ∉ name) :
    components name = if name ≠ [] ∧ name ≠ ['.'] then [name] else [] := by
  have hsplit : (['/'].intercalate [name]).splitOn '/' = [name] :=
    splitOn_intercalate '/' (by simpa using h) (by simp)
  have hone : ['/'].intercalate [name] = name := by simp [intercalate]
  rw [hone] at hsplit
  rw [components, hsplit]
  simp [filter_cons]

theorem joined_append_singleton (names : List (List Char)) (name : List Char) :
    joined (names ++ [name]) = names.flatMap (· ++ ['/']) ++ name := by
  induction names with
  | nil => simp [joined, intercalate]
  | cons first names ih =>
    have hne : names ++ [name] ≠ [] := by simp
    obtain ⟨second, others, heq⟩ := exists_cons_of_ne_nil hne
    rw [joined, heq] at ih
    rw [joined, cons_append, heq, flatMap_cons, append_assoc, ← ih]
    simp [intercalate, intersperse]

def written (above : ℕ) (names : List (List Char)) : List Char :=
  (if above = 0 then ['/'] else []) ++ names.flatMap (· ++ ['/'])

def finished : ℕ × List (List Char) → Option (List Char)
  | (0, names) => some (rooted names)
  | (1, names) => some (joined names)
  | _ => none

theorem normalizeTurn_of_ne {src : List Char} (dst : List Char) (hdot : src.takeWhile (· ≠ '/') ≠ ['.'])
    (hdots : src.takeWhile (· ≠ '/') ≠ ['.', '.']) : normalizeTurn dst src = copyName dst src := by
  unfold normalizeTurn
  split
  · exact absurd rfl hdot
  · exact absurd rfl hdot
  · exact absurd rfl hdots
  · exact absurd rfl hdots
  · rfl

theorem normalizeTurn_slash (dst : List Char) (h : '/' ∉ name) :
    normalizeTurn dst (name ++ '/' :: rest) =
      if name = ['.'] then .next dst (skipSlashes rest)
      else if name = ['.', '.'] then upOne dst (skipSlashes rest)
      else .next (dst ++ name ++ ['/']) (skipSlashes rest) := by
  have htake : (name ++ '/' :: rest).takeWhile (· ≠ '/') = name := by
    rw [takeWhile_append_of_pos (by grind)]
    simp
  have hdrop : (name ++ '/' :: rest).dropWhile (· ≠ '/') = '/' :: rest := by
    rw [dropWhile_append_of_pos (by grind)]
    simp
  split_ifs with hdot hdots
  · rw [hdot]
    rfl
  · rw [hdots]
    rfl
  · rw [normalizeTurn_of_ne dst (by rwa [htake]) (by rwa [htake]), copyName, htake, hdrop]

theorem normalizeTurn_last (dst : List Char) (h : '/' ∉ name) :
    normalizeTurn dst name =
      if name = ['.'] then .done dst else if name = ['.', '.'] then upOne dst [] else .done (dst ++ name) := by
  have htake : name.takeWhile (· ≠ '/') = name := takeWhile_eq_self_iff.mpr (by grind)
  have hdrop : name.dropWhile (· ≠ '/') = [] := dropWhile_eq_nil_iff.mpr (by grind)
  split_ifs with hdot hdots
  · rw [hdot]
    rfl
  · rw [hdots]
    rfl
  · rw [normalizeTurn_of_ne dst (by rwa [htake]) (by rwa [htake]), copyName, htake, hdrop]

theorem written_append (above : ℕ) (names : List (List Char)) (name : List Char) :
    written above (names ++ [name]) = written above names ++ name ++ ['/'] := by
  simp [written]

theorem written_cases (above : ℕ) (names : List (List Char)) :
    written above names = [] ∨ (written above names).getLast? = some '/' := by
  rcases eq_nil_or_concat' names with rfl | ⟨names, name, rfl⟩
  · by_cases h : above = 0 <;> simp [written, h]
  · simp [written_append]

variable {names : List (List Char)}

theorem upOne_written {above : ℕ} (hnames : ∀ name ∈ names, '/' ∉ name) (h : above ≤ 1) (src : List Char) :
    upOne (written above names) src =
      let (above', names') := follow (above, names) ['.', '.']
      if above' ≤ 1 then .next (written above' names') src else .null := by
  rcases eq_nil_or_concat' names with rfl | ⟨names, name, rfl⟩
  · rcases Nat.le_one_iff_eq_zero_or_eq_one.mp h with rfl | rfl <;> rfl
  · have hback : (written above names ++ name).rdropWhile (· ≠ '/') = written above names := by
      rw [rdropWhile, reverse_append, dropWhile_append_of_pos (by grind), ← rdropWhile, rdropWhile_eq_self_iff]
      intro hne
      have hlast := (written_cases above names).resolve_left hne
      rw [getLast?_eq_some_getLast hne] at hlast
      simpa using Option.some.inj hlast
    simpa [follow, upOne, written_append, h] using hback

theorem trimSlash_written (above : ℕ) (names : List (List Char)) (hnames : ∀ name ∈ names, name ≠ []) :
    trimSlash (written above names) = (if above = 0 then ['/'] else []) ++ joined names := by
  rcases eq_nil_or_concat' names with rfl | ⟨names, name, rfl⟩
  · by_cases h : above = 0 <;> simp [written, trimSlash, joined, h, intercalate]
  · have hname := length_pos_iff.mpr (hnames name (by simp))
    rw [written_append, joined_append_singleton, trimSlash, if_pos ⟨by simp; omega, by simp⟩]
    simp [written]

theorem trimSlash_written_append (above : ℕ) (names : List (List Char)) (hne : name ≠ []) (h : '/' ∉ name) :
    trimSlash (written above names ++ name) = (if above = 0 then ['/'] else []) ++ joined (names ++ [name]) := by
  have hlast : (written above names ++ name).getLast? ≠ some '/' := by
    rw [getLast?_append_of_ne_nil _ hne]
    exact fun hmem => h (mem_of_getLast? hmem)
  rw [trimSlash, if_neg (fun hc => hlast hc.2), joined_append_singleton, written]
  simp

theorem finished_of_le {above : ℕ} (h : above ≤ 1) (names : List (List Char)) :
    finished (above, names) = some ((if above = 0 then ['/'] else []) ++ joined names) := by
  rcases Nat.le_one_iff_eq_zero_or_eq_one.mp h with rfl | rfl <;> rfl

theorem follow_above_le (place : ℕ × List (List Char)) (name : List Char) : place.1 ≤ (follow place name).1 := by
  obtain ⟨above, names⟩ := place
  unfold follow
  dsimp only
  split_ifs
  · exact le_rfl
  · exact Nat.le_succ above
  · exact le_rfl

theorem foldl_follow_above_le (place : ℕ × List (List Char)) (names : List (List Char)) :
    place.1 ≤ (names.foldl follow place).1 := by
  induction names generalizing place with
  | nil => exact le_rfl
  | cons name names ih => exact (follow_above_le place name).trans (ih _)

variable {place : ℕ × List (List Char)}

theorem finished_eq_none (h : 1 < place.1) : finished place = none := by
  obtain ⟨_ | _ | above, names⟩ := place
  · cases h
  · exact absurd h (lt_irrefl _)
  · rfl

theorem head?_skipSlashes_ne (src : List Char) : (skipSlashes src).head? ≠ some '/' := by
  intro h
  have hnot := head?_dropWhile_not (· = '/') src
  unfold skipSlashes at h
  rw [h] at hnot
  exact absurd hnot (by decide)

def Segments (names : List (List Char)) : Prop := ∀ name ∈ names, name ≠ [] ∧ '/' ∉ name

theorem mem_follow {segment : List Char} (h : segment ∈ (follow place name).2) :
    segment ∈ place.2 ∨ segment = name ∧ name ≠ ['.', '.'] := by
  obtain ⟨above, names⟩ := place
  unfold follow at h
  dsimp only at h
  split_ifs at h with hdots hnil
  · exact (mem_append.mp h).imp_right (fun hnew => ⟨mem_singleton.mp hnew, hdots⟩)
  · cases h
  · exact .inl ((dropLast_sublist names).subset h)

theorem Segments.follow (h : Segments place.2) (hne : name ≠ []) (hname : '/' ∉ name) :
    Segments (follow place name).2 := by
  intro segment hmem
  rcases mem_follow hmem with hold | ⟨rfl, -⟩
  · exact h segment hold
  · exact ⟨hne, hname⟩

theorem normalizeLoop_written {fuel above : ℕ} {src : List Char} (hnames : Segments names)
    (h : above ≤ 1) (hsrc : src.head? ≠ some '/') (hfuel : src.length < fuel) :
    (normalizeLoop fuel (written above names) src).map trimSlash =
      finished ((components src).foldl follow (above, names)) := by
  induction fuel generalizing above names src with
  | zero => exact absurd hfuel (Nat.not_lt_zero _)
  | succ fuel ih =>
    have hslashes : ∀ n ∈ names, '/' ∉ n := fun n hn => (hnames n hn).2
    have hended := (congrArg some (trimSlash_written above names (fun n hn => (hnames n hn).1))).trans
      (finished_of_le h names).symm
    have hup : ∀ src', normalizeTurn (written above names) src = upOne (written above names) src' →
        src'.head? ≠ some '/' → src'.length < fuel →
        (normalizeLoop (fuel + 1) (written above names) src).map trimSlash =
          finished ((components src').foldl follow (follow (above, names) ['.', '.'])) := by
      intro src' hturn hsrc' hlen
      have hkept : Segments (follow (above, names) ['.', '.']).2 := Segments.follow hnames (by simp) (by simp)
      rw [normalizeLoop, hturn, upOne_written hslashes h]
      generalize follow (above, names) ['.', '.'] = place at hkept ⊢
      obtain ⟨above', names'⟩ := place
      by_cases habove : above' ≤ 1
      · simp only [habove, if_true]
        exact ih hkept habove hsrc' hlen
      · simp only [habove, if_false]
        have hle := foldl_follow_above_le (above', names') (components src')
        exact (finished_eq_none ((not_le.mp habove).trans_le hle)).symm
    by_cases hmem : '/' ∈ src
    · obtain ⟨name, rest, rfl, hname⟩ := eq_append_cons_of_mem hmem
      have hne : name ≠ [] := by
        rintro rfl
        exact hsrc rfl
      have hrest := length_skipSlashes_le rest
      have hturn := @normalizeTurn_slash name rest (written above names) hname
      rw [length_append, length_cons] at hfuel
      rw [components_append_slash, components_of_not_mem hname, ← components_skipSlashes rest]
      by_cases hdot : name = ['.']
      · rw [normalizeLoop, hturn, if_pos hdot, if_neg (by simp [hdot])]
        exact ih hnames h (head?_skipSlashes_ne rest) (by omega)
      · rw [if_neg hdot] at hturn
        rw [if_pos (And.intro hne hdot), cons_append, foldl_cons]
        by_cases hdots : name = ['.', '.']
        · rw [if_pos hdots] at hturn
          rw [hup _ hturn (head?_skipSlashes_ne rest) (by omega), hdots]
          rfl
        · rw [normalizeLoop, hturn, if_neg hdots, ← written_append]
          have hkept : Segments (follow (above, names) name).2 := Segments.follow hnames hne hname
          rw [follow, if_pos hdots] at hkept ⊢
          exact ih hkept h (head?_skipSlashes_ne rest) (by omega)
    · have hturn := normalizeTurn_last (written above names) hmem
      rw [components_of_not_mem hmem]
      by_cases hdot : src = ['.']
      · rw [normalizeLoop, hturn, if_pos hdot, if_neg (by simp [hdot])]
        exact hended
      rw [if_neg hdot] at hturn
      by_cases hdots : src = ['.', '.']
      · have hlen : src.length = 2 := by rw [hdots]; rfl
        rw [if_pos hdots] at hturn
        rw [hup [] hturn (by simp) (by rw [length_nil]; omega), hdots]
        rfl
      rw [normalizeLoop, hturn, if_neg hdots]
      by_cases hne : src = []
      · rw [hne, append_nil]
        exact hended
      · rw [if_pos ⟨hne, hdot⟩, foldl_cons, foldl_nil, follow, if_pos hdots, finished_of_le h]
        exact congrArg some (trimSlash_written_append above names hne hmem)

theorem head?_fullPath {directory filename : List Char} (h : filename.head? = some '/' ∨ directory.head? = some '/') :
    (fullPath directory filename).head? = some '/' := by
  unfold fullPath
  split_ifs with hrelative
  · obtain ⟨rest, hrest⟩ := head?_eq_some_iff.mp (h.resolve_left hrelative)
    rw [hrest]
    rfl
  · exact not_not.mp hrelative

theorem dfsNormalizePath_eq {workingDirectory filename : List Char} {directory : Option (List Char)}
    (h : (fullPath (directory.getD workingDirectory) filename).head? = some '/') :
    dfsNormalizePath true workingDirectory directory filename =
      finished (resolve (components (fullPath (directory.getD workingDirectory) filename))) := by
  obtain ⟨path, hpath⟩ := head?_eq_some_iff.mp h
  have hlen := length_skipSlashes_le path
  have hloop : (normalizeLoop (path.length + 1) (written 0 []) (skipSlashes path)).map trimSlash =
      finished ((components (skipSlashes path)).foldl follow (0, [])) :=
    normalizeLoop_written nofun (Nat.zero_le 1) (head?_skipSlashes_ne path) (Nat.lt_succ_of_le hlen)
  rw [components_skipSlashes] at hloop
  have hcomponents : components ('/' :: path) = components path := components_append_slash [] path
  have hstart : dfsNormalizePath true workingDirectory directory filename =
      (normalizeLoop ((fullPath (directory.getD workingDirectory) filename).length + 1) []
        (fullPath (directory.getD workingDirectory) filename)).map trimSlash := rfl
  rw [hstart, hpath, resolve, hcomponents, ← hloop]
  rfl

theorem mem_components {path : List Char} (hmem : name ∈ components path) :
    name ≠ [] ∧ name ≠ ['.'] ∧ '/' ∉ name ∧ name ⊆ path := by
  induction hlen : path.length using Nat.strong_induction_on generalizing path with
  | _ n ih =>
    by_cases hslash : '/' ∈ path
    · obtain ⟨first, rest, rfl, -⟩ := eq_append_cons_of_mem hslash
      rw [length_append, length_cons] at hlen
      rw [components_append_slash] at hmem
      rcases mem_append.mp hmem with hmem | hmem
      · obtain ⟨hne, hdot, hname, hsub⟩ := ih first.length (by omega) hmem rfl
        exact ⟨hne, hdot, hname, subset_append_of_subset_left _ hsub⟩
      · obtain ⟨hne, hdot, hname, hsub⟩ := ih rest.length (by omega) hmem rfl
        exact ⟨hne, hdot, hname, subset_append_of_subset_right _ (subset_cons_of_subset _ hsub)⟩
    · rw [components_of_not_mem hslash] at hmem
      split_ifs at hmem with hne
      · rw [mem_singleton.mp hmem]
        exact ⟨hne.1, hne.2, hslash, List.Subset.refl path⟩
      · cases hmem

theorem forall_mem_foldl_follow {P : List Char → Prop}
    (hplace : ∀ name ∈ place.2, P name) (hnames : ∀ name ∈ names, name ≠ ['.', '.'] → P name) :
    ∀ name ∈ (names.foldl follow place).2, P name := by
  induction names generalizing place with
  | nil => exact hplace
  | cons first names ih =>
    apply ih _ (fun name hmem => hnames name (mem_cons_of_mem _ hmem))
    intro name hmem
    rcases mem_follow hmem with hold | ⟨rfl, hdots⟩
    · exact hplace name hold
    · exact hnames name mem_cons_self hdots

theorem mem_resolve (path : List Char) : ∀ name ∈ (resolve (components path)).2, IsName name ∧ name ⊆ path := by
  apply @forall_mem_foldl_follow _ (0, []) (fun name => IsName name ∧ name ⊆ path) (by simp)
  intro name hmem hdots
  obtain ⟨hne, hdot, hslash, hsub⟩ := mem_components hmem
  exact ⟨⟨hne, hdot, hdots, hslash⟩, hsub⟩

theorem isName_of_mem_resolve (path : List Char) : ∀ name ∈ (resolve (components path)).2, IsName name :=
  fun name hmem => (mem_resolve path name hmem).1

theorem normalised_resolve (path : List Char) : Normalised (rooted (resolve (components path)).2) :=
  ⟨_, isName_of_mem_resolve path, rfl⟩

section Normalised

variable {names : List (List Char)} (h : ∀ name ∈ names, IsName name)

include h

theorem foldl_follow_names (above : ℕ) (start : List (List Char)) :
    names.foldl follow (above, start) = (above, start ++ names) := by
  induction names generalizing start with
  | nil => rw [append_nil, foldl_nil]
  | cons name names ih =>
    rw [foldl_cons, follow, if_pos (h name mem_cons_self).2.2.1,
      ih (fun n hn => h n (mem_cons_of_mem _ hn)), append_assoc]
    rfl

theorem components_rooted : components (rooted names) = names := by
  have hdrop : components (rooted names) = components (joined names) := components_append_slash [] _
  rw [hdrop]
  by_cases hne : names = []
  · subst hne
    rfl
  · rw [components, joined, splitOn_intercalate '/' (fun name hmem => (h name hmem).2.2.2) hne]
    exact filter_eq_self.mpr (fun name hmem => decide_eq_true ⟨(h name hmem).1, (h name hmem).2.1⟩)

theorem head?_joined_ne : (joined names).head? ≠ some '/' := by
  rcases names with _ | ⟨name, names⟩
  · nofun
  · obtain ⟨hne, -, -, hslash⟩ := h name mem_cons_self
    obtain ⟨c, rest, rfl⟩ := exists_cons_of_ne_nil hne
    have hc : c ≠ '/' := fun heq => hslash (by simp [heq])
    cases names <;> simpa [joined, intercalate, intersperse] using hc

end Normalised

theorem rooted_eq_slashed (h : names ≠ []) : rooted names = slashed names := by
  obtain ⟨name, names, rfl⟩ := exists_cons_of_ne_nil h
  induction names generalizing name with
  | nil => simp [rooted, slashed, joined, intercalate]
  | cons second names ih =>
    have hsecond := ih second (by simp)
    rw [rooted] at hsecond
    rw [rooted, slashed, flatMap_cons, ← slashed, ← hsecond]
    simp [joined, intercalate, intersperse]

theorem mem_rooted {c : Char} (hmem : c ∈ rooted names) : c = '/' ∨ ∃ name ∈ names, c ∈ name := by
  by_cases hne : names = []
  · subst hne
    exact .inl (mem_singleton.mp hmem)
  · rw [rooted_eq_slashed hne] at hmem
    obtain ⟨name, hname, hc⟩ := mem_flatMap.mp hmem
    exact (mem_cons.mp hc).imp_right (fun hc => ⟨name, hname, hc⟩)

theorem normalised_of_head? {workingDirectory filename path : List Char} {alloc : Bool}
    (hdirectory : workingDirectory.head? = some '/')
    (hpath : dfsNormalizePath alloc workingDirectory none filename = some path) (hhead : path.head? = some '/') :
    Normalised path ∧ ∀ c ∈ path, c = '/' ∨ c ∈ workingDirectory ∨ c ∈ filename := by
  cases alloc with
  | false => cases hpath
  | true =>
    have hnames := mem_resolve (fullPath workingDirectory filename)
    rw [@dfsNormalizePath_eq workingDirectory filename none (head?_fullPath (.inr hdirectory)), Option.getD_none]
      at hpath
    generalize resolve (components (fullPath workingDirectory filename)) = place at hnames hpath
    obtain ⟨_ | _ | above, names⟩ := place
    · obtain rfl := Option.some.inj hpath
      refine ⟨⟨names, fun name hmem => (hnames name hmem).1, rfl⟩, fun c hc => ?_⟩
      rcases mem_rooted hc with hc | ⟨name, hmem, hc⟩
      · exact .inl hc
      · have hfull := (hnames name hmem).2 hc
        unfold fullPath at hfull
        split_ifs at hfull
        · rcases mem_append.mp hfull with hc | hc
          · exact .inr (.inl hc)
          · exact (mem_cons.mp hc).imp_right .inr
        · exact .inr (.inr hfull)
    · obtain rfl := Option.some.inj hpath
      exact absurd hhead (head?_joined_ne (fun name hmem => (hnames name hmem).1))
    · cases hpath

section

variable {path : List Char} (h : Normalised path)

include h

theorem Normalised.head? : path.head? = some '/' := by
  obtain ⟨names, -, rfl⟩ := h
  rfl

theorem Normalised.getLast?_ne (hne : path ≠ ['/']) : path.getLast? ≠ some '/' := by
  obtain ⟨names, hnames, rfl⟩ := h
  rcases eq_nil_or_concat' names with rfl | ⟨names, name, rfl⟩
  · exact absurd rfl hne
  · have hname := hnames name (by simp)
    rw [rooted, joined_append_singleton, ← cons_append, getLast?_append_of_ne_nil _ hname.1]
    exact fun hmem => hname.2.2.2 (mem_of_getLast? hmem)

theorem Normalised.dfsNormalizePath_eq (workingDirectory : List Char)
    (directory : Option (List Char)) : dfsNormalizePath true workingDirectory directory path = some path := by
  obtain ⟨names, hnames, rfl⟩ := h
  have hfull : fullPath (directory.getD workingDirectory) (rooted names) = rooted names := rfl
  rw [RtThread.dfsNormalizePath_eq (by rw [hfull]; rfl), hfull, components_rooted hnames, resolve,
    foldl_follow_names hnames]
  rfl

end

theorem normalize_path_spec {workingDirectory filename : List Char} {directory : Option (List Char)}
    (habsolute : filename.head? = some '/' ∨ (directory.getD workingDirectory).head? = some '/')
    (hroot : (resolve (components (fullPath (directory.getD workingDirectory) filename))).1 = 0) :
    ∃ path, dfsNormalizePath true workingDirectory directory filename = some path ∧
      path = rooted (resolve (components (fullPath (directory.getD workingDirectory) filename))).2 ∧
      path.head? = some '/' ∧ (path ≠ ['/'] → path.getLast? ≠ some '/') ∧
      ∀ workingDirectory' directory', dfsNormalizePath true workingDirectory' directory' path = some path := by
  have hnormalised := normalised_resolve (fullPath (directory.getD workingDirectory) filename)
  refine ⟨_, ?_, rfl, hnormalised.head?, hnormalised.getLast?_ne, hnormalised.dfsNormalizePath_eq⟩
  rw [dfsNormalizePath_eq (head?_fullPath habsolute)]
  generalize resolve (components (fullPath (directory.getD workingDirectory) filename)) = place at hroot ⊢
  obtain ⟨above, names⟩ := place
  cases hroot
  rfl

theorem normalize_path_spec_relative :
    ∃ path, dfsNormalizePath true ['/', 'a'] none ['b', '/', '.', '.', '/', '.', '/', '/', 'c', '/'] = some path ∧
      path = ['/', 'a', '/', 'c'] := by
  have hspec := @normalize_path_spec ['/', 'a'] ['b', '/', '.', '.', '/', '.', '/', '/', 'c', '/'] none (.inr rfl)
    (by decide)
  obtain ⟨path, heq, hpath, -⟩ := hspec
  exact ⟨path, heq, hpath.trans (by decide)⟩

end RtThread
