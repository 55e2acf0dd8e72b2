import Mathlib.Data.List.Forall2

namespace RtThread

open List Option

def rtFinshArgMax : ℕ := 10

def isBlank (c : Char) : Prop := c = ' ' ∨ c = '\t'

instance (c : Char) : Decidable (isBlank c) := instDecidableOr

def stripBlanks : List Char → Option (List Char × List Char)
  | [] => none
  | c :: rest => if isBlank c then (stripBlanks rest).map (Prod.map ('\x00' :: ·) id) else some ([], c :: rest)

def skipString : List Char → Option (List Char × List Char)
  | [] => none
  | '"' :: rest => some ([], '"' :: rest)
  | ['\\'] => none
  | '\\' :: '"' :: rest => (skipString rest).map (Prod.map (['\\', '"'] ++ ·) id)
  | c :: rest => (skipString rest).map (Prod.map (c :: ·) id)

def skipWord : List Char → Option (List Char × List Char)
  | [] => none
  | c :: rest => if isBlank c then some ([], c :: rest) else (skipWord rest).map (Prod.map (c :: ·) id)

/-- The loop of `msh_split`: `out` holds the bytes up to `ptr` and `rest` those behind it up to `cmd + length`. Every
loop inside looks at the byte before it looks at the position. The result `none` is an access at or behind `cmd +
length`, or a pointer that is stored behind the end of `argv`. -/
def splitLoop : ℕ → List Char → List Char → List ℕ → Option (List Char × List ℕ)
  | 0, _, _, _ => none
  | fuel + 1, out, rest, argv =>
    if rest = [] then some (out, argv)
    else (stripBlanks rest).bind (fun (blanks, rest) =>
      if argv.length < rtFinshArgMax then
        if rest.head? = some '"' then
          (skipString rest.tail).bind (fun (text, rest) =>
            splitLoop fuel (out ++ blanks ++ '"' :: text ++ ['\x00']) rest.tail
              (argv ++ [(out ++ blanks).length + 1]))
        else
          (skipWord rest).bind (fun (word, rest) =>
            splitLoop fuel (out ++ blanks ++ word) rest (argv ++ [(out ++ blanks).length]))
      else none)

def mshSplit (cmd : List Char) : Option (List Char × List ℕ) := splitLoop (cmd.length + 1) [] cmd []

/-- A text in which every double quote is behind a backslash. If it is `closed`, then a double quote that follows is
not. -/
inductive Text (closed : Bool) : List Char → Prop
  | nil : Text closed []
  | last (h : closed = false) : Text closed ['\\']
  | char {c text} (hc : c ≠ '"') (hback : c ≠ '\\') (h : Text closed text) : Text closed (c :: text)
  | quote {text} (h : Text closed text) : Text closed ('\\' :: '"' :: text)
  | backslash {c text} (hc : c ≠ '"') (h : Text closed (c :: text)) : Text closed ('\\' :: c :: text)

/-- The words of a line. Behind a blank and behind a word that ends without a quote, `more` holds of what is left. -/
inductive Words (more : List Char → Prop) : List Char → List (List Char) → Prop
  | nil : Words more [] []
  | blank {c line words} (hc : isBlank c) (hmore : more line) (h : Words more line words) : Words more (c :: line) words
  | run {c word line words} (hc : c ≠ '"') (hword : ∀ x ∈ c :: word, ¬isBlank x)
      (hline : ∀ x ∈ line.head?, isBlank x)
      (hmore : more line) (h : Words more line words) : Words more (c :: word ++ line) ((c :: word) :: words)
  | quoted {text line words} (htext : Text true text) (h : Words more line words) :
      Words more ('"' :: text ++ '"' :: line) (text :: words)
  | unclosed {text} (htext : Text false text) (hmore : more []) : Words more ('"' :: text) [text]

def Argument (buffer word : List Char) (p : ℕ) : Prop :=
  '\x00' ∉ word ∧ word ++ ['\x00'] <+: buffer.drop p

structure SplitsWell (cmd : List Char) (buffer : List Char) (argv : List ℕ) : Prop where
  stored : argv.length ≤ rtFinshArgMax
  words : ∃ words, Words (fun _ => True) cmd words ∧ Forall₂ (Argument buffer) words argv

theorem Words.mono {more : List Char → Prop} {line : List Char}
    {words : List (List Char)} (h : Words more line words) :
    Words (fun _ => True) line words := by
  induction h with
  | nil => exact .nil
  | blank hc _ _ ih => exact .blank hc trivial ih
  | run hc hword hline _ _ ih => exact .run hc hword hline trivial ih
  | quoted htext _ ih => exact .quoted htext ih
  | unclosed htext _ => exact .unclosed htext trivial

theorem skipWord_append {word line : List Char} (hword : ∀ x ∈ word, ¬isBlank x)
    (hline : ∀ x ∈ line.head?, isBlank x) :
    skipWord (word ++ line) = if line = [] then none else some (word, line) := by
  induction word with
  | nil =>
    cases line with
    | nil => rfl
    | cons c line => simp [skipWord, hline c rfl]
  | cons c word ih =>
    rw [cons_append, skipWord, if_neg (hword c mem_cons_self), ih (fun x hx => hword x (mem_cons_of_mem c hx))]
    split_ifs <;> rfl

theorem skipString_char {c : Char} {rest : List Char} (hc : c ≠ '"') (hback : c ≠ '\\') :
    skipString (c :: rest) = (skipString rest).map (Prod.map (c :: ·) id) := by
  rw [skipString]
  · exact hc
  · exact fun heq _ => hback heq
  · exact fun _ heq _ => hback heq

theorem skipString_backslash {c : Char} {rest : List Char} (hc : c ≠ '"') :
    skipString ('\\' :: c :: rest) = (skipString (c :: rest)).map (Prod.map ('\\' :: ·) id) := by
  rw [skipString]
  · simp
  · simp
  · exact fun _ _ heq => hc (cons.inj heq).1

theorem skipString_closed {text : List Char} (h : Text true text) (line : List Char) :
    skipString (text ++ '"' :: line) = some (text, '"' :: line) := by
  induction h with
  | nil => rfl
  | last h => cases h
  | char hc hback _ ih =>
    rw [cons_append, skipString_char hc hback, ih]
    rfl
  | quote _ ih =>
    rw [cons_append, cons_append, skipString, ih]
    rfl
  | backslash hc _ ih =>
    rw [cons_append, cons_append, skipString_backslash hc, ← cons_append, ih]
    rfl

theorem skipString_unclosed {text : List Char} (h : Text false text) : skipString text = none := by
  induction h with
  | nil => rfl
  | last h => rfl
  | char hc hback _ ih => rw [skipString_char hc hback, ih, map_none]
  | quote _ ih => rw [skipString, ih, map_none]
  | backslash hc _ ih => rw [skipString_backslash hc, ih, map_none]

section

variable {fuel : ℕ} {out line : List Char} {argv : List ℕ}

theorem splitLoop_blank {c : Char} (hc : isBlank c) (hline : line ≠ []) :
    splitLoop (fuel + 1) out (c :: line) argv = splitLoop (fuel + 1) (out ++ ['\x00']) line argv := by
  rw [splitLoop, splitLoop, if_neg hline, stripBlanks, if_pos hc]
  cases stripBlanks line with
  | none => rfl
  | some r => simp

theorem splitLoop_run {c : Char} {word : List Char} (hc : c ≠ '"') (hword : ∀ x ∈ c :: word, ¬isBlank x)
    (hline : ∀ x ∈ line.head?, isBlank x) :
    splitLoop (fuel + 1) out (c :: word ++ line) argv =
      if argv.length < rtFinshArgMax ∧ line ≠ [] then splitLoop fuel (out ++ c :: word) line (argv ++ [out.length])
      else none := by
  rw [splitLoop, cons_append, stripBlanks, if_neg (hword c mem_cons_self)]
  simp only [bind_some, head?_cons, some.injEq, hc, if_false, append_nil]
  rw [← cons_append, skipWord_append hword hline]
  by_cases hnil : line = [] <;> simp [hnil]

theorem splitLoop_quote (text : List Char) :
    splitLoop (fuel + 1) out ('"' :: text) argv =
      if argv.length < rtFinshArgMax then
        (skipString text).bind (fun (text, rest) =>
          splitLoop fuel (out ++ '"' :: text ++ ['\x00']) rest.tail (argv ++ [out.length + 1]))
      else none := by
  rw [splitLoop, if_neg (by simp), stripBlanks, if_neg (by decide)]
  simp

variable {buffer : List Char} {argv' : List ℕ} {words : List (List Char)}

structure SplitFrom (out line : List Char) (words : List (List Char)) (argv : List ℕ) (buffer : List Char)
    (argv' : List ℕ) : Prop where
  more : Words (· ≠ []) line words
  kept : out <+: buffer
  blank : ∀ x ∈ line.head?, isBlank x → out ++ ['\x00'] <+: buffer
  args : ∃ ps, argv' = argv ++ ps ∧ Forall₂ (fun word p => word ++ ['\x00'] <+: buffer.drop p) words ps
  stored : argv.length ≤ rtFinshArgMax → argv'.length ≤ rtFinshArgMax

theorem SplitFrom.argument {word out' : List Char} {p : ℕ} (h : SplitFrom out' line words (argv ++ [p]) buffer argv')
    (hword : word ++ ['\x00'] <+: buffer.drop p) :
    ∃ ps, argv' = argv ++ ps ∧ Forall₂ (fun word p => word ++ ['\x00'] <+: buffer.drop p) (word :: words) ps := by
  obtain ⟨ps, rfl, hps⟩ := h.args
  exact ⟨p :: ps, by simp, .cons hword hps⟩

theorem prefix_drop {front text : List Char} (h : front ++ text <+: buffer) : text <+: buffer.drop front.length := by
  obtain ⟨rest, rfl⟩ := h
  simp

theorem Words.splitFrom (h : Words (fun _ => True) line words)
    (hloop : splitLoop (fuel + 1) out line argv = some (buffer, argv')) :
    SplitFrom out line words argv buffer argv' := by
  induction h generalizing fuel out argv with
  | nil =>
    cases hloop
    exact ⟨.nil, prefix_refl _, by simp, ⟨[], by simp, .nil⟩, id⟩
  | @blank c line words hc _ _ ih =>
    by_cases hline : line = []
    · simp [splitLoop, stripBlanks, hline, hc] at hloop
    · rw [splitLoop_blank hc hline] at hloop
      have hrest := ih hloop
      exact ⟨.blank hc hline hrest.more, (prefix_append _ _).trans hrest.kept, fun _ _ _ => hrest.kept, hrest.args,
        hrest.stored⟩
  | @run c word line words hc hword hline _ _ ih =>
    rw [splitLoop_run hc hword hline] at hloop
    obtain ⟨⟨hmax, hne⟩, hloop⟩ := ite_none_right_eq_some.mp hloop
    cases fuel with
    | zero => cases hloop
    | succ fuel =>
      have hrest := ih hloop
      obtain ⟨x, others, rfl⟩ := exists_cons_of_ne_nil hne
      -- the turn that follows overwrites the blank behind the word
      have hend := hrest.blank x rfl (hline x rfl)
      rw [append_assoc] at hend
      refine ⟨.run hc hword hline hne hrest.more, (prefix_append _ _).trans hrest.kept, ?_,
        hrest.argument (prefix_drop hend), fun _ => hrest.stored (by rw [length_append]; exact hmax)⟩
      intro y hy hblank
      cases hy
      exact absurd hblank (hword c mem_cons_self)
  | @quoted text line words htext _ ih =>
    rw [cons_append, splitLoop_quote, skipString_closed htext] at hloop
    obtain ⟨hmax, hloop⟩ := ite_none_right_eq_some.mp hloop
    cases fuel with
    | zero => cases hloop
    | succ fuel =>
      have hrest := ih hloop
      have hend : (out ++ ['"']) ++ (text ++ ['\x00']) <+: buffer := by simpa using hrest.kept
      have harg := prefix_drop hend
      rw [length_append] at harg
      refine ⟨.quoted htext hrest.more, (prefix_append _ _).trans ((prefix_append _ _).trans hend), ?_,
        hrest.argument harg, fun _ => hrest.stored (by rw [length_append]; exact hmax)⟩
      intro y hy hblank
      cases hy
      exact absurd hblank (by decide)
  | unclosed htext _ => simp [splitLoop_quote, skipString_unclosed htext] at hloop

theorem Words.splitLoop_some (h : Words (· ≠ []) line words) (hargs : argv.length + words.length ≤ rtFinshArgMax)
    (hfuel : line.length ≤ fuel) : ∃ r, splitLoop (fuel + 1) out line argv = some r := by
  induction h generalizing fuel out argv with
  | nil => exact ⟨_, rfl⟩
  | blank hc hmore _ ih =>
    rw [splitLoop_blank hc hmore]
    exact ih hargs (Nat.le_of_succ_le hfuel)
  | run hc hword hline hmore _ ih =>
    simp only [length_append, length_cons] at hargs hfuel
    obtain ⟨fuel, rfl⟩ : ∃ n, fuel = n + 1 := ⟨fuel - 1, by omega⟩
    rw [splitLoop_run hc hword hline, if_pos ⟨by omega, hmore⟩]
    exact ih (by simp; omega) (by omega)
  | quoted htext _ ih =>
    simp only [length_append, length_cons] at hargs hfuel
    obtain ⟨fuel, rfl⟩ : ∃ n, fuel = n + 1 := ⟨fuel - 1, by omega⟩
    rw [cons_append, splitLoop_quote, if_pos (by omega), skipString_closed htext]
    exact ih (by simp; omega) (by omega)
  | unclosed _ hmore => exact absurd rfl hmore

end

theorem msh_split_iff (cmd : List Char) :
    (∃ buffer argv, mshSplit cmd = some (buffer, argv) ∧ SplitsWell cmd buffer argv) ↔
      ∃ words, Words (· ≠ []) cmd words ∧ words.length ≤ rtFinshArgMax ∧
      ∀ word ∈ words, '\x00' ∉ word := by
  constructor
  · rintro ⟨buffer, argv, hsplit, hstored, words, hwords, hargs⟩
    refine ⟨words, (hwords.splitFrom hsplit).more, hargs.length_eq ▸ hstored, ?_⟩
    exact (forall₂_and_left words argv).mp hargs |>.1
  · rintro ⟨words, hwords, hmax, hnul⟩
    have hargs : ([] : List ℕ).length + words.length ≤ rtFinshArgMax := by simpa using hmax
    obtain ⟨⟨buffer, argv⟩, hsplit⟩ := hwords.splitLoop_some hargs (Nat.le_refl cmd.length)
    have hfrom := hwords.mono.splitFrom hsplit
    obtain ⟨ps, rfl, hps⟩ := hfrom.args
    refine ⟨buffer, _, hsplit, hfrom.stored (Nat.zero_le _), words, hwords.mono, ?_⟩
    exact (forall₂_and_left words _).mpr ⟨hnul, hps⟩

/-- The byte behind the command is looked at, and the eleventh word is stored behind the end of `argv`. -/
theorem msh_split_outside : mshSplit ['p', 's'] = none ∧
    mshSplit ((replicate 10 ['p', 's', ' ']).flatten ++ ['"', 'a', '"']) = none ∧
    (mshSplit ((replicate 9 ['p', 's', ' ']).flatten ++ ['"', 'a', '"'])).isSome := by
  decide

end RtThread
