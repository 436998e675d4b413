import Mathlib.Data.List.Infix

/-!
# The words of a shell command

The text of a simple command, which has no line end and none of `;&|<>$()` and the back quote, is
split into words at blanks, with quotes, back slashes and comments. That a word has no file name
pattern, or one that matches no file, is understood. Each word keeps the text that it comes from.
-/

namespace Shell

/-- A word: its text, and what is left when the quotes are removed. -/
structure Word where
  raw : List Char
  word : List Char
deriving DecidableEq

/-- Nothing of the word is quoted. -/
def Word.Plain (w : Word) : Prop := w.raw = w.word

instance (w : Word) : Decidable w.Plain := inferInstanceAs (Decidable (w.raw = w.word))

/-- What a character is read in. -/
inductive Mode where
  | plain | escaped | single | double | doubleEscaped
deriving DecidableEq

/-- A word, or none, continued by a character that stands for `chars`. -/
def push (cur : Option Word) (c : Char) (chars : List Char) : Option Word :=
  match cur with
  | none => some ⟨[c], chars⟩
  | some w => some ⟨w.raw ++ [c], w.word ++ chars⟩

/-- The last word of a text that ends; `none` if a quote is not closed. -/
def ended : Mode → Option Word → Option (List Word)
  | .plain, cur => some cur.toList
  | .escaped, cur => some (cur.map fun w => { w with word := w.word ++ ['\\'] }).toList
  | _, _ => none

/-- A character is read: the word that it ends, if it does, and what is read in from there on.
`none` is the start of a comment. -/
def step : Mode → Option Word → Char → Option (List Word × Mode × Option Word)
  | .plain, cur, c =>
    if c = ' ' || c = '\t' then some (cur.toList, .plain, none)
    else if c = '#' && cur.isNone then none
    else if c = '\'' then some ([], .single, push cur c [])
    else if c = '"' then some ([], .double, push cur c [])
    else if c = '\\' then some ([], .escaped, push cur c [])
    else some ([], .plain, push cur c [c])
  | .escaped, cur, c => some ([], .plain, push cur c [c])
  | .single, cur, c =>
    if c = '\'' then some ([], .plain, push cur c []) else some ([], .single, push cur c [c])
  | .double, cur, c =>
    if c = '"' then some ([], .plain, push cur c [])
    else if c = '\\' then some ([], .doubleEscaped, push cur c [])
    else some ([], .double, push cur c [c])
  | .doubleEscaped, cur, c =>
    some ([], .double, push cur c (if c = '"' || c = '\\' then [c] else ['\\', c]))

/-- The words of a text behind the word `cur`; `none` if a quote is not closed. -/
def words : Mode → Option Word → List Char → Option (List Word)
  | mode, cur, [] => ended mode cur
  | mode, cur, c :: rest =>
    match step mode cur c with
    | none => some []
    | some (found, mode, cur) => (words mode cur rest).map (found ++ ·)

/-- The text of a word that may be there. -/
def rawText (cur : Option Word) : List Char := cur.elim [] Word.raw

theorem rawText_push (cur : Option Word) (c : Char) (chars : List Char) :
    rawText (push cur c chars) = rawText cur ++ [c] := by
  cases cur with
  | none => rfl
  | some w => rfl

theorem infix_of_push {cur : Option Word} {c : Char} {chars rest raw : List Char}
    (h : raw <:+: rawText (push cur c chars) ++ rest) : raw <:+: rawText cur ++ c :: rest := by
  rw [rawText_push, List.append_assoc] at h
  exact h

theorem raw_infix_toList {cur : Option Word} {w : Word} (hw : w ∈ cur.toList) :
    w.raw <:+: rawText cur := by
  rw [Option.mem_toList] at hw
  subst hw
  exact List.infix_refl _

/-- A character ends the word or is put behind it. -/
theorem step_cases {mode mode' : Mode} {cur cur' : Option Word} {c : Char} {found : List Word}
    (h : step mode cur c = some (found, mode', cur')) :
    found = cur.toList ∧ cur' = none ∨ found = [] ∧ ∃ chars, cur' = push cur c chars := by
  cases mode with
  | plain =>
    rw [step] at h
    split_ifs at h
    · cases h
      exact .inl ⟨rfl, rfl⟩
    all_goals
      cases h
      exact .inr ⟨rfl, _, rfl⟩
  | escaped | doubleEscaped =>
    cases h
    exact .inr ⟨rfl, _, rfl⟩
  | single | double =>
    rw [step] at h
    split_ifs at h
    all_goals
      cases h
      exact .inr ⟨rfl, _, rfl⟩

theorem raw_infix_ended {mode : Mode} {cur : Option Word} {found : List Word}
    (h : ended mode cur = some found) {w : Word} (hw : w ∈ found) : w.raw <:+: rawText cur := by
  cases mode with
  | plain =>
    cases h
    exact raw_infix_toList hw
  | escaped =>
    cases h
    cases cur with
    | none => cases hw
    | some w' =>
      cases List.mem_singleton.mp hw
      exact List.infix_refl _
  | single | double | doubleEscaped => cases h

/-- Each word comes from a part of the text. -/
theorem raw_infix {mode : Mode} {cur : Option Word} {text : List Char} {found : List Word}
    (h : words mode cur text = some found) {w : Word} (hw : w ∈ found) :
    w.raw <:+: rawText cur ++ text := by
  induction text generalizing mode cur found with
  | nil =>
    rw [List.append_nil]
    exact raw_infix_ended h hw
  | cons c rest ih =>
    rw [words] at h
    split at h
    · cases h
      cases hw
    rename_i before mode' cur' hstep
    obtain ⟨behind, hbehind, rfl⟩ := Option.map_eq_some_iff.mp h
    obtain ⟨rfl, rfl⟩ | ⟨rfl, chars, rfl⟩ := step_cases hstep
    · cases List.mem_append.mp hw with
      | inl hw => exact (raw_infix_toList hw).trans (List.infix_append' [] _ _)
      | inr hw =>
        have hrest : w.raw <:+: rest := ih hbehind hw
        exact (hrest.trans (List.suffix_cons c rest).isInfix).trans (List.suffix_append _ _).isInfix
    · exact infix_of_push (ih hbehind hw)

end Shell
