import Cfengine.Getopt

/-!
# The forms of an option

What `getopt_long` finds, by the form of the words: a group of short options, a long option or the
unambiguous start of its name, and where the argument is (`exists_mem_getopt_iff`).
-/

namespace Cfengine

/-! ## Forms -/

section
variable (optstring : List Char) (longopts : List LongOption)

/-- Letters of a group behind which the group goes on. -/
def NoArgument (flags : CString) : Prop :=
  ∀ d ∈ flags, shortOption optstring d = none ∨ shortOption optstring d = some .no

/-- A word is a group of short options, with `c` behind `flags` and in front of `text`. -/
structure Grouped (w : Shell.Word) (flags : CString) (c : Char) (text : CString) : Prop where
  word : w.word = '-' :: (flags ++ c :: text)
  short : (flags ++ [c]).head? ≠ some '-'
  flags : NoArgument optstring flags

/-- A name is that of a long option, or the start of no other one. -/
structure Abbreviates (name : CString) (p : LongOption) : Prop where
  mem : p ∈ longopts
  start : name <+: p.name
  unambiguous : name = p.name ∨ ∀ q ∈ longopts, name <+: q.name → q = p

/-- A word is a long option, with a text behind `=` if there is one. -/
inductive LongNamed (w : Shell.Word) (p : LongOption) : Option CString → Prop
  | name {name : CString} : Abbreviates longopts name p → '=' ∉ name →
    w.word = "--".toList ++ name → LongNamed w p none
  | text {name text : CString} : Abbreviates longopts name p → '=' ∉ name →
    w.word = "--".toList ++ (name ++ '=' :: text) → LongNamed w p (some text)

/-- The argument of a short option in front of `text` in its group. -/
def ShortArg (text : CString) : HasArg → Option CString → Prop
  | .no, arg => arg = none
  | .optional, arg => arg = if text = [] then none else some text
  | .required, arg => text ≠ [] ∧ arg = some text

/-- The argument of a long option with `text` behind `=`. -/
def LongArg (text : Option CString) : HasArg → Option CString → Prop
  | .no, arg => text = none ∧ arg = none
  | .optional, arg => arg = text
  | .required, arg => text ≠ none ∧ arg = text

/-- An option is in a word, with its argument if it takes one. -/
inductive Holds (w : Shell.Word) (c : Char) (arg : Option CString) : Prop
  | short {flags text : CString} {hasArg : HasArg} : Grouped optstring w flags c text →
    shortOption optstring c = some hasArg → ShortArg text hasArg arg → Holds w c arg
  | long {p : LongOption} {text : Option CString} : LongNamed longopts w p text → p.val = c →
    LongArg text p.hasArg arg → Holds w c arg

/-- An option at the end of a word takes the next one for its argument. -/
inductive Waits (w : Shell.Word) (c : Char) : Prop
  | short {flags : CString} : Grouped optstring w flags c [] →
    shortOption optstring c = some .required → Waits w c
  | long {p : LongOption} : LongNamed longopts w p none → p.val = c →
      p.hasArg = .required → Waits w c

/-- A word gives an option, with `rest` behind it. -/
inductive Gives (w : Shell.Word) (rest : List Shell.Word) (c : Char) : Option CString → Prop
  | held {arg : Option CString} : Holds optstring longopts w c arg → Gives w rest c arg
  | next {next : Shell.Word} : Waits optstring longopts w c → rest.head? = some next →
    Gives w rest c (some next.word)

/-- A word is looked at for options, with `rest` behind it: there is no `--` in front of it, and it
is no argument of another one. -/
inductive LookedAt : List Shell.Word → Shell.Word → List Shell.Word → Prop
  | here {w : Shell.Word} {rest : List Shell.Word} : w.word ≠ "--".toList →
      LookedAt (w :: rest) w rest
  | skip {v w : Shell.Word} {argv rest : List Shell.Word} : v.word ≠ "--".toList →
    (∀ c, ¬ Waits optstring longopts v c) → LookedAt argv w rest → LookedAt (v :: argv) w rest
  | skipArg {v next w : Shell.Word} {argv rest : List Shell.Word} {c : Char} :
    v.word ≠ "--".toList → Waits optstring longopts v c → LookedAt argv w rest →
    LookedAt (v :: next :: argv) w rest

end

variable {optstring : List Char} {longopts : List LongOption} {argv rest : List Shell.Word}
  {w : Shell.Word} {nextchar name : CString} {p : LongOption} {o : Found} {c : Char}
  {arg : Option CString}

theorem mem_starting {q : LongOption} :
    q ∈ longopts.filter (fun q => name.isPrefixOf q.name) ↔ q ∈ longopts ∧ name <+: q.name := by
  rw [List.mem_filter, List.isPrefixOf_iff_prefix]

/-- The only option that a name begins. -/
theorem starting_eq_singleton_iff (hnodup : longopts.Nodup) :
    longopts.filter (fun q => name.isPrefixOf q.name) = [p] ↔
      p ∈ longopts ∧ name <+: p.name ∧ ∀ q ∈ longopts, name <+: q.name → q = p := by
  have hnodup' := hnodup.filter fun q => name.isPrefixOf q.name
  constructor
  · intro h
    have hmem {q : LongOption} : q ∈ longopts ∧ name <+: q.name ↔ q = p := by
      rw [← mem_starting, h, List.mem_singleton]
    exact ⟨(hmem.mpr rfl).1, (hmem.mpr rfl).2, fun q hq hstart => hmem.mp ⟨hq, hstart⟩⟩
  · intro ⟨hp, hstart, honly⟩
    have hall {q : LongOption} (hq : q ∈ longopts.filter fun q => name.isPrefixOf q.name) :
        q = p := honly q (mem_starting.mp hq).1 (mem_starting.mp hq).2
    cases hfilter : longopts.filter fun q => name.isPrefixOf q.name with
    | nil =>
      have hmem := mem_starting.mpr ⟨hp, hstart⟩
      rw [hfilter] at hmem
      cases hmem
    | cons q others =>
      rw [hfilter] at hall hnodup'
      obtain rfl := hall List.mem_cons_self
      cases others with
      | nil => rfl
      | cons r others =>
        obtain rfl := hall (List.mem_cons_of_mem _ List.mem_cons_self)
        exact absurd List.mem_cons_self (List.nodup_cons.mp hnodup').1

theorem pfound_eq_some_iff (hnodup : (longopts.map LongOption.name).Nodup) :
    pfound longopts name = some p ↔ Abbreviates longopts name p := by
  rw [pfound]
  cases hfind : longopts.find? (·.name = name) with
  | some q =>
    have hq := List.mem_of_find?_eq_some hfind
    have hname : q.name = name := by simpa using List.find?_some hfind
    simp only [Option.some.injEq]
    constructor
    · rintro rfl
      exact ⟨hq, hname ▸ List.prefix_refl _, .inl hname.symm⟩
    · intro h
      rcases h.unambiguous with hfull | honly
      · exact List.inj_on_of_nodup_map hnodup hq h.mem (hname.trans hfull)
      · exact honly q hq (hname ▸ List.prefix_refl _)
  | none =>
    have hno {q : LongOption} (hq : q ∈ longopts) : name ≠ q.name := fun h =>
      absurd (List.find?_eq_none.mp hfind q hq) (by simp [h])
    have hsingle : longopts.filter (fun q => name.isPrefixOf q.name) = [p] ↔
        Abbreviates longopts name p := by
      rw [starting_eq_singleton_iff (.of_map _ hnodup)]
      exact ⟨fun ⟨hp, hstart, honly⟩ => ⟨hp, hstart, .inr honly⟩,
        fun h => ⟨h.mem, h.start, h.unambiguous.resolve_left (hno h.mem)⟩⟩
    rw [← hsingle]
    simp only
    split
    · rename_i q hq
      rw [hq, List.singleton_inj, Option.some.injEq]
    · rename_i hnot
      exact iff_of_false nofun (hnot p)

/-! ## What is found has one of the forms -/

/-- What `getopt` finds in a word that it looks at. -/
def getopt.inWord (optstring : List Char) (longopts : List LongOption) (w : Shell.Word) :
    List Found × Option Found :=
  match w.word with
  | '-' :: '-' :: nextchar => getopt.long longopts nextchar
  | '-' :: c :: nextchar => getopt.short optstring (c :: nextchar)
  | _ => ([], none)

theorem getopt.inWord_long (hword : w.word = '-' :: '-' :: nextchar) :
    getopt.inWord optstring longopts w = getopt.long longopts nextchar := by
  rw [inWord, hword]
  rfl

theorem getopt.inWord_short (hc : c ≠ '-') (hword : w.word = '-' :: c :: nextchar) :
    getopt.inWord optstring longopts w =
      getopt.short optstring (c :: nextchar) := by
  rw [inWord, hword]
  split
  · rename_i hlong
    cases hlong
    exact absurd rfl hc
  · rename_i hshort
    cases hshort
    rfl
  · rename_i hnot
    exact absurd rfl (hnot c nextchar)

theorem getopt_cons (h : w.word ≠ "--".toList) :
    getopt optstring longopts none (w :: argv) =
      (getopt.inWord optstring longopts w).1 ++
        getopt optstring longopts (getopt.inWord optstring longopts w).2 argv := by
  rw [getopt]
  split
  · rename_i hword
    exact absurd hword h
  · rename_i hword
    rw [getopt.inWord_long hword]
  · rename_i c nextchar hnil hdash hword
    rw [getopt.inWord_short hdash hword]
  · rename_i hnil hlong hshort
    rw [getopt.inWord]
    split
    · rename_i hword
      exact absurd hword (hlong _)
    · rename_i hword
      exact absurd hword (hshort _ _)
    · rfl

/-- `c` is in a group, in front of `text` and behind letters that take no argument. -/
def InGroup (optstring : List Char) (g : CString) (c : Char) (text : CString) : Prop :=
  ∃ flags, g = flags ++ c :: text ∧ NoArgument optstring flags

theorem inGroup_nil {text : CString} : ¬ InGroup optstring [] c text := by
  intro ⟨flags, hg, _⟩
  cases flags <;> cases hg

theorem inGroup_cons {d : Char} {g text : CString} : InGroup optstring (d :: g) c text ↔
    c = d ∧ text = g ∨ (shortOption optstring d = none ∨ shortOption optstring d = some .no) ∧
      InGroup optstring g c text := by
  constructor
  · intro ⟨flags, hg, hflags⟩
    cases flags with
    | nil =>
      cases hg
      exact .inl ⟨rfl, rfl⟩
    | cons d' flags =>
      cases hg
      obtain ⟨hd, hflags⟩ := List.forall_mem_cons.mp hflags
      exact .inr ⟨hd, flags, rfl, hflags⟩
  · rintro (⟨rfl, rfl⟩ | ⟨hd, flags, rfl, hflags⟩)
    · exact ⟨[], rfl, List.forall_mem_nil _⟩
    · exact ⟨d :: flags, rfl, List.forall_mem_cons.mpr ⟨hd, hflags⟩⟩

/-- What is found in a group of short options. -/
theorem getopt.exists_mem_short {g : CString} (hc : c ≠ '?') :
    (∃ o ∈ (getopt.short optstring g).1, o.opt = c ∧ o.optarg = arg) ↔
      ∃ text hasArg, InGroup optstring g c text ∧ shortOption optstring c = some hasArg ∧
        ShortArg text hasArg arg := by
  induction g with
  | nil => exact iff_of_false (by simp [getopt.short]) fun ⟨_, _, h, _⟩ => inGroup_nil h
  | cons d g ih =>
    rw [getopt.short]
    simp only [inGroup_cons]
    cases hd : shortOption optstring d with
    | none =>
      simp only [List.exists_mem_cons_iff]
      rw [ih]
      constructor
      · rintro (⟨h, _⟩ | ⟨text, hasArg, hin, hopt, harg⟩)
        · exact absurd h.symm hc
        · exact ⟨text, hasArg, .inr ⟨.inl trivial, hin⟩, hopt, harg⟩
      · rintro ⟨text, hasArg, ⟨rfl, _⟩ | ⟨_, hin⟩, hopt, harg⟩
        · rw [hd] at hopt
          cases hopt
        · exact .inr ⟨text, hasArg, hin, hopt, harg⟩
    | some hasArg =>
      cases hasArg with
      | no =>
        simp only [List.exists_mem_cons_iff]
        rw [ih]
        constructor
        · rintro (⟨rfl, rfl⟩ | ⟨text, hasArg, hin, hopt, harg⟩)
          · exact ⟨g, .no, .inl ⟨rfl, rfl⟩, hd, rfl⟩
          · exact ⟨text, hasArg, .inr ⟨.inr trivial, hin⟩, hopt, harg⟩
        · rintro ⟨text, hasArg, ⟨rfl, _⟩ | ⟨_, hin⟩, hopt, harg⟩
          · rw [hd] at hopt
            cases hopt
            exact .inl ⟨rfl, harg.symm⟩
          · exact .inr ⟨text, hasArg, hin, hopt, harg⟩
      | optional =>
        simp only [List.mem_singleton, exists_eq_left]
        constructor
        · rintro ⟨rfl, rfl⟩
          exact ⟨g, .optional, .inl ⟨rfl, rfl⟩, hd, rfl⟩
        · rintro ⟨text, hasArg, ⟨rfl, rfl⟩ | ⟨h, _⟩, hopt, harg⟩
          · rw [hd] at hopt
            cases hopt
            exact ⟨rfl, harg.symm⟩
          · simp at h
      | required =>
        by_cases hg : g = []
        · simp only [if_pos hg]
          refine iff_of_false (by simp) ?_
          rintro ⟨text, hasArg, ⟨rfl, rfl⟩ | ⟨h, _⟩, hopt, harg⟩
          · rw [hd] at hopt
            cases hopt
            exact harg.1 hg
          · simp at h
        · simp only [if_neg hg, List.mem_singleton, exists_eq_left]
          constructor
          · rintro ⟨rfl, rfl⟩
            exact ⟨g, .required, .inl ⟨rfl, rfl⟩, hd, hg, rfl⟩
          · rintro ⟨text, hasArg, ⟨rfl, rfl⟩ | ⟨h, _⟩, hopt, harg⟩
            · rw [hd] at hopt
              cases hopt
              exact ⟨rfl, harg.2.symm⟩
            · simp at h

/-- What waits for its argument behind a group. -/
theorem getopt.exists_waiting_short {g : CString} :
    (∃ o ∈ (getopt.short optstring g).2, o.opt = c) ↔
      InGroup optstring g c [] ∧ shortOption optstring c = some .required := by
  induction g with
  | nil => exact iff_of_false (by simp [getopt.short]) fun h => inGroup_nil h.1
  | cons d g ih =>
    have hwaits (h : shortOption optstring d = none ∨ shortOption optstring d = some .no) :
        (InGroup optstring (d :: g) c [] ∧ shortOption optstring c = some .required) ↔
          InGroup optstring g c [] ∧ shortOption optstring c = some .required := by
      rw [inGroup_cons]
      constructor
      · rintro ⟨⟨rfl, _⟩ | ⟨_, hin⟩, hopt⟩
        · rw [hopt] at h
          simp at h
        · exact ⟨hin, hopt⟩
      · exact fun ⟨hin, hopt⟩ => ⟨.inr ⟨h, hin⟩, hopt⟩
    rw [getopt.short]
    cases hd : shortOption optstring d with
    | none => rw [hwaits (.inl hd), ← ih]
    | some hasArg =>
      cases hasArg with
      | no => rw [hwaits (.inr hd), ← ih]
      | optional =>
        refine iff_of_false (by simp) ?_
        rw [inGroup_cons, hd]
        rintro ⟨⟨rfl, _⟩ | ⟨h, _⟩, hopt⟩
        · rw [hd] at hopt
          cases hopt
        · simp at h
      | required =>
        rw [inGroup_cons, hd]
        by_cases hg : g = []
        · subst hg
          simp only [if_true, Option.mem_def, Option.some.injEq, exists_eq_left', and_true]
          constructor
          · rintro rfl
            exact ⟨.inl rfl, hd⟩
          · rintro ⟨rfl | ⟨h, _⟩, _⟩
            · rfl
            · simp at h
        · simp only [if_neg hg]
          refine iff_of_false (by simp) ?_
          rintro ⟨⟨_, h⟩ | ⟨h, _⟩, _⟩
          · exact hg h.symm
          · simp at h

/-- A word behind `--` is a name up to the first `=`, and a text behind it. -/
theorem named_iff {text : Option CString} (hword : w.word = "--".toList ++ nextchar) :
    LongNamed longopts w p text ↔ Abbreviates longopts (nextchar.takeWhile (· ≠ '=')) p ∧
      nextchar.dropWhile (· ≠ '=') = text.elim [] ('=' :: ·) := by
  have hspan {name rest : CString} (hname : '=' ∉ name) (hrest : ∀ d ∈ rest.head?, d = '=') :
      (name ++ rest).takeWhile (· ≠ '=') = name ∧ (name ++ rest).dropWhile (· ≠ '=') = rest := by
    have hall : ∀ d ∈ name, decide (d ≠ '=') = true := fun d hd =>
      decide_eq_true fun h => hname (h ▸ hd)
    rw [List.takeWhile_append_of_pos hall, List.dropWhile_append_of_pos hall]
    cases rest with
    | nil => exact ⟨by simp, rfl⟩
    | cons d rest =>
      obtain rfl := hrest d rfl
      exact ⟨by simp, by simp⟩
  constructor
  · intro h
    cases h with
    | @name name habbr hname hw =>
      obtain rfl := List.append_cancel_left (hword.symm.trans hw)
      obtain ⟨htake, hdrop⟩ := @hspan nextchar [] hname nofun
      rw [List.append_nil] at htake hdrop
      exact ⟨htake.symm ▸ habbr, hdrop⟩
    | @text name text habbr hname hw =>
      obtain rfl := List.append_cancel_left (hword.symm.trans hw)
      obtain ⟨htake, hdrop⟩ := @hspan name ('=' :: text) hname fun d hd => (Option.some.inj hd).symm
      exact ⟨htake.symm ▸ habbr, hdrop⟩
  · intro ⟨habbr, hdrop⟩
    have hname : '=' ∉ nextchar.takeWhile (· ≠ '=') := fun h => by
      simpa using List.mem_takeWhile_imp h
    have hsplit := (List.takeWhile_append_dropWhile (p := (· ≠ '=')) (l := nextchar)).symm
    cases text with
    | none =>
      rw [hdrop, Option.elim_none, List.append_nil] at hsplit
      exact .name habbr hname (hsplit ▸ hword)
    | some text =>
      rw [hdrop, Option.elim_some] at hsplit
      refine .text habbr hname ?_
      rw [← hsplit]
      exact hword

/-- The text of a long option is all that is behind its `=`. -/
theorem exists_text_iff {P : Option CString → Prop} :
    (∃ text : Option CString, nextchar.dropWhile (· ≠ '=') = text.elim [] ('=' :: ·) ∧ P text) ↔
      P (nextchar.dropWhile (· ≠ '=')).tail? := by
  cases hdrop : nextchar.dropWhile (· ≠ '=') with
  | nil =>
    constructor
    · rintro ⟨text, htext, h⟩
      cases text with
      | none => exact h
      | some text => cases htext
    · exact fun h => ⟨none, rfl, h⟩
  | cons d text =>
    have hd : d = '=' := by
      have hhead := List.head?_dropWhile_not (· ≠ '=') nextchar
      rw [hdrop] at hhead
      simpa using hhead
    subst hd
    constructor
    · rintro ⟨text', htext, h⟩
      cases text' with
      | none => cases htext
      | some text' =>
        cases htext
        exact h
    · exact fun h => ⟨some text, rfl, h⟩

theorem getopt.exists_mem_long (hnodup : (longopts.map LongOption.name).Nodup)
    (hword : w.word = "--".toList ++ nextchar) (hc : c ≠ '?') :
    (∃ o ∈ (getopt.long longopts nextchar).1, o.opt = c ∧ o.optarg = arg) ↔
      ∃ p text, LongNamed longopts w p text ∧ p.val = c ∧ LongArg text p.hasArg arg := by
  simp only [named_iff hword, ← pfound_eq_some_iff hnodup, and_assoc, exists_and_left,
    exists_text_iff]
  rw [getopt.long]
  dsimp only
  cases hfound : pfound longopts (nextchar.takeWhile (· ≠ '=')) with
  | none =>
    refine iff_of_false ?_ (by simp)
    simp only [List.mem_singleton, exists_eq_left]
    exact fun h => hc h.1.symm
  | some p =>
    simp only [Option.some.injEq, exists_eq_left']
    cases nextchar.dropWhile (· ≠ '=') with
    | nil => cases p.hasArg <;> simp [LongArg, eq_comm]
    | cons d text =>
      cases p.hasArg with
      | no => simp [LongArg, Ne.symm hc]
      | optional | required => simp [LongArg, eq_comm]

/-- What waits for its argument behind a long option. -/
theorem getopt.exists_waiting_long (hnodup : (longopts.map LongOption.name).Nodup)
    (hword : w.word = "--".toList ++ nextchar) :
    (∃ o ∈ (getopt.long longopts nextchar).2, o.opt = c) ↔
      ∃ p, LongNamed longopts w p none ∧ p.val = c ∧ p.hasArg = .required := by
  simp only [named_iff hword, ← pfound_eq_some_iff hnodup, and_assoc]
  rw [getopt.long]
  dsimp only
  cases hfound : pfound longopts (nextchar.takeWhile (· ≠ '=')) with
  | none => simp
  | some p =>
    simp only [Option.some.injEq, exists_eq_left']
    cases nextchar.dropWhile (· ≠ '=') with
    | nil => cases p.hasArg <;> simp [eq_comm]
    | cons d text => cases p.hasArg <;> simp

/-! ## The words that are looked at -/

theorem grouped_iff {flags text : CString} {d : Char} (hd : d ≠ '-')
    (hword : w.word = '-' :: d :: nextchar) :
    Grouped optstring w flags c text ↔
      d :: nextchar = flags ++ c :: text ∧ NoArgument optstring flags := by
  constructor
  · intro h
    exact ⟨(List.cons.inj (hword.symm.trans h.word)).2, h.flags⟩
  · intro ⟨hg, hflags⟩
    refine ⟨by rw [hword, hg], ?_, hflags⟩
    cases flags with
    | nil =>
      cases hg
      exact fun h => hd (Option.some.inj h)
    | cons d' flags =>
      cases hg
      exact fun h => hd (Option.some.inj h)

theorem not_grouped_of_long {flags text : CString} (hword : w.word = '-' :: '-' :: nextchar) :
    ¬ Grouped optstring w flags c text := by
  intro h
  have hg := (List.cons.inj (hword.symm.trans h.word)).2
  apply h.short
  cases flags with
  | nil =>
    cases hg
    rfl
  | cons d flags =>
    cases hg
    rfl

theorem LongNamed.exists_eq {text : Option CString} (h : LongNamed longopts w p text) :
    ∃ nextchar, w.word = '-' :: '-' :: nextchar := by
  cases h with
  | name _ _ hword => exact ⟨_, hword⟩
  | text _ _ hword => exact ⟨_, hword⟩

/-- The shapes of a word: long, a group, or no option. -/
theorem word_cases (optstring : List Char) (longopts : List LongOption) (w : Shell.Word) :
    (∃ nextchar, w.word = '-' :: '-' :: nextchar) ∨
      (∃ d nextchar, d ≠ '-' ∧ w.word = '-' :: d :: nextchar) ∨
      (∀ d nextchar, w.word ≠ '-' :: d :: nextchar) ∧
        getopt.inWord optstring longopts w = ([], none) := by
  by_cases hshape : ∃ d nextchar, w.word = '-' :: d :: nextchar
  · obtain ⟨d, nextchar, hword⟩ := hshape
    by_cases hd : d = '-'
    · subst hd
      exact .inl ⟨nextchar, hword⟩
    · exact .inr (.inl ⟨d, nextchar, hd, hword⟩)
  · have hnot (d : Char) (nextchar : CString) : w.word ≠ '-' :: d :: nextchar :=
      fun hword => hshape ⟨d, nextchar, hword⟩
    refine .inr (.inr ⟨hnot, ?_⟩)
    rw [getopt.inWord]
    split
    · rename_i hword
      exact absurd hword (hnot _ _)
    · rename_i hword
      exact absurd hword (hnot _ _)
    · rfl

/-- The options in a word. -/
theorem exists_mem_inWord (hnodup : (longopts.map LongOption.name).Nodup) (hc : c ≠ '?') :
    (∃ o ∈ (getopt.inWord optstring longopts w).1, o.opt = c ∧ o.optarg = arg) ↔
      Holds optstring longopts w c arg := by
  obtain ⟨nextchar, hword⟩ | ⟨d, nextchar, hd, hword⟩ | ⟨hnot, hnone⟩ :=
    word_cases optstring longopts w
  · rw [getopt.inWord_long hword, getopt.exists_mem_long hnodup hword hc]
    constructor
    · exact fun ⟨p, text, hnamed, hval, harg⟩ => .long hnamed hval harg
    · intro h
      cases h with
      | short hgrouped => exact absurd hgrouped (not_grouped_of_long hword)
      | long hnamed hval harg => exact ⟨_, _, hnamed, hval, harg⟩
  · rw [getopt.inWord_short hd hword, getopt.exists_mem_short hc]
    constructor
    · intro ⟨text, hasArg, ⟨flags, hg, hflags⟩, hopt, harg⟩
      exact .short ((grouped_iff hd hword).mpr ⟨hg, hflags⟩) hopt harg
    · intro h
      cases h with
      | short hgrouped hopt harg =>
        exact ⟨_, _, ⟨_, (grouped_iff hd hword).mp hgrouped⟩, hopt, harg⟩
      | long hnamed =>
        obtain ⟨nextchar', hlong⟩ := hnamed.exists_eq
        rw [hword] at hlong
        cases hlong
        exact absurd rfl hd
  · rw [hnone]
    refine iff_of_false (by simp) fun h => ?_
    cases h with
    | @short flags text hasArg hgrouped hopt harg =>
      have hword := hgrouped.word
      cases flags with
      | nil => exact hnot _ _ hword
      | cons d flags => exact hnot _ _ hword
    | long hnamed =>
      obtain ⟨nextchar, hword⟩ := hnamed.exists_eq
      exact hnot _ _ hword

/-- The option that waits for its argument behind a word. -/
theorem exists_waiting_inWord (hnodup : (longopts.map LongOption.name).Nodup) :
    (∃ o ∈ (getopt.inWord optstring longopts w).2, o.opt = c) ↔ Waits optstring longopts w c := by
  obtain ⟨nextchar, hword⟩ | ⟨d, nextchar, hd, hword⟩ | ⟨hnot, hnone⟩ :=
    word_cases optstring longopts w
  · rw [getopt.inWord_long hword, getopt.exists_waiting_long hnodup hword]
    constructor
    · exact fun ⟨p, hnamed, hval, harg⟩ => .long hnamed hval harg
    · intro h
      cases h with
      | short hgrouped => exact absurd hgrouped (not_grouped_of_long hword)
      | long hnamed hval harg => exact ⟨_, hnamed, hval, harg⟩
  · rw [getopt.inWord_short hd hword, getopt.exists_waiting_short]
    constructor
    · intro ⟨⟨flags, hg, hflags⟩, hopt⟩
      exact .short ((grouped_iff hd hword).mpr ⟨hg, hflags⟩) hopt
    · intro h
      cases h with
      | short hgrouped hopt => exact ⟨⟨_, (grouped_iff hd hword).mp hgrouped⟩, hopt⟩
      | long hnamed =>
        obtain ⟨nextchar', hlong⟩ := hnamed.exists_eq
        rw [hword] at hlong
        cases hlong
        exact absurd rfl hd
  · rw [hnone]
    refine iff_of_false (by simp) fun h => ?_
    cases h with
    | @short flags hgrouped hopt =>
      have hword := hgrouped.word
      cases flags with
      | nil => exact hnot _ _ hword
      | cons d flags => exact hnot _ _ hword
    | long hnamed =>
      obtain ⟨nextchar, hword⟩ := hnamed.exists_eq
      exact hnot _ _ hword

section
variable {v next : Shell.Word}

/-- A word that waits for no argument, and the words behind it. -/
theorem exists_lookedAt_cons_iff (hend : v.word ≠ "--".toList)
    (hnot : ∀ c, ¬ Waits optstring longopts v c) :
    (∃ w rest, LookedAt optstring longopts (v :: argv) w rest ∧
        Gives optstring longopts w rest c arg) ↔
      Holds optstring longopts v c arg ∨
        ∃ w rest, LookedAt optstring longopts argv w rest ∧
          Gives optstring longopts w rest c arg := by
  constructor
  · rintro ⟨w, rest, hlooked, hgives⟩
    cases hlooked with
    | here =>
      cases hgives with
      | held hheld => exact .inl hheld
      | next hwaits => exact absurd hwaits (hnot _)
    | skip _ _ hlooked => exact .inr ⟨w, rest, hlooked, hgives⟩
    | skipArg _ hwaits => exact absurd hwaits (hnot _)
  · rintro (hheld | ⟨w, rest, hlooked, hgives⟩)
    · exact ⟨v, argv, .here hend, .held hheld⟩
    · exact ⟨w, rest, .skip hend hnot hlooked, hgives⟩

/-- A word that waits for an argument takes the next one. -/
theorem exists_lookedAt_waits_iff {d : Char} (hend : v.word ≠ "--".toList)
    (hwaits : Waits optstring longopts v d) :
    (∃ w rest, LookedAt optstring longopts (v :: next :: argv) w rest ∧
        Gives optstring longopts w rest c arg) ↔
      Holds optstring longopts v c arg ∨ (Waits optstring longopts v c ∧ some next.word = arg) ∨
        ∃ w rest, LookedAt optstring longopts argv w rest ∧
          Gives optstring longopts w rest c arg := by
  constructor
  · rintro ⟨w, rest, hlooked, hgives⟩
    cases hlooked with
    | here =>
      cases hgives with
      | held hheld => exact .inl hheld
      | next hwaits hnext =>
        cases hnext
        exact .inr (.inl ⟨hwaits, rfl⟩)
    | skip _ hnot => exact absurd hwaits (hnot _)
    | skipArg _ _ hlooked => exact .inr (.inr ⟨w, rest, hlooked, hgives⟩)
  · rintro (hheld | ⟨hwaits', rfl⟩ | ⟨w, rest, hlooked, hgives⟩)
    · exact ⟨v, next :: argv, .here hend, .held hheld⟩
    · exact ⟨v, next :: argv, .here hend, .next hwaits' rfl⟩
    · exact ⟨w, rest, .skipArg hend hwaits hlooked, hgives⟩

/-- The last word gives what it holds. -/
theorem exists_lookedAt_singleton_iff (hend : v.word ≠ "--".toList) :
    (∃ w rest, LookedAt optstring longopts [v] w rest ∧ Gives optstring longopts w rest c arg) ↔
      Holds optstring longopts v c arg := by
  constructor
  · rintro ⟨w, rest, hlooked, hgives⟩
    cases hlooked with
    | here =>
      cases hgives with
      | held hheld => exact hheld
      | next _ hnext => cases hnext
    | skip _ _ hlooked => cases hlooked
  · exact fun hheld => ⟨v, [], .here hend, .held hheld⟩

/-- Nothing is looked at behind `--`. -/
theorem not_lookedAt_of_end (hend : v.word = "--".toList) :
    ¬ LookedAt optstring longopts (v :: argv) w rest := by
  intro hlooked
  cases hlooked with
  | here hne => exact hne hend
  | skip hne => exact hne hend
  | skipArg hne => exact hne hend

end

/-- What `getopt_long` finds is what the words that it looks at give. -/
theorem exists_mem_getopt_iff (hnodup : (longopts.map LongOption.name).Nodup) (hc : c ≠ '?') :
    (∃ o ∈ getopt optstring longopts none argv, o.opt = c ∧ o.optarg = arg) ↔
      ∃ w rest, LookedAt optstring longopts argv w rest ∧
        Gives optstring longopts w rest c arg := by
  induction hlength : argv.length using Nat.strong_induction_on generalizing argv with
  | _ n ih =>
  subst hlength
  cases argv with
  | nil =>
    apply iff_of_false (by simp [getopt])
    rintro ⟨w, rest, hlooked, _⟩
    cases hlooked
  | cons v argv =>
    by_cases hend : v.word = "--".toList
    · apply iff_of_false (by simp [getopt, hend])
      rintro ⟨w, rest, hlooked, _⟩
      exact not_lookedAt_of_end hend hlooked
    rw [getopt_cons hend]
    simp only [List.mem_append, or_and_right, exists_or, exists_mem_inWord hnodup hc]
    cases hwaiting : (getopt.inWord optstring longopts v).2 with
    | none =>
      have hnot (c : Char) : ¬ Waits optstring longopts v c := by
        intro h
        obtain ⟨o, ho, _⟩ := (exists_waiting_inWord hnodup).mpr h
        rw [hwaiting] at ho
        cases ho
      rw [ih argv.length (Nat.lt_succ_self _) rfl]
      exact (exists_lookedAt_cons_iff hend hnot).symm
    | some waiting =>
      have hwaits {c : Char} : waiting.opt = c ↔ Waits optstring longopts v c := by
        rw [← exists_waiting_inWord hnodup, hwaiting]
        simp
      cases argv with
      | nil =>
        have hnone : ¬ ∃ o ∈ getopt optstring longopts (some waiting) [],
            o.opt = c ∧ o.optarg = arg := by
          rintro ⟨o, ho, hopt, _⟩
          cases List.mem_singleton.mp ho
          exact hc hopt.symm
        rw [or_iff_left hnone]
        exact (exists_lookedAt_singleton_iff hend).symm
      | cons next argv =>
        rw [getopt]
        simp only [List.exists_mem_cons_iff]
        rw [ih argv.length (Nat.lt_succ_of_lt (Nat.lt_succ_self _)) rfl, hwaits]
        exact (exists_lookedAt_waits_iff hend (hwaits.mp rfl)).symm

end Cfengine
