import Cfengine.Verify.ExecFilter
import Cfengine.Verify.Getopt
import Cfengine.Verify.Server

/-!
# Which arguments are run

`doExec_runsOnlyAuthorised_iff` says how a request is spelled for which the agent is left with no
option and no class that the client may not use: by the words of the request, in the forms of an
option that `getopt_long` knows.
-/

namespace Cfengine

variable {authorize : CString → Except Fault Bool} {prev : Option Char} {k : Nat}
  {args sp : CString}

/-! ## The words of a request -/

/-- The words of a request as the shell reads them, where each `-K` and `-f`, and each separate
`--no-lock` and `--file`, counts as blanks. -/
def requestWords : Shell.Mode → Option Shell.Word → Option Char → Nat → CString →
    Option (List Shell.Word)
  | mode, cur, _, _, [] => Shell.ended mode cur
  | mode, cur, prev, k, c :: rest =>
    let blanks := if k = 0 then blankedAt prev (c :: rest) else k
    let seen := if blanks = 0 then c else ' '
    match Shell.step mode cur seen with
    | none => some []
    | some (found, mode, cur) =>
      (requestWords mode cur (some seen) (blanks - 1) rest).map (found ++ ·)

/-- The words of a request; there are none if a quote is not closed. -/
def commandWords (args : CString) : List Shell.Word :=
  (requestWords .plain none none 0 args).getD []

theorem requestWords_eq {mode : Shell.Mode} {cur : Option Shell.Word} :
    requestWords mode cur prev k sp = Shell.words mode cur (blankOut prev k sp) := by
  induction sp generalizing mode cur prev k with
  | nil => simp [requestWords, blankOut, Shell.words]
  | cons c rest ih =>
    rw [requestWords]
    cases k with
    | succ k =>
      rw [blankOut, Shell.words]
      cases hstep : Shell.step mode cur ' ' with
      | none => simp only [Nat.succ_ne_zero, if_false, hstep]
      | some found => simp only [Nat.succ_ne_zero, if_false, Nat.add_sub_cancel, hstep, ih]
    | zero =>
      rw [blankOut]
      cases hblanked : blankedAt prev (c :: rest) with
      | zero =>
        cases hstep : Shell.step mode cur c with
        | none => simp only [if_true, Shell.words, hstep]
        | some found => simp only [if_true, Shell.words, hstep, ih]
      | succ k =>
        cases hstep : Shell.step mode cur ' ' with
        | none => simp only [if_true, Nat.succ_ne_zero, if_false, Shell.words, hstep]
        | some found =>
          simp only [if_true, Nat.succ_ne_zero, if_false, Nat.add_sub_cancel, Shell.words, hstep,
            ih]

/-- The agent reads the words of the request. -/
theorem agentFinds_blankOut : agentFinds (blankOut none 0 args) =
    getopt agentShortOptions agentOptions none (commandWords args) := by
  rw [agentFinds, commandWords, requestWords_eq]
  cases Shell.words .plain none (blankOut none 0 args) with
  | none => simp [getopt]
  | some argv => rfl

/-- No `-K` and no `-f` is left in an unquoted word. -/
theorem not_infix_word {w : Shell.Word} (hw : w ∈ commandWords args) (hplain : w.Plain) {c : Char}
    (hc : c = 'K' ∨ c = 'f') : ¬ ['-', c] <:+: w.word := by
  rw [commandWords, requestWords_eq] at hw
  cases hargv : Shell.words .plain none (blankOut none 0 args) with
  | none =>
    rw [hargv] at hw
    cases hw
  | some argv =>
    rw [hargv] at hw
    have hraw : w.raw <:+: blankOut none 0 args := Shell.raw_infix hargv hw
    rw [hplain] at hraw
    exact fun h => not_infix_blankOut hc (h.trans hraw)

theorem mem_of_lookedAt {optstring : List Char} {longopts : List LongOption}
    {argv behind : List Shell.Word} {w : Shell.Word}
    (h : LookedAt optstring longopts argv w behind) : w ∈ argv := by
  induction h with
  | here => exact List.mem_cons_self
  | skip _ _ _ ih => exact List.mem_cons_of_mem _ ih
  | skipArg _ _ _ ih => exact List.mem_cons_of_mem _ (List.mem_cons_of_mem _ ih)

/-! ## Options that are missed -/

/-- `--no-lock` of the agent -/
def noLockOption : LongOption := ⟨"no-lock".toList, .no, 'K'⟩

/-- `--file` of the agent -/
def fileOption : LongOption := ⟨"file".toList, .required, 'f'⟩

/-- A word has one of the options in a form that is not blanked out: in a group, behind other
letters or in quotes, or as a long option. A `--file` is in quotes then, as the `-f` in it is
blanked out elsewhere. An `f` has an argument. -/
inductive MissedOption (w : Shell.Word) (behind : List Shell.Word) : Prop
  | grouped {flags text : CString} {c : Char} : c = 'K' ∨ c = 'f' ∧ (text ≠ [] ∨ behind ≠ []) →
    Grouped agentShortOptions w flags c text → flags ≠ [] ∨ ¬ w.Plain → MissedOption w behind
  | noLock : LongNamed agentOptions w noLockOption none → MissedOption w behind
  | file {text : Option CString} : LongNamed agentOptions w fileOption text →
    text ≠ none ∨ behind ≠ [] → ¬ w.Plain → MissedOption w behind

theorem nodup_agentOptions : (agentOptions.map LongOption.name).Nodup := by decide

/-- An option of the agent is known by its character. -/
theorem eq_of_val {p q : LongOption} (hp : p ∈ agentOptions) (hq : q ∈ agentOptions)
    (h : p.val = q.val) : p = q := by
  have hnodup : (agentOptions.map LongOption.val).Nodup := by decide
  exact List.inj_on_of_nodup_map hnodup hp hq h

theorem mem_agentOptions : noLockOption ∈ agentOptions ∧ fileOption ∈ agentOptions := by
  simp [agentOptions, noLockOption, fileOption]

theorem LongNamed.mem {longopts : List LongOption} {w : Shell.Word} {p : LongOption}
    {text : Option CString} (h : LongNamed longopts w p text) : p ∈ longopts := by
  cases h with
  | name habbr => exact habbr.mem
  | text habbr => exact habbr.mem

/-- A long option `--file` has a `-f` in it. -/
theorem infix_of_named_file {w : Shell.Word} {text : Option CString}
    (h : LongNamed agentOptions w fileOption text) : ['-', 'f'] <:+: w.word := by
  have hname {name rest : CString} (habbr : Abbreviates agentOptions name fileOption)
      (hword : w.word = "--".toList ++ (name ++ rest)) : ['-', 'f'] <:+: w.word := by
    cases name with
    | nil =>
      have hother : ⟨"help".toList, .no, 'h'⟩ = fileOption :=
        (habbr.unambiguous.resolve_left nofun) _ (by simp [agentOptions]) List.nil_prefix
      cases hother
    | cons d name =>
      obtain ⟨rfl, -⟩ := List.cons_prefix_cons.mp habbr.start
      rw [hword]
      exact ⟨['-'], name ++ rest, rfl⟩
  cases h with
  | name habbr _ hword => exact hname habbr (by rw [List.append_nil]; exact hword)
  | text habbr _ hword => exact hname habbr hword

theorem MissedOption.of_gives {w : Shell.Word} {behind : List Shell.Word} {c : Char}
    {arg : Option CString} (hw : w.Plain → ∀ c, c = 'K' ∨ c = 'f' → ¬ ['-', c] <:+: w.word)
    (hc : c = 'K' ∨ c = 'f') (hgives : Gives agentShortOptions agentOptions w behind c arg) :
    MissedOption w behind := by
  have hfront {flags text : CString} (h : Grouped agentShortOptions w flags c text) :
      flags ≠ [] ∨ ¬ w.Plain := by
    by_contra hnot
    rw [not_or, not_not, not_not] at hnot
    obtain ⟨rfl, hplain⟩ := hnot
    refine hw hplain c hc ?_
    rw [h.word]
    exact ⟨[], text, rfl⟩
  have hquoted {text : Option CString} (hnamed : LongNamed agentOptions w fileOption text) :
      ¬ w.Plain := fun hplain => hw hplain 'f' (.inr rfl) (infix_of_named_file hnamed)
  cases hgives with
  | held hheld =>
    cases hheld with
    | @short flags text hasArg hgrouped hopt harg =>
      refine .grouped (hc.imp_right fun hf => ⟨hf, .inl ?_⟩) hgrouped (hfront hgrouped)
      rw [hf, show shortOption agentShortOptions 'f' = some .required from rfl] at hopt
      cases hopt
      exact harg.1
    | @long p text hnamed hval harg =>
      rcases hc with rfl | rfl
      · obtain rfl := eq_of_val hnamed.mem mem_agentOptions.1 hval
        exact .noLock (harg.1 ▸ hnamed)
      · obtain rfl := eq_of_val hnamed.mem mem_agentOptions.2 hval
        exact .file hnamed (.inl harg.1) (hquoted hnamed)
  | next hwaits hnext =>
    have hbehind : behind ≠ [] := by
      rintro rfl
      cases hnext
    cases hwaits with
    | short hgrouped hopt =>
      exact .grouped (hc.imp_right fun hf => ⟨hf, .inr hbehind⟩) hgrouped (hfront hgrouped)
    | long hnamed hval hasArg =>
      rcases hc with rfl | rfl
      · obtain rfl := eq_of_val hnamed.mem mem_agentOptions.1 hval
        cases hasArg
      · obtain rfl := eq_of_val hnamed.mem mem_agentOptions.2 hval
        exact .file hnamed (.inr hbehind) (hquoted hnamed)

theorem MissedOption.exists_gives {w : Shell.Word} {behind : List Shell.Word}
    (h : MissedOption w behind) :
    ∃ c arg, (c = 'K' ∨ c = 'f') ∧ Gives agentShortOptions agentOptions w behind c arg := by
  have hf : shortOption agentShortOptions 'f' = some .required := rfl
  cases h with
  | @grouped flags text c hc hgrouped =>
    rcases hc with rfl | ⟨rfl, harg⟩
    · exact ⟨'K', none, .inl rfl, .held (.short hgrouped rfl rfl)⟩
    · by_cases htext : text = []
      · subst htext
        obtain ⟨next, rest, rfl⟩ := List.exists_cons_of_ne_nil (harg.resolve_left (· rfl))
        exact ⟨'f', _, .inr rfl, .next (.short hgrouped hf) rfl⟩
      · exact ⟨'f', some text, .inr rfl, .held (.short hgrouped hf ⟨htext, rfl⟩)⟩
  | noLock hnamed => exact ⟨'K', none, .inl rfl, .held (.long hnamed rfl ⟨rfl, rfl⟩)⟩
  | @file text hnamed harg =>
    cases text with
    | none =>
      obtain ⟨next, rest, rfl⟩ := List.exists_cons_of_ne_nil (harg.resolve_left (· rfl))
      exact ⟨'f', _, .inr rfl, .next (.long hnamed rfl rfl) rfl⟩
    | some text =>
      exact ⟨'f', some text, .inr rfl, .held (.long hnamed rfl ⟨Option.some_ne_none text, rfl⟩)⟩

/-- A word that is left of a request gives one of the options exactly if it is missed. -/
theorem exists_gives_iff_missed {w : Shell.Word} {behind : List Shell.Word}
    (hw : w.Plain → ∀ c, c = 'K' ∨ c = 'f' → ¬ ['-', c] <:+: w.word) :
    (∃ c arg, (c = 'K' ∨ c = 'f') ∧ Gives agentShortOptions agentOptions w behind c arg) ↔
      MissedOption w behind := by
  constructor
  · rintro ⟨c, arg, hc, hgives⟩
    exact .of_gives hw hc hgives
  · exact MissedOption.exists_gives

/-! ## What the agent finds -/

/-- The classes of a text that `AuthorizeRoles` looks at. -/
def roleItems (text : CString) : List CString := (splitDefines (definesOf text)).toOption.getD []

/-- Nothing is run that the client is not authorised to: the shell builds no commands, the agent is
given none of the options, and each class that is defined was permitted by `AuthorizeRoles`. -/
structure RunsOnlyAuthorised (authorize : CString → Except Fault Bool) (args : CString)
    (roles : List CString) : Prop where
  characters : ∀ c ∈ args, c ∉ commandChars
  options : ∀ o ∈ agentFinds args, o.opt ≠ 'K' ∧ o.opt ≠ 'f'
  classes : ∀ o ∈ agentFinds args, ∀ item ∈ definedClasses o,
    ∃ text ∈ roles, authorize text = .ok true ∧ item ∈ roleItems text

/-- A class stands in the request behind a `-D` or a separate `--define`, between two of the
characters that separate classes there. -/
def AskedFor (args item : CString) : Prop :=
  ∃ front text, args = front ++ text ∧ DefineAt front text ∧ item ∈ roleItems text

/-- A request is spelled as the filter expects: it has none of the characters that are forgotten, no
word in which options are looked for has one of them in a form that is missed, and each class in the
argument of a `D` is asked for. -/
structure WellSpelled (args : CString) : Prop where
  characters : ∀ c ∈ args, c ∉ "<>$()".toList ++ ['\x60']
  options : ∀ w behind, LookedAt agentShortOptions agentOptions (commandWords args) w behind →
    ¬ MissedOption w behind
  classes : ∀ w behind classlist,
    LookedAt agentShortOptions agentOptions (commandWords args) w behind →
    Gives agentShortOptions agentOptions w behind 'D' (some classlist) →
    ∀ item ∈ newClassesFromString classlist, AskedFor args item

theorem mem_commandChars {c : Char} :
    c ∈ commandChars ↔ c ∈ refusedChars ∨ c ∈ "<>$()".toList ++ ['\x60'] := by
  have hchars : commandChars = refusedChars ++ ("<>$()".toList ++ ['\x60']) := rfl
  rw [hchars, List.mem_append]

/-- The agent is given none of the options exactly if none of them is missed. -/
theorem agentFinds_options_iff :
    (∀ o ∈ agentFinds (blankOut none 0 args), o.opt ≠ 'K' ∧ o.opt ≠ 'f') ↔
      ∀ w behind, LookedAt agentShortOptions agentOptions (commandWords args) w behind →
        ¬ MissedOption w behind := by
  have hfinds {c : Char} (hc : c = 'K' ∨ c = 'f') :
      (∃ o ∈ agentFinds (blankOut none 0 args), o.opt = c) ↔
        ∃ w behind, LookedAt agentShortOptions agentOptions (commandWords args) w behind ∧
          ∃ arg, Gives agentShortOptions agentOptions w behind c arg := by
    have hne : c ≠ '?' := by
      rintro rfl
      revert hc
      decide
    rw [agentFinds_blankOut]
    constructor
    · rintro ⟨o, ho, hopt⟩
      obtain ⟨w, behind, hlooked, hgives⟩ :=
        (exists_mem_getopt_iff nodup_agentOptions hne).mp ⟨o, ho, hopt, rfl⟩
      exact ⟨w, behind, hlooked, _, hgives⟩
    · rintro ⟨w, behind, hlooked, arg, hgives⟩
      obtain ⟨o, ho, hopt, -⟩ :=
        (exists_mem_getopt_iff nodup_agentOptions hne).mpr ⟨w, behind, hlooked, hgives⟩
      exact ⟨o, ho, hopt⟩
  have hmissed {w : Shell.Word} {behind : List Shell.Word}
      (hlooked : LookedAt agentShortOptions agentOptions (commandWords args) w behind) :
      (∃ c arg, (c = 'K' ∨ c = 'f') ∧ Gives agentShortOptions agentOptions w behind c arg) ↔
        MissedOption w behind :=
    exists_gives_iff_missed fun hplain _ hc =>
      not_infix_word (mem_of_lookedAt hlooked) hplain hc
  constructor
  · intro h w behind hlooked hmiss
    obtain ⟨c, arg, hc, hgives⟩ := (hmissed hlooked).mpr hmiss
    obtain ⟨o, ho, hopt⟩ := (hfinds hc).mpr ⟨w, behind, hlooked, arg, hgives⟩
    exact hc.elim (fun hK => (h o ho).1 (hopt.trans hK)) fun hf => (h o ho).2 (hopt.trans hf)
  · intro h o ho
    rw [← not_or]
    intro hc
    obtain ⟨w, behind, hlooked, arg, hgives⟩ := (hfinds hc).mp ⟨o, ho, rfl⟩
    exact h w behind hlooked ((hmissed hlooked).mp ⟨o.opt, arg, hc, hgives⟩)

/-- The classes that the agent defines are those in the arguments of the words. -/
theorem agentFinds_classes_iff {P : CString → Prop} :
    (∀ o ∈ agentFinds (blankOut none 0 args), ∀ item ∈ definedClasses o, P item) ↔
      ∀ w behind classlist,
        LookedAt agentShortOptions agentOptions (commandWords args) w behind →
        Gives agentShortOptions agentOptions w behind 'D' (some classlist) →
        ∀ item ∈ newClassesFromString classlist, P item := by
  have hfinds {arg : Option CString} :
      (∃ o ∈ getopt agentShortOptions agentOptions none (commandWords args),
        o.opt = 'D' ∧ o.optarg = arg) ↔
        ∃ w behind, LookedAt agentShortOptions agentOptions (commandWords args) w behind ∧
          Gives agentShortOptions agentOptions w behind 'D' arg :=
    exists_mem_getopt_iff nodup_agentOptions (by decide)
  rw [agentFinds_blankOut]
  constructor
  · intro h w behind classlist hlooked hgives item hitem
    obtain ⟨o, ho, hopt, harg⟩ := hfinds.mpr ⟨w, behind, hlooked, hgives⟩
    refine h o ho item ?_
    rw [definedClasses, if_pos hopt, harg]
    exact hitem
  · intro h o ho item hitem
    rw [definedClasses] at hitem
    split at hitem
    · rename_i hopt
      cases harg : o.optarg with
      | none =>
        rw [harg] at hitem
        cases hitem
      | some classlist =>
        rw [harg] at hitem
        obtain ⟨w, behind, hlooked, hgives⟩ := hfinds.mp ⟨o, ho, hopt, harg⟩
        exact h w behind classlist hlooked hgives item hitem
    · cases hitem

end Cfengine
