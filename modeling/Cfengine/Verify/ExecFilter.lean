import Cfengine.Server.Exec

/-!
# The filter of `DoExec`

The loop of `DoExec` blanks out every `-K` and `-f` and each separate `--no-lock` and `--file`
(`doExec.loop_eq_ok_iff`), and asks for the classes at each `-D` and each separate `--define` of the
request (`mem_defineTexts_iff`).
-/

namespace Cfengine

variable {authorize : CString → Except Fault Bool} {prev : Option Char} {n k : Nat}
  {args front sp rest word : CString} {roles : List CString}

/-! ## What is blanked out -/

/-- A word that stands at the start or behind a blank, and in front of a blank or at the end, or
anywhere at the start. -/
def separate (prev : Option Char) (sp word : CString) : Bool :=
  word.isPrefixOf sp &&
    (prev = none || prev = some ' ' && (sp[word.length]? = some ' ' || sp[word.length]? = none))

/-- The number of characters that are blanked out from a place on. -/
def blankedAt (prev : Option Char) (sp : CString) : Nat :=
  if "-K".toList.isPrefixOf sp || "-f".toList.isPrefixOf sp then 2
  else if separate prev sp "--no-lock".toList then "--no-lock".length
  else if separate prev sp "--file".toList then "--file".length
  else 0

/-- A class is defined at a place. -/
def definesAt (prev : Option Char) (sp : CString) : Bool :=
  separate prev sp "--define".toList || "-D".toList.isPrefixOf sp

/-- The arguments with the options blanked out, behind the character `prev` and with `k` characters
that are still to be blanked out. -/
def blankOut : Option Char → Nat → CString → CString
  | _, _, [] => []
  | _, k + 1, _ :: rest => ' ' :: blankOut (some ' ') k rest
  | prev, 0, c :: rest =>
    match blankedAt prev (c :: rest) with
    | 0 => c :: blankOut (some c) 0 rest
    | k + 1 => ' ' :: blankOut (some ' ') k rest

attribute [grind =] blankOut

/-- The texts behind `-D` and `--define`, from there to the end of the arguments. -/
def defineTexts : Option Char → Nat → CString → List CString
  | _, _, [] => []
  | _, k + 1, _ :: rest => defineTexts (some ' ') k rest
  | prev, 0, c :: rest =>
    match blankedAt prev (c :: rest) with
    | 0 =>
      if definesAt prev (c :: rest) then (c :: rest) :: defineTexts (some c) 0 rest
      else defineTexts (some c) 0 rest
    | k + 1 => defineTexts (some ' ') k rest

variable (word) in
theorem optionFound_short (hword : word.length = 2) :
    optionFound front sp word = word.isPrefixOf sp := by
  rw [optionFound]
  cases hpre : word.isPrefixOf sp with
  | true => simp [hword]
  | false => simp

variable (word) in
theorem optionFound_long (hword : word.length ≠ 2) :
    optionFound front sp word = separate front.getLast? sp word := by
  rw [optionFound, separate]
  cases hpre : word.isPrefixOf sp with
  | true =>
    cases hfront : front with
    | nil => simp [hword]
    | cons c front => simp [hword]
  | false => simp

/-- The options that are blanked out. -/
def blankedOptions : List CString :=
  ["-K".toList, "-f".toList, "--no-lock".toList, "--file".toList]

theorem separate_start (h : separate prev sp word = true) : word <+: sp :=
  List.isPrefixOf_iff_prefix.mp (Bool.and_eq_true_iff.mp h).1

variable (prev sp) in
/-- Where something is blanked out, there is one of the options. -/
theorem blankedAt_cases : blankedAt prev sp = 0 ∨
    ∃ word ∈ blankedOptions, word <+: sp ∧ blankedAt prev sp = word.length := by
  rw [blankedAt]
  split
  · rename_i hshort
    apply Or.inr
    cases Bool.or_eq_true_iff.mp hshort with
    | inl hK => exact ⟨_, List.mem_cons_self, List.isPrefixOf_iff_prefix.mp hK, rfl⟩
    | inr hf =>
      exact ⟨"-f".toList, by simp [blankedOptions], List.isPrefixOf_iff_prefix.mp hf, rfl⟩
  split
  · rename_i hlock
    exact .inr ⟨"--no-lock".toList, by simp [blankedOptions], separate_start hlock, rfl⟩
  split
  · rename_i hfile
    exact .inr ⟨"--file".toList, by simp [blankedOptions], separate_start hfile, rfl⟩
  · exact .inl rfl

/-- What is blanked out from a place on, and the rest. -/
theorem exists_append_of_blankedAt (h : blankedAt prev sp = k + 1) :
    ∃ word ∈ blankedOptions, word.length = k + 1 ∧ sp = word ++ sp.drop (k + 1) := by
  cases blankedAt_cases prev sp with
  | inl hzero =>
    rw [h] at hzero
    cases hzero
  | inr hword =>
    obtain ⟨word, hmem, hpre, hlength⟩ := hword
    rw [h] at hlength
    refine ⟨word, hmem, hlength.symm, ?_⟩
    rw [hlength]
    exact (List.prefix_iff_eq_append.mp hpre).symm

theorem blankedAt_eq_two (h : "-K".toList <+: sp ∨ "-f".toList <+: sp) :
    blankedAt prev sp = 2 := by
  rw [blankedAt]
  apply if_pos
  rw [Bool.or_eq_true_iff]
  exact h.imp List.isPrefixOf_iff_prefix.mpr List.isPrefixOf_iff_prefix.mpr

/-! ## The loop of `DoExec` -/

/-- The characters that the loop ends at. -/
def refusedChars : CString := ";&|".toList

theorem blankedOptions_not_refused (hword : word ∈ blankedOptions) {c : Char} (hc : c ∈ word) :
    c ∉ refusedChars := by
  have hall : (blankedOptions.all fun word => word.all (· ∉ refusedChars)) = true := rfl
  exact of_decide_eq_true (List.all_eq_true.mp (List.all_eq_true.mp hall word hword) c hc)

namespace doExec

theorem loop_cons_eq {c : Char} (hrefused : c ∉ refusedChars) :
    loop authorize (n + 1) front (c :: rest) =
      match blankedAt front.getLast? (c :: rest) with
      | k + 1 => loop authorize n (front ++ [' ']) (List.replicate k ' ' ++ rest.drop k)
      | 0 =>
        if definesAt front.getLast? (c :: rest) then
          match authorize (c :: rest) with
          | .error fault => .error fault
          | .ok false => .ok none
          | .ok true => (loop authorize n (front ++ [c]) rest).map
              (Option.map fun (args, roles) => (args, (c :: rest) :: roles))
        else loop authorize n (front ++ [c]) rest := by
  rw [loop]
  simp only [optionFound_short "-K".toList rfl, optionFound_short "-f".toList rfl,
    optionFound_short "-D".toList rfl,
    optionFound_long "--no-lock".toList (by decide),
    optionFound_long "--file".toList (by decide),
    optionFound_long "--define".toList (by decide)]
  have hchar : ¬ (c = ';' || c = '&' || c = '|') = true := by
    simpa [refusedChars, not_or, and_assoc] using hrefused
  rw [if_neg hchar, blankedAt]
  split
  · rfl
  split
  · rfl
  split
  · rfl
  · rfl

theorem loop_refused {c : Char} (hrefused : c ∈ refusedChars) :
    loop authorize (n + 1) front (c :: rest) = .ok none := by
  rw [loop]
  apply if_pos
  simpa [refusedChars, or_assoc] using hrefused

/-- A blank in the arguments is passed over. -/
theorem loop_blank : loop authorize (n + 1) front (' ' :: rest) =
    loop authorize n (front ++ [' ']) rest := by
  rw [loop_cons_eq (by decide)]
  rfl

theorem loop_nil : loop authorize n front [] = .ok (some (front, [])) := by
  cases n with
  | zero => rw [loop, List.append_nil]
  | succ n => rfl

/-- A permitted text is put in front of those of the rest. -/
theorem map_cons_eq_ok_iff {text : CString}
    {result : Except Fault (Option (CString × List CString))} :
    result.map (Option.map fun (args, roles) => (args, text :: roles)) = .ok (some (args, roles)) ↔
      ∃ roles', result = .ok (some (args, roles')) ∧ roles = text :: roles' := by
  cases result with
  | error fault => simp [Except.map]
  | ok found =>
    cases found with
    | none => simp [Except.map]
    | some found =>
      obtain ⟨args', roles'⟩ := found
      simp only [Except.map, Option.map_some, Except.ok.injEq, Option.some.injEq, Prod.mk.injEq]
      constructor
      · intro ⟨hargs, hroles⟩
        exact ⟨roles', ⟨hargs, rfl⟩, hroles.symm⟩
      · intro ⟨_, ⟨hargs, hroles'⟩, hroles⟩
        exact ⟨hargs, by rw [hroles, hroles']⟩

/-- What the loop comes to: nothing that ends it is in the arguments, and every text of classes is
authorised. -/
theorem loop_eq_ok_iff (hn : sp.length ≤ n) (hk : k ≤ sp.length) :
    loop authorize n front (List.replicate k ' ' ++ sp.drop k) = .ok (some (args, roles)) ↔
      (∀ c ∈ sp.drop k, c ∉ refusedChars) ∧
        (∀ text ∈ defineTexts front.getLast? k sp, authorize text = .ok true) ∧
        args = front ++ blankOut front.getLast? k sp ∧ roles = defineTexts front.getLast? k sp := by
  induction sp generalizing n front k args roles with
  | nil =>
    cases Nat.le_zero.mp hk
    rw [List.replicate_zero, List.drop_nil, List.append_nil, loop_nil]
    simp [blankOut, defineTexts, eq_comm]
  | cons c rest ih =>
    have hlast (d : Char) : (front ++ [d]).getLast? = some d := List.getLast?_concat
    obtain ⟨n, rfl⟩ : ∃ m, n = m + 1 := ⟨n - 1, by simp only [List.length_cons] at hn; omega⟩
    have hn : rest.length ≤ n := Nat.le_of_succ_le_succ hn
    cases k with
    | succ k =>
      have hk : k ≤ rest.length := Nat.le_of_succ_le_succ hk
      rw [List.replicate_succ, List.cons_append, List.drop_succ_cons, loop_blank, ih hn hk, hlast,
        blankOut, defineTexts, List.append_assoc, List.singleton_append]
    | zero =>
      rw [List.replicate_zero, List.nil_append, List.drop_zero]
      by_cases hrefused : c ∈ refusedChars
      · rw [loop_refused hrefused]
        apply iff_of_false
        · intro h
          cases h
        · intro h
          exact h.1 c List.mem_cons_self hrefused
      rw [loop_cons_eq hrefused, blankOut, defineTexts]
      cases hblanked : blankedAt front.getLast? (c :: rest) with
      | succ k =>
        obtain ⟨word, hword, hlength, hsp⟩ := exists_append_of_blankedAt hblanked
        have hk : k ≤ rest.length := by
          have hlen := congrArg List.length hsp
          rw [List.length_append, hlength, List.length_cons] at hlen
          omega
        have hchars : (∀ d ∈ c :: rest, d ∉ refusedChars) ↔
            ∀ d ∈ rest.drop k, d ∉ refusedChars := by
          rw [hsp, List.drop_succ_cons, List.forall_mem_append]
          exact and_iff_right fun d hd => blankedOptions_not_refused hword hd
        simp only
        rw [ih hn hk, hlast, hchars, List.append_assoc, List.singleton_append]
      | zero =>
        have hih {args roles} : loop authorize n (front ++ [c])
            (List.replicate 0 ' ' ++ rest.drop 0) = .ok (some (args, roles)) ↔ _ :=
          ih hn (Nat.zero_le _)
        rw [List.replicate_zero, List.nil_append, List.drop_zero, hlast, List.append_assoc,
          List.singleton_append] at hih
        simp only
        rw [List.forall_mem_cons, and_iff_right hrefused]
        split
        · rw [List.forall_mem_cons]
          cases hauthorize : authorize (c :: rest) with
          | error fault => simp
          | ok permitted =>
            cases permitted with
            | false => simp
            | true =>
              simp only
              rw [map_cons_eq_ok_iff]
              constructor
              · intro ⟨roles', hloop, hroles⟩
                obtain ⟨hchars, htexts, hargs, hroles'⟩ := hih.mp hloop
                exact ⟨hchars, ⟨trivial, htexts⟩, hargs, by rw [hroles, hroles']⟩
              · intro ⟨hchars, ⟨_, htexts⟩, hargs, hroles⟩
                exact ⟨_, hih.mpr ⟨hchars, htexts, hargs, rfl⟩, hroles⟩
        · exact hih

end doExec

/-! ## Where classes are defined -/

/-- The long options that are blanked out. -/
def blankedLong : List CString := ["--no-lock".toList, "--file".toList]

/-- What stands in front ends with a blank, or with an option that is blanked out. -/
def BlankBefore (front : CString) : Prop :=
  front.getLast? = some ' ' ∨ "-K".toList <:+ front ∨ "-f".toList <:+ front ∨ front ∈ blankedLong

/-- Behind `front`, a text begins with `-D`, or with `--define` as a word of its own, or with
`--define` at the start of the request. -/
def DefineAt (front text : CString) : Prop :=
  "-D".toList <+: text ∨ "--define".toList <+: text ∧ (front = [] ∨ BlankBefore front ∧
    (text["--define".toList.length]? = some ' ' ∨ text["--define".toList.length]? = none))

/-- The loop is at a place of the request, with `prev` in front of what is left of it. -/
structure AtPlace (front : CString) (prev : Option Char) (sp : CString) : Prop where
  start : prev = none ↔ front = []
  blank : sp.head? = some '-' → (prev = some ' ' ↔ BlankBefore front)
  dash : front.getLast? = some '-' → ∀ c ∈ sp.head?, c ≠ 'K' ∧ c ≠ 'f'
  long : ∀ word ∈ blankedLong, word <+: front ++ sp → front = [] ∨ word.length ≤ front.length

theorem blankedAt_of_separate (hlong : word ∈ blankedLong) (h : separate prev sp word = true) :
    blankedAt prev sp ≠ 0 := by
  rw [blankedAt]
  split
  · decide
  split
  · decide
  split
  · decide
  · rename_i hlock hfile
    rcases List.mem_cons.mp hlong with rfl | hlong
    · exact absurd h hlock
    · exact absurd (List.mem_singleton.mp hlong ▸ h) hfile

/-- What is blanked out is a short option, or a separate long one. -/
theorem blankedAt_eq_succ (h : blankedAt prev sp = k + 1) :
    ("-K".toList <+: sp ∨ "-f".toList <+: sp) ∧ k + 1 = 2 ∨
      ∃ word ∈ blankedLong, separate prev sp word = true ∧ word.length = k + 1 := by
  rw [blankedAt] at h
  split at h
  · rename_i hshort
    rw [Bool.or_eq_true, List.isPrefixOf_iff_prefix, List.isPrefixOf_iff_prefix] at hshort
    exact .inl ⟨hshort, h.symm⟩
  split at h
  · rename_i hlock
    exact .inr ⟨_, List.mem_cons_self, hlock, h⟩
  split at h
  · rename_i hfile
    exact .inr ⟨_, List.mem_cons_of_mem _ List.mem_cons_self, hfile, h⟩
  · cases h

theorem atPlace_start : AtPlace [] none sp where
  start := by simp
  blank _ := by
    refine iff_of_false nofun ?_
    rintro (h | h | h | h)
    · cases h
    · exact absurd (List.suffix_nil.mp h) (by decide)
    · exact absurd (List.suffix_nil.mp h) (by decide)
    · exact absurd h (by decide)
  dash h := by cases h
  long _ _ _ := .inl rfl

/-- The loop goes on behind a character that is not blanked out. -/
theorem AtPlace.next {c : Char} (h : AtPlace front prev (c :: rest))
    (hblanked : blankedAt prev (c :: rest) = 0) : AtPlace (front ++ [c]) (some c) rest := by
  have hlong {word : CString} (hmem : word ∈ blankedLong) (hpre : word <+: front ++ c :: rest) :
      word.length ≤ front.length := by
    refine (h.long word hmem hpre).resolve_left fun hfront => ?_
    subst hfront
    rw [List.nil_append] at hpre
    rw [h.start.mpr rfl] at hblanked
    refine blankedAt_of_separate hmem ?_ hblanked
    rw [separate, List.isPrefixOf_iff_prefix.mpr hpre]
    rfl
  refine ⟨by simp, fun _ => ?_, fun hdash d hd => ?_, fun word hmem hpre => ?_⟩
  · rw [BlankBefore, List.getLast?_concat]
    refine (or_iff_left ?_).symm
    have hshort {d : Char} (hd : d = 'K' ∨ d = 'f') : ¬ ['-', d] <:+ front ++ [c] := by
      intro hsuffix
      obtain ⟨before, hbefore⟩ := hsuffix
      rw [List.append_cons] at hbefore
      obtain ⟨hfront, hc⟩ := List.append_inj' hbefore rfl
      cases hc
      have hlast : front.getLast? = some '-' := by rw [← hfront, List.getLast?_concat]
      obtain ⟨hK, hf⟩ := h.dash hlast _ rfl
      exact hd.elim hK hf
    rintro (hK | hf | hword)
    · exact hshort (.inl rfl) hK
    · exact hshort (.inr rfl) hf
    · have hle := hlong hword ⟨rest, by rw [List.append_assoc]; rfl⟩
      simp at hle
  · rw [List.getLast?_concat] at hdash
    cases hdash
    obtain ⟨rest', rfl⟩ := List.head?_eq_some_iff.mp hd
    have hnot (hpre : "-K".toList <+: '-' :: d :: rest' ∨ "-f".toList <+: '-' :: d :: rest') :
        False := by
      rw [blankedAt_eq_two hpre] at hblanked
      cases hblanked
    constructor
    · rintro rfl
      exact hnot (.inl ⟨rest', rfl⟩)
    · rintro rfl
      exact hnot (.inr ⟨rest', rfl⟩)
  · rw [← List.append_cons] at hpre
    exact .inr ((hlong hmem hpre).trans (by simp))

/-- The loop goes on behind what is blanked out. -/
theorem AtPlace.behind (h : AtPlace front prev (word ++ rest)) (hmem : word ∈ blankedOptions)
    (hblanked : blankedAt prev (word ++ rest) = word.length) :
    AtPlace (front ++ word) (some ' ') rest := by
  have hne : word ≠ [] := by
    rintro rfl
    exact absurd hmem (by decide)
  refine ⟨by simp [hne], fun hhead => iff_of_true rfl ?_, fun hdash => ?_, fun other hother hpre =>
    ?_⟩
  · obtain ⟨k, hk⟩ : ∃ k, word.length = k + 1 :=
      ⟨word.length - 1, (Nat.succ_pred (mt List.length_eq_zero_iff.mp hne)).symm⟩
    rw [hk] at hblanked
    rcases blankedAt_eq_succ hblanked with ⟨hshort, htwo⟩ | ⟨long, hlong, hseparate, hlength⟩
    · have heq {c : Char} (hpre : ['-', c] <+: word ++ rest) : word = ['-', c] :=
        (List.prefix_of_prefix_length_le hpre (List.prefix_append _ _)
          (by rw [hk, htwo]; exact Nat.le_refl _)).eq_of_length (by rw [hk, htwo]; rfl) |>.symm
      rcases hshort with hK | hf
      · rw [heq hK]
        exact .inr (.inl (List.suffix_append _ _))
      · rw [heq hf]
        exact .inr (.inr (.inl (List.suffix_append _ _)))
    · obtain rfl : word = long := by
        refine (List.prefix_of_prefix_length_le (List.prefix_append _ _)
          (separate_start hseparate) ?_).eq_of_length ?_
        · rw [hk, hlength]
        · rw [hk, hlength]
      rw [separate, Bool.and_eq_true, Bool.or_eq_true, Bool.and_eq_true,
        decide_eq_true_eq] at hseparate
      rcases hseparate.2 with hstart | ⟨-, hnext⟩
      · rw [h.start.mp hstart, List.nil_append]
        exact .inr (.inr (.inr hlong))
      · rw [List.getElem?_append_right (Nat.le_refl _), Nat.sub_self, ← List.head?_eq_getElem?,
          hhead] at hnext
        simp at hnext
  · have hlast : ∀ word ∈ blankedOptions, word.getLast? ≠ some '-' := by decide
    rw [List.getLast?_append_of_ne_nil _ hne] at hdash
    exact absurd hdash (hlast word hmem)
  · have hlength : ∀ word ∈ blankedOptions, ∀ other ∈ blankedLong,
        word <+: other → other.length ≤ word.length := by decide
    rw [List.append_assoc] at hpre
    refine .inr ?_
    rcases h.long other hother hpre with rfl | hle
    · rw [List.nil_append] at hpre ⊢
      rcases List.prefix_or_prefix_of_prefix hpre (List.prefix_append word rest) with hin | hin
      · exact hin.length_le
      · exact hlength word hmem other hother hin
    · rw [List.length_append]
      omega

theorem AtPlace.definesAt_iff (h : AtPlace front prev sp) :
    definesAt prev sp = true ↔ DefineAt front sp := by
  rw [definesAt, separate, DefineAt, Bool.or_eq_true, Bool.and_eq_true, List.isPrefixOf_iff_prefix,
    List.isPrefixOf_iff_prefix, or_comm]
  refine or_congr Iff.rfl (and_congr_right fun hpre => ?_)
  have hdash : sp.head? = some '-' := by
    obtain ⟨rest, rfl⟩ := hpre
    rfl
  simp only [Bool.or_eq_true, Bool.and_eq_true, decide_eq_true_eq]
  rw [h.start, h.blank hdash]

/-- No class is defined within an option that is blanked out. -/
theorem not_defineAt_within {before behind : CString} (hmem : before ++ behind ∈ blankedOptions)
    (hne : behind ≠ []) : ¬ DefineAt front (behind ++ rest) := by
  have htails : ∀ word ∈ blankedOptions, ∀ behind ∈ word.tails, behind ≠ [] →
      ¬ "-D".toList.take behind.length <+: behind ∧
        ¬ "--define".toList.take behind.length <+: behind := by decide
  have htake {l : CString} (h : l <+: behind ++ rest) : l.take behind.length <+: behind := by
    have := h.take behind.length
    rwa [List.take_left'  rfl] at this
  obtain ⟨hD, hdefine⟩ :=
    htails _ hmem behind ((List.mem_tails _ _).mpr (List.suffix_append _ _)) hne
  rintro (h | ⟨h, -⟩)
  · exact hD (htake h)
  · exact hdefine (htake h)

theorem defineTexts_append : defineTexts (some ' ') word.length (word ++ rest) =
    defineTexts (some ' ') 0 rest := by
  induction word with
  | nil => rfl
  | cons c word ih => rw [List.length_cons, List.cons_append, defineTexts, ih]

theorem defineTexts_of_blanked (hmem : word ∈ blankedOptions)
    (hblanked : blankedAt prev (word ++ rest) = word.length) :
    defineTexts prev 0 (word ++ rest) = defineTexts (some ' ') 0 rest := by
  cases word with
  | nil => exact absurd hmem (by decide)
  | cons c word =>
    rw [List.length_cons] at hblanked
    rw [List.cons_append] at hblanked ⊢
    rw [defineTexts]
    simp only [hblanked]
    exact defineTexts_append

/-- An end of a text is the text itself, or one behind its first character. -/
theorem exists_append_cons_iff {c : Char} {text : CString} {P : CString → Prop} :
    (∃ mid, c :: rest = mid ++ text ∧ P mid) ↔
      text = c :: rest ∧ P [] ∨ ∃ mid, rest = mid ++ text ∧ P (c :: mid) := by
  constructor
  · rintro ⟨mid, hmid, h⟩
    cases mid with
    | nil => exact .inl ⟨hmid.symm, h⟩
    | cons d mid =>
      cases hmid
      exact .inr ⟨mid, rfl, h⟩
  · rintro (⟨rfl, h⟩ | ⟨mid, rfl, h⟩)
    · exact ⟨[], rfl, h⟩
    · exact ⟨c :: mid, rfl, h⟩

/-- No class is defined within an option that is blanked out. -/
theorem exists_defineAt_behind_iff {text : CString} (hmem : word ∈ blankedOptions) :
    (∃ mid, word ++ rest = mid ++ text ∧ DefineAt (front ++ mid) text) ↔
      ∃ mid, rest = mid ++ text ∧ DefineAt (front ++ word ++ mid) text := by
  constructor
  · rintro ⟨mid, hmid, hdefine⟩
    rcases List.append_eq_append_iff.mp hmid with ⟨a, ha, hb⟩ | ⟨a, ha, hb⟩
    · exact ⟨a, hb, by rwa [ha, ← List.append_assoc] at hdefine⟩
    · by_cases hnil : a = []
      · subst hnil
        rw [List.append_nil] at ha
        exact ⟨[], by simpa using hb.symm, by rwa [List.append_nil, ha]⟩
      · rw [hb] at hdefine
        exact absurd hdefine (not_defineAt_within (ha ▸ hmem) hnil)
  · rintro ⟨mid, rfl, hdefine⟩
    exact ⟨word ++ mid, (List.append_assoc ..).symm, by rwa [← List.append_assoc]⟩

/-- The texts that are asked for begin where a class is defined in the request. -/
theorem AtPlace.mem_defineTexts_iff {text : CString} (h : AtPlace front prev sp) :
    text ∈ defineTexts prev 0 sp ↔ ∃ mid, sp = mid ++ text ∧ DefineAt (front ++ mid) text := by
  induction hlength : sp.length using Nat.strong_induction_on generalizing front prev sp with
  | _ n ih =>
  subst hlength
  cases sp with
  | nil =>
    refine iff_of_false (by simp [defineTexts]) ?_
    rintro ⟨mid, hmid, hdefine⟩
    obtain ⟨rfl, rfl⟩ := List.append_eq_nil_iff.mp hmid.symm
    rcases hdefine with hpre | ⟨hpre, -⟩
    · exact absurd (List.prefix_nil.mp hpre) (by decide)
    · exact absurd (List.prefix_nil.mp hpre) (by decide)
  | cons c rest =>
    cases hblanked : blankedAt prev (c :: rest) with
    | zero =>
      have hrest := @ih rest.length (Nat.lt_succ_self _) _ _ _ (h.next hblanked) rfl
      simp only [List.append_assoc, List.singleton_append] at hrest
      rw [defineTexts, exists_append_cons_iff, List.append_nil, ← hrest]
      simp only [hblanked]
      split
      · rename_i hdefines
        have hdefine := h.definesAt_iff.mp hdefines
        rw [List.mem_cons]
        exact or_congr_left ⟨fun heq => ⟨heq, heq ▸ hdefine⟩, And.left⟩
      · rename_i hdefines
        refine (or_iff_right ?_).symm
        rintro ⟨rfl, hdefine⟩
        exact hdefines (h.definesAt_iff.mpr hdefine)
    | succ k =>
      -- the loop goes on behind the option, as if a blank stood there
      obtain ⟨word, hmem, hword, hsp⟩ := exists_append_of_blankedAt hblanked
      have hlt : ((c :: rest).drop (k + 1)).length < (c :: rest).length := by
        rw [List.length_drop, List.length_cons]
        omega
      rw [hsp, ← hword] at hblanked h
      rw [hsp, ← hword, defineTexts_of_blanked hmem hblanked, exists_defineAt_behind_iff hmem]
      exact ih _ (hword ▸ hlt) (h.behind hmem hblanked) rfl

theorem mem_defineTexts_iff {text : CString} : text ∈ defineTexts none 0 args ↔
    ∃ front, args = front ++ text ∧ DefineAt front text := by
  simpa using atPlace_start.mem_defineTexts_iff

theorem length_blankOut : (blankOut prev k sp).length = sp.length := by
  fun_induction blankOut prev k sp <;> simp [*]

/-- `cf_popen_sh` is reached. -/
def ReachesShell (authorize : CString → Except Fault Bool) (cfruncommand args : CString) : Prop :=
  cfruncommand ≠ [] ∧ (∀ c ∈ args, c ∉ refusedChars) ∧
    (∀ front text, args = front ++ text → DefineAt front text → authorize text = .ok true) ∧
    ((cfruncommand ++ " --inform".toList).take (cfBufSize - 1)).length + args.length + 6 ≤
      cfBufSize

theorem reachesShell_iff {cfruncommand : CString} : ReachesShell authorize cfruncommand args ↔
    cfruncommand ≠ [] ∧ (∀ c ∈ args, c ∉ refusedChars) ∧
      (∀ text ∈ defineTexts none 0 args, authorize text = .ok true) ∧
      ((cfruncommand ++ " --inform".toList).take (cfBufSize - 1)).length +
        (blankOut none 0 args).length + 6 ≤ cfBufSize := by
  rw [ReachesShell, length_blankOut]
  refine and_congr_right fun _ => and_congr_right fun _ => and_congr_left fun _ => ?_
  simp only [mem_defineTexts_iff]
  exact ⟨fun h text ⟨front, hargs, hdefine⟩ => h front text hargs hdefine,
    fun h front text hargs hdefine => h text ⟨front, hargs, hdefine⟩⟩

/-- `DoExec` comes to `cf_popen_sh` with the options blanked out. -/
theorem doExec_eq_executed_iff {cfruncommand vfqname ebuff args' : CString} :
    doExec authorize cfruncommand vfqname args = .ok (.executed ebuff args' roles) ↔
      ReachesShell authorize cfruncommand args ∧ args' = blankOut none 0 args ∧
        roles = defineTexts none 0 args ∧
        ebuff = (let ebuff := (cfruncommand ++ " --inform".toList).take (cfBufSize - 1)
          if args' = [] then ebuff else ebuff ++ ' ' :: args') := by
  have hloop {args' roles} : doExec.loop authorize args.length []
      (List.replicate 0 ' ' ++ args.drop 0) = .ok (some (args', roles)) ↔ _ :=
    doExec.loop_eq_ok_iff (Nat.le_refl _) (Nat.zero_le _)
  rw [List.replicate_zero, List.nil_append, List.drop_zero, List.getLast?_nil,
    List.nil_append] at hloop
  rw [doExec, reachesShell_iff]
  split
  · rename_i hnil
    apply iff_of_false
    · intro h
      cases h
    · intro h
      exact h.1.1 hnil
  rename_i hcommand
  have hnot (hne : ∀ found, doExec.loop authorize args.length [] args ≠ .ok (some found)) :
      ¬ ((∀ c ∈ args, c ∉ refusedChars) ∧
        ∀ text ∈ defineTexts none 0 args, authorize text = .ok true) := by
    intro ⟨hchars, htexts⟩
    exact hne _ (hloop.mpr ⟨hchars, htexts, rfl, rfl⟩)
  cases hfound : doExec.loop authorize args.length [] args with
  | error fault =>
    apply iff_of_false
    · intro h
      cases h
    · intro ⟨⟨_, hchars, htexts, _⟩, _⟩
      exact hnot (by simp [hfound]) ⟨hchars, htexts⟩
  | ok found =>
    cases found with
    | none =>
      apply iff_of_false
      · intro h
        cases h
      · intro ⟨⟨_, hchars, htexts, _⟩, _⟩
        exact hnot (by simp [hfound]) ⟨hchars, htexts⟩
    | some found =>
      obtain ⟨left, texts⟩ := found
      obtain ⟨hchars, htexts, rfl, rfl⟩ := hloop.mp hfound
      simp only
      split
      · rename_i hlong
        apply iff_of_false
        · intro h
          cases h
        · intro ⟨⟨_, _, _, hshort⟩, _⟩
          omega
      · rename_i hshort
        rw [Except.ok.injEq, Execution.executed.injEq]
        constructor
        · intro ⟨hebuff, hargs, hroles⟩
          exact ⟨⟨hcommand, hchars, htexts, by omega⟩, hargs.symm, hroles.symm,
            by rw [← hebuff, hargs]⟩
        · intro ⟨_, hargs, hroles, hebuff⟩
          exact ⟨by rw [hebuff, hargs], hargs.symm, hroles.symm⟩

/-! ## The arguments that are left -/

theorem mem_of_mem_blankOut {c : Char} (h : c ∈ blankOut prev k sp) : c = ' ' ∨ c ∈ sp := by
  fun_induction blankOut prev k sp with
  | case1 => cases h
  | case2 prev k d rest ih =>
    cases List.mem_cons.mp h with
    | inl h => exact .inl h
    | inr h => exact (ih h).imp_right (List.mem_cons_of_mem d)
  | case3 prev d rest hblanked ih =>
    cases List.mem_cons.mp h with
    | inl h => exact .inr (h ▸ List.mem_cons_self)
    | inr h => exact (ih h).imp_right (List.mem_cons_of_mem d)
  | case4 prev d rest k hblanked ih =>
    cases List.mem_cons.mp h with
    | inl h => exact .inl h
    | inr h => exact (ih h).imp_right (List.mem_cons_of_mem d)

/-- The characters that build commands in the shell. -/
def commandChars : CString := ";&|<>$()".toList ++ ['\x60']

theorem blankedOptions_not_command (hword : word ∈ blankedOptions) {c : Char} (hc : c ∈ word) :
    c ∉ commandChars := by
  have hall : (blankedOptions.all fun word => word.all (· ∉ commandChars)) = true := rfl
  exact of_decide_eq_true (List.all_eq_true.mp (List.all_eq_true.mp hall word hword) c hc)

/-- A character that builds commands is not blanked out. -/
theorem mem_blankOut {c : Char} (hcommand : c ∈ commandChars) (hc : c ∈ sp.drop k) :
    c ∈ blankOut prev k sp := by
  fun_induction blankOut prev k sp with
  | case1 => cases List.drop_nil ▸ hc
  | case2 prev k d rest ih => exact List.mem_cons_of_mem _ (ih hc)
  | case3 prev d rest hblanked ih =>
    cases List.mem_cons.mp hc with
    | inl hc => exact hc ▸ List.mem_cons_self
    | inr hc => exact List.mem_cons_of_mem _ (ih hc)
  | case4 prev d rest k hblanked ih =>
    apply List.mem_cons_of_mem
    apply ih
    obtain ⟨word, hword, _, hsp⟩ := exists_append_of_blankedAt hblanked
    rw [List.drop_zero, hsp] at hc
    cases List.mem_append.mp hc with
    | inl hc => exact absurd hcommand (blankedOptions_not_command hword hc)
    | inr hc => exact hc

theorem head?_blankOut_zero {c : Char} (hc : c ≠ ' ') (h : (blankOut prev 0 sp).head? = some c) :
    sp.head? = some c := by
  cases sp with
  | nil => cases h
  | cons d rest =>
    rw [blankOut] at h
    split at h
    · exact h
    · cases h
      exact absurd rfl hc

/-- No `-K` and no `-f` is left. -/
theorem not_infix_blankOut {c : Char} (hc : c = 'K' ∨ c = 'f') :
    ¬ ['-', c] <:+: blankOut prev k sp := by
  have hblank : c ≠ ' ' := by
    intro hblank
    subst hblank
    revert hc
    decide
  have hspace {text : CString} : ¬ ['-', c] <+: ' ' :: text := by
    intro h
    cases (List.cons_prefix_cons.mp h).1
  fun_induction blankOut prev k sp with
  | case1 =>
    intro h
    cases List.infix_nil.mp h
  | case2 prev k d rest ih =>
    intro h
    cases List.infix_cons_iff.mp h with
    | inl h => exact hspace h
    | inr h => exact ih h
  | case3 prev d rest hblanked ih =>
    intro h
    cases List.infix_cons_iff.mp h with
    | inl h =>
      obtain ⟨rfl, h⟩ := List.cons_prefix_cons.mp h
      have hhead : (blankOut (some '-') 0 rest).head? = some c := by
        obtain ⟨text, htext⟩ := h
        rw [← htext]
        rfl
      obtain ⟨rest', rfl⟩ := List.head?_eq_some_iff.mp (head?_blankOut_zero hblank hhead)
      have htwo : blankedAt prev ('-' :: c :: rest') = 2 := by
        apply blankedAt_eq_two
        obtain rfl | rfl := hc
        · exact .inl ⟨rest', rfl⟩
        · exact .inr ⟨rest', rfl⟩
      rw [htwo] at hblanked
      cases hblanked
    | inr h => exact ih h
  | case4 prev d rest k hblanked ih =>
    intro h
    cases List.infix_cons_iff.mp h with
    | inl h => exact hspace h
    | inr h => exact ih h

end Cfengine
