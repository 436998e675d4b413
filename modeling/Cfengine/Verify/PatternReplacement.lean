import Cfengine.PatternReplacement
import Cfengine.Verify.FieldEdits

/-!
# Replacing all occurrences of a literal

`ReplacePatterns` searches the changed line from its start, and takes a line that is as long as the
last match for one that cannot be changed. Where the occurrences are found in order, a line gets its
replacement exactly if no text on the way to it is the pattern itself
(`replacePatterns_replaceAll`).
-/

namespace Cfengine
open Occurrences

variable {env : RegEx} {expandScalar : CString → CString} {a : ReplaceAttributes}
  {p r text front line : CString} {fs : List CString} {cutoff matchLen : Nat}
    {replaced retval : Bool}
  {region : List (Option CString)}

/-- No text on the way from the line to its replacement is the pattern. -/
def NeverPattern (p r line : CString) : Prop := ∀ t ∈ (stages p r [] (fields p line)).tail, t ≠ p

/-- A line of the file that fits its buffer, before and after, with not too many occurrences and
none left behind. -/
structure EditableLine (p r line : CString) : Prop where
  short : line.length < cfBufSize
  fits : (replaceAll p r line).length < cfBufSize
  few : (fields p line).length ≤ cfMaxReplace + 1
  none_left : ¬ p <:+: replaceAll p r line

/-! ## A line -/

theorem length_stage_lt {f g : CString}
    (htext : (front ++ p.intercalate (f :: g :: fs)).length < cfBufSize)
    (hfinal : (front ++ r.intercalate (f :: g :: fs)).length < cfBufSize) :
    (front ++ f ++ r ++ p.intercalate (g :: fs)).length < cfBufSize := by
  simp only [List.intercalate_cons_cons, List.length_append] at htext hfinal ⊢
  rcases Nat.le_total p.length r.length with hle | hle
  · have := length_intercalate_mono hle (g :: fs)
    omega
  · omega

section
variable (hlit : env.MatchesLiteral p p)
include hlit

theorem replaceMatches_of_none (h : ¬ p <:+: text) :
    replaceMatches env expandScalar a p cutoff matchLen text replaced = .ok (text, replaced) := by
  rw [replaceMatches, hlit, find?_eq_none_iff.mpr h]
  rfl

theorem replaceMatches_of_length (h : p <:+: text) (hlength : matchLen = text.length) :
    replaceMatches env expandScalar a p cutoff matchLen text replaced = .ok (text, replaced) := by
  obtain ⟨i, hi⟩ := Option.ne_none_iff_exists'.mp (mt find?_eq_none_iff.mp (not_not.mpr h))
  rw [replaceMatches, hlit, hi]
  exact if_pos hlength

/-- A replacement. -/
theorem replaceMatches_succ (honce : a.onceOnly = false) (h : p <:+: text)
    (hlength : matchLen ≠ text.length) (htext : text.length < cfBufSize)
    (hnext : (replaceFirst p (expandScalar a.replaceValue) text).length < cfBufSize) :
    replaceMatches env expandScalar a p (cutoff + 1) matchLen text replaced =
      replaceMatches env expandScalar a p cutoff p.length
        (replaceFirst p (expandScalar a.replaceValue) text) true := by
  obtain ⟨i, hi⟩ := Option.ne_none_iff_exists'.mp (mt find?_eq_none_iff.mp (not_not.mpr h))
  obtain ⟨u, v, heq, hu⟩ := exists_of_find? hi
  have hstart : i < cfBufSize := by
    rw [heq, List.length_append] at htext
    omega
  have hafter : (text.drop (i + p.length)).length ≤ cfBufSize - 1 := by
    rw [List.length_drop]
    omega
  rw [replaceFirst, hi] at hnext ⊢
  dsimp only at hnext ⊢
  have hwhole : (text.take i ++ expandScalar a.replaceValue ++ text.drop (i + p.length)).length ≤
      cfExpandSize - 2 := hnext.le.trans (Nat.le_add_right 4096 4094)
  rw [replaceMatches, hlit, hi]
  dsimp only [Option.map_some]
  rw [if_neg hlength, if_neg (Nat.not_le_of_lt hstart), List.take_of_length_le hafter,
    List.take_of_length_le hwhole, honce, if_neg Bool.false_ne_true, Nat.add_sub_cancel_left]

end

/-- Only the pattern is as long as itself and has it in it. -/
theorem eq_of_infix_of_length (h : p <:+: text) (hlength : p.length = text.length) : text = p := by
  obtain ⟨u, v, rfl⟩ := h
  simp only [List.length_append] at hlength
  obtain rfl : u = [] := List.length_eq_zero_iff.mp (by omega)
  obtain rfl : v = [] := List.length_eq_zero_iff.mp (by omega)
  rw [List.nil_append, List.append_nil]

theorem infix_of_stage (f g : CString) :
    p <:+: front ++ p.intercalate (f :: g :: fs) :=
  ⟨front ++ f, p.intercalate (g :: fs), by simp [List.intercalate_cons_cons]⟩

theorem next_final (f g : CString) :
    front ++ f ++ r ++ r.intercalate (g :: fs) = front ++ r.intercalate (f :: g :: fs) := by
  simp [List.intercalate_cons_cons]

section
variable (hlit : env.MatchesLiteral p p) (honce : a.onceOnly = false)
  (hr : expandScalar a.replaceValue = r)
include hlit honce hr

/-- From a stage on, the occurrences are replaced until the text is the pattern. -/
theorem replaceMatches_stages (hfs : fs ≠ [])
    (hchain : (stages p r front fs).IsChain fun t t' => replaceFirst p r t = t')
    (hnone : ¬ p <:+: front ++ r.intercalate fs) (hcutoff : fs.length ≤ cutoff + 1)
    (htext : (front ++ p.intercalate fs).length < cfBufSize)
    (hfinal : (front ++ r.intercalate fs).length < cfBufSize)
    (hlength : p <:+: front ++ p.intercalate fs → matchLen ≠ (front ++ p.intercalate fs).length) :
    ((∀ t ∈ (stages p r front fs).tail, t ≠ p) →
      replaceMatches env expandScalar a p cutoff matchLen (front ++ p.intercalate fs) replaced =
        .ok (front ++ r.intercalate fs, replaced || decide (1 < fs.length))) ∧
    ((∃ t ∈ (stages p r front fs).tail, t = p) →
      ∃ replaced',
        replaceMatches env expandScalar a p cutoff matchLen (front ++ p.intercalate fs) replaced =
          .ok (p, replaced')) := by
  induction fs generalizing front cutoff matchLen replaced with
  | nil => exact absurd rfl hfs
  | cons f fs ih =>
    cases fs with
    | nil =>
      refine ⟨fun _ => ?_, fun ⟨t, ht, _⟩ => by cases ht⟩
      rw [List.intercalate_singleton] at hnone ⊢
      rw [replaceMatches_of_none hlit hnone, List.intercalate_singleton]
      simp
    | cons g fs =>
      rw [stages, List.isChain_cons] at hchain
      have hhead := head?_stages (p := p) (r := r) (List.cons_ne_nil g fs) (front ++ f ++ r)
      have hnext := hchain.1 _ hhead
      have hshort := length_stage_lt htext hfinal
      obtain ⟨cutoff, rfl⟩ : ∃ c, cutoff = c + 1 :=
        Nat.exists_eq_succ_of_ne_zero (by rintro rfl; simp at hcutoff)
      have hwithin : p <:+: front ++ p.intercalate (f :: g :: fs) := infix_of_stage f g
      have hstep :=
        @replaceMatches_succ env expandScalar a p _ cutoff matchLen replaced hlit honce hwithin
        (hlength hwithin) htext (by rwa [hr, hnext])
      rw [hr, hnext] at hstep
      rw [stages, List.tail_cons, hstep]
      obtain ⟨rest, hrest⟩ := List.head?_eq_some_iff.mp hhead
      -- the next text is looked at first: the loop stops there if it is as long as the pattern
      by_cases hp : front ++ f ++ r ++ p.intercalate (g :: fs) = p
      · refine ⟨fun h => absurd hp (h _ (List.mem_of_head? hhead)), fun _ => ⟨true, ?_⟩⟩
        rw [hp]
        exact replaceMatches_of_length hlit List.infix_rfl rfl
      · obtain ⟨hall, hstop⟩ :=
          @ih (front ++ f ++ r) cutoff p.length true (List.cons_ne_nil _ _) hchain.2
          (by rwa [next_final]) (Nat.le_of_succ_le_succ hcutoff) hshort (by rwa [next_final])
          fun hwithin heq => hp (eq_of_infix_of_length hwithin heq)
        rw [next_final] at hall
        constructor
        · intro h
          rw [hall fun t ht => h t (List.mem_of_mem_tail ht)]
          simp
        · rintro ⟨t, ht, rfl⟩
          apply hstop
          rw [hrest] at ht ⊢
          exact ⟨t, (List.mem_cons.mp ht).resolve_left (Ne.symm hp), rfl⟩

end

/-- What becomes of a line. -/
theorem replaceMatches_line (hlit : env.MatchesLiteral p p) (hp : p ≠ [])
    (honce : a.onceOnly = false) (hr : expandScalar a.replaceValue = r)
    (hline : EditableLine p r line) (horder : InOrder p r line) :
    (NeverPattern p r line →
      replaceMatches env expandScalar a p cfMaxReplace 0 line false =
        .ok (replaceAll p r line, decide (1 < (fields p line).length))) ∧
    (¬ NeverPattern p r line → p <:+: line ∧
      ∃ replaced, replaceMatches env expandScalar a p cfMaxReplace 0 line false =
      .ok (p, replaced)) := by
  have hjoined : [] ++ p.intercalate (fields p line) = line := intercalate_fields hp line
  obtain ⟨hall, hstop⟩ :=
    @replaceMatches_stages env expandScalar a p r [] (fields p line) cfMaxReplace 0
    false hlit honce hr fields_ne_nil horder hline.none_left hline.few
      (by rw [hjoined]; exact hline.short)
    hline.fits fun hwithin => by
      have := hwithin.length_le
      have := List.length_pos_of_ne_nil hp
      omega
  rw [hjoined] at hall hstop
  refine ⟨hall, fun hnot => ?_⟩
  simp only [NeverPattern, not_forall, not_not] at hnot
  obtain ⟨t, ht, heq⟩ := hnot
  refine ⟨?_, hstop ⟨t, ht, heq⟩⟩
  by_contra hnone
  rw [fields_of_none (find?_eq_none_iff.mpr hnone)] at ht
  cases ht

/-! ## The lines of a region -/

/-- The region with all occurrences replaced. -/
def replacedRegion (p r : CString) (region : List (Option CString)) : List (Option CString) :=
  region.map (Option.map (replaceAll p r))

theorem replaceAll_of_few (hp : p ≠ []) (h : ¬ 1 < (fields p line).length) :
    replaceAll p r line = line := by
  cases hfind : find? p line with
  | none => rw [replaceAll, fields_of_none hfind, List.intercalate_singleton]
  | some i =>
    rw [fields_of_some hp hfind, List.length_cons] at h
    exact absurd (Nat.succ_lt_succ (List.length_pos_of_ne_nil fields_ne_nil)) h

theorem notAnchored_of_literal (hliteral : p.head? ≠ some '^') : notAnchored p = true := by
  rw [notAnchored, Bool.or_eq_true]
  exact .inl (decide_eq_true hliteral)

section
variable (hlit : env.MatchesLiteral p p) (hp : p ≠ []) (honce : a.onceOnly = false)
  (hr : expandScalar a.replaceValue = r) (hwarn : a.warn = false) (hliteral : p.head? ≠ some '^')
include hlit hp honce hr hwarn hliteral

omit hliteral in
theorem loop_of_neverPattern (hline : EditableLine p r line) (horder : InOrder p r line)
    (hnever : NeverPattern p r line) :
    ∃ retval' edits, replacePatterns.loop env expandScalar a p retval (some line :: region) = do
      return (← replacePatterns.loop env expandScalar a p retval' region).cons
        (some (replaceAll p r line)) edits := by
  rw [replacePatterns.loop, if_neg (Nat.not_le_of_lt hline.short),
    (replaceMatches_line hlit hp honce hr hline horder).1 hnever]
  have hnone : env.blockTextMatch p (replaceAll p r line) = none := by
    rw [hlit, find?_eq_none_iff.mpr hline.none_left]
    rfl
  simp only [bind, Except.bind]
  rw [hnone, if_neg (by simp), if_neg (by simp [hwarn])]
  by_cases hmany : 1 < (fields p line).length
  · rw [if_pos (decide_eq_true hmany), if_neg (by simp [honce])]
    exact ⟨true, 1, rfl⟩
  · rw [if_neg (by simp [hmany]), replaceAll_of_few hp hmany]
    exact ⟨retval, 0, rfl⟩

omit hwarn in
theorem loop_of_pattern (hline : EditableLine p r line) (horder : InOrder p r line)
    (hstop : ¬ NeverPattern p r line) :
    replacePatterns.loop env expandScalar a p retval (some line :: region) =
      .ok ⟨some line :: region, retval, 0⟩ := by
  obtain ⟨-, replaced, heq⟩ := (replaceMatches_line hlit hp honce hr hline horder).2 hstop
  rw [replacePatterns.loop, if_neg (Nat.not_le_of_lt hline.short), heq]
  have hsome : (env.blockTextMatch p p).isSome = true := by
    rw [hlit, find?_eq_zero List.prefix_rfl]
    rfl
  exact if_pos (by rw [hsome, Bool.and_true]; exact notAnchored_of_literal hliteral)

theorem replacePatternsLoop_iff (hlines : ∀ line, some line ∈ region → EditableLine p r line)
    (h : ∀ line, some line ∈ region → InOrder p r line) :
    (∃ result, replacePatterns.loop env expandScalar a p retval region = .ok result ∧
        result.region = replacedRegion p r region) ↔
      ∀ line, some line ∈ region → NeverPattern p r line := by
  induction region generalizing retval with
  | nil => exact iff_of_true ⟨_, rfl, rfl⟩ fun line hline => by cases hline
  | cons name region ih =>
    have ih' := fun retval => @ih retval
      (fun line hline => hlines line (List.mem_cons_of_mem name hline))
      fun line hline => h line (List.mem_cons_of_mem name hline)
    cases name with
    | none =>
      have hrest : (∀ line, some line ∈ none :: region → NeverPattern p r line) ↔
          ∀ line, some line ∈ region → NeverPattern p r line := by simp
      rw [hrest, ← ih' retval, replacePatterns.loop]
      exact exists_bind_cons
    | some line =>
      have hline := hlines line List.mem_cons_self
      have horder := h line List.mem_cons_self
      by_cases hnever : NeverPattern p r line
      · have hrest : (∀ line', some line' ∈ some line :: region → NeverPattern p r line') ↔
            ∀ line', some line' ∈ region → NeverPattern p r line' := by
          simp [hnever]
        obtain ⟨retval', edits, heq⟩ :=
          @loop_of_neverPattern env expandScalar a p r line retval region hlit
          hp honce hr hwarn hline horder hnever
        rw [hrest, ← ih' retval', heq]
        exact exists_bind_cons
      · rw [loop_of_pattern hlit hp honce hr hliteral hline horder hnever]
        refine iff_of_false ?_ fun hall => hnever (hall line List.mem_cons_self)
        rintro ⟨_, heq, hregion⟩
        cases heq
        have hsame : line = replaceAll p r line :=
          Option.some.inj (List.cons_eq_cons.mp hregion).1
        apply hline.none_left
        rw [← hsame]
        exact ((replaceMatches_line hlit hp honce hr hline horder).2 hnever).1

end

/-- The characters with a meaning in a regular expression. -/
def metacharacters : List Char :=
  ['\\', '^', '$', '.', '[', ']', '|', '(', ')', '?', '*', '+', '{', '}']

/-- Every line of the region gets all its occurrences replaced. -/
def ReplacesAll (env : RegEx) (expandScalar : CString → CString) (a : ReplaceAttributes)
    (p r : CString) (region : List (Option CString)) : Prop :=
  ∃ result, replacePatterns env expandScalar a p region = .ok result ∧
    result.region = replacedRegion p r region

/-- All occurrences are replaced, if they are replaced in order and no text on the way is the
pattern. The last is needed in lines where they are. -/
theorem replacePatterns_replaceAll (hlit : env.MatchesLiteral p p) (hp : p ≠ [])
    (hliteral : ∀ c ∈ p, c ∉ metacharacters) (honce : a.onceOnly = false) (hwarn : a.warn = false)
    (hr : expandScalar a.replaceValue = r)
    (hlines : ∀ line, some line ∈ region → EditableLine p r line) :
    ((∀ line, some line ∈ region → InOrder p r line ∧ NeverPattern p r line) →
      ReplacesAll env expandScalar a p r region) ∧
    ((∀ line, some line ∈ region → InOrder p r line) →
      ReplacesAll env expandScalar a p r region → ∀ line, some line ∈ region →
      NeverPattern p r line) := by
  have hhead : p.head? ≠ some '^' := fun h => hliteral '^' (List.mem_of_head? h) (by decide)
  have hiff :=
    @replacePatternsLoop_iff env expandScalar a p r false region hlit hp honce hr hwarn hhead
    hlines
  exact ⟨fun h => (hiff fun line hline => (h line hline).1).mpr fun line hline => (h line hline).2,
    fun h hall => (hiff h).mp hall⟩

/-- A pattern of one character, and what it is replaced with. -/
def replaceAttributes (replaceValue : CString) : ReplaceAttributes := ⟨replaceValue, none, false⟩

theorem onceOnly_replaceAttributes (replaceValue : CString) :
    (replaceAttributes replaceValue).onceOnly = false := by
  simp [replaceAttributes, ReplaceAttributes.onceOnly]

theorem noBorder_singleton (c : Char) : NoBorder [c] := fun u hu hne hstarts _ => by
  rcases List.prefix_cons_iff.mp hstarts with rfl | ⟨v, rfl, hv⟩
  · exact hu rfl
  · exact hne (by rw [List.prefix_nil.mp hv])

theorem fields_two : fields ['a'] ['a', 'a'] = [[], [], []] := by
  rw [fields_of_some (List.cons_ne_nil _ _) (show find? ['a'] ['a', 'a'] = some 0 from rfl)]
  have hrest : fields ['a'] ['a'] = [[], []] := by
    rw [fields_of_some (List.cons_ne_nil _ _) (show find? ['a'] ['a'] = some 0 from rfl)]
    exact congrArg ([] :: ·) (fields_of_none rfl)
  exact congrArg ([] :: ·) hrest

theorem editableLine_two (r : CString) (hr : 'a' ∉ r) (hlength : r.length ≤ 1) :
    EditableLine ['a'] r ['a', 'a'] := by
  have htext : replaceAll ['a'] r ['a', 'a'] = r ++ r := by
    rw [replaceAll, fields_two]
    simp [List.intercalate]
  refine ⟨Nat.lt_of_lt_of_le (Nat.lt_succ_self 2) (Nat.le_add_left 3 4093), ?_, ?_, ?_⟩
  · rw [htext, List.length_append]
    exact Nat.lt_of_le_of_lt (Nat.add_le_add hlength hlength)
      (Nat.lt_add_left 4093 (Nat.lt_succ_self 2))
  · rw [fields_two]
    exact Nat.le_add_left 3 18
  · rw [htext, List.singleton_infix_iff, List.mem_append, or_self]
    exact hr

/-- Both are replaced by another character. -/
theorem replacePatterns_replaceAll_two :
    ((∀ line, some line ∈ [some ['a', 'a']] → InOrder ['a'] ['b'] line ∧
      NeverPattern ['a'] ['b'] line) →
      ReplacesAll literalRegEx id (replaceAttributes ['b']) ['a'] ['b'] [some ['a', 'a']]) ∧
    ((∀ line, some line ∈ [some ['a', 'a']] → InOrder ['a'] ['b'] line) →
      ReplacesAll literalRegEx id (replaceAttributes ['b']) ['a'] ['b'] [some ['a', 'a']] →
      ∀ line, some line ∈ [some ['a', 'a']] → NeverPattern ['a'] ['b'] line) :=
  replacePatterns_replaceAll (fun _ => rfl) (List.cons_ne_nil _ _)
    (fun c hc => by
      obtain rfl := List.mem_singleton.mp hc
      simp [metacharacters])
    (onceOnly_replaceAttributes _) rfl rfl
    fun line hline => by
      obtain rfl := Option.some.inj (List.mem_singleton.mp hline)
      exact editableLine_two ['b'] (by decide) (Nat.le_refl 1)

/-- If they are to be removed, the second is taken for the end. -/
theorem replacePatterns_remove_two :
    EditableLine ['a'] [] ['a', 'a'] ∧ InOrder ['a'] [] ['a', 'a'] ∧
      ¬ ReplacesAll literalRegEx id (replaceAttributes []) ['a'] [] [some ['a', 'a']] := by
  have hline := editableLine_two [] (by decide) (Nat.zero_le 1)
  have horder := (noBorder_singleton 'a').inOrder hline.none_left
  have hstop : ¬ NeverPattern ['a'] [] ['a', 'a'] := fun h => by
    rw [NeverPattern, fields_two] at h
    exact h ['a'] List.mem_cons_self rfl
  refine ⟨hline, horder, ?_⟩
  rintro ⟨result, hresult, hregion⟩
  have heval := @loop_of_pattern literalRegEx id (replaceAttributes []) ['a'] [] ['a', 'a'] false []
    (fun _ => rfl) (List.cons_ne_nil _ _) (onceOnly_replaceAttributes _) rfl (by decide) hline
      horder hstop
  rw [replacePatterns, heval] at hresult
  cases hresult
  rw [replacedRegion, List.map_singleton, Option.map_some, replaceAll, fields_two] at hregion
  cases hregion

end Cfengine
