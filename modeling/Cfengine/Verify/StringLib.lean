import Cfengine.StringLib

/-!
# Escaping characters and replacing substrings

`EscapeCharCopy` counts the characters to escape without those behind a backslash, but escapes all
of them. `ReplaceStr` sees an overflow only when it is a replacement that does not fit.
`EscapeSpecialChars` goes on by one character more behind a sequence that it has copied.
-/

namespace Cfengine
open Occurrences

variable {c e x d : Char} {s t u v p r out res : CString} {n outSz sz : Nat}

/-! ## Escaping a character -/

/-- The string with `e` in front of every `c`. -/
def escapedBy (c e : Char) (s : CString) : CString :=
  s.flatMap fun x => if x = c then [e, x] else [x]

theorem escapeCharCopy_loop (c e : Char) (s : CString) :
    escapeCharCopy.loop c e s = escapedBy c e s := by
  induction s with
  | nil => rfl
  | cons x s ih =>
    rw [escapeCharCopy.loop, escapedBy, List.flatMap_cons, ← escapedBy, ih]
    split_ifs <;> rfl

theorem length_escapedBy (c e : Char) (s : CString) :
    (escapedBy c e s).length = s.length + s.count c := by
  induction s with
  | nil => rfl
  | cons x s ih =>
    rw [escapedBy, List.flatMap_cons, ← escapedBy, List.length_append, ih, List.count_cons,
      List.length_cons]
    by_cases h : x = c
    · rw [if_pos h, if_pos (beq_iff_eq.mpr h)]
      exact Nat.add_comm 2 _ |>.trans (by omega)
    · rw [if_neg h, if_neg (mt beq_iff_eq.mp h)]
      exact Nat.add_comm 1 _ |>.trans (by omega)

theorem countChar_skip (s : CString) : countChar c ('\\' :: c :: s) = countChar c s := by
  rw [countChar, if_pos ⟨rfl, rfl⟩]

theorem countChar_cons_eq_ok (h : ¬ (x = '\\' ∧ d = c)) :
    countChar c (x :: d :: s) = .ok n ↔
      ∃ m, countChar c (d :: s) = .ok m ∧ n = m + if x = c then 1 else 0 := by
  rw [countChar, if_neg h]
  cases countChar c (d :: s) with
  | error => exact iff_of_false (fun h => by cases h) fun ⟨_, h, _⟩ => by cases h
  | ok m =>
    exact ⟨fun h => ⟨m, rfl, (Except.ok.inj h).symm⟩, fun ⟨_, hm, hn⟩ => by cases hm; rw [hn]; rfl⟩

theorem count_cons_eq (x c : Char) (s : CString) :
    (x :: s).count c = s.count c + if x = c then 1 else 0 := by
  rw [List.count_cons]
  simp only [beq_iff_eq]

theorem countChar_le (h : countChar c s = .ok n) : n ≤ s.count c := by
  induction s using countChar.induct c generalizing n with
  | case1 => cases h; exact Nat.le_refl _
  | case2 x hfault => rw [countChar, if_pos hfault] at h; cases h
  | case3 x hfault =>
    rw [countChar, if_neg hfault] at h
    cases h
    rw [count_cons_eq, List.count_nil, Nat.zero_add]
  | case4 x d s hskip ih =>
    obtain ⟨rfl, rfl⟩ := hskip
    rw [countChar_skip] at h
    exact (ih h).trans (List.count_le_count_cons.trans List.count_le_count_cons)
  | case5 x d s hskip ih =>
    obtain ⟨m, hm, rfl⟩ := (countChar_cons_eq_ok hskip).mp h
    rw [count_cons_eq]
    exact Nat.add_le_add_right (ih hm) _

/-- A skipped character is not counted. -/
theorem countChar_lt (hs : ['\\', c] <:+: s ++ ['\x00']) (h : countChar c s = .ok n) :
    n < s.count c := by
  induction s using countChar.induct c generalizing n with
  | case1 => exact absurd hs.length_le (by simp)
  | case2 x hfault => rw [countChar, if_pos hfault] at h; cases h
  | case3 x hfault =>
    have heq := hs.eq_of_length rfl
    simp only [List.cons_append, List.nil_append, List.cons.injEq] at heq
    exact absurd ⟨heq.1.symm, heq.2.1⟩ hfault
  | case4 x d s hskip ih =>
    obtain ⟨rfl, rfl⟩ := hskip
    rw [countChar_skip] at h
    have := countChar_le h
    rw [count_cons_eq, count_cons_eq, if_pos rfl]
    omega
  | case5 x d s hskip ih =>
    obtain ⟨m, hm, rfl⟩ := (countChar_cons_eq_ok hskip).mp h
    rw [count_cons_eq]
    rw [List.cons_append, List.infix_cons_iff] at hs
    rcases hs with hhead | htail
    · rw [List.cons_append, List.cons_prefix_cons, List.cons_prefix_cons] at hhead
      exact absurd ⟨hhead.1.symm, hhead.2.1.symm⟩ hskip
    · exact Nat.add_lt_add_right (ih htail hm) _

theorem countChar_of_not_infix (hs : ¬ ['\\', c] <:+: s ++ ['\x00']) :
    countChar c s = .ok (s.count c) := by
  induction s using countChar.induct c with
  | case1 => rfl
  | case2 x hfault =>
    obtain ⟨rfl, rfl⟩ := hfault
    exact absurd (List.infix_refl _) hs
  | case3 x hfault =>
    rw [countChar, if_neg hfault, count_cons_eq, List.count_nil, Nat.zero_add]
  | case4 x d s hskip ih =>
    obtain ⟨rfl, rfl⟩ := hskip
    exact absurd ⟨[], s ++ ['\x00'], rfl⟩ hs
  | case5 x d s hskip ih =>
    rw [countChar_cons_eq_ok hskip]
    exact ⟨_, ih fun h => hs (h.trans (List.suffix_cons _ _).isInfix), count_cons_eq ..⟩

/-- What is written stays in what is allocated, and is the escaped string. -/
def EscapesAll (s : CString) (c e : Char) : Prop :=
  ∃ n rest, countChar c s = .ok n ∧ (escapeCharCopy.loop c e s).length ≤ s.length + n + 1 ∧
    escapeCharCopy s c e = .ok (escapedBy c e s ++ '\x00' :: rest)

theorem escapeCharCopy_of_countChar (h : countChar c s = .ok n) :
    escapeCharCopy s c e =
      if s.length + n + 1 < s.length + s.count c then .error .bufferOverflow
      else .ok (escapedBy c e s ++
        List.replicate (s.length + n + 1 - (s.length + s.count c)) '\x00') := by
  rw [escapeCharCopy, h, ← length_escapedBy c e, ← escapeCharCopy_loop]
  rfl

/-- The copy is right exactly if no character to escape stands behind a backslash, with the NUL for
one of the characters of the string. -/
theorem escapesAll_iff (s : CString) (c e : Char) :
    EscapesAll s c e ↔ ¬ ['\\', c] <:+: s ++ ['\x00'] := by
  constructor
  · rintro ⟨n, rest, hcount, -, hcopy⟩ hs
    have hlt := countChar_lt hs hcount
    rw [escapeCharCopy_of_countChar hcount] at hcopy
    split_ifs at hcopy
    have hlength := congrArg List.length (List.append_cancel_left (Except.ok.inj hcopy))
    rw [List.length_replicate, List.length_cons] at hlength
    omega
  · intro hs
    have hcount := countChar_of_not_infix hs
    refine ⟨s.count c, [], hcount, ?_, ?_⟩
    · rw [escapeCharCopy_loop, length_escapedBy]
      exact Nat.le_succ _
    · rw [escapeCharCopy_of_countChar hcount, if_neg (by omega), Nat.add_sub_cancel_left]
      rfl

/-- Both quotes of `\"\"` are escaped, and none of them is counted. -/
theorem escapesAll_quotes : ¬ EscapesAll ['\\', '"', '\\', '"'] '"' '\\' := by
  rintro ⟨n, rest, hcount, hlength, -⟩
  cases hcount
  exact absurd hlength (by decide)

/-! ## Replacing substrings -/

theorem searchAndReplace_loop (hp : p ≠ []) (s : CString) :
    searchAndReplace.loop p r hp s = replaceAll p r s := by
  induction s using fields_induction hp with
  | none s h =>
    rw [searchAndReplace.loop.eq_def, replaceAll, fields_of_none h, List.intercalate_singleton]
    split
    · rfl
    · next hsome => rw [h] at hsome; cases hsome
  | some u v h hfields ih =>
    obtain ⟨f, fs, hf⟩ := List.exists_cons_of_ne_nil (fields_ne_nil (p := p) (t := v))
    rw [replaceAll, hf] at ih
    rw [searchAndReplace.loop.eq_def, replaceAll, hfields, hf, List.intercalate_cons_cons, ← ih]
    split
    · next hnone => rw [h] at hnone; cases hnone
    · next i hsome =>
      rw [h] at hsome
      cases hsome
      rw [List.take_left, ← List.drop_drop, List.drop_left, List.drop_left]

theorem searchAndReplace_eq (hp : p ≠ []) (s : CString) :
    searchAndReplace s p r = replaceAll p r s := by
  rw [searchAndReplace, dif_neg hp, searchAndReplace_loop]

section
variable (hp : p ≠ [])

theorem replaceStr_loop_nil : replaceStr.loop p r hp outSz out [] = (out, true) := by
  rw [replaceStr.loop]

theorem replaceStr_loop_full (h : outSz ≤ out.length) :
    (replaceStr.loop p r hp outSz out s).2 = true := by
  cases s with
  | nil => rw [replaceStr_loop_nil]
  | cons c s => rw [replaceStr.loop, if_neg (Nat.not_lt.mpr h)]

theorem replaceStr_loop_append (h : out.length < outSz) :
    replaceStr.loop p r hp outSz out (p ++ v) =
      if outSz ≤ out.length + r.length then (out, false)
      else replaceStr.loop p r hp outSz (out ++ r) v := by
  obtain ⟨c, q, rfl⟩ := List.exists_cons_of_ne_nil hp
  rw [List.cons_append, replaceStr.loop, if_pos h, if_pos ⟨v, rfl⟩, ← List.cons_append,
    List.drop_left]

theorem replaceStr_loop_cons (h : out.length < outSz) (hstarts : ¬ p <+: c :: s) :
    replaceStr.loop p r hp outSz out (c :: s) = replaceStr.loop p r hp outSz (out ++ [c]) s := by
  rw [replaceStr.loop, if_pos h, if_neg hstarts]

/-- What is in front of the leftmost occurrence is copied, as far as there is room. -/
theorem replaceStr_loop_copy (hnone : ∀ j < u.length, ¬ p <+: (u ++ t).drop j)
    (h : out.length + u.length ≤ outSz) :
    replaceStr.loop p r hp outSz out (u ++ t) = replaceStr.loop p r hp outSz (out ++ u) t := by
  induction u generalizing out with
  | nil => rw [List.nil_append, List.append_nil]
  | cons c u ih =>
    rw [List.length_cons] at h
    have hhead : ¬ p <+: c :: (u ++ t) := hnone 0 (Nat.succ_pos _)
    rw [List.cons_append, replaceStr_loop_cons hp (by omega) hhead,
      ih (fun j hj => hnone (j + 1) (Nat.succ_lt_succ hj))
        (by rw [List.length_append, List.length_singleton]; omega),
      List.append_assoc, List.singleton_append]

theorem replaceStr_loop_cut (hnone : ∀ j < u.length, ¬ p <+: (u ++ t).drop j)
    (h : outSz < out.length + u.length) :
    (replaceStr.loop p r hp outSz out (u ++ t)).2 = true := by
  induction u generalizing out with
  | nil => exact replaceStr_loop_full hp h.le
  | cons c u ih =>
    rw [List.length_cons] at h
    by_cases hroom : out.length < outSz
    · have hhead : ¬ p <+: c :: (u ++ t) := hnone 0 (Nat.succ_pos _)
      rw [List.cons_append, replaceStr_loop_cons hp hroom hhead]
      exact ih (fun j hj => hnone (j + 1) (Nat.succ_lt_succ hj))
        (by rw [List.length_append, List.length_singleton]; omega)
    · exact replaceStr_loop_full hp (Nat.not_lt.mp hroom)

theorem replaceStr_loop_of_none (h : find? p s = none) (hroom : out.length + s.length ≤ outSz) :
    replaceStr.loop p r hp outSz out s = (out ++ s, true) := by
  have hcopy := replaceStr_loop_copy (r := r) (u := s) (t := []) hp (fun j _ hstarts => ?_) hroom
  · rwa [List.append_nil, replaceStr_loop_nil] at hcopy
  · rw [List.append_nil] at hstarts
    exact find?_eq_none_iff.mp h (hstarts.isInfix.trans (List.drop_suffix j s).isInfix)

/-- Up to behind the leftmost occurrence. -/
theorem replaceStr_loop_of_some (h : find? p (u ++ (p ++ v)) = some u.length)
    (hroom : out.length + u.length < outSz) :
    replaceStr.loop p r hp outSz out (u ++ (p ++ v)) =
      if outSz ≤ out.length + u.length + r.length then (out ++ u, false)
      else replaceStr.loop p r hp outSz (out ++ u ++ r) v := by
  obtain ⟨_, _, -, -, hnone⟩ := find?_eq_some_iff.mp h
  rw [replaceStr_loop_copy hp hnone hroom.le, replaceStr_loop_append hp, List.length_append]
  rwa [List.length_append]

/-- A result that fits, with its NUL. -/
theorem replaceStr_loop_of_lt (h : out.length + (replaceAll p r s).length < outSz) :
    replaceStr.loop p r hp outSz out s = (out ++ replaceAll p r s, true) := by
  induction s using fields_induction hp generalizing out with
  | none s hs =>
    rw [replaceAll, fields_of_none hs, List.intercalate_singleton] at h ⊢
    exact replaceStr_loop_of_none hp hs h.le
  | some u v hfound hfields ih =>
    obtain ⟨f, fs, hf⟩ := List.exists_cons_of_ne_nil (fields_ne_nil (p := p) (t := v))
    have hall : replaceAll p r (u ++ (p ++ v)) = u ++ r ++ replaceAll p r v := by
      rw [replaceAll, replaceAll, hfields, hf, List.intercalate_cons_cons]
    rw [hall, List.length_append, List.length_append] at h
    rw [replaceStr_loop_of_some hp hfound (by omega), if_neg (by omega), hall,
      ih (by rw [List.length_append, List.length_append]; omega)]
    simp only [List.append_assoc]

/-- A replacement is what reaches the end of the buffer, behind `used` characters. -/
def OverflowsByReplacement (r : CString) (outSz used : Nat) (fs : List CString) : Prop :=
  ∃ pre post, fs = pre ++ post ∧ pre ≠ [] ∧ post ≠ [] ∧ used + (r.intercalate pre).length < outSz ∧
    outSz ≤ used + (r.intercalate pre).length + r.length

omit hp in
theorem not_overflowsByReplacement_singleton {f : CString} {used : Nat} :
    ¬ OverflowsByReplacement r outSz used [f] := by
  rintro ⟨pre, post, heq, hpre, hpost, -⟩
  rcases List.append_eq_singleton_iff.mp heq.symm with ⟨h, -⟩ | ⟨-, h⟩
  · exact hpre h
  · exact hpost h

omit hp in
theorem overflowsByReplacement_cons {f : CString} {fs : List CString} {used : Nat} (hfs : fs ≠ []) :
    OverflowsByReplacement r outSz used (f :: fs) ↔ used + f.length < outSz ∧
      (outSz ≤ used + f.length + r.length ∨
        OverflowsByReplacement r outSz (used + f.length + r.length) fs) := by
  constructor
  · rintro ⟨pre, post, heq, hpre, hpost, hlt, hle⟩
    obtain ⟨f', pre, rfl⟩ := List.exists_cons_of_ne_nil hpre
    obtain ⟨rfl, rfl⟩ := List.cons_eq_cons.mp heq
    cases pre with
    | nil =>
      rw [List.intercalate_singleton] at hlt hle
      exact ⟨hlt, .inl hle⟩
    | cons g pre =>
      rw [List.intercalate_cons_cons, List.length_append, List.length_append] at hlt hle
      exact ⟨by omega, .inr ⟨g :: pre, post, rfl, List.cons_ne_nil _ _, hpost, by omega, by omega⟩⟩
  · rintro ⟨hlt, hle | ⟨pre, post, rfl, hpre, hpost, hlt', hle⟩⟩
    · refine ⟨[f], fs, rfl, List.cons_ne_nil _ _, hfs, ?_, ?_⟩ <;> rwa [List.intercalate_singleton]
    · obtain ⟨g, pre, rfl⟩ := List.exists_cons_of_ne_nil hpre
      refine ⟨f :: g :: pre, post, rfl, List.cons_ne_nil _ _, hpost, ?_, ?_⟩ <;>
        rw [List.intercalate_cons_cons, List.length_append, List.length_append] <;> omega

/-- The overflow that is seen. -/
theorem replaceStr_loop_eq_false_iff : (replaceStr.loop p r hp outSz out s).2 = false ↔
    OverflowsByReplacement r outSz out.length (fields p s) := by
  induction s using fields_induction hp generalizing out with
  | none s hs =>
    rw [fields_of_none hs]
    refine iff_of_false (Bool.not_eq_false _ ▸ ?_) not_overflowsByReplacement_singleton
    rcases Nat.lt_or_ge outSz (out.length + s.length) with hlt | hle
    · have hcut := replaceStr_loop_cut (r := r) (u := s) (t := []) hp (fun j _ hstarts => ?_) hlt
      · rwa [List.append_nil] at hcut
      · rw [List.append_nil] at hstarts
        exact find?_eq_none_iff.mp hs (hstarts.isInfix.trans (List.drop_suffix j s).isInfix)
    · rw [replaceStr_loop_of_none hp hs hle]
  | some u v hfound hfields ih =>
    rw [hfields, overflowsByReplacement_cons fields_ne_nil]
    by_cases hroom : out.length + u.length < outSz
    · rw [replaceStr_loop_of_some hp hfound hroom]
      split_ifs with hfull
      · exact iff_of_true rfl ⟨hroom, .inl hfull⟩
      · rw [ih, List.length_append, List.length_append]
        exact ⟨fun h => ⟨hroom, .inr h⟩, fun h => h.2.resolve_left hfull⟩
    · refine iff_of_false (Bool.not_eq_false _ ▸ ?_) fun h => hroom h.1
      obtain ⟨_, _, -, -, hnone⟩ := find?_eq_some_iff.mp hfound
      rcases Nat.lt_or_ge outSz (out.length + u.length) with hlt | hle
      · exact replaceStr_loop_cut hp hnone hlt
      · rw [replaceStr_loop_copy hp hnone hle]
        exact replaceStr_loop_full hp (by rw [List.length_append]; omega)

end

/-- `ReplaceStr` returns true if and only if what `SearchAndReplace` returns fits the buffer, which
holds it then. -/
def ReplacesAsSearch (s p r : CString) (hp : p ≠ []) (outSz : Nat) : Prop :=
  ((replaceStr s outSz p r hp).2 = true ↔ (searchAndReplace s p r).length < outSz) ∧
    ((replaceStr s outSz p r hp).2 = true →
      (replaceStr s outSz p r hp).1 = searchAndReplace s p r ++
      List.replicate (outSz - (searchAndReplace s p r).length) '\x00')

/-- They agree exactly if the result fits, or it is a replacement that does not. -/
theorem replacesAsSearch_iff (s p r : CString) (hp : p ≠ []) (outSz : Nat) :
    ReplacesAsSearch s p r hp outSz ↔
      (replaceAll p r s).length < outSz ∨ OverflowsByReplacement r outSz 0 (fields p s) := by
  rw [ReplacesAsSearch, searchAndReplace_eq hp]
  by_cases hfits : (replaceAll p r s).length < outSz
  · have hloop : replaceStr.loop p r hp outSz [] s = ([] ++ replaceAll p r s, true) :=
      replaceStr_loop_of_lt hp (by rwa [List.length_nil, Nat.zero_add])
    rw [List.nil_append] at hloop
    refine iff_of_true ⟨iff_of_true ?_ hfits, fun _ => ?_⟩ (.inl hfits) <;> rw [replaceStr, hloop]
  · have hfalse : (replaceStr s outSz p r hp).2 = false ↔
        OverflowsByReplacement r outSz 0 (fields p s) := replaceStr_loop_eq_false_iff hp
    rw [← hfalse]
    constructor
    · rintro ⟨hiff, -⟩
      exact .inr (Bool.not_eq_true _ ▸ mt hiff.mp hfits)
    · intro h
      have hret := h.resolve_left hfits
      exact ⟨iff_of_false (Bool.not_eq_true _ ▸ hret) hfits,
        fun htrue => by rw [hret] at htrue; cases htrue⟩

/-- Four characters in a buffer of three. -/
theorem replacesAsSearch_copied :
    ¬ ReplacesAsSearch ['a', 'b', 'c', 'd'] ['x'] ['y'] (List.cons_ne_nil _ _) 3 := by
  rintro ⟨hiff, -⟩
  have hcut : (replaceStr ['a', 'b', 'c', 'd'] 3 ['x'] ['y'] (List.cons_ne_nil _ _)).2 = true :=
    replaceStr_loop_cut _ (u := ['a', 'b', 'c', 'd']) (t := []) (by decide) (by decide)
  have hlt := hiff.mp hcut
  rw [searchAndReplace_eq (List.cons_ne_nil _ _), replaceAll, fields_of_none (by decide)] at hlt
  exact absurd hlt (by decide)

/-- They agree on a result that fits. -/
theorem replacesAsSearch_iff_aba :
    ReplacesAsSearch ['a', 'b', 'a'] ['a'] ['c', 'd'] (List.cons_ne_nil _ _) 6 ↔
      (replaceAll ['a'] ['c', 'd'] ['a', 'b', 'a']).length < 6 ∨
        OverflowsByReplacement ['c', 'd'] 6 0 (fields ['a'] ['a', 'b', 'a']) :=
  replacesAsSearch_iff _ _ _ (List.cons_ne_nil _ _) _

/-! ## Escaping special characters -/

/-- Every character that is not alphanumeric behind a backslash. -/
def escapeAll (s : CString) : CString := s.flatMap (escapeSpecialChar [])

/-- The string with everything outside of the occurrences of `p` escaped. -/
def escapedOutside (p s : CString) : CString := p.intercalate ((fields p s).map escapeAll)

theorem escapeSpecialChar_nil (c : Char) :
    escapeSpecialChar [] c = if c.isAlphanum then [c] else ['\\', c] := by
  rw [escapeSpecialChar, if_neg List.not_mem_nil]

theorem length_escapeSpecialChar_le (l : CString) (c : Char) :
    (escapeSpecialChar l c).length ≤ 2 := by
  rw [escapeSpecialChar]
  split_ifs <;> simp

theorem escapeAll_cons (c : Char) (s : CString) :
    escapeAll (c :: s) = escapeSpecialChar [] c ++ escapeAll s := by
  rw [escapeAll, List.flatMap_cons, escapeAll]

theorem length_escapeAll_le (s : CString) : (escapeAll s).length ≤ 2 * s.length := by
  induction s with
  | nil => exact Nat.le_refl _
  | cons c s ih =>
    have := length_escapeSpecialChar_le [] c
    rw [escapeAll_cons, List.length_append, List.length_cons]
    omega

theorem escapedOutside_of_none (h : find? p s = none) : escapedOutside p s = escapeAll s := by
  rw [escapedOutside, fields_of_none h, List.map_singleton, List.intercalate_singleton]

theorem escapedOutside_of_some (hfields : fields p (u ++ (p ++ v)) = u :: fields p v) :
    escapedOutside p (u ++ (p ++ v)) = escapeAll u ++ p ++ escapedOutside p v := by
  obtain ⟨f, fs, hf⟩ := List.exists_cons_of_ne_nil (fields_ne_nil (p := p) (t := v))
  rw [escapedOutside, escapedOutside, hfields, hf, List.map_cons, List.map_cons,
    List.intercalate_cons_cons]

theorem escapeSpecialChars_loop_nil : escapeSpecialChars.loop sz p [] out [] = .ok out := by
  rw [escapeSpecialChars.loop]

theorem escapeSpecialChars_loop_cons (h : out.length + 2 < sz) (hstarts : ¬ p <+: c :: s) :
    escapeSpecialChars.loop sz p [] out (c :: s) =
      escapeSpecialChars.loop sz p [] (out ++ escapeSpecialChar [] c) s := by
  rw [escapeSpecialChars.loop, if_pos h, if_neg hstarts]

/-- Nothing stands behind the copied sequence: the NUL is skipped. -/
theorem escapeSpecialChars_loop_end (hp : p ≠ []) (h : out.length + 2 * p.length + 2 < sz) :
    escapeSpecialChars.loop sz p [] out p = .error .outOfBounds := by
  obtain ⟨c, q, rfl⟩ := List.exists_cons_of_ne_nil hp
  rw [escapeSpecialChars.loop, if_pos (by omega), if_pos (List.prefix_refl _), if_neg (by omega)]
  split
  · rfl
  · next hdrop =>
    rw [List.drop_length] at hdrop
    cases hdrop

/-- What stands behind the copied sequence is one character on its own. -/
theorem escapeSpecialChars_loop_seq (hp : p ≠ [])
    (h : out.length + 2 * (p.length + (d :: v).length) + 2 < sz) :
    escapeSpecialChars.loop sz p [] out (p ++ d :: v) =
      escapeSpecialChars.loop sz p [] (out ++ p ++ escapeSpecialChar [] d) v := by
  obtain ⟨c, q, hcq⟩ := List.exists_cons_of_ne_nil hp
  have hc := length_escapeSpecialChar_le [] d
  rw [List.length_cons] at h
  have hdrop : (p ++ d :: v).drop p.length = d :: v := List.drop_left
  rw [hcq, List.cons_append, ← hcq] at hdrop ⊢
  rw [escapeSpecialChars.loop, if_pos (by omega), if_pos ⟨d :: v, by rw [hcq, List.cons_append]⟩,
    if_neg (by omega)]
  split
  · next hnil => rw [hnil] at hdrop; cases hdrop
  · next e w hsome =>
    rw [hsome] at hdrop
    cases hdrop
    dsimp only
    rw [if_neg (by rw [List.length_append, List.length_append]; omega)]

/-- Characters at which no occurrence starts. -/
theorem escapeSpecialChars_loop_append (hnone : ∀ j < u.length, ¬ p <+: (u ++ t).drop j)
    (h : out.length + 2 * u.length + 2 < sz) :
    escapeSpecialChars.loop sz p [] out (u ++ t) =
      escapeSpecialChars.loop sz p [] (out ++ escapeAll u) t := by
  induction u generalizing out with
  | nil => rw [List.nil_append, escapeAll, List.flatMap_nil, List.append_nil]
  | cons c u ih =>
    have hhead : ¬ p <+: c :: (u ++ t) := hnone 0 (Nat.succ_pos _)
    have hc := length_escapeSpecialChar_le [] c
    rw [List.length_cons] at h
    rw [List.cons_append, escapeSpecialChars_loop_cons (by omega) hhead,
      ih (fun j hj => hnone (j + 1) (Nat.succ_lt_succ hj)) (by rw [List.length_append]; omega),
      escapeAll_cons, List.append_assoc]

/-- Nothing is taken back from the buffer. -/
theorem isPrefix_escapeSpecialChars_loop {l : CString}
    (h : escapeSpecialChars.loop sz p l out s = .ok res) : out <+: res := by
  fun_induction escapeSpecialChars.loop sz p l out s with
  | case1 => cases h; exact List.prefix_refl _
  | case2 => cases h; exact List.prefix_refl _
  | case3 => cases h
  | case4 => cases h
  | case5 _ _ _ _ _ _ _ _ _ _ _ ih =>
    exact ((List.prefix_append _ _).trans (List.prefix_append _ _)).trans (ih h)
  | case6 _ _ _ _ _ ih => exact (List.prefix_append _ _).trans (ih h)
  | case7 => cases h; exact List.prefix_refl _

theorem prefix_of_fields_eq_nil_cons {fs : List CString} (hp : p ≠ []) (h : fields p s = [] :: fs) :
    s = [] ∨ p <+: s := by
  have hjoin := intercalate_fields hp s
  rw [h] at hjoin
  cases fs with
  | nil => exact .inl hjoin.symm
  | cons f fs =>
    rw [List.intercalate_cons_cons, List.nil_append] at hjoin
    exact .inr ⟨_, hjoin⟩

theorem fields_eq_nil_cons (hp : p ≠ []) (h : s = [] ∨ p <+: s) : ∃ fs, fields p s = [] :: fs := by
  rcases h with rfl | hstarts
  · exact ⟨[], fields_of_none (by rw [find?, if_neg hp])⟩
  · exact ⟨_, fields_of_some hp (find?_eq_zero hstarts)⟩

/-- Behind the first field, no field is empty. -/
def Separated (p s : CString) : Prop := ∀ f ∈ (fields p s).tail, f ≠ []

theorem separated_of_some (hp : p ≠ []) (hfields : fields p (u ++ (p ++ v)) = u :: fields p v) :
    Separated p (u ++ (p ++ v)) ↔ v ≠ [] ∧ ¬ p <+: v ∧ Separated p v := by
  obtain ⟨f, fs, hf⟩ := List.exists_cons_of_ne_nil (fields_ne_nil (p := p) (t := v))
  have hhead : f = [] ↔ v = [] ∨ p <+: v := by
    constructor
    · rintro rfl
      exact prefix_of_fields_eq_nil_cons hp hf
    · intro h
      obtain ⟨gs, hgs⟩ := fields_eq_nil_cons hp h
      rw [hf] at hgs
      exact (List.cons_eq_cons.mp hgs).1
  rw [Separated, Separated, hfields, hf, List.tail_cons, List.tail_cons, List.forall_mem_cons,
    ne_eq, hhead, not_or, and_assoc]

/-- Where no occurrence follows at once, the copied sequence changes nothing of what is behind
it. -/
theorem escapeSpecialChars_loop_apart (hp : p ≠ []) (hv : v ≠ []) (hstarts : ¬ p <+: v)
    (h : out.length + 2 * (p.length + v.length) + 2 < sz) :
    escapeSpecialChars.loop sz p [] out (p ++ v) =
      escapeSpecialChars.loop sz p [] (out ++ p) v := by
  obtain ⟨d, v, rfl⟩ := List.exists_cons_of_ne_nil hv
  rw [escapeSpecialChars_loop_seq hp h, escapeSpecialChars_loop_cons _ hstarts]
  rw [List.length_append]
  have := List.length_pos_of_ne_nil hp
  omega

/-- Up to behind the leftmost occurrence. -/
theorem escapeSpecialChars_loop_of_some (hfound : find? p (u ++ (p ++ v)) = some u.length)
    (h : out.length + 2 * (u ++ (p ++ v)).length + 2 < sz) :
    escapeSpecialChars.loop sz p [] out (u ++ (p ++ v)) =
      escapeSpecialChars.loop sz p [] (out ++ escapeAll u) (p ++ v) := by
  obtain ⟨_, _, -, -, hnone⟩ := find?_eq_some_iff.mp hfound
  rw [List.length_append] at h
  exact escapeSpecialChars_loop_append hnone (by omega)

theorem escapeSpecialChars_loop_of_separated (hp : p ≠ []) (hsep : Separated p s)
    (h : out.length + 2 * s.length + 2 < sz) :
    escapeSpecialChars.loop sz p [] out s = .ok (out ++ escapedOutside p s) := by
  induction s using fields_induction hp generalizing out with
  | none s hs =>
    have hcopy :=
      escapeSpecialChars_loop_append (p := p) (u := s) (t := []) (fun j _ hstarts => ?_) h
    · rw [List.append_nil, escapeSpecialChars_loop_nil] at hcopy
      rw [hcopy, escapedOutside_of_none hs]
    · rw [List.append_nil] at hstarts
      exact find?_eq_none_iff.mp hs (hstarts.isInfix.trans (List.drop_suffix j s).isInfix)
  | some u v hfound hfields ih =>
    obtain ⟨hv, hstarts, hsep⟩ := (separated_of_some hp hfields).mp hsep
    have hu := length_escapeAll_le u
    rw [escapeSpecialChars_loop_of_some hfound h]
    rw [List.length_append, List.length_append] at h
    rw [escapeSpecialChars_loop_apart hp hv hstarts (by rw [List.length_append]; omega),
      ih hsep (by rw [List.length_append, List.length_append]; omega),
      escapedOutside_of_some hfields]
    simp only [List.append_assoc]

/-! ### Sequences that show a misplaced backslash -/

/-- The first character of the sequence that is not alphanumeric is not a backslash. -/
def ShowsBackslash (p : CString) : Prop :=
  ∃ w c q, p = w ++ c :: q ∧ (∀ x ∈ w, x.isAlphanum = true) ∧ c.isAlphanum = false ∧ c ≠ '\\'

theorem escapeAll_of_isAlphanum (h : ∀ x ∈ u, x.isAlphanum = true) : escapeAll u = u := by
  induction u with
  | nil => rfl
  | cons c u ih =>
    rw [List.forall_mem_cons] at h
    rw [escapeAll_cons, escapeSpecialChar_nil, if_pos h.1, ih h.2]
    rfl

/-- The sequence does not occur again before its first character that is not alphanumeric. -/
theorem not_prefix_drop_append {w q : CString} (hw : ∀ x ∈ w, x.isAlphanum = true)
    (hc : c.isAlphanum = false) {j : Nat} (hj : 0 < j) (hle : j ≤ w.length) :
    ¬ w ++ c :: q <+: (w ++ c :: t).drop j := by
  rintro ⟨r, hr⟩
  have hlt : w.length - j < w.length := by omega
  have hat := congrArg (fun l => l[w.length - j]?) hr
  simp only [List.append_assoc, List.getElem?_drop, List.getElem?_append_left hlt] at hat
  rw [Nat.add_sub_cancel' hle, List.getElem?_append_right (Nat.le_refl _), Nat.sub_self,
    List.getElem?_cons_zero, List.getElem?_eq_getElem hlt, Option.some.injEq] at hat
  have := hw _ (List.getElem_mem hlt)
  rw [hat, hc] at this
  cases this

/-- The second of two occurrences in a row gets a backslash inside. -/
theorem escapeSpecialChars_loop_twice {w q : CString} (hw : ∀ x ∈ w, x.isAlphanum = true)
    (hc : c.isAlphanum = false) (heq : p = w ++ c :: q)
    (h : out.length + 2 * (p ++ (p ++ v)).length + 2 < sz)
    (hres : escapeSpecialChars.loop sz p [] out (p ++ (p ++ v)) = .ok res) :
    out ++ p ++ w ++ ['\\'] <+: res := by
  have hp : p ≠ [] := by
    rw [heq]
    exact List.append_ne_nil_of_right_ne_nil _ (List.cons_ne_nil _ _)
  have hesc : escapeSpecialChar [] c = ['\\', c] := by
    rw [escapeSpecialChar_nil, hc, if_neg Bool.false_ne_true]
  have hlength : p.length = w.length + q.length + 1 := by
    rw [heq, List.length_append, List.length_cons, Nat.add_assoc]
  rw [List.length_append, List.length_append] at h
  cases w with
  | nil =>
    have hpv : p ++ v = c :: (q ++ v) := by rw [heq]; rfl
    rw [hpv, escapeSpecialChars_loop_seq hp (by rw [← hpv, List.length_append]; omega),
      hesc] at hres
    refine List.IsPrefix.trans ?_ (isPrefix_escapeSpecialChars_loop hres)
    exact ⟨[c], by simp⟩
  | cons d w =>
    have hpv : p ++ v = d :: (w ++ c :: (q ++ v)) := by rw [heq]; simp
    have hd : escapeSpecialChar [] d = [d] := by
      rw [escapeSpecialChar_nil, if_pos (hw d (List.mem_cons_self))]
    have hnone (j : Nat) (hle : j ≤ w.length) : ¬ p <+: (w ++ c :: (q ++ v)).drop j := by
      have := not_prefix_drop_append (q := q) (t := q ++ v) hw hc (Nat.succ_pos j)
        (Nat.succ_le_succ hle)
      rwa [heq]
    have hstarts : ¬ p <+: c :: (q ++ v) := by
      have := hnone w.length (Nat.le_refl _)
      rwa [List.drop_left] at this
    have hw' : escapeAll w = w :=
      escapeAll_of_isAlphanum fun x hx => hw x (List.mem_cons_of_mem _ hx)
    rw [List.length_cons] at hlength
    rw [hpv, escapeSpecialChars_loop_seq hp (by rw [← hpv, List.length_append]; omega), hd,
      escapeSpecialChars_loop_append (fun j hj => hnone j hj.le)
        (by simp only [List.length_append, List.length_singleton]; omega), hw',
      escapeSpecialChars_loop_cons
        (by simp only [List.length_append, List.length_singleton]; omega) hstarts, hesc] at hres
    refine List.IsPrefix.trans ?_ (isPrefix_escapeSpecialChars_loop hres)
    exact ⟨[c], by simp⟩

/-- Such a sequence is copied right only where no two of them meet, and none ends the string. -/
theorem separated_of_escapeSpecialChars_loop (hp : ShowsBackslash p)
    (h : out.length + 2 * s.length + 2 < sz)
    (hres : escapeSpecialChars.loop sz p [] out s = .ok (out ++ escapedOutside p s)) :
    Separated p s := by
  obtain ⟨w, c, q, heq, hw, hc, hne⟩ := hp
  have hp : p ≠ [] := by
    rw [heq]
    exact List.append_ne_nil_of_right_ne_nil _ (List.cons_ne_nil _ _)
  induction s using fields_induction hp generalizing out with
  | none s hs =>
    rw [Separated, fields_of_none hs]
    exact fun f hf => absurd hf List.not_mem_nil
  | some u v hfound hfields ih =>
    have hu := length_escapeAll_le u
    rw [escapeSpecialChars_loop_of_some hfound h, escapedOutside_of_some hfields] at hres
    rw [List.length_append, List.length_append] at h
    have hroom : (out ++ escapeAll u).length + 2 * (p.length + v.length) + 2 < sz := by
      rw [List.length_append]
      omega
    have hv : v ≠ [] := by
      rintro rfl
      rw [List.append_nil, escapeSpecialChars_loop_end hp (by omega)] at hres
      cases hres
    have hstarts : ¬ p <+: v := by
      rintro ⟨v, rfl⟩
      have hwritten := escapeSpecialChars_loop_twice hw hc heq
        ((@List.length_append _ p (p ++ v)).symm ▸ hroom) hres
      have hnext : escapedOutside p (p ++ v) = p ++ escapedOutside p v := by
        refine escapedOutside_of_some (u := []) ?_
        rw [List.nil_append, fields_of_some hp (find?_eq_zero ⟨v, rfl⟩), List.take_zero,
          Nat.zero_add, List.drop_left]
      have hall : out ++ (escapeAll u ++ p ++ escapedOutside p (p ++ v)) =
          out ++ escapeAll u ++ p ++ w ++ c :: (q ++ escapedOutside p v) := by
        rw [hnext]
        nth_rewrite 2 [heq]
        simp only [List.append_assoc, List.cons_append]
      rw [hall, List.prefix_append_right_inj, List.cons_prefix_cons] at hwritten
      exact hne hwritten.1.symm
    rw [escapeSpecialChars_loop_apart hp hv hstarts hroom, ← List.append_assoc, ← List.append_assoc]
      at hres
    exact (separated_of_some hp hfields).mpr
      ⟨hv, hstarts, ih (by rw [List.length_append, List.length_append]; omega) hres⟩

/-- Only the characters of the string and its NUL are read, and what is outside of the occurrences
is escaped. -/
def EscapesOutside (s : CString) (sz : Nat) (p : CString) : Prop :=
  escapeSpecialChars s sz p [] = .ok (escapedOutside p s)

/-- The escaping is right where the fields behind the first one are not empty, and for a sequence
that shows a misplaced backslash nowhere else. -/
theorem escapesOutside_of_separated (s : CString) (hp : p ≠ []) (hsz : 2 * s.length + 2 < sz) :
    (Separated p s → EscapesOutside s sz p) ∧
      (ShowsBackslash p → EscapesOutside s sz p → Separated p s) := by
  have hroom : ([] : CString).length + 2 * s.length + 2 < sz := by
    rwa [List.length_nil, Nat.zero_add]
  exact ⟨fun hsep => escapeSpecialChars_loop_of_separated hp hsep hroom,
    fun hshows h => separated_of_escapeSpecialChars_loop hshows hroom h⟩

/-- What is behind the sequence is escaped. -/
theorem escapesOutside_dot : EscapesOutside ['a', '.', '-'] 20 ['.'] := by
  have hfound : find? ['.'] ['a', '.', '-'] = some 1 := by decide
  have hlast : fields ['.'] (['a', '.', '-'].drop (1 + 1)) = [['-']] := fields_of_none (by decide)
  refine (escapesOutside_of_separated _ (List.cons_ne_nil _ _) (by decide)).1 fun f hf => ?_
  rw [fields_of_some (List.cons_ne_nil _ _) hfound, List.tail_cons, List.length_singleton, hlast,
    List.mem_singleton] at hf
  rw [hf]
  exact List.cons_ne_nil _ _

/-- The NUL behind a sequence at the end is skipped. -/
theorem escapesOutside_at_end :
    ¬ EscapesOutside ['a', '(', '.', '*', ')'] 20 ['(', '.', '*', ')'] := by
  intro h
  have hstart : escapeSpecialChars ['a', '(', '.', '*', ')'] 20 ['(', '.', '*', ')'] [] =
      escapeSpecialChars.loop 20 ['(', '.', '*', ')'] [] ['a'] ['(', '.', '*', ')'] :=
    escapeSpecialChars_loop_append (u := ['a']) (t := ['(', '.', '*', ')']) (by decide) (by decide)
  rw [EscapesOutside, hstart, escapeSpecialChars_loop_end (List.cons_ne_nil _ _) (by decide)] at h
  cases h

end Cfengine
