import Cfengine.ParserPositions

/-!
# Positions of the parsers

Each parser by positions tracks its counterpart on lists, on the text up to `end`. So no parser
looks behind `end`, each returns, and the position at which it stops marks what the other one
leaves.
-/

namespace Cfengine.Positional
open Positions

variable {expr : CString} {«end» start i : Nat}

/-! ## Looking at a character -/

theorem drop_take_eq_cons (hend : «end» ≤ expr.length) (hi : i < «end») :
    ∃ c, (expr.take «end»).drop i = c :: (expr.take «end»).drop (i + 1) ∧
      charAt expr «end» i = .ok c := by
  have hlen : i < (expr.take «end»).length := by
    rw [List.length_take]
    omega
  refine ⟨(expr.take «end»)[i], List.drop_eq_getElem_cons hlen, ?_⟩
  rw [charAt, if_pos (Nat.le_of_lt hi), List.getElem_take,
    List.getD_eq_getElem _ _ (Nat.lt_of_lt_of_le hi hend)]

theorem drop_take_eq_nil (hi : «end» ≤ i) : (expr.take «end»).drop i = [] :=
  List.drop_eq_nil_of_le ((List.length_take_le _ _).trans hi)

theorem hasChar_cases (hend : «end» ≤ expr.length) (i : Nat) (c : Char) :
    (hasChar expr «end» i c = .ok true ∧ i < «end» ∧
      (expr.take «end»).drop i = c :: (expr.take «end»).drop (i + 1)) ∨
    hasChar expr «end» i c = .ok false ∧ ∀ next, (expr.take «end»).drop i = c :: next → False := by
  by_cases hi : i < «end»
  · obtain ⟨c', hdrop, hchar⟩ := drop_take_eq_cons hend hi
    have hlook : hasChar expr «end» i c = .ok (c' = c) := by
      rw [hasChar, if_pos hi, hchar]
      rfl
    by_cases hc : c' = c
    · exact .inl ⟨by rw [hlook, decide_eq_true hc], hi, hc ▸ hdrop⟩
    · refine .inr ⟨by rw [hlook, decide_eq_false hc], fun next hnext => hc ?_⟩
      exact (List.cons.inj (hdrop.symm.trans hnext)).1
  · refine .inr ⟨if_neg hi, fun next hnext => ?_⟩
    rw [drop_take_eq_nil (Nat.le_of_not_lt hi)] at hnext
    cases hnext

/-! ## Names -/

/-- The loop stops behind the token. -/
theorem parseToken_loop_eq (hend : «end» ≤ expr.length) {n : Nat} (hn : «end» - i < n) :
    parseToken.loop expr «end» n i =
      .ok (i + (((expr.take «end»).drop i).takeWhile validTokenCharacter).length) := by
  induction n generalizing i with
  | zero => omega
  | succ n ih =>
    rw [parseToken.loop]
    by_cases hi : i < «end»
    · obtain ⟨c, hdrop, hchar⟩ := drop_take_eq_cons hend hi
      rw [if_pos hi, hchar, hdrop, List.takeWhile_cons]
      cases hc : validTokenCharacter c
      · simp [bind, Except.bind, hc]
        rfl
      · simp only [bind, Except.bind, hc, if_true, List.length_cons]
        rw [ih (by omega)]
        congr 1
        omega
    · rw [if_neg hi, drop_take_eq_nil (Nat.le_of_not_lt hi)]
      rfl

theorem tracks_parseToken (hend : «end» ≤ expr.length) (hstart : start ≤ «end») :
    Tracks (expr.take «end») start (parseToken expr «end» start)
      (Cfengine.parseToken ((expr.take «end»).drop start)) := by
  have hlen : (expr.take «end»).length = «end» := List.length_take_of_le hend
  have hloop := parseToken_loop_eq hend (Nat.lt_succ_self («end» - start))
  rw [parseToken, hloop, Cfengine.parseToken]
  generalize hrest : (expr.take «end»).drop start = rest
  have hsplit := List.takeWhile_append_dropWhile (p := validTokenCharacter) (l := rest)
  -- The loop has read the token, which is copied from the whole text.
  have htext : rest = (expr.drop start).take («end» - start) := by rw [← hrest, List.drop_take]
  have htoken : (expr.drop start).take (rest.takeWhile validTokenCharacter).length =
      rest.takeWhile validTokenCharacter := by
    have hpart : rest.takeWhile validTokenCharacter <+: expr.drop start :=
      ((List.takeWhile_prefix _).trans (htext ▸ List.take_prefix _ _))
    exact (List.prefix_iff_eq_take.mp hpart).symm
  have hposend : start + (rest.takeWhile validTokenCharacter).length ≤
      (expr.take «end»).length := by
    have hle := (List.takeWhile_prefix validTokenCharacter (l := rest)).length_le
    rw [← hrest, List.length_drop] at hle
    rw [← hrest]
    omega
  have hdrop : (expr.take «end»).drop (start + (rest.takeWhile validTokenCharacter).length) =
      rest.dropWhile validTokenCharacter := by
    rw [← List.drop_drop, hrest]
    exact (congrArg _ hsplit.symm).trans List.drop_left
  by_cases hnil : rest.takeWhile validTokenCharacter = []
  · rw [hnil] at hdrop hposend ⊢
    simp only [bind, Except.bind, List.length_nil, Nat.add_zero, gt_iff_lt, Nat.lt_irrefl, if_false,
      if_true]
    exact tracks_fail le_rfl hposend hrest
  · have hpos := List.length_pos_iff.mpr hnil
    simp only [bind, Except.bind, gt_iff_lt, Nat.lt_add_right_iff_pos, hpos, if_true, hnil,
      if_false, Nat.add_sub_cancel_left, htoken]
    exact tracks_success (by omega) hposend hdrop

section
variable {p : PosParser StringExpression} {q : Descent.Parser Char StringExpression}

theorem tracks_parseQname (hend : «end» ≤ expr.length) (hstart : start ≤ «end»)
    (h : TracksFrom (expr.take «end») start p q) :
    Tracks (expr.take «end») start (parseQname expr «end» p start)
      (Cfengine.parseQname q ((expr.take «end»).drop start)) := by
  have hlen : (expr.take «end»).length = «end» := List.length_take_of_le hend
  refine (h start le_rfl (hlen.ge.trans' hstart)).andThen fun lhs position hpos hposend => ?_
  by_cases hat : position = «end»
  · have hdrop : (expr.take «end»).drop position = [] := drop_take_eq_nil hat.ge
    rw [if_pos hat, hdrop]
    exact tracks_success hpos hposend hdrop
  · obtain ⟨c, hdrop, hchar⟩ := drop_take_eq_cons hend (by omega : position < «end»)
    rw [if_neg hat, hdrop, hchar]
    by_cases hc : c = '.'
    · subst hc
      have hnext := (h.mono (by omega)) (position + 1) le_rfl (by omega)
      refine (hnext.andThen fun rhs position' hpos' hposend' => ?_).mono (by omega)
      exact tracks_success hpos' hposend' rfl
    · simp only [bind, Except.bind, hc, ne_eq, not_false_eq_true, if_true, if_false]
      exact tracks_success hpos hposend hdrop

theorem tracks_parseVarRef (hend : «end» ≤ expr.length) (hstart : start ≤ «end»)
    (h : TracksFrom (expr.take «end») (start + 1) p q) :
    Tracks (expr.take «end») start (parseVarRef expr «end» p start)
      (Cfengine.parseVarRef q ((expr.take «end»).drop start)) := by
  have hlen : (expr.take «end»).length = «end» := List.length_take_of_le hend
  rw [parseVarRef]
  split
  · rename_i hnext
    obtain ⟨dollar, hdrop, hchar⟩ := drop_take_eq_cons hend (by omega : start < «end»)
    obtain ⟨bracket, hdrop', hchar'⟩ := drop_take_eq_cons hend hnext
    rw [hdrop, hchar, hdrop', hchar']
    simp only [bind, Except.bind, Cfengine.parseVarRef]
    split
    · split
      · refine ((tracks_parseQname hend (by omega) (h.mono (by omega))).mono
          (by omega : start ≤ start + 2)).andThen
          fun name position hpos hposend => ?_
        obtain ⟨hlook, hclose, hrest⟩ | ⟨hlook, hother⟩ := hasChar_cases hend position
          (if bracket = '(' then ')' else '}')
        · rw [hlook, hrest]
          simp only [if_true]
          exact tracks_success (by omega) (by omega) rfl
        · rw [hlook]
          cases hrest : (expr.take «end»).drop position with
          | nil => exact tracks_fail hpos.le hposend hrest
          | cons c next =>
            have hc : c ≠ if bracket = '(' then ')' else '}' := fun hc => hother next (hc ▸ hrest)
            simp only [if_neg hc]
            exact tracks_fail hpos.le hposend hrest
      · exact tracks_fail (by omega) (by omega) hdrop'
    · exact tracks_fail le_rfl (by omega) (hdrop.trans (congrArg _ hdrop'))
  · rename_i hnext
    have hshort : Cfengine.parseVarRef q ((expr.take «end»).drop start) =
        ⟨none, (expr.take «end»).drop start⟩ := by
      by_cases hat : start = «end»
      · rw [drop_take_eq_nil hat.ge]
        rfl
      · obtain ⟨c, hdrop, -⟩ := drop_take_eq_cons hend (by omega : start < «end»)
        rw [hdrop, drop_take_eq_nil (by omega)]
        rfl
    rw [hshort]
    exact tracks_fail le_rfl (by omega) rfl

theorem tracks_parseTerm (hend : «end» ≤ expr.length) (hstart : start ≤ «end»)
    (h : TracksFrom (expr.take «end») (start + 1) p q) :
    Tracks (expr.take «end») start (parseTerm expr «end» p start)
      (Cfengine.parseTerm q ((expr.take «end»).drop start)) := by
  rw [parseTerm, Cfengine.parseTerm]
  obtain ⟨position, hpos, hposend, hcall, hparsed⟩ | ⟨lhs, position, hpos, hposend, hcall,
      hparsed⟩ :=
    (tracks_parseToken hend hstart).cases
  · rw [hcall, hparsed]
    exact tracks_parseVarRef hend hstart h
  · rw [hcall, hparsed]
    exact tracks_success hpos hposend rfl

theorem tracksBody_parseStringExpression (hend : «end» ≤ expr.length) :
    TracksBody (expr.take «end») 0 (parseStringExpression.body expr «end»)
      Cfengine.parseStringExpression.body := by
  intro p q k _ hk h
  have hlen : (expr.take «end»).length = «end» := List.length_take_of_le hend
  refine (tracks_parseTerm hend (hk.trans_eq hlen) h).andThen fun lhs position hpos hposend => ?_
  obtain ⟨position', hpos', hposend', hcall, hparsed⟩ | ⟨rhs, position', hpos', hposend', hcall,
      hparsed⟩ :=
    (h position hpos hposend).cases
  · rw [hcall, hparsed]
    exact tracks_success hpos hposend rfl
  · rw [hcall, hparsed]
    exact tracks_success (hpos.trans hpos') hposend' rfl

end

theorem tracks_parseStringExpression (hend : «end» ≤ expr.length) :
    TracksFrom (expr.take «end») 0 (parseStringExpression expr «end»)
      Cfengine.parseStringExpression := by
  have hlen : (expr.take «end»).length = «end» := List.length_take_of_le hend
  have h := tracks_recurse (tracksBody_parseStringExpression hend)
  rwa [hlen] at h

/-! ## Class expressions -/

section
variable {p : PosParser Expression} {q : Descent.Parser Char Expression}

theorem tracks_parsePrimary (hend : «end» ≤ expr.length) (hstart : start ≤ «end»)
    (h : TracksFrom (expr.take «end») (start + 1) p q) :
    Tracks (expr.take «end») start (parsePrimary expr «end» p start)
      (Cfengine.parsePrimary q ((expr.take «end»).drop start)) := by
  have hlen : (expr.take «end»).length = «end» := List.length_take_of_le hend
  have hname : Tracks (expr.take «end») start
      (andThen (parseStringExpression expr «end» start) fun name position =>
        .ok ⟨some (Expression.eval name), position⟩)
      ((Cfengine.parseStringExpression ((expr.take «end»).drop start)).bind fun name rest =>
        ⟨some (Expression.eval name), rest⟩) :=
    (tracks_parseStringExpression hend start (Nat.zero_le _) (by omega)).andThen
      fun _ _ hpos hposend =>
      tracks_success hpos hposend rfl
  rw [parsePrimary]
  obtain ⟨hlook, hopen, hdrop⟩ | ⟨hlook, hother⟩ := hasChar_cases hend start '('
  · rw [hlook, hdrop]
    simp only [bind, Except.bind, Cfengine.parsePrimary, if_true]
    refine ((h (start + 1) le_rfl (by omega)).mono (by omega : start ≤ start + 1)).andThen
      fun res position hpos hposend => ?_
    obtain ⟨hlook', hclose, hrest⟩ | ⟨hlook', hother⟩ := hasChar_cases hend position ')'
    · rw [hlook', hrest]
      simp only [if_true]
      exact tracks_success (by omega) (by omega) rfl
    · rw [hlook']
      cases hrest : (expr.take «end»).drop position with
      | nil => exact tracks_fail hpos.le hposend hrest
      | cons c next =>
        have hc : c ≠ ')' := fun hc => hother next (hc ▸ hrest)
        simp only [if_neg hc]
        exact tracks_fail hpos.le hposend hrest
  · rw [hlook, Cfengine.parsePrimary]
    · exact hname
    · exact hother

theorem tracks_parseNotExpression (hend : «end» ≤ expr.length) (hstart : start ≤ «end»)
    (h : TracksFrom (expr.take «end») (start + 1) p q) :
    Tracks (expr.take «end») start (parseNotExpression expr «end» p start)
      (Cfengine.parseNotExpression q ((expr.take «end»).drop start)) := by
  have hprimary := tracks_parsePrimary hend hstart h
  rw [parseNotExpression]
  obtain ⟨hlook, hnot, hdrop⟩ | ⟨hlook, hother⟩ := hasChar_cases hend start '!'
  · rw [hlook, hdrop]
    have hnext := tracks_parsePrimary hend (by omega : start + 1 ≤ «end») (h.mono (Nat.le_succ _))
    exact (hnext.mono (Nat.le_succ start)).andThen fun _ _ hpos hposend =>
      tracks_success hpos hposend rfl
  · rw [hlook, Cfengine.parseNotExpression]
    · exact hprimary
    · exact hother

theorem tracksBody_parseAndExpression (hend : «end» ≤ expr.length)
    (h : TracksFrom (expr.take «end») (start + 1) p q) :
    TracksBody (expr.take «end») start (parseAndExpression.body expr «end» p)
      (Cfengine.parseAndExpression.body q) := by
  intro pand qand k hk hkend hand
  have hlen : (expr.take «end»).length = «end» := List.length_take_of_le hend
  refine (tracks_parseNotExpression hend (by omega) (h.mono (by omega))).andThen
    fun lhs position hpos hposend => ?_
  by_cases hat : position = «end»
  · have hdrop : (expr.take «end»).drop position = [] := drop_take_eq_nil hat.ge
    rw [if_pos hat, hdrop]
    exact tracks_success hpos hposend hdrop
  · obtain ⟨c, hdrop, hchar⟩ := drop_take_eq_cons hend (by omega : position < «end»)
    rw [if_neg hat, hdrop, hchar]
    by_cases hc : c = '.' ∨ c = '&'
    · simp only [bind, Except.bind, show (decide (c ≠ '.') && decide (c ≠ '&')) = false by grind,
        show (decide (c = '.') || decide (c = '&')) = true by
          grind, if_true, Bool.false_eq_true, if_false]
      exact ((hand (position + 1) (by omega) (by omega)).mono (by omega)).andThen
        fun _ _ hpos' hposend' => tracks_success hpos' hposend' rfl
    · simp only [bind, Except.bind, show (decide (c ≠ '.') && decide (c ≠ '&')) = true by grind,
        show (decide (c = '.') || decide (c = '&')) = false by
          grind, if_true, Bool.false_eq_true, if_false]
      exact tracks_success hpos hposend hdrop

theorem tracks_parseAndExpression (hend : «end» ≤ expr.length)
    (h : TracksFrom (expr.take «end») (start + 1) p q) :
    TracksFrom (expr.take «end») start (parseAndExpression expr «end» p)
      (Cfengine.parseAndExpression q) := by
  have hand := tracks_recurse (tracksBody_parseAndExpression hend h)
  rwa [List.length_take_of_le hend] at hand

theorem tracksBody_parseExpression (hend : «end» ≤ expr.length) :
    TracksBody (expr.take «end») 0 (parseExpression.body expr «end»)
      Cfengine.parseExpression.body := by
  intro p q k _ hkend h
  have hlen : (expr.take «end»).length = «end» := List.length_take_of_le hend
  refine (tracks_parseAndExpression hend h k le_rfl hkend).andThen fun lhs position hpos hposend =>
    ?_
  by_cases hat : position = «end»
  · have hdrop : (expr.take «end»).drop position = [] := drop_take_eq_nil hat.ge
    rw [if_pos hat, hdrop]
    exact tracks_success hpos hposend hdrop
  · obtain ⟨c, hdrop, hchar⟩ := drop_take_eq_cons hend (by omega : position < «end»)
    rw [if_neg hat, hdrop, hchar]
    by_cases hc : c = '|'
    · have hnext : ∀ position', position < position' → position' ≤ (expr.take «end»).length →
          Tracks (expr.take «end») k
            (andThen (p position') fun rhs position => .ok ⟨some (Expression.or lhs rhs), position⟩)
            ((q ((expr.take «end»).drop position')).bind fun rhs rest =>
              ⟨some (Expression.or lhs rhs), rest⟩) :=
        fun position' hpos' hposend' => ((h position' (by omega) hposend').mono (by omega)).andThen
          fun _ _ hpos'' hposend'' => tracks_success hpos'' hposend'' rfl
      simp only [bind, Except.bind, hc, ne_eq, not_true_eq_false, if_false, if_true]
      obtain ⟨hlook, hbar, hrest⟩ | ⟨hlook, hother⟩ := hasChar_cases hend (position + 1) '|'
      · rw [hlook, hrest]
        exact hnext (position + 2) (by omega) (by omega)
      · have hskip : skipBar ((expr.take «end»).drop (position + 1)) =
            (expr.take «end»).drop (position + 1) := by
          cases hrest : (expr.take «end»).drop (position + 1) with
          | nil => rfl
          | cons c' next =>
            have hc' : c' ≠ '|' := fun hc' => hother next (hc' ▸ hrest)
            exact if_neg hc'
        rw [hlook, hskip]
        exact hnext (position + 1) (by omega) (by omega)
    · simp only [bind, Except.bind, hc, ne_eq, not_false_eq_true, if_true, if_false]
      exact tracks_success hpos hposend hdrop

end

theorem tracks_parseExpression (hend : «end» ≤ expr.length) :
    TracksFrom (expr.take «end») 0 (parseExpression expr «end») Cfengine.parseExpression := by
  have h := tracks_recurse (tracksBody_parseExpression hend)
  rwa [List.length_take_of_le hend] at h

/-- **Both parsers return a position in their range, behind the start after a success.** -/
theorem sound_parsers (expr : CString) (start «end» : Nat) (hstart : start ≤ «end»)
    (hend : «end» ≤ expr.length) :
    Sound start «end» (parseExpression expr «end» start) ∧
      Sound start «end» (parseStringExpression expr «end» start) := by
  have hlen : (expr.take «end»).length = «end» := List.length_take_of_le hend
  have hexpr := (tracks_parseExpression hend start (Nat.zero_le _) (by omega)).sound
  have hstring := (tracks_parseStringExpression hend start (Nat.zero_le _) (by omega)).sound
  rw [hlen] at hexpr hstring
  exact ⟨hexpr, hstring⟩

theorem sound_parsers_unclosed :
    Sound 0 4 (parseExpression "a.(b".toList 4 0) ∧
      Sound 0 4 (parseStringExpression "a.(b".toList 4 0) :=
  sound_parsers "a.(b".toList 0 4 (by decide) (by decide)

/-- The failure is reported inside the brackets, where the closing one is missed. -/
example : parseExpression "a.(b".toList 4 0 = .ok ⟨none, 4⟩ := by decide

/-- An error in a class expression is reported at what the parser has left. -/
theorem highlight_parseExpression {expr : CString} {position : Nat}
    (h : parseExpression expr expr.length 0 = .ok ⟨none, position⟩) :
    highlightExpressionError expr position =
      .ok (expr.take position ++ "->".toList ++ (Cfengine.parseExpression expr).rest) := by
  have htracks : Tracks (expr.take expr.length) 0 _ _ :=
    tracks_parseExpression le_rfl 0 le_rfl (Nat.zero_le _)
  rw [List.take_length, List.drop_zero, h] at htracks
  obtain ⟨_, ⟨⟩, -, hposend, -⟩ := htracks.sound
  rw [highlightExpressionError, if_pos hposend, htracks.agrees _ rfl]

end Cfengine.Positional
