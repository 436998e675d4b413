import Cfengine.FilesNames

/-!
# Quoted strings of the policy language

The body of a quoted string is made of pieces: characters, escapes and continuations, that is,
backslashes at the end of a line. Behind a continuation `DeEscapeQuotedString` copies a character
without looking at it, and that goes well where the character stands for itself, or is the first of
some escaped backslashes with the other quote behind them (`decodes_iff`).
-/

namespace Cfengine

/-! ## The loop -/

/-- What the loop stores, if 0 is returned. -/
def storedText (start : Char) : CString → Option CString
  | [] => some []
  | c :: src =>
    if c = start then if src = [] then some [] else none
    else if c = '\\' then
      match src with
      | '\n' :: d :: src => (storedText start src).map (d :: ·)
      | ['\n'] => some []
      | d :: src =>
        if d = '\\' ∨ d = '"' ∨ d = '\'' then (storedText start src).map (d :: ·)
        else (storedText start (d :: src)).map (c :: ·)
      | [] => some [c]
    else (storedText start src).map (c :: ·)

attribute [grind =] storedText

section
variable {start c d : Char} {len : Int} {sp sp' : Nat} {src src' dest o : CString}
  {stored : Option CString}

/-- From here on this is stored, and 0 is returned; or another number is returned. -/
def Stores (start : Char) (len : Int) (sp : Nat) (src dest : CString) : Option CString → Prop
  | some o => deEscapeQuotedString.loop start len sp src dest = (0, dest ++ o)
  | none => (deEscapeQuotedString.loop start len sp src dest).1 ≠ 0

theorem Stores.cons (hstep : deEscapeQuotedString.loop start len sp src dest =
      deEscapeQuotedString.loop start len sp' src' (dest ++ [d]))
    (h : Stores start len sp' src' (dest ++ [d]) stored) :
    Stores start len sp src dest (stored.map (d :: ·)) := by
  cases stored with
  | none =>
    rw [Option.map_none, Stores, hstep]
    exact h
  | some o =>
    rw [Option.map_some, Stores, hstep]
    exact h.trans (by rw [List.append_assoc, List.singleton_append])

theorem Stores.ordinary (hsp : (sp : Int) < len) (hstart : c ≠ start) (hc : c ≠ '\\')
    (h : Stores start len (sp + 1) src (dest ++ [c]) stored) :
    Stores start len sp (c :: src) dest (stored.map (c :: ·)) := by
  refine Stores.cons ?_ h
  rw [deEscapeQuotedString.loop.eq_def]
  dsimp only
  rw [if_pos hsp, if_neg hstart, if_neg hc]

theorem Stores.continuation (hsp : (sp : Int) < len) (hstart : '\\' ≠ start)
    (h : Stores start len (sp + 3) src (dest ++ [d]) stored) :
    Stores start len sp ('\\' :: '\n' :: d :: src) dest (stored.map (d :: ·)) := by
  refine Stores.cons ?_ h
  rw [deEscapeQuotedString.loop.eq_def]
  dsimp only
  rw [if_pos hsp, if_neg hstart, if_pos rfl]
  rfl

theorem Stores.escaped (hsp : (sp : Int) < len) (hstart : '\\' ≠ start)
    (hd : d = '\\' ∨ d = '"' ∨ d = '\'') (h : Stores start len (sp + 2) src (dest ++ [d]) stored) :
    Stores start len sp ('\\' :: d :: src) dest (stored.map (d :: ·)) := by
  refine Stores.cons ?_ h
  rw [deEscapeQuotedString.loop.eq_def]
  dsimp only
  rw [if_pos hsp, if_neg hstart, if_pos rfl]
  obtain rfl | rfl | rfl := hd <;> rfl

theorem Stores.backslash (hsp : (sp : Int) < len) (hstart : '\\' ≠ start)
    (hd : ¬ (d = '\\' ∨ d = '"' ∨ d = '\'')) (hline : d ≠ '\n')
    (h : Stores start len (sp + 1) (d :: src) (dest ++ ['\\']) stored) :
    Stores start len sp ('\\' :: d :: src) dest (stored.map ('\\' :: ·)) := by
  refine Stores.cons ?_ h
  rw [deEscapeQuotedString.loop.eq_def]
  dsimp only
  rw [if_pos hsp, if_neg hstart, if_pos rfl]
  split
  · rename_i heq
    exact absurd (List.cons.inj heq).1 hline
  · rename_i heq
    exact absurd (List.cons.inj heq).1 hline
  · rename_i heq
    obtain ⟨rfl, rfl⟩ := List.cons.inj heq
    rw [if_neg hd]
  · rename_i heq
    cases heq

/-- The loop stores what it should, if it may go on to the end of the string. -/
theorem stores_storedText (hlen : len = sp + src.length) :
    Stores start len sp src dest (storedText start src) := by
  fun_induction storedText start src generalizing sp dest with
  | case1 => exact congrArg _ (List.append_nil dest).symm
  | case2 =>
    have hsp : (sp : Int) < len := by simp_all
    simp [Stores, deEscapeQuotedString.loop.eq_def, hsp]
  | case3 src hsrc =>
    have hsp : (sp : Int) < len := by simp only [List.length_cons] at hlen; omega
    simp [Stores, deEscapeQuotedString.loop.eq_def, hsp, hsrc]
  | case4 d src hstart ih =>
    simp only [List.length_cons] at hlen
    exact Stores.continuation (by omega) hstart (ih (by omega))
  | case5 hstart =>
    simp only [List.length_cons, List.length_nil] at hlen
    have hsp : (sp : Int) < len := by omega
    simp [Stores, deEscapeQuotedString.loop.eq_def, hsp, hstart]
  | case6 d src _ _ hd hstart ih =>
    simp only [List.length_cons] at hlen
    exact Stores.escaped (by omega) hstart hd (ih (by omega))
  | case7 d src hnext hlast hd hstart ih =>
    have hline : d ≠ '\n' := by
      intro hline
      cases src with
      | nil => exact hlast hline rfl
      | cons e src => exact hnext e src hline rfl
    simp only [List.length_cons] at hlen
    exact Stores.backslash (by omega) hstart hd hline (ih (by simp only [List.length_cons]; omega))
  | case8 hstart =>
    simp only [List.length_cons, List.length_nil] at hlen
    have hsp : (sp : Int) < len := by omega
    simp [Stores, deEscapeQuotedString.loop.eq_def, hsp, hstart]
  | case9 c src hstart hc ih =>
    simp only [List.length_cons] at hlen
    exact Stores.ordinary (by omega) hstart hc (ih (by omega))

/-- A string in quotes, shorter than an `int` can count. -/
theorem deEscapeQuotedString_eq_iff (hlen : src.length + 1 < 2 ^ 31) :
    deEscapeQuotedString (start :: src) dest = (0, o) ↔ storedText start src = some o := by
  have hint : ((start :: src).length : Int).bmod (2 ^ 32) = (1 : Nat) + src.length := by
    have hlength : ((start :: src).length : Int) = (1 : Nat) + src.length := by
      rw [List.length_cons]
      omega
    rw [hlength, Int.bmod_eq_of_le (by omega) (by omega)]
  have hne : ¬ ((1 : Nat) : Int) + src.length = 0 := by omega
  have hstores : Stores start ((1 : Nat) + src.length) 1 src [] (storedText start src) :=
    stores_storedText rfl
  have hrun : deEscapeQuotedString (start :: src) dest =
      deEscapeQuotedString.loop start ((1 : Nat) + src.length) 1 src [] := by
    unfold deEscapeQuotedString
    simp only [hint, if_neg hne]
  rw [hrun]
  cases hstored : storedText start src with
  | none =>
    rw [hstored] at hstores
    refine ⟨fun heq => absurd (congrArg Prod.fst heq) hstores, fun heq => by cases heq⟩
  | some o' =>
    rw [hstored] at hstores
    rw [hstores, List.nil_append, Option.some.injEq, Prod.mk.injEq]
    exact and_iff_right rfl

end

/-! ## Pieces -/

/-- A piece of the body of a string in quotes. -/
inductive QuotedPiece (quote : Char) where
  | ordinary (c : Char) (h : c ≠ quote ∧ c ≠ '\\')
  | escaped (c : Char) (h : c = '\\' ∨ c = '"' ∨ c = '\'')
  | continuation

namespace QuotedPiece

variable {quote c : Char}

def text : QuotedPiece quote → CString
  | ordinary c _ => [c]
  | escaped c _ => ['\\', c]
  | continuation => ['\\', '\n']

def value : QuotedPiece quote → CString
  | ordinary c _ => [c]
  | escaped c _ => [c]
  | continuation => []

/-- The pieces, and the quote at the end. -/
def body (pieces : List (QuotedPiece quote)) : CString := pieces.flatMap text ++ [quote]

/-- Escaped backslashes and the other quote, or the other quote alone. -/
def EscapesEnd : List (QuotedPiece quote) → Prop
  | ordinary c _ :: _ => c = '"' ∨ c = '\''
  | escaped c _ :: back => c = '\\' ∧ EscapesEnd back
  | _ => False

/-- A character that stands for itself, or escaped backslashes and the other quote. -/
def Continues : List (QuotedPiece quote) → Prop
  | ordinary _ _ :: _ => True
  | escaped c _ :: back => c = '\\' ∧ EscapesEnd back
  | _ => False

/-- What stands behind each continuation. -/
def AllContinue (pieces : List (QuotedPiece quote)) : Prop :=
  ∀ front back, pieces = front ++ continuation :: back → Continues back

variable {pieces : List (QuotedPiece quote)} {piece : QuotedPiece quote}

theorem allContinue_nil : AllContinue ([] : List (QuotedPiece quote)) := by
  intro front back heq
  exact absurd heq (by simp)

theorem allContinue_cons_of_ne (hne : piece ≠ continuation) :
    AllContinue (piece :: pieces) ↔ AllContinue pieces := by
  constructor
  · intro h front back heq
    exact h (piece :: front) back (by rw [heq, List.cons_append])
  · intro h front back heq
    cases front with
    | nil => exact absurd (List.cons.inj heq).1 hne
    | cons p front => exact h front back (List.cons.inj heq).2

theorem allContinue_continuation :
    AllContinue (continuation :: pieces) ↔ Continues pieces ∧ AllContinue pieces := by
  constructor
  · intro h
    exact ⟨h [] pieces rfl, fun front back heq =>
      h (continuation :: front) back (by rw [heq, List.cons_append])⟩
  · rintro ⟨hcontinues, h⟩ front back heq
    cases front with
    | nil =>
      obtain rfl := (List.cons.inj heq).2
      exact hcontinues
    | cons p front => exact h front back (List.cons.inj heq).2

end QuotedPiece

/-! ## The text that is stored -/

section
variable {quote c d : Char} {src : CString}

theorem storedText_ordinary (hquote : c ≠ quote) (hc : c ≠ '\\') :
    storedText quote (c :: src) = (storedText quote src).map (c :: ·) := by
  rw [storedText.eq_def]
  dsimp only
  rw [if_neg hquote, if_neg hc]

theorem storedText_quote (hsrc : src ≠ []) : storedText quote (quote :: src) = none := by
  rw [storedText.eq_def]
  dsimp only
  rw [if_pos rfl, if_neg hsrc]

theorem storedText_escaped (hquote : '\\' ≠ quote) (hd : d = '\\' ∨ d = '"' ∨ d = '\'') :
    storedText quote ('\\' :: d :: src) = (storedText quote src).map (d :: ·) := by
  rw [storedText.eq_def]
  dsimp only
  rw [if_neg hquote, if_pos rfl]
  obtain rfl | rfl | rfl := hd <;> rfl

theorem storedText_continuation (hquote : '\\' ≠ quote) :
    storedText quote ('\\' :: '\n' :: d :: src) = (storedText quote src).map (d :: ·) := by
  rw [storedText.eq_def]
  dsimp only
  rw [if_neg hquote, if_pos rfl]
  rfl

theorem storedText_backslash (hquote : '\\' ≠ quote) (hd : ¬ (d = '\\' ∨ d = '"' ∨ d = '\''))
    (hline : d ≠ '\n') :
    storedText quote ('\\' :: d :: src) = (storedText quote (d :: src)).map ('\\' :: ·) := by
  rw [storedText.eq_def]
  dsimp only
  rw [if_neg hquote, if_pos rfl]
  split
  · rename_i heq
    exact absurd (List.cons.inj heq).1 hline
  · rename_i heq
    exact absurd (List.cons.inj heq).1 hline
  · rename_i heq
    obtain ⟨rfl, rfl⟩ := List.cons.inj heq
    rw [if_neg hd]
  · rename_i heq
    cases heq

/-- The first character is copied, whatever it is. -/
def copiedText (quote : Char) : CString → Option CString
  | d :: src => (storedText quote src).map (d :: ·)
  | [] => none

end

namespace QuotedPiece

variable {quote c : Char} {pieces : List (QuotedPiece quote)} {piece : QuotedPiece quote}
  {stored : Option CString} {v : CString}

theorem body_ne_nil : body pieces ≠ [] :=
  List.append_ne_nil_of_right_ne_nil _ (List.cons_ne_nil _ _)

theorem backslash_ne_quote (hquote : quote = '"' ∨ quote = '\'') : '\\' ≠ quote := by
  rintro rfl
  exact absurd hquote (by decide)

theorem line_ne_quote (hquote : quote = '"' ∨ quote = '\'') : '\n' ≠ quote := by
  rintro rfl
  exact absurd hquote (by decide)

/-! ### Counting backslashes and line feeds -/

/-- At least as many backslashes are stored as should be, and no more line feeds in addition to
these. -/
def Surplus (stored : Option CString) (v : CString) : Prop :=
  ∀ o ∈ stored, v.count '\\' ≤ o.count '\\' ∧
    o.count '\n' + v.count '\\' ≤ v.count '\n' + o.count '\\'

theorem Surplus.cons (c : Char) (h : Surplus stored v) :
    Surplus (stored.map (c :: ·)) (c :: v) := by
  intro text htext
  obtain ⟨o, ho, rfl⟩ := Option.mem_map.mp htext
  obtain ⟨hback, hline⟩ := h o ho
  simp only [List.count_cons]
  omega

theorem Surplus.extra (hc : c ≠ '\n') (h : Surplus stored v) : Surplus (stored.map (c :: ·)) v := by
  intro text htext
  obtain ⟨o, ho, rfl⟩ := Option.mem_map.mp htext
  obtain ⟨hback, hline⟩ := h o ho
  rw [List.count_cons, List.count_cons_of_ne hc]
  omega

theorem Surplus.both (h : Surplus stored v) :
    Surplus ((stored.map ('\n' :: ·)).map ('\\' :: ·)) v := by
  intro text htext
  obtain ⟨line, hline, rfl⟩ := Option.mem_map.mp htext
  obtain ⟨o, ho, rfl⟩ := Option.mem_map.mp hline
  obtain ⟨hback, hline⟩ := h o ho
  simp only [List.count_cons]
  simp
  omega

theorem Surplus.dropped (h : Surplus stored v) : Surplus stored ('\n' :: v) := by
  intro o ho
  obtain ⟨hback, hline⟩ := h o ho
  simp only [List.count_cons]
  simp
  omega

theorem Surplus.ne_some_both (h : Surplus stored v) :
    (stored.map ('\n' :: ·)).map ('\\' :: ·) ≠ some v := by
  intro heq
  obtain ⟨line, hline, rfl⟩ := Option.map_eq_some_iff.mp heq
  obtain ⟨o, ho, rfl⟩ := Option.map_eq_some_iff.mp hline
  have hback := (h o ho).1
  simp only [List.count_cons] at hback
  simp at hback

theorem Surplus.ne_some_line (h : Surplus stored v) : stored ≠ some ('\n' :: v) := by
  intro heq
  have hline := (h _ heq).2
  simp only [List.count_cons] at hline
  simp at hline

/-! ### One piece -/

theorem map_cons_eq_some_iff : stored.map (c :: ·) = some (c :: v) ↔ stored = some v := by
  cases stored with
  | none => exact iff_of_false (fun h => by cases h) fun h => by cases h
  | some o => simp only [Option.map_some, Option.some.injEq, List.cons.injEq, true_and]

theorem map_cons_ne_some {d : Char} (hne : d ≠ c) : stored.map (d :: ·) ≠ some (c :: v) := by
  cases stored with
  | none => exact fun h => by cases h
  | some o => exact fun h => hne (List.cons.inj (Option.some.inj h)).1

theorem storedText_nil : storedText quote (body ([] : List (QuotedPiece quote))) = some [] := by
  have hbody : body ([] : List (QuotedPiece quote)) = [quote] := rfl
  rw [hbody, storedText, if_pos rfl, if_pos rfl]

theorem copiedText_nil :
    copiedText quote (body ([] : List (QuotedPiece quote))) = some [quote] := by
  have hbody : body ([] : List (QuotedPiece quote)) = [quote] := rfl
  rw [hbody, copiedText, storedText, Option.map_some]

theorem storedText_ordinaryBody (h : c ≠ quote ∧ c ≠ '\\') :
    storedText quote (body (ordinary c h :: pieces)) =
      (storedText quote (body pieces)).map (c :: ·) :=
  storedText_ordinary h.1 h.2

theorem copiedText_ordinaryBody (h : c ≠ quote ∧ c ≠ '\\') :
    copiedText quote (body (ordinary c h :: pieces)) = (storedText quote (body pieces)).map
      (c :: ·) := rfl

theorem copiedText_escapedBody (h : c = '\\' ∨ c = '"' ∨ c = '\'') :
    copiedText quote (body (escaped c h :: pieces)) =
      (storedText quote (c :: body pieces)).map ('\\' :: ·) := rfl

section
variable (hquote : quote = '"' ∨ quote = '\'')
include hquote

theorem storedText_escapedBody (h : c = '\\' ∨ c = '"' ∨ c = '\'') :
    storedText quote (body (escaped c h :: pieces)) =
      (storedText quote (body pieces)).map (c :: ·) :=
  storedText_escaped (backslash_ne_quote hquote) h

theorem storedText_continuationBody :
    storedText quote (body (continuation :: pieces)) = copiedText quote (body pieces) := by
  obtain ⟨d, src, hbody⟩ := List.exists_cons_of_ne_nil (@body_ne_nil quote pieces)
  have hcontinuation : body (continuation :: pieces) = '\\' :: '\n' :: body pieces := rfl
  rw [hcontinuation, hbody]
  exact storedText_continuation (backslash_ne_quote hquote)

omit hquote in
/-- The other quote is stored. -/
theorem storedText_otherQuote (hc : c = '"' ∨ c = '\'') (hne : c ≠ quote) :
    storedText quote (c :: body pieces) = (storedText quote (body pieces)).map (c :: ·) := by
  refine storedText_ordinary hne ?_
  rintro rfl
  exact absurd hc (by decide)

theorem copiedText_continuationBody :
    copiedText quote (body (continuation :: pieces)) =
      ((storedText quote (body pieces)).map ('\n' :: ·)).map ('\\' :: ·) := by
  have hcopied : copiedText quote (body (continuation :: pieces)) =
      (storedText quote ('\n' :: body pieces)).map ('\\' :: ·) := rfl
  rw [hcopied, storedText_ordinary (line_ne_quote hquote) (by decide)]

omit hquote in
theorem storedText_startQuote (hc : c = quote) : storedText quote (c :: body pieces) = none := by
  rw [hc, storedText_quote body_ne_nil]

/-! Behind one more backslash. -/

theorem storedText_pendingNil :
    storedText quote ('\\' :: body ([] : List (QuotedPiece quote))) = some [quote] := by
  have hbody : body ([] : List (QuotedPiece quote)) = [quote] := rfl
  rw [hbody, storedText_escaped (backslash_ne_quote hquote) (.inr hquote), storedText,
    Option.map_some]

theorem storedText_pendingEscaped (h : c = '\\' ∨ c = '"' ∨ c = '\'') :
    storedText quote ('\\' :: body (escaped c h :: pieces)) =
      copiedText quote (body (escaped c h :: pieces)) :=
  storedText_escaped (backslash_ne_quote hquote) (.inl rfl)

theorem storedText_pendingContinuation :
    storedText quote ('\\' :: body (continuation :: pieces)) =
      copiedText quote (body (continuation :: pieces)) :=
  storedText_escaped (backslash_ne_quote hquote) (.inl rfl)

theorem storedText_pendingLine (h : '\n' ≠ quote ∧ '\n' ≠ '\\') :
    storedText quote ('\\' :: body (ordinary '\n' h :: pieces)) = copiedText quote (body pieces) :=
  storedText_continuationBody hquote

theorem storedText_pendingQuote (h : c ≠ quote ∧ c ≠ '\\') (hc : c = '"' ∨ c = '\'') :
    storedText quote ('\\' :: body (ordinary c h :: pieces)) =
      (storedText quote (body pieces)).map (c :: ·) :=
  storedText_escaped (backslash_ne_quote hquote) (.inr hc)

theorem storedText_pendingOrdinary (h : c ≠ quote ∧ c ≠ '\\') (hc : ¬ (c = '"' ∨ c = '\''))
    (hline : c ≠ '\n') :
    storedText quote ('\\' :: body (ordinary c h :: pieces)) =
      ((storedText quote (body pieces)).map (c :: ·)).map ('\\' :: ·) := by
  have hbackslash := @storedText_backslash quote c (body pieces) (backslash_ne_quote hquote)
    (not_or.mpr ⟨h.2, hc⟩) hline
  rw [storedText_ordinary h.1 h.2] at hbackslash
  exact hbackslash

/-! ### All pieces -/

theorem surplus (pieces : List (QuotedPiece quote)) :
    Surplus (storedText quote (body pieces)) (pieces.flatMap value) ∧
      Surplus (copiedText quote (body pieces)) (pieces.flatMap value) ∧
        Surplus (storedText quote ('\\' :: body pieces)) (pieces.flatMap value) := by
  have hquoteLine : quote ≠ '\n' := (line_ne_quote hquote).symm
  induction pieces with
  | nil =>
    have hnil : Surplus (some []) [] := by
      rintro o ⟨⟩
      exact ⟨le_rfl, le_rfl⟩
    rw [storedText_nil, copiedText_nil, storedText_pendingNil hquote]
    exact ⟨hnil, hnil.extra hquoteLine, hnil.extra hquoteLine⟩
  | cons piece pieces ih =>
    obtain ⟨hstored, hcopied, hpending⟩ := ih
    cases piece with
    | ordinary c h =>
      rw [storedText_ordinaryBody, copiedText_ordinaryBody]
      refine ⟨hstored.cons c, hstored.cons c, ?_⟩
      by_cases hc : c = '"' ∨ c = '\''
      · rw [storedText_pendingQuote hquote h hc]
        exact hstored.cons c
      · by_cases hline : c = '\n'
        · subst hline
          rw [storedText_pendingLine hquote h]
          exact hcopied.dropped
        · rw [storedText_pendingOrdinary hquote h hc hline]
          exact (hstored.cons c).extra (by decide)
    | escaped c h =>
      rw [storedText_escapedBody hquote, storedText_pendingEscaped hquote, and_self,
        copiedText_escapedBody]
      refine ⟨hstored.cons c, ?_⟩
      by_cases hne : c = quote
      · rw [storedText_startQuote hne]
        rintro o ⟨⟩
      · obtain rfl | hc := h
        · exact hpending.cons '\\'
        · rw [storedText_otherQuote hc hne]
          exact (hstored.cons c).extra (by decide)
    | continuation =>
      rw [storedText_continuationBody hquote, storedText_pendingContinuation hquote, and_self,
        copiedText_continuationBody hquote]
      exact ⟨hcopied, hstored.both⟩

/-- What is stored from the pieces; what is stored behind a continuation; and what is stored behind
a backslash that was copied there. -/
theorem stored_iff (pieces : List (QuotedPiece quote)) :
    (storedText quote (body pieces) = some (pieces.flatMap value) ↔ AllContinue pieces) ∧
      (copiedText quote (body pieces) = some (pieces.flatMap value) ↔
        Continues pieces ∧ AllContinue pieces) ∧
        (storedText quote ('\\' :: body pieces) = some (pieces.flatMap value) ↔
          EscapesEnd pieces ∧ AllContinue pieces) := by
  induction pieces with
  | nil =>
    rw [storedText_nil, copiedText_nil, storedText_pendingNil hquote]
    exact ⟨iff_of_true rfl allContinue_nil, iff_of_false (fun h => by cases h) fun h => h.1,
      iff_of_false (fun h => by cases h) fun h => h.1⟩
  | cons piece pieces ih =>
    obtain ⟨hstored, hcopied, hpending⟩ := ih
    obtain ⟨hsurplus, hsurplusCopied, -⟩ := surplus hquote pieces
    rw [List.flatMap_cons]
    cases piece with
    | ordinary c h =>
      have hall : AllContinue (ordinary c h :: pieces) ↔ AllContinue pieces :=
        allContinue_cons_of_ne (by intro heq; cases heq)
      have hone : (storedText quote (body pieces)).map (c :: ·) = some (c :: pieces.flatMap value) ↔
          AllContinue (ordinary c h :: pieces) := by
        rw [map_cons_eq_some_iff, hstored, hall]
      rw [storedText_ordinaryBody, copiedText_ordinaryBody]
      refine ⟨hone, hone.trans (and_iff_right trivial).symm, ?_⟩
      by_cases hc : c = '"' ∨ c = '\''
      · rw [storedText_pendingQuote hquote h hc]
        exact hone.trans (and_iff_right hc).symm
      · refine iff_of_false ?_ fun hends => hc hends.1
        by_cases hline : c = '\n'
        · subst hline
          rw [storedText_pendingLine hquote h]
          exact hsurplusCopied.ne_some_line
        · rw [storedText_pendingOrdinary hquote h hc hline]
          exact map_cons_ne_some h.2.symm
    | escaped c h =>
      have hall : AllContinue (escaped c h :: pieces) ↔ AllContinue pieces :=
        allContinue_cons_of_ne (by intro heq; cases heq)
      rw [storedText_escapedBody hquote, storedText_pendingEscaped hquote, copiedText_escapedBody,
        hall]
      have hcontinues : (storedText quote (c :: body pieces)).map ('\\' :: ·) =
        some (c :: pieces.flatMap value) ↔
          (c = '\\' ∧ EscapesEnd pieces) ∧ AllContinue pieces := by
        by_cases hc : c = '\\'
        · subst hc
          rw [map_cons_eq_some_iff, eq_self_iff_true, true_and]
          exact hpending
        · exact iff_of_false (map_cons_ne_some (Ne.symm hc)) fun hends => hc hends.1.1
      exact ⟨map_cons_eq_some_iff.trans hstored, hcontinues, hcontinues⟩
    | continuation =>
      rw [storedText_continuationBody hquote, storedText_pendingContinuation hquote,
        copiedText_continuationBody hquote, allContinue_continuation]
      have hfalse := hsurplus.ne_some_both
      exact ⟨hcopied, iff_of_false hfalse fun h => h.1, iff_of_false hfalse fun h => h.1⟩

end

/-- A string in quotes is decoded exactly if each continuation has a character behind it that stands
for itself, or escaped backslashes and the other quote. -/
theorem decodes_iff (hquote : quote = '"' ∨ quote = '\'') (pieces : List (QuotedPiece quote))
    (hlen : (body pieces).length + 1 < 2 ^ 31) (dest : CString) :
    deEscapeQuotedString (quote :: body pieces) dest = (0, pieces.flatMap value) ↔
      AllContinue pieces :=
  (deEscapeQuotedString_eq_iff hlen).trans (stored_iff hquote pieces).1

/-- Lines that are continued with a character, and with a backslash and the other quote. -/
theorem decodes_lines :
    deEscapeQuotedString ('"' :: body ([continuation, ordinary 'a' (by decide), continuation,
      escaped '\\' (.inl rfl), ordinary '\'' (by decide)] : List (QuotedPiece '"'))) [] =
        (0, ['a', '\\', '\'']) := by
  refine (decodes_iff (.inl rfl) _ (by decide) []).mpr (allContinue_continuation.mpr ⟨trivial, ?_⟩)
  rw [allContinue_cons_of_ne (fun h => by cases h), allContinue_continuation,
    allContinue_cons_of_ne (fun h => by cases h), allContinue_cons_of_ne (fun h => by cases h)]
  exact ⟨⟨rfl, .inr rfl⟩, allContinue_nil⟩

/-- Two lines that end with a backslash, with nothing else on the second. -/
theorem not_decodes_emptyLine :
    let pieces : List (QuotedPiece '"') := [continuation, continuation, ordinary 'x' (by decide)]
    deEscapeQuotedString ('"' :: body pieces) [] ≠ (0, pieces.flatMap value) := by
  decide

end QuotedPiece

end Cfengine
