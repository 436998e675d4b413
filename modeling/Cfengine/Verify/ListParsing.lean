import Cfengine.ListParsing
import Cfengine.Verify.PrintLists
import Cfengine.Verify.SplitString

/-!
# Taking lists apart again

`SplitString` undoes joining with escaped separators (`splitString_joinEscaped`). `ParseShownRlist`
gives a printed list back exactly if the list is not empty, no item has a comma and none begins with
a blank or a brace (`parsesPrinted_iff`).
-/

namespace Cfengine

variable {sep c : Char} {s item value text rest before : CString} {last : Option Char}
  {list items : List CString}
  {bufsize : Nat}

/-! ## Splitting items -/

/-- What is read of an item with escaped separators is the item. -/
theorem splitLoop_escapeSeparators (hsep : sep ≠ '\\') (hs : '\\' ∉ s) (hlast : last ≠ some '\\')
    (hlength : before.length + (escapeSeparators sep s).length < cfBufSize) :
    ∃ last', last' ≠ some '\\' ∧ splitString.loop sep last before (escapeSeparators sep s ++ rest) =
      splitString.loop sep last' (before ++ s) rest := by
  induction s generalizing last before with
  | nil => exact ⟨last, hlast, by rw [List.append_nil]; rfl⟩
  | cons c s ih =>
    obtain ⟨hc, hs⟩ := not_or.mp (mt List.mem_cons.mpr hs)
    rw [escapeSeparators_cons, List.length_append] at hlength
    have happend : before ++ c :: s = before ++ [c] ++ s := by simp
    rw [escapeSeparators_cons, happend]
    split_ifs at hlength ⊢ with hcsep
    · rw [List.length_cons, List.length_singleton] at hlength
      obtain ⟨last', hlast', hloop⟩ := @ih (before ++ [c]) (some sep) hs
        (fun h => hsep (Option.some.inj h))
          (by rw [List.length_append, List.length_singleton]; omega)
      refine ⟨last', hlast', ?_⟩
      rw [← hloop]
      change splitString.loop sep last before ('\\' :: sep :: (escapeSeparators sep s ++ rest)) = _
      rw [splitString.loop, if_neg (by omega), if_neg hsep.symm, splitString.loop,
        if_neg (by rw [List.length_append, List.length_singleton]; omega), if_pos rfl, if_pos rfl,
        if_neg (by simp), List.dropLast_concat, hcsep]
    · rw [List.length_singleton] at hlength
      obtain ⟨last', hlast', hloop⟩ := @ih (before ++ [c]) (some c) hs
        (fun h => hc (Option.some.inj h).symm)
          (by rw [List.length_append, List.length_singleton]; omega)
      refine ⟨last', hlast', ?_⟩
      rw [← hloop]
      change splitString.loop sep last before (c :: (escapeSeparators sep s ++ rest)) = _
      rw [splitString.loop, if_neg (by omega), if_neg hcsep]

/-- Splitting undoes joining with escaped separators. -/
theorem splitString_joinEscaped (hsep : sep ≠ '\\') (hne : list ≠ []) (hlist : ∀ s ∈ list, '\\' ∉ s)
    (hlength : (joinEscaped sep list).length < cfBufSize) :
    splitString (joinEscaped sep list) sep = .ok list := by
  suffices h : ∀ last, last ≠ some '\\' →
      splitString.loop sep last [] (joinEscaped sep list) = .ok list from h none (by simp)
  induction list with
  | nil => exact absurd rfl hne
  | cons s list ih =>
    intro last hlast
    obtain ⟨hs, hlist⟩ := List.forall_mem_cons.mp hlist
    rcases eq_or_ne list [] with rfl | hmore
    · rw [joinEscaped_singleton] at hlength ⊢
      obtain ⟨last', -, hloop⟩ := @splitLoop_escapeSeparators sep s [] [] last hsep hs hlast
        (by rwa [List.length_nil, Nat.zero_add])
      have hshort : s.length < cfBufSize := by
        rw [length_escapeSeparators] at hlength
        omega
      rw [List.append_nil, List.nil_append] at hloop
      rw [hloop, splitString.loop, if_neg (Nat.not_le.mpr hshort)]
    · rw [joinEscaped_cons hmore, List.length_append, List.length_cons] at hlength
      rw [joinEscaped_cons hmore]
      obtain ⟨last', hlast', hloop⟩ := @splitLoop_escapeSeparators sep s
        (sep :: joinEscaped sep list) [] last hsep hs hlast (by rw [List.length_nil]; omega)
      have hshort : s.length < cfBufSize := by
        rw [length_escapeSeparators] at hlength
        omega
      rw [hloop, List.nil_append, splitString.loop, if_neg (Nat.not_le.mpr hshort), if_pos rfl,
        if_neg hlast', ih hmore hlist (by omega) (some sep) fun h => hsep (Option.some.inj h)]
      rfl

/-- An item with a separator in it, and an empty one. -/
theorem splitString_joinEscaped_comma :
    splitString ['a', '\\', ',', 'b', ','] ',' = .ok [['a', ',', 'b'], []] :=
  @splitString_joinEscaped ',' [['a', ',', 'b'], []] (by decide) (by decide) (by decide)
    (show 5 < 4096 by decide)

/-! ## Printed lists -/

section
variable {path leaf buffer : CString} {next : CString → Except Fault (CString × Bool)}
  {joined : Except Fault (CString × Bool)}

theorem orClose_eq_true (h : (joined >>= orClose bufsize leaf next) = .ok (text, true)) :
    ∃ buffer, joined = .ok (buffer, true) ∧ next buffer = .ok (text, true) := by
  obtain fault | ⟨buffer, result⟩ := joined
  · cases h
  cases result with
  | true => exact ⟨buffer, rfl, h⟩
  | false =>
    change (endJoin buffer leaf bufsize >>= fun joined => .ok (joined.1, false)) = _ at h
    cases hend : endJoin buffer leaf bufsize <;> rw [hend] at h <;> cases h

theorem joinSilent_eq_true (h : joinSilent path leaf bufsize = .ok (buffer, true)) :
    buffer = path ++ leaf ∧ path.length + leaf.length ≤ bufsize - cfBufferMargin := by
  rw [joinSilent] at h
  split_ifs at h with hroom
  · cases hcut : strcat path (leaf.take (bufsize - cfBufferMargin)) bufsize with
    | error => rw [hcut] at h; cases h
    | ok cut =>
      rw [hcut] at h
      change (endJoin cut truncatedMark bufsize >>= fun joined => .ok (joined.1, false)) = _ at h
      cases hend : endJoin cut truncatedMark bufsize <;> rw [hend] at h <;> cases h
  · rw [strcat] at h
    split_ifs at h
    · cases h
    · cases h
      exact ⟨rfl, Nat.not_lt.mp hroom⟩

/-- A list that is printed is complete. -/
theorem printRlist_loop_eq_true (hsize : 2 * cfBufferMargin ≤ bufsize)
    (hbuffer : buffer.length ≤ bufsize - cfBufferMargin)
    (h : printRlist.loop bufsize (list.map .scalar) buffer = .ok (text, true)) :
    text = buffer ++ printedItems list := by
  induction list generalizing buffer with
  | nil =>
    obtain ⟨_, _, heq, -, htext⟩ := printed_printEnd hsize hbuffer
    rw [List.map_nil, printRlist.loop, heq] at h
    cases h
    exact htext rfl
  | cons item list ih =>
    rw [List.map_cons, printRlist.loop, printQuoted] at h
    obtain ⟨opened, hopened, h⟩ := orClose_eq_true h
    obtain ⟨inside, hinside, h⟩ := orClose_eq_true h
    obtain ⟨closed, hclosed, h⟩ := orClose_eq_true h
    rw [printRval] at hinside
    obtain ⟨rfl, -⟩ := joinSilent_eq_true hopened
    obtain ⟨rfl, -⟩ := joinSilent_eq_true hinside
    obtain ⟨rfl, hroom⟩ := joinSilent_eq_true hclosed
    have hquoted : buffer ++ ['\''] ++ item ++ ['\''] = buffer ++ quoted item := by simp [quoted]
    rw [← List.length_append, hquoted] at hroom
    rw [hquoted, List.isEmpty_map] at h
    rw [append_printedItems_cons]
    cases list with
    | nil =>
      rw [if_neg (by decide)] at h
      rw [ih hroom h]
      exact congrArg (· ++ printedItems []) (List.append_nil _).symm
    | cons other list =>
      rw [if_pos (by rfl)] at h
      obtain ⟨separated, hseparated, h⟩ := orClose_eq_true h
      obtain ⟨rfl, hcomma⟩ := joinSilent_eq_true hseparated
      exact ih (List.length_append ▸ hcomma) h

theorem printRlist_eq_true (hsize : 2 * cfBufferMargin ≤ bufsize)
    (h : printRlist bufsize (list.map .scalar) = .ok (text, true)) : text = printedList list := by
  rw [printRlist, startJoin_eq hsize] at h
  exact printRlist_loop_eq_true hsize (length_start_le hsize) h

end

/-! ## Splitting at commas -/

theorem splitLoop_of_not_mem (hcomma : ',' ∉ s) (hbackslash : '\\' ∉ s) (hne : s ≠ [])
    (hlength : s.length < cfMaxVarSize) : splitStringAsRList.loop ',' s = .ok [s] := by
  have hcopy :=
    @subStrnCopyChr_escapeSeparators ',' s cfMaxVarSize [] hlength.le hbackslash (.inl rfl)
  rw [escapeSeparators_of_not_mem hcomma, List.append_nil] at hcopy
  rw [splitLoop_eq_ok_iff hne, hcopy]
  exact ⟨hlength.ne, [], by rw [List.drop_eq_nil_of_le (Nat.le_succ _)]; exact splitLoop_nil, rfl⟩

theorem splitLoop_comma (hcomma : ',' ∉ s) (hbackslash : '\\' ∉ s)
    (hlength : s.length < cfMaxVarSize) (hrest : splitStringAsRList.loop ',' rest = .ok items) :
    splitStringAsRList.loop ',' (s ++ ',' :: rest) = .ok (s :: items) := by
  have hstop : Stops ',' (',' :: rest) := .inr ⟨rest, rfl, fun h => absurd h (by decide)⟩
  have hcopy := subStrnCopyChr_escapeSeparators hlength.le hbackslash hstop
  rw [escapeSeparators_of_not_mem hcomma] at hcopy
  have hdrop : (s ++ ',' :: rest).drop (s.length + 1) = rest := by
    rw [← List.drop_drop, List.drop_left]
    rfl
  rw [splitLoop_eq_ok_iff (by simp), hcopy, hdrop]
  exact ⟨hlength.ne, items, hrest, rfl⟩

/-- Up to a comma, what fits is copied. -/
theorem subStrnCopyChr_eq_take (hcomma : ',' ∉ s) (hbackslash : '\\' ∉ s) (hrest : Stops ',' rest)
    (len : Nat) : subStrnCopyChr len (s ++ rest) ',' = s.take len := by
  induction s generalizing len with
  | nil => rw [List.nil_append, List.take_nil, subStrnCopyChr_stop hrest]
  | cons c s ih =>
    obtain ⟨hc, hcomma⟩ := not_or.mp (mt List.mem_cons.mpr hcomma)
    obtain ⟨hc', hbackslash⟩ := not_or.mp (mt List.mem_cons.mpr hbackslash)
    cases len with
    | zero => rfl
    | succ len =>
      rw [List.cons_append, subStrnCopyChr, if_neg fun h => hc' h.1.symm, if_neg (Ne.symm hc),
        ih hcomma hbackslash, List.take_succ_cons]

/-- There is a piece for every comma, and the one behind the last. -/
theorem length_of_splitLoop (hbackslash : '\\' ∉ text) (hne : text ≠ [])
    (hlast : text.getLast? ≠ some ',') (h : splitStringAsRList.loop ',' text = .ok items) :
    items.length = text.count ',' + 1 := by
  induction hn : text.length using Nat.strong_induction_on generalizing text items with
  | _ n ih =>
    obtain ⟨hfit, rest, hrest, rfl⟩ := (splitLoop_eq_ok_iff hne).mp h
    by_cases hcomma : ',' ∈ text
    · obtain ⟨s, t, rfl, hs⟩ := List.eq_append_cons_of_mem hcomma
      have hstop : Stops ',' (',' :: t) := .inr ⟨t, rfl, fun h => absurd h (by decide)⟩
      have hs' : '\\' ∉ s := fun hmem => hbackslash (List.mem_append_left _ hmem)
      rw [subStrnCopyChr_eq_take hs hs' hstop, List.length_take] at hfit
      have hnode : subStrnCopyChr cfMaxVarSize (s ++ ',' :: t) ',' = s := by
        rw [subStrnCopyChr_eq_take hs hs' hstop, List.take_of_length_le (by omega)]
      have hdrop : (s ++ ',' :: t).drop (s.length + 1) = t := by
        rw [← List.drop_drop, List.drop_left]
        rfl
      rw [hnode, hdrop] at hrest
      have ht : t ≠ [] := by
        rintro rfl
        exact hlast List.getLast?_concat
      have hcount := ih t.length (by rw [← hn, List.length_append, List.length_cons]; omega)
        (fun hmem => hbackslash (List.mem_append_right _ (List.mem_cons_of_mem _ hmem))) ht
        (getLast?_ne_of_suffix ⟨s ++ [','], by simp⟩ hlast) hrest rfl
      rw [List.length_cons, hcount, List.count_append, List.count_cons_self,
        List.count_eq_zero.mpr hs]
      omega
    · have hnode := subStrnCopyChr_eq_take hcomma hbackslash (.inl rfl) cfMaxVarSize
      rw [List.append_nil] at hnode
      rw [hnode, List.length_take] at hfit
      rw [hnode, List.length_take, List.drop_eq_nil_of_le (by omega), splitLoop_nil] at hrest
      cases hrest
      rw [List.count_eq_zero.mpr hcomma]
      rfl

/-! ## Reading the pieces -/

/-- An item that the printed list can show. -/
structure Showable (s : CString) : Prop where
  ne_nil : s ≠ []
  short : s.length ≤ 255
  no_quote : ∀ c ∈ s, isShownQuote c = false
  no_backslash : '\\' ∉ s

/-- A value that does not begin with one of the characters that are skipped. -/
def Unmarked (value : CString) : Prop := ∀ c ∈ value.head?, isShownMark c = false

theorem Unmarked.scanShown (h : Unmarked value) (item : CString) :
    Unmarked (scanShown item value) := by
  rw [Cfengine.scanShown]
  split_ifs with hkept
  · exact h
  · intro c hc
    have hfirst := List.head?_dropWhile_not isShownMark item
    cases hsp : item.dropWhile isShownMark with
    | nil =>
      rw [hsp] at hc
      cases hc
    | cons d sp =>
      rw [hsp] at hc hfirst
      rw [List.takeWhile_cons] at hc
      split_ifs at hc
      · rw [List.take_succ_cons, List.head?_cons] at hc
        obtain rfl := Option.some.inj hc
        exact hfirst
      · rw [List.take_nil] at hc
        cases hc

theorem Unmarked.loop (h : Unmarked value) (items : List CString) :
    ∀ s ∈ parseShownRlist.loop value items, Unmarked s := by
  induction items generalizing value with
  | nil => exact fun _ hs => absurd hs List.not_mem_nil
  | cons item items ih =>
    rw [parseShownRlist.loop]
    exact List.forall_mem_cons.mpr ⟨h.scanShown item, ih (h.scanShown item)⟩

theorem length_parseShownRlist_loop (value : CString) (items : List CString) :
    (parseShownRlist.loop value items).length = items.length := by
  induction items generalizing value with
  | nil => rfl
  | cons item items ih => rw [parseShownRlist.loop, List.length_cons, List.length_cons, ih]

/-- An item between its quotes, behind characters that are skipped. -/
theorem scanShown_quoted {front back : CString} (hs : Showable s) (hmark : Unmarked s)
    (hfront : ∀ c ∈ front, isShownMark c = true) (value : CString) :
    scanShown (front ++ quoted s ++ back) value = s := by
  obtain ⟨c, t, rfl⟩ := List.exists_cons_of_ne_nil hs.ne_nil
  have hc : ¬ isShownMark c = true := Bool.not_eq_true _ ▸ hmark c rfl
  have hdrop : (front ++ quoted (c :: t) ++ back).dropWhile isShownMark =
      c :: t ++ '\'' :: back := by
    have hassoc : front ++ quoted (c :: t) ++ back = front ++ '\'' :: (c :: t ++ '\'' :: back) := by
      simp [quoted]
    rw [hassoc, List.dropWhile_append_of_pos hfront, List.dropWhile_cons_of_pos (by decide),
      List.cons_append, List.dropWhile_cons_of_neg hc]
  have htake : (c :: t ++ '\'' :: back).takeWhile (!isShownQuote ·) = c :: t := by
    rw [List.takeWhile_append_of_pos fun d hd => by rw [hs.no_quote d hd]; rfl,
      List.takeWhile_cons_of_neg (by decide), List.append_nil]
  rw [scanShown, hdrop, htake, List.take_of_length_le hs.short, if_neg]
  rintro (hlength | hnil)
  · simp only [quoted, List.length_append, List.length_cons, List.length_nil] at hlength
    omega
  · cases hnil

/-! ## The printed list -/

/-- The pieces of the text of a list, the first one behind `front`. -/
def shownPieces (front : CString) : List CString → List CString
  | [] => [front ++ ['}']]
  | [item] => [front ++ quoted item ++ ['}']]
  | item :: items => (front ++ quoted item) :: shownPieces [] items

theorem not_mem_quoted (hc : c ≠ '\'') (hs : c ∉ s) : c ∉ quoted s := by
  rw [quoted, List.mem_cons, List.mem_append, List.mem_singleton]
  rintro (h | h | h)
  · exact hc h
  · exact hs h
  · exact hc h

/-- Where no item has a comma, the text is split between the items. -/
theorem splitLoop_printedItems {front : CString} (hlist : ∀ s ∈ list, Showable s ∧ ',' ∉ s)
    (hne : list ≠ []) (hfront : ',' ∉ front ∧ '\\' ∉ front ∧ front.length ≤ 1) :
    splitStringAsRList.loop ',' (front ++ printedItems list) = .ok (shownPieces front list) := by
  have hnode : cfMaxVarSize = 1024 := rfl
  induction list generalizing front with
  | nil => exact absurd rfl hne
  | cons item items ih =>
    obtain ⟨⟨hitem, hcomma⟩, hitems⟩ := List.forall_mem_cons.mp hlist
    have hquoted : ',' ∉ front ++ quoted item ∧ '\\' ∉ front ++ quoted item := by
      refine ⟨fun h => ?_, fun h => ?_⟩
      · exact (List.mem_append.mp h).elim hfront.1 (not_mem_quoted (by decide) hcomma)
      · exact (List.mem_append.mp h).elim hfront.2.1 (not_mem_quoted (by decide) hitem.no_backslash)
    have hshort : (front ++ quoted item).length ≤ 258 := by
      have hlength := hitem.short
      rw [quoted, List.length_append, List.length_cons, List.length_append, List.length_singleton]
      omega
    rw [append_printedItems_cons]
    cases items with
    | nil =>
      change splitStringAsRList.loop ',' (front ++ quoted item ++ [] ++ ['}']) = .ok [_]
      rw [List.append_nil]
      refine splitLoop_of_not_mem (fun h => ?_) (fun h => ?_) (by simp) ?_
      · exact (List.mem_append.mp h).elim hquoted.1 (by decide)
      · exact (List.mem_append.mp h).elim hquoted.2 (by decide)
      · rw [List.length_append, List.length_singleton]
        omega
    | cons other items =>
      change splitStringAsRList.loop ',' (front ++ quoted item ++ [','] ++ printedItems _) = _
      rw [List.append_assoc, List.singleton_append]
      refine splitLoop_comma hquoted.1 hquoted.2 (by omega) ?_
      exact ih hitems (List.cons_ne_nil _ _) ⟨List.not_mem_nil, List.not_mem_nil, Nat.zero_le 1⟩

/-- The pieces are read as the items, whatever the variable holds. -/
theorem loop_shownPieces {front : CString} (hlist : ∀ s ∈ list, Showable s ∧ Unmarked s)
    (hne : list ≠ []) (hfront : ∀ c ∈ front, isShownMark c = true) (value : CString) :
    parseShownRlist.loop value (shownPieces front list) = list := by
  induction list generalizing front value with
  | nil => exact absurd rfl hne
  | cons item items ih =>
    obtain ⟨⟨hitem, hmark⟩, hitems⟩ := List.forall_mem_cons.mp hlist
    cases items with
    | nil => rw [shownPieces, parseShownRlist.loop, scanShown_quoted hitem hmark hfront,
        parseShownRlist.loop]
    | cons other items =>
      have hscan : scanShown (front ++ quoted item) value = item := by
        rw [← List.append_nil (front ++ quoted item)]
        exact scanShown_quoted hitem hmark hfront value
      rw [shownPieces, parseShownRlist.loop, hscan,
        ih hitems (List.cons_ne_nil _ _) fun _ hc => absurd hc List.not_mem_nil]
      exact fun h => by cases h

theorem count_printedItems (list : List CString) (hne : list ≠ []) :
    (printedItems list).count ',' + 1 = (list.map (List.count ',')).sum + list.length := by
  induction list with
  | nil => exact absurd rfl hne
  | cons item items ih =>
    have hquoted : (quoted item).count ',' = item.count ',' := by
      simp [quoted, List.count_append]
    rw [printedItems, List.count_append, List.count_append, hquoted, List.map_cons, List.sum_cons]
    cases items with
    | nil => rfl
    | cons other items =>
      have hcount := ih (List.cons_ne_nil _ _)
      change item.count ',' + 1 + _ + 1 = _
      rw [List.length_cons]
      omega

theorem exists_printedItems_eq (list : List CString) :
    ∃ front, printedItems list = front ++ ['}'] := by
  induction list with
  | nil => exact ⟨[], rfl⟩
  | cons item items ih =>
    obtain ⟨front, hfront⟩ := ih
    refine ⟨quoted item ++ separator (!items.isEmpty) ++ front, ?_⟩
    rw [printedItems, hfront, ← List.append_assoc]

theorem backslash_not_mem_printedItems (hlist : ∀ s ∈ list, Showable s) :
    '\\' ∉ printedItems list := by
  induction list with
  | nil => decide
  | cons item items ih =>
    obtain ⟨hitem, hitems⟩ := List.forall_mem_cons.mp hlist
    have hseparator : ∀ more, '\\' ∉ separator more := by decide
    rw [printedItems, List.mem_append, List.mem_append]
    rintro ((h | h) | h)
    · exact not_mem_quoted (by decide) hitem.no_backslash h
    · exact hseparator _ h
    · exact ih hitems h

/-- The list is given back, whatever the variable of `ParseShownRlist` holds at first. -/
def ParsesPrinted (text : CString) (list : List CString) : Prop :=
  ∀ value, parseShownRlist value text = .ok list

/-- What is given back has no item that begins with a character that is skipped, and as many items
as there are pieces. -/
theorem ParsesPrinted.unmarked (h : ParsesPrinted text list) (hbackslash : '\\' ∉ text)
    (hne : text ≠ []) (hlast : text.getLast? ≠ some ',') :
    (∀ s ∈ list, Unmarked s) ∧ list.length = text.count ',' + 1 := by
  have hparse := h []
  rw [parseShownRlist, splitStringAsRList] at hparse
  cases hsplit : splitStringAsRList.loop ',' text with
  | error => rw [hsplit] at hparse; cases hparse
  | ok items =>
    rw [hsplit] at hparse
    obtain rfl : parseShownRlist.loop [] items = list := Except.ok.inj hparse
    refine ⟨Unmarked.loop (fun c hc => by cases hc) items, ?_⟩
    rw [length_parseShownRlist_loop]
    exact length_of_splitLoop hbackslash hne hlast hsplit

theorem Showable.unmarked_iff (h : Showable s) :
    Unmarked s ↔ ∀ c ∈ s.head?, c ≠ ' ' ∧ c ≠ '\x7b' := by
  refine forall₂_congr fun c hc => ?_
  have hquote := h.no_quote c (List.mem_of_mem_head? hc)
  simp only [isShownQuote, Bool.or_eq_false_iff, decide_eq_false_iff_not] at hquote
  simp only [isShownMark, Bool.or_eq_false_iff, decide_eq_false_iff_not]
  exact ⟨fun h => ⟨h.1.1.2, h.1.1.1⟩, fun h => ⟨⟨⟨h.2, h.1⟩, hquote.1⟩, hquote.2⟩⟩

/-- A printed list is given back exactly if there is an item, no item has a comma, and none begins
with a blank or a brace. -/
theorem parsesPrinted_iff (hsize : 2 * cfBufferMargin ≤ bufsize) (hlist : ∀ s ∈ list, Showable s)
    (hprint : printRlist bufsize (list.map .scalar) = .ok (text, true)) :
    ParsesPrinted text list ↔
      list ≠ [] ∧ ∀ s ∈ list, ',' ∉ s ∧ ∀ c ∈ s.head?, c ≠ ' ' ∧ c ≠ '\x7b' := by
  obtain rfl := printRlist_eq_true hsize hprint
  constructor
  · intro h
    obtain ⟨front, hfront⟩ := exists_printedItems_eq list
    have hbackslash : '\\' ∉ printedList list := fun hmem =>
      (List.mem_cons.mp hmem).elim (by decide) (backslash_not_mem_printedItems hlist)
    have hlast : (printedList list).getLast? ≠ some ',' := by
      rw [printedList, hfront, ← List.cons_append, List.getLast?_concat]
      decide
    obtain ⟨hmarks, hlength⟩ := h.unmarked hbackslash (List.cons_ne_nil _ _) hlast
    have hne : list ≠ [] := by
      rintro rfl
      cases hlength
    have hcount := count_printedItems list hne
    rw [printedList, List.count_cons_of_ne (by decide), hcount] at hlength
    have hsum : (list.map (List.count ',')).sum = 0 := by omega
    refine ⟨hne, fun s hs => ⟨?_, (hlist s hs).unmarked_iff.mp (hmarks s hs)⟩⟩
    exact List.count_eq_zero.mp (List.sum_eq_zero_iff.mp hsum _ (List.mem_map_of_mem hs))
  · rintro ⟨hne, hall⟩ value
    have hsplit :=
      @splitLoop_printedItems list ['\x7b'] (fun s hs => ⟨hlist s hs, (hall s hs).1⟩) hne
      (by decide)
    have hread := @loop_shownPieces list ['\x7b']
      (fun s hs => ⟨hlist s hs, (hlist s hs).unmarked_iff.mpr (hall s hs).2⟩) hne
      (List.forall_mem_singleton.mpr rfl) value
    rw [parseShownRlist, splitStringAsRList]
    change (splitStringAsRList.loop ',' (['\x7b'] ++ printedItems list) >>= _) = _
    rw [hsplit]
    exact congrArg Except.ok hread

theorem showable_of_letters (hne : s ≠ []) (hshort : s.length ≤ 255)
    (hs : ∀ c ∈ s, c ∈ ['a', 'b', ',']) : Showable s := by
  refine ⟨hne, hshort, fun c hc => ?_, fun hc => absurd (hs _ hc) (by decide)⟩
  have hletter := hs c hc
  simp only [List.mem_cons, List.not_mem_nil, or_false] at hletter
  rcases hletter with rfl | rfl | rfl <;> rfl

/-- Two items. -/
theorem parsesPrinted_two : ParsesPrinted "\x7b'a','b'\x7d".toList [['a'], ['b']] := by
  have hlist : ∀ s ∈ [['a'], ['b']], Showable s := by
    refine List.forall_mem_cons.mpr ⟨?_, List.forall_mem_singleton.mpr ?_⟩
    all_goals
      refine showable_of_letters (List.cons_ne_nil _ _) ?_ (List.forall_mem_singleton.mpr ?_)
      all_goals decide
  refine (@parsesPrinted_iff _ [['a'], ['b']] 256 (by decide) hlist rfl).mpr
    ⟨List.cons_ne_nil _ _, List.forall_mem_cons.mpr ⟨?_, List.forall_mem_singleton.mpr ?_⟩⟩
  all_goals exact ⟨by decide, fun c hc => by cases hc; decide⟩

/-- An item with a comma. -/
theorem parsesPrinted_comma :
    (∀ s ∈ [['a', ',', 'b']], Showable s) ∧
      printRlist 256 [.scalar ['a', ',', 'b']] = .ok ("\x7b'a,b'\x7d".toList, true) ∧
        ¬ ParsesPrinted "\x7b'a,b'\x7d".toList [['a', ',', 'b']] := by
  refine ⟨List.forall_mem_singleton.mpr ?_, rfl, fun h => ?_⟩
  · exact showable_of_letters (List.cons_ne_nil _ _) (by decide) fun c hc => by
      simp only [List.mem_cons, List.not_mem_nil, or_false] at hc ⊢
      tauto
  · have hlength := (h.unmarked (by decide) (by decide) (by decide)).2
    exact absurd hlength (by decide)

end Cfengine
