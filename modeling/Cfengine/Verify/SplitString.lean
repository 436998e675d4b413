import Cfengine.Rlist

/-!
# Splitting what was joined with escaped separators

`SplitStringAsRList` goes on behind as many characters as `SubStrnCopyChr` has copied, not as many
as it has read, so behind an item with escaped separators it starts too early. It gives the list
back exactly if only the last item has a separator, and not more than one
(`splitStringAsRList_joinEscaped_iff`).
-/

namespace Cfengine

variable {sep c : Char} {s t u : CString} {len : Nat} {list items : List CString}

/-- A backslash in front of every separator. -/
def escapeSeparators (sep : Char) (s : CString) : CString :=
  s.flatMap fun c => if c = sep then ['\\', sep] else [c]

/-- The strings with escaped separators, joined. -/
def joinEscaped (sep : Char) (list : List CString) : CString :=
  [sep].intercalate (list.map (escapeSeparators sep))

/-- Strings that can be joined: none is empty, too long for `node`, or has a backslash. -/
structure Joinable (list : List CString) : Prop where
  ne_nil : list ≠ []
  items_ne_nil : ∀ s ∈ list, s ≠ []
  short : ∀ s ∈ list, s.length ≤ cfMaxVarSize - 1
  no_backslash : ∀ s ∈ list, '\\' ∉ s

theorem escapeSeparators_cons : escapeSeparators sep (c :: s) =
    (if c = sep then ['\\', sep] else [c]) ++ escapeSeparators sep s := List.flatMap_cons

theorem length_escapeSeparators : (escapeSeparators sep s).length = s.length + s.count sep := by
  induction s with
  | nil => rfl
  | cons c s ih =>
    rw [escapeSeparators_cons, List.length_append, ih, List.length_cons, List.count_cons]
    by_cases hc : c = sep
    · rw [if_pos hc, if_pos (beq_iff_eq.mpr hc), List.length_cons, List.length_singleton]
      omega
    · rw [if_neg hc, if_neg (mt beq_iff_eq.mp hc), List.length_singleton]
      omega

theorem escapeSeparators_of_not_mem (h : sep ∉ s) : escapeSeparators sep s = s := by
  induction s with
  | nil => rfl
  | cons c s ih =>
    obtain ⟨hc, hs⟩ := not_or.mp (mt List.mem_cons.mpr h)
    rw [escapeSeparators_cons, if_neg (Ne.symm hc), ih hs, List.singleton_append]

theorem escapeSeparators_ne_nil (h : s ≠ []) : escapeSeparators sep s ≠ [] := by
  obtain ⟨c, s, rfl⟩ := List.exists_cons_of_ne_nil h
  rw [escapeSeparators_cons]
  split_ifs <;> exact List.cons_ne_nil _ _

/-! ## Copying an item -/

/-- What follows an item: nothing, or a separator that is not itself escaped. -/
def Stops (sep : Char) (rest : CString) : Prop :=
  rest = [] ∨ ∃ t, rest = sep :: t ∧ (sep = '\\' → t.head? ≠ some '\\')

theorem subStrnCopyChr_stop {rest : CString} (h : Stops sep rest) :
    subStrnCopyChr len rest sep = [] := by
  obtain rfl | ⟨t, rfl, hhead⟩ := h
  · cases len <;> rfl
  · cases len with
    | zero => rfl
    | succ len =>
      have hnot : ¬ (sep = '\\' ∧ t.head? = some sep) := fun ⟨hsep, hnext⟩ =>
        hhead hsep (hsep ▸ hnext)
      rw [subStrnCopyChr, if_neg hnot, if_pos rfl]

/-- An escaped item is copied without its backslashes. -/
theorem subStrnCopyChr_escapeSeparators {rest : CString} (hlength : s.length ≤ len) (hs : '\\' ∉ s)
    (hrest : Stops sep rest) : subStrnCopyChr len (escapeSeparators sep s ++ rest) sep = s := by
  induction s generalizing len with
  | nil => exact subStrnCopyChr_stop hrest
  | cons c s ih =>
    obtain ⟨hc, hs⟩ := not_or.mp (mt List.mem_cons.mpr hs)
    rw [List.length_cons] at hlength
    obtain ⟨len, rfl⟩ := Nat.exists_eq_add_of_lt (Nat.lt_of_lt_of_le (Nat.succ_pos _) hlength)
    rw [Nat.zero_add] at hlength ⊢
    have ih := ih (Nat.le_of_succ_le_succ hlength) hs
    rw [escapeSeparators_cons]
    by_cases hsep : c = sep
    · rw [if_pos hsep, List.cons_append, List.cons_append, List.cons_append, List.nil_append,
        subStrnCopyChr, if_pos ⟨rfl, rfl⟩, List.cons_append, List.tail_cons, ih, hsep]
    · rw [if_neg hsep, List.singleton_append, List.cons_append, subStrnCopyChr,
        if_neg fun h => hc h.1.symm, if_neg hsep, ih]

theorem getLast?_ne_of_suffix (h : s <:+ u) (hu : u.getLast? ≠ some c) : s.getLast? ≠ some c := by
  obtain ⟨front, rfl⟩ := h
  intro hs
  rw [List.getLast?_append, hs] at hu
  exact hu rfl

/-- Not more is copied than there is up to a separator with no backslash in front. -/
theorem length_subStrnCopyChr_le (hu : u.getLast? ≠ some '\\') (hstop : Stops sep (sep :: t)) :
    (subStrnCopyChr len (u ++ sep :: t) sep).length ≤ u.length := by
  induction len generalizing u with
  | zero => exact Nat.zero_le _
  | succ len ih =>
    cases u with
    | nil => exact Nat.le_of_eq (congrArg List.length (subStrnCopyChr_stop hstop))
    | cons c u =>
      rw [List.cons_append, subStrnCopyChr]
      split_ifs with hescaped hsep
      · cases u with
        | nil => exact absurd (congrArg some hescaped.1) hu
        | cons d u =>
          have hle := ih (getLast?_ne_of_suffix ⟨[c, d], rfl⟩ hu)
          rw [List.cons_append, List.tail_cons, List.length_cons, List.length_cons,
            List.length_cons]
          omega
      · exact Nat.zero_le _
      · have hle := ih (getLast?_ne_of_suffix ⟨[c], rfl⟩ hu)
        rw [List.length_cons, List.length_cons]
        omega

/-! ## The loop -/

theorem splitLoop_nil : splitStringAsRList.loop sep [] = .ok [] := by
  rw [splitStringAsRList.loop, if_pos rfl]

theorem splitLoop_eq_ok_iff {sp : CString} (hsp : sp ≠ []) :
    splitStringAsRList.loop sep sp = .ok items ↔
      (subStrnCopyChr cfMaxVarSize sp sep).length ≠ cfMaxVarSize ∧
        ∃ rest, splitStringAsRList.loop sep
            (sp.drop ((subStrnCopyChr cfMaxVarSize sp sep).length + 1)) = .ok rest ∧
          items = subStrnCopyChr cfMaxVarSize sp sep :: rest := by
  rw [splitStringAsRList.loop, if_neg hsp]
  dsimp only
  by_cases hfull : (subStrnCopyChr cfMaxVarSize sp sep).length = cfMaxVarSize
  · rw [if_pos hfull]
    exact iff_of_false (fun h => by cases h) fun h => h.1 hfull
  · rw [if_neg hfull, and_iff_right hfull]
    cases splitStringAsRList.loop sep
        (sp.drop ((subStrnCopyChr cfMaxVarSize sp sep).length + 1)) with
    | error => exact iff_of_false (fun h => by cases h) fun ⟨_, h, _⟩ => by cases h
    | ok rest =>
      constructor
      · intro h
        cases h
        exact ⟨rest, rfl, rfl⟩
      · rintro ⟨_, hrest, rfl⟩
        cases hrest
        rfl

theorem length_subStrnCopyChr_le_length : (subStrnCopyChr len s sep).length ≤ s.length := by
  induction len generalizing s with
  | zero => exact Nat.zero_le _
  | succ len ih =>
    cases s with
    | nil => exact Nat.le_refl _
    | cons c s =>
      rw [subStrnCopyChr]
      split_ifs
      · have htail := @ih s.tail
        rw [List.length_tail] at htail
        rw [List.length_cons, List.length_cons]
        omega
      · exact Nat.zero_le _
      · exact Nat.succ_le_succ ih

theorem length_subStrnCopyChr_le_len : (subStrnCopyChr len s sep).length ≤ len := by
  induction len generalizing s with
  | zero => exact Nat.zero_le _
  | succ len ih =>
    cases s with
    | nil => exact Nat.zero_le _
    | cons c s =>
      rw [subStrnCopyChr]
      split_ifs
      · exact Nat.succ_le_succ ih
      · exact Nat.zero_le _
      · exact Nat.succ_le_succ ih

/-- A text that fits `node` is split. -/
theorem exists_splitLoop_of_short (h : s.length < cfMaxVarSize) :
    ∃ items, splitStringAsRList.loop sep s = .ok items := by
  induction hn : s.length using Nat.strong_induction_on generalizing s with
  | _ n ih =>
    by_cases hs : s = []
    · exact ⟨[], hs ▸ splitLoop_nil⟩
    · have hlt : (s.drop ((subStrnCopyChr cfMaxVarSize s sep).length + 1)).length < s.length := by
        have := List.length_pos_of_ne_nil hs
        rw [List.length_drop]
        omega
      obtain ⟨rest, hrest⟩ := ih _ (hn ▸ hlt) (hlt.trans h) rfl
      have hnode := (@length_subStrnCopyChr_le_length sep s cfMaxVarSize).trans_lt h
      exact ⟨_, (splitLoop_eq_ok_iff hs).mpr ⟨hnode.ne, rest, hrest, rfl⟩⟩

/-- A text with a separator behind it is split into one item more than what follows, at least. -/
theorem exists_splitLoop (hu : u.getLast? ≠ some '\\') (hstop : Stops sep (sep :: t))
    (h : splitStringAsRList.loop sep (u ++ sep :: t) = .ok items) :
    ∃ rest, splitStringAsRList.loop sep t = .ok rest ∧ rest.length + 1 ≤ items.length ∧
      (rest.length + 1 = items.length →
        (subStrnCopyChr cfMaxVarSize (u ++ sep :: t) sep).length = u.length) := by
  induction hn : u.length using Nat.strong_induction_on generalizing u items with
  | _ n ih =>
    have hne : u ++ sep :: t ≠ [] := by simp
    obtain ⟨-, rest, hrest, rfl⟩ := (splitLoop_eq_ok_iff hne).mp h
    have hle := @length_subStrnCopyChr_le sep t u cfMaxVarSize hu hstop
    generalize hnode : subStrnCopyChr cfMaxVarSize (u ++ sep :: t) sep = node at hle hrest ⊢
    rcases Nat.eq_or_lt_of_le hle with heq | hlt
    · have hdrop : (u ++ sep :: t).drop (node.length + 1) = t := by
        rw [heq, ← List.drop_drop, List.drop_left]
        rfl
      rw [hdrop] at hrest
      exact ⟨rest, hrest, Nat.le_refl _, fun _ => hn ▸ heq⟩
    · have hdrop : (u ++ sep :: t).drop (node.length + 1) = u.drop (node.length + 1) ++ sep :: t :=
        List.drop_append_of_le_length hlt
      rw [hdrop] at hrest
      have hshort : (u.drop (node.length + 1)).length < n := by
        rw [List.length_drop]
        omega
      obtain ⟨later, hlater, hlength, -⟩ :=
        ih _ hshort (getLast?_ne_of_suffix (List.drop_suffix _ _) hu) hrest rfl
      refine ⟨later, hlater, ?_, fun h => ?_⟩
      · rw [List.length_cons]
        omega
      · rw [List.length_cons] at h
        omega

/-! ## Joined strings -/

theorem joinEscaped_singleton : joinEscaped sep [s] = escapeSeparators sep s :=
  List.intercalate_singleton

theorem joinEscaped_cons (h : list ≠ []) :
    joinEscaped sep (s :: list) = escapeSeparators sep s ++ sep :: joinEscaped sep list := by
  obtain ⟨s', list, rfl⟩ := List.exists_cons_of_ne_nil h
  rw [joinEscaped, List.map_cons, List.map_cons, List.intercalate_cons_cons, List.append_assoc]
  rfl

theorem Joinable.tail (h : Joinable (s :: list)) (hne : list ≠ []) : Joinable list where
  ne_nil := hne
  items_ne_nil := fun s hs => h.items_ne_nil s (List.mem_cons_of_mem _ hs)
  short := fun s hs => h.short s (List.mem_cons_of_mem _ hs)
  no_backslash := fun s hs => h.no_backslash s (List.mem_cons_of_mem _ hs)

/-- The last character of an escaped string is its own. -/
theorem getLast?_escapeSeparators_ne (hs : '\\' ∉ s) :
    (escapeSeparators sep s).getLast? ≠ some '\\' := by
  obtain rfl | ⟨s, c, rfl⟩ := List.eq_nil_or_concat' s
  · exact (Option.some_ne_none _).symm
  · have hc : c ≠ '\\' := by
      rintro rfl
      exact hs (by simp)
    rw [escapeSeparators, List.flatMap_append, List.flatMap_singleton, List.getLast?_append]
    split_ifs with hsep
    · exact fun h => hc (hsep.trans (Option.some.inj h))
    · exact fun h => hc (Option.some.inj h)

theorem head?_escapeSeparators_ne {rest : CString} (hne : s ≠ []) (hs : '\\' ∉ s)
    (hsep : sep = '\\') :
    (escapeSeparators sep s ++ rest).head? ≠ some '\\' := by
  obtain ⟨c, s, rfl⟩ := List.exists_cons_of_ne_nil hne
  rw [escapeSeparators_of_not_mem (hsep ▸ hs)]
  exact fun h => hs (Option.some.inj h ▸ List.mem_cons_self)

/-- The separator in front of joined strings is not escaped by what follows. -/
theorem Joinable.stops (h : Joinable list) : Stops sep (sep :: joinEscaped sep list) := by
  refine .inr ⟨_, rfl, fun hsep => ?_⟩
  obtain ⟨s, list, rfl⟩ := List.exists_cons_of_ne_nil h.ne_nil
  have hne := h.items_ne_nil s List.mem_cons_self
  have hs := h.no_backslash s List.mem_cons_self
  cases list with
  | nil =>
    have hhead := @head?_escapeSeparators_ne sep s [] hne hs hsep
    rwa [List.append_nil, ← joinEscaped_singleton] at hhead
  | cons s' list =>
    rw [joinEscaped_cons (List.cons_ne_nil _ _)]
    exact head?_escapeSeparators_ne hne hs hsep

/-- Only the last string may have a separator, and not more than one. -/
def SeparatorLast (sep : Char) (list : List CString) : Prop :=
  (∀ s ∈ list.dropLast, sep ∉ s) ∧ ∀ s ∈ list.getLast?, s.count sep ≤ 1

theorem separatorLast_singleton : SeparatorLast sep [s] ↔ s.count sep ≤ 1 := by
  simp [SeparatorLast]

theorem separatorLast_cons (h : list ≠ []) :
    SeparatorLast sep (s :: list) ↔ sep ∉ s ∧ SeparatorLast sep list := by
  obtain ⟨s', list, rfl⟩ := List.exists_cons_of_ne_nil h
  rw [SeparatorLast, SeparatorLast, List.dropLast_cons_cons, List.forall_mem_cons,
    List.getLast?_cons_cons, and_assoc]

theorem short_ne {n : Nat} (h : n ≤ cfMaxVarSize - 1) : n ≠ cfMaxVarSize := by
  rw [cfMaxVarSize] at h ⊢
  omega

theorem short_le {n : Nat} (h : n ≤ cfMaxVarSize - 1) : n ≤ cfMaxVarSize :=
  Nat.le_trans h (Nat.sub_le _ _)

/-- One joined string. -/
theorem Joinable.splitLoop_singleton (h : Joinable [s]) :
    splitStringAsRList.loop sep (escapeSeparators sep s) = .ok items ↔
      ∃ rest, splitStringAsRList.loop sep ((escapeSeparators sep s).drop (s.length + 1)) =
        .ok rest ∧
        items = s :: rest := by
  have hshort := h.short s List.mem_cons_self
  have hcopy := @subStrnCopyChr_escapeSeparators sep s cfMaxVarSize [] (short_le hshort)
    (h.no_backslash s List.mem_cons_self) (.inl rfl)
  rw [List.append_nil] at hcopy
  rw [splitLoop_eq_ok_iff (escapeSeparators_ne_nil (h.items_ne_nil s List.mem_cons_self)), hcopy,
    and_iff_right (short_ne hshort)]

theorem splitLoop_drop_eq_nil {sp : CString} {n : Nat}
    (h : splitStringAsRList.loop sep (sp.drop n) = .ok []) : sp.length ≤ n := by
  by_contra hlt
  have hne : sp.drop n ≠ [] := fun hnil => hlt (List.drop_eq_nil_iff.mp hnil)
  obtain ⟨-, rest, -, hcons⟩ := (splitLoop_eq_ok_iff hne).mp h
  cases hcons

/-- Not fewer items come out than went in, and as many only if no separator is in the way. -/
theorem Joinable.length_le (h : Joinable list)
    (hsplit : splitStringAsRList.loop sep (joinEscaped sep list) = .ok items) :
    list.length ≤ items.length ∧ (list.length = items.length → SeparatorLast sep list) := by
  induction list generalizing items with
  | nil => exact absurd rfl h.ne_nil
  | cons s list ih =>
    by_cases hlist : list = []
    · subst hlist
      rw [joinEscaped_singleton] at hsplit
      obtain ⟨rest, hrest, rfl⟩ := h.splitLoop_singleton.mp hsplit
      refine ⟨Nat.succ_le_succ (Nat.zero_le _), fun heq => ?_⟩
      obtain rfl : rest = [] := List.length_eq_zero_iff.mp (Nat.succ.inj heq).symm
      have hle := splitLoop_drop_eq_nil hrest
      rw [length_escapeSeparators] at hle
      exact separatorLast_singleton.mpr (by omega)
    · have htail := h.tail hlist
      have hs := h.no_backslash s List.mem_cons_self
      rw [joinEscaped_cons hlist] at hsplit
      obtain ⟨rest, hrest, hlength, hfirst⟩ :=
        exists_splitLoop (getLast?_escapeSeparators_ne hs) htail.stops hsplit
      obtain ⟨hle, hlast⟩ := ih htail hrest
      rw [List.length_cons]
      refine ⟨by omega, fun heq => ?_⟩
      have hcopy := hfirst (by omega)
      rw [subStrnCopyChr_escapeSeparators (short_le (h.short s List.mem_cons_self)) hs htail.stops,
        length_escapeSeparators] at hcopy
      refine (separatorLast_cons hlist).mpr ⟨?_, hlast (by omega)⟩
      exact List.count_eq_zero.mp (by omega)

/-- If no separator is in the way, the strings come out. -/
theorem Joinable.splitLoop_eq (h : Joinable list) (hlast : SeparatorLast sep list) :
    splitStringAsRList.loop sep (joinEscaped sep list) = .ok list := by
  induction list with
  | nil => exact absurd rfl h.ne_nil
  | cons s list ih =>
    by_cases hlist : list = []
    · subst hlist
      rw [joinEscaped_singleton]
      refine h.splitLoop_singleton.mpr ⟨[], ?_, rfl⟩
      have hcount := separatorLast_singleton.mp hlast
      rw [List.drop_eq_nil_of_le (by rw [length_escapeSeparators]; omega), splitLoop_nil]
    · have htail := h.tail hlist
      have hshort := h.short s List.mem_cons_self
      obtain ⟨hnot, hlast⟩ := (separatorLast_cons hlist).mp hlast
      have hcopy := @subStrnCopyChr_escapeSeparators sep s cfMaxVarSize _ (short_le hshort)
        (h.no_backslash s List.mem_cons_self) (@Joinable.stops sep list htail)
      rw [joinEscaped_cons hlist]
      refine (splitLoop_eq_ok_iff (by simp)).mpr ?_
      rw [hcopy, and_iff_right (short_ne hshort), escapeSeparators_of_not_mem hnot]
      refine ⟨list, ?_, rfl⟩
      rw [← List.drop_drop, List.drop_left]
      exact ih htail hlast

/-- Splitting undoes joining exactly if only the last string has a separator, and not more than
one. -/
theorem splitStringAsRList_joinEscaped_iff (h : Joinable list) :
    splitStringAsRList (joinEscaped sep list) sep = .ok list ↔ SeparatorLast sep list :=
  ⟨fun hsplit => (h.length_le hsplit).2 rfl, h.splitLoop_eq⟩

/-- `a,b` -/
theorem splitStringAsRList_joinEscaped_two :
    splitStringAsRList (joinEscaped ',' [['a'], ['b']]) ',' = .ok [['a'], ['b']] ↔
      SeparatorLast ',' [['a'], ['b']] :=
  splitStringAsRList_joinEscaped_iff ⟨by decide, by decide, by decide, by decide⟩

/-- `a\,b,c` -/
theorem splitStringAsRList_joinEscaped_comma : Joinable [['a', ',', 'b'], ['c']] ∧
    splitStringAsRList (joinEscaped ',' [['a', ',', 'b'], ['c']]) ',' ≠
      .ok [['a', ',', 'b'], ['c']] := by
  refine ⟨⟨by decide, by decide, by decide, by decide⟩, fun h => ?_⟩
  obtain ⟨-, rest, hrest, heq⟩ := (splitLoop_eq_ok_iff (by decide)).mp h
  obtain ⟨-, rfl⟩ := List.cons_eq_cons.mp heq
  have hloop : splitStringAsRList.loop ',' [',', 'c'] = .ok [['c']] := hrest
  obtain ⟨-, rest, -, heq⟩ := (splitLoop_eq_ok_iff (by decide)).mp hloop
  have hnode : subStrnCopyChr cfMaxVarSize [',', 'c'] ',' = [] := rfl
  rw [hnode] at heq
  cases heq

end Cfengine
