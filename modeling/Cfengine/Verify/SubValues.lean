import Cfengine.Verify.SplitString

/-!
# Taking joined items apart again

What `SplitStringAsRList` makes of items that were joined without escapes. An item comes from the
text in which every separator of it is escaped (`subStrnCopyChr_eq`), so an item with a separator
does not come back: there would have to be a longer one (`not_mem_of_subset`). Items that end in a
backslash come from the end of the text, and the items behind them are short.
-/

namespace Cfengine

variable {sep c d : Char} {s t u v w x y : CString} {len : Nat}
  {list items rest pre post : List CString}

/-- The characters of the items, with one for each separator. -/
def mass (list : List CString) : Nat := (list.map fun s => s.length + 1).sum

@[simp] theorem mass_nil : mass [] = 0 := rfl

@[simp] theorem mass_cons : mass (s :: list) = s.length + 1 + mass list := by
  rw [mass, List.map_cons, List.sum_cons]
  rfl

theorem mass_perm (h : pre.Perm post) : mass pre = mass post :=
  (h.map fun s : CString => s.length + 1).sum_eq

theorem mass_sublist (h : pre.Sublist post) : mass pre ≤ mass post := by
  induction h with
  | slnil => exact Nat.le_refl _
  | cons s _ ih =>
    rw [mass_cons]
    omega
  | cons_cons s _ ih =>
    rw [mass_cons, mass_cons]
    omega

theorem length_intercalate_add_one (h : list ≠ []) :
    ([sep].intercalate list).length + 1 = mass list := by
  induction list with
  | nil => exact absurd rfl h
  | cons s list ih =>
    cases list with
    | nil => rw [List.intercalate_singleton, mass_cons, mass_nil]
    | cons t list =>
      have ih := ih (List.cons_ne_nil _ _)
      rw [List.intercalate_cons_cons, List.length_append, List.length_append, mass_cons,
        List.length_singleton]
      omega

theorem length_intercalate_le_mass (sep : Char) (list : List CString) :
    ([sep].intercalate list).length ≤ mass list := by
  by_cases h : list = []
  · rw [h]
    exact Nat.zero_le _
  · rw [← length_intercalate_add_one h]
    exact Nat.le_succ _

theorem intercalate_cons (h : list ≠ []) :
    [sep].intercalate (s :: list) = s ++ sep :: [sep].intercalate list := by
  obtain ⟨t, list, rfl⟩ := List.exists_cons_of_ne_nil h
  rw [List.intercalate_cons_cons, List.append_assoc, List.singleton_append]

theorem intercalate_append (hpre : pre ≠ []) (hpost : post ≠ []) :
    [sep].intercalate (pre ++ post) = [sep].intercalate pre ++ sep :: [sep].intercalate post := by
  induction pre with
  | nil => exact absurd rfl hpre
  | cons s pre ih =>
    cases pre with
    | nil => rw [List.singleton_append, intercalate_cons hpost, List.intercalate_singleton]
    | cons t pre =>
      rw [List.cons_append, intercalate_cons (by simp), ih (List.cons_ne_nil _ _),
        intercalate_cons (List.cons_ne_nil _ _), List.append_assoc, List.cons_append]

/-! ## Where an item comes from -/

/-- An item comes from its escaped text, up to a separator or to the end. -/
theorem subStrnCopyChr_eq (hsep : sep ≠ '\\') (h : (subStrnCopyChr len t sep).length < len) :
    ∃ rest, t = escapeSeparators sep (subStrnCopyChr len t sep) ++ rest ∧
      (rest = [] ∨ ∃ u, rest = sep :: u) ∧
      ((subStrnCopyChr len t sep).getLast? = some '\\' → rest = []) := by
  induction len generalizing t with
  | zero => exact absurd h (Nat.not_lt_zero _)
  | succ len ih =>
    cases t with
    | nil => exact ⟨[], rfl, .inl rfl, fun _ => rfl⟩
    | cons c t =>
      rw [subStrnCopyChr] at h ⊢
      split_ifs at h ⊢ with hescaped hc
      · obtain ⟨rfl, hhead⟩ := hescaped
        cases t with
        | nil => cases hhead
        | cons d t =>
          obtain rfl : d = sep := Option.some.inj hhead
          obtain ⟨rest, heq, hrest, hlast⟩ := ih (Nat.lt_of_succ_lt_succ h)
          rw [List.tail_cons] at heq hlast ⊢
          refine ⟨rest, ?_, hrest, fun hl => hlast ?_⟩
          · rw [escapeSeparators_cons, if_pos rfl, List.append_assoc, ← heq]
            rfl
          · rw [List.getLast?_cons] at hl
            cases hx : (subStrnCopyChr len t d).getLast? with
            | none =>
              rw [hx] at hl
              exact absurd (Option.some.inj hl) hsep
            | some e =>
              rw [hx] at hl
              exact hl
      · subst hc
        exact ⟨c :: t, rfl, .inr ⟨t, rfl⟩, fun hl => by cases hl⟩
      · obtain ⟨rest, heq, hrest, hlast⟩ := ih (Nat.lt_of_succ_lt_succ h)
        refine ⟨rest, ?_, hrest, fun hl => ?_⟩
        · rw [escapeSeparators_cons, if_neg hc, List.append_assoc, ← heq]
          rfl
        · rw [List.getLast?_cons] at hl
          cases hx : (subStrnCopyChr len t sep).getLast? with
          | some e =>
            rw [hx] at hl hlast
            exact hlast hl
          | none =>
            -- the backslash is the whole item, so a separator behind it would be escaped
            rw [hx] at hl
            rw [List.getLast?_eq_none_iff.mp hx] at heq
            rcases hrest with rfl | ⟨u, rfl⟩
            · rfl
            · exact absurd ⟨Option.some.inj hl, by rw [heq]; rfl⟩ hescaped

/-- A text and its items. Where the separator is not the backslash, each item comes from its escaped
text, and from the rest of the text if it ends in a backslash. -/
inductive Splits (sep : Char) : CString → List CString → Prop where
  | nil : Splits sep [] []
  | cons (t x : CString) (rest : List CString) : t ≠ [] → Splits sep (t.drop (x.length + 1)) rest →
      x.length ≤ t.length → (sep ≠ '\\' → ∃ u, t = escapeSeparators sep x ++ u ∧
        (x.getLast? = some '\\' → u = [])) → Splits sep t (x :: rest)

theorem splits_of_eq_ok (h : splitStringAsRList.loop sep t = .ok items) : Splits sep t items := by
  induction hn : t.length using Nat.strong_induction_on generalizing t items with
  | _ n ih =>
    by_cases ht : t = []
    · rw [ht, splitLoop_nil] at h
      cases h
      exact ht ▸ .nil
    · obtain ⟨hfull, rest, hrest, rfl⟩ := (splitLoop_eq_ok_iff ht).mp h
      have hlt : (t.drop ((subStrnCopyChr cfMaxVarSize t sep).length + 1)).length < n := by
        have := List.length_pos_of_ne_nil ht
        rw [List.length_drop]
        omega
      refine .cons t _ rest ht (ih _ hlt hrest rfl) length_subStrnCopyChr_le_length fun hsep => ?_
      obtain ⟨u, heq, -, hlast⟩ := subStrnCopyChr_eq hsep
        (Nat.lt_of_le_of_ne length_subStrnCopyChr_le_len hfull)
      exact ⟨u, heq, hlast⟩

theorem splitLoop_length_lt (h : splitStringAsRList.loop sep t = .ok items) (hx : x ∈ items) :
    x.length < cfMaxVarSize := by
  induction hn : t.length using Nat.strong_induction_on generalizing t items with
  | _ n ih =>
    by_cases ht : t = []
    · rw [ht, splitLoop_nil] at h
      cases h
      cases hx
    · obtain ⟨hfull, rest, hrest, rfl⟩ := (splitLoop_eq_ok_iff ht).mp h
      rcases List.mem_cons.mp hx with rfl | hx
      · exact Nat.lt_of_le_of_ne length_subStrnCopyChr_le_len hfull
      · have hlt : (t.drop ((subStrnCopyChr cfMaxVarSize t sep).length + 1)).length < n := by
          have := List.length_pos_of_ne_nil ht
          rw [List.length_drop]
          omega
        exact ih _ hlt hrest hx rfl

namespace Splits

theorem mass_le (h : Splits sep t items) : mass items ≤ t.length + 1 := by
  suffices mass items ≤ t.length + 1 ∧ (t = [] → mass items = 0) from this.1
  induction h with
  | nil => exact ⟨Nat.zero_le _, fun _ => rfl⟩
  | cons t x rest ht _ hlength _ ih =>
    refine ⟨?_, fun h => absurd h ht⟩
    rw [List.length_drop] at ih
    rw [mass_cons]
    rcases Nat.lt_or_ge x.length t.length with hlt | hge
    · have := ih.1
      omega
    · have := ih.2 (List.drop_eq_nil_of_le (Nat.le_succ_of_le hge))
      omega

theorem eq_nil (h : Splits sep [] items) : items = [] := by
  cases h with
  | nil => rfl
  | cons _ _ _ hne => exact absurd rfl hne

theorem infix_of_mem (hsep : sep ≠ '\\') (h : Splits sep t items) (hx : x ∈ items) :
    escapeSeparators sep x <:+: t := by
  induction h with
  | nil => cases hx
  | cons t y rest _ _ _ hy ih =>
    rcases List.mem_cons.mp hx with rfl | hx
    · obtain ⟨u, heq, -⟩ := hy hsep
      exact ⟨[], u, heq.symm⟩
    · exact (ih hx).trans (List.drop_suffix _ _).isInfix

theorem suffix_of_mem (hsep : sep ≠ '\\') (h : Splits sep t items) (hx : x ∈ items)
    (hlast : x.getLast? = some '\\') :
    escapeSeparators sep x <:+ t := by
  induction h with
  | nil => cases hx
  | cons t y rest _ _ _ hy ih =>
    rcases List.mem_cons.mp hx with rfl | hx
    · obtain ⟨u, heq, hu⟩ := hy hsep
      rw [heq, hu hlast, List.append_nil]
    · exact (ih hx).trans (List.drop_suffix _ _)

/-- What follows an item that ends in a backslash is as short as its separators are few. -/
theorem mass_le_count (hsep : sep ≠ '\\') (h : Splits sep t (pre ++ w :: post))
    (hlast : w.getLast? = some '\\') :
    mass post ≤ w.count sep := by
  induction pre generalizing t with
  | nil =>
    cases h with
    | cons _ _ _ _ hrest _ hw =>
      obtain ⟨u, heq, hu⟩ := hw hsep
      rw [hu hlast, List.append_nil] at heq
      rcases Nat.eq_zero_or_pos (w.count sep) with hzero | hpos
      · have hdrop : t.drop (w.length + 1) = [] := by
          apply List.drop_eq_nil_of_le
          rw [heq, length_escapeSeparators]
          omega
        rw [hdrop] at hrest
        rw [hrest.eq_nil, mass_nil]
        exact Nat.zero_le _
      · have := hrest.mass_le
        rw [List.length_drop, heq, length_escapeSeparators] at this
        omega
  | cons x pre ih =>
    cases h with
    | cons _ _ _ _ hrest _ _ => exact ih hrest

end Splits

/-! ## Escaped texts in joined items -/

theorem getLast?_append_of_some (h : u.getLast? = some c) : (s ++ u).getLast? = some c := by
  rw [List.getLast?_append, h]
  rfl

/-- A separator of an escaped text has a backslash in front. -/
theorem getLast?_of_escape (hsep : sep ≠ '\\') (h : escapeSeparators sep s = u ++ sep :: v) :
    u.getLast? = some '\\' := by
  induction s generalizing u with
  | nil => cases u <;> cases h
  | cons c s ih =>
    rw [escapeSeparators_cons] at h
    split_ifs at h with hc
    · cases u with
      | nil => exact absurd (List.cons_eq_cons.mp h).1.symm hsep
      | cons d u =>
        obtain ⟨rfl, h⟩ := List.cons_eq_cons.mp h
        cases u with
        | nil => rfl
        | cons e u =>
          have hrest : escapeSeparators sep s = u ++ sep :: v :=
            (List.cons_eq_cons.mp (List.cons_eq_cons.mp h).2).2
          exact getLast?_append_of_some (s := ['\\', e]) (ih hrest)
    · cases u with
      | nil => exact absurd (List.cons_eq_cons.mp h).1 hc
      | cons d u =>
        have hrest : escapeSeparators sep s = u ++ sep :: v := (List.cons_eq_cons.mp h).2
        exact getLast?_append_of_some (s := [d]) (ih hrest)

theorem getLast?_escapeSeparators (hsep : sep ≠ '\\') (h : s.getLast? = some '\\') :
    (escapeSeparators sep s).getLast? = some '\\' := by
  obtain ⟨s, rfl⟩ := List.getLast?_eq_some_iff.mp h
  rw [escapeSeparators, List.flatMap_append]
  apply getLast?_append_of_some
  rw [List.flatMap_singleton, if_neg hsep.symm]
  rfl

theorem suffix_of_escape (hsep : sep ≠ '\\') (hu : u.getLast? ≠ some '\\')
    (h : escapeSeparators sep s <:+ u ++ sep :: t) : escapeSeparators sep s <:+ t := by
  obtain ⟨front, heq⟩ := h
  rcases List.append_eq_append_iff.mp heq with ⟨v, rfl, hv⟩ | ⟨v, -, hv⟩
  · exact absurd (getLast?_of_escape hsep hv) (getLast?_ne_of_suffix ⟨front, rfl⟩ hu)
  · cases v with
    | nil => cases getLast?_of_escape (u := []) hsep hv.symm
    | cons d v => exact ⟨v, (List.cons_eq_cons.mp hv).2.symm⟩

theorem infix_of_escape (hsep : sep ≠ '\\') (hu : u.getLast? ≠ some '\\')
    (h : escapeSeparators sep s <:+: u ++ sep :: t) :
    escapeSeparators sep s <:+: u ∨ escapeSeparators sep s <:+: t := by
  rcases List.infix_append_iff.mp h with h | h | ⟨v, w, heq, hv, hw⟩
  · exact .inl h
  · rcases List.infix_cons_iff.mp h with h | h
    · obtain ⟨y, hy⟩ := h
      cases hescaped : escapeSeparators sep s with
      | nil => exact .inl (List.nil_infix)
      | cons d v =>
        rw [hescaped] at hy
        obtain ⟨rfl, -⟩ := List.cons_eq_cons.mp hy
        cases getLast?_of_escape (u := []) hsep hescaped
    · exact .inr h
  · cases w with
    | nil =>
      rw [heq, List.append_nil]
      exact .inl hv.isInfix
    | cons d w =>
      obtain ⟨y, hy⟩ := hw
      obtain ⟨rfl, -⟩ := List.cons_eq_cons.mp hy
      exact absurd (getLast?_of_escape hsep heq) (getLast?_ne_of_suffix hv hu)

theorem getLast?_intercalate (hsep : sep ≠ '\\')
    (h : ([sep].intercalate (pre ++ [s])).getLast? = some '\\') : s.getLast? = some '\\' := by
  by_cases hpre : pre = []
  · rwa [hpre, List.nil_append, List.intercalate_singleton] at h
  · rw [intercalate_append hpre (List.cons_ne_nil _ _), List.intercalate_singleton,
      List.getLast?_append, List.getLast?_cons] at h
    cases hs : s.getLast? with
    | none =>
      rw [hs] at h
      exact absurd (Option.some.inj h) hsep
    | some c =>
      rw [hs] at h
      exact h

theorem count_intercalate (h : list ≠ []) :
    ([sep].intercalate list).count sep + 1 = (list.map (List.count sep)).sum + list.length := by
  induction list with
  | nil => exact absurd rfl h
  | cons s list ih =>
    by_cases hlist : list = []
    · rw [hlist, List.intercalate_singleton, List.map_singleton, List.sum_singleton]
      rfl
    · rw [intercalate_cons hlist, List.count_append, List.count_cons_self, List.map_cons,
        List.sum_cons, List.length_cons]
      have := ih hlist
      omega

theorem count_escapeSeparators (hsep : sep ≠ '\\') :
    (escapeSeparators sep s).count sep = s.count sep := by
  induction s with
  | nil => rfl
  | cons c s ih =>
    rw [escapeSeparators_cons, List.count_append, ih, List.count_cons]
    by_cases hc : c = sep
    · rw [if_pos hc, if_pos (beq_iff_eq.mpr hc), List.count_cons_of_ne hsep.symm,
        List.count_singleton_self, Nat.add_comm]
    · rw [if_neg hc, if_neg (mt beq_iff_eq.mp hc), List.count_singleton,
        if_neg (mt beq_iff_eq.mp hc), Nat.zero_add, Nat.add_zero]

theorem eq_of_mass (h : pre.Sublist post) (hmass : mass post ≤ mass pre) : pre = post := by
  induction h with
  | slnil => rfl
  | cons s h ih =>
    have := mass_sublist h
    rw [mass_cons] at hmass
    omega
  | cons_cons s _ ih =>
    rw [mass_cons, mass_cons] at hmass
    rw [ih (by omega)]

/-! ## What has to be given back -/

/-- The items that end in a backslash. -/
def endsInBackslash (s : CString) : Bool := s.getLast? = some '\\'

theorem exists_backslash_suffix (list : List CString) :
    ∃ pre post, list = pre ++ post ∧ (∀ s ∈ post, endsInBackslash s = true) ∧
      ∀ s ∈ pre.getLast?, endsInBackslash s = false := by
  induction list using List.reverseRecOn with
  | nil => exact ⟨[], [], rfl, fun s hs => by (cases hs), fun s hs => by (cases hs)⟩
  | append_singleton list a ih =>
    obtain ⟨pre, post, rfl, hpost, hpre⟩ := ih
    cases ha : endsInBackslash a with
    | true =>
      refine ⟨pre, post ++ [a], List.append_assoc _ _ _, fun s hs => ?_, hpre⟩
      rcases List.mem_append.mp hs with hs | hs
      · exact hpost s hs
      · rwa [List.mem_singleton.mp hs]
    | false =>
      refine ⟨pre ++ post ++ [a], [], (List.append_nil _).symm, fun s hs => by (cases hs),
        fun s hs => ?_⟩
      rw [List.getLast?_concat] at hs
      cases hs
      exact ha

theorem endsInBackslash_iff : endsInBackslash s = true ↔ s.getLast? = some '\\' :=
  decide_eq_true_iff

section
variable (hitems : Splits sep t items) (hv : '\\' ∉ v) (hperm : list.Perm (v :: items))
include hitems hv hperm

/-- All items that end in a backslash, together, are not longer than the escaped text of the
first. -/
theorem exists_first_of_mem (hsep : sep ≠ '\\') (hy : y ∈ list) (hlast : y.getLast? = some '\\') :
    ∃ w ∈ list, w.getLast? = some '\\' ∧
      mass (list.filter endsInBackslash) ≤ w.length + 1 + w.count sep := by
  have hvlast : endsInBackslash v = false := by
    rw [Bool.eq_false_iff, ne_eq, endsInBackslash_iff]
    exact fun h => hv (List.mem_of_getLast? h)
  have hmem : y ∈ items := by
    rcases List.mem_cons.mp (hperm.mem_iff.mp hy) with rfl | h
    · exact absurd (List.mem_of_getLast? hlast) hv
    · exact h
  obtain ⟨w, hw⟩ := Option.isSome_iff_exists.mp
    (List.find?_isSome.mpr ⟨y, hmem, endsInBackslash_iff.mpr hlast⟩)
  obtain ⟨hwlast, pre, post, rfl, hpre⟩ := List.find?_eq_some_iff_append.mp hw
  have hfilter : pre.filter endsInBackslash = [] :=
    List.filter_eq_nil_iff.mpr fun x hx => by simpa using hpre x hx
  refine ⟨w, hperm.mem_iff.mpr (by simp), endsInBackslash_iff.mp hwlast, ?_⟩
  rw [mass_perm (hperm.filter _), List.filter_cons_of_neg (by simp [hvlast]), List.filter_append,
    hfilter, List.nil_append, List.filter_cons_of_pos hwlast, mass_cons]
  have hcount := hitems.mass_le_count hsep (endsInBackslash_iff.mp hwlast)
  have hsub := mass_sublist (List.filter_sublist (p := endsInBackslash) (l := post))
  omega

/-- Only the last one of joined items that are all given back may end in a backslash. -/
theorem no_backslash_of_subset (hsep : sep ≠ '\\')
    (hagain : Splits sep ([sep].intercalate list) rest)
    (hsub : ∀ s ∈ list, s ∈ rest) : ∀ s ∈ list.dropLast, s.getLast? ≠ some '\\' := by
  intro y hy hlast
  obtain ⟨front, z, rfl⟩ := List.eq_nil_or_concat list |>.resolve_left
    (fun h => by rw [h] at hy; cases hy)
  rw [List.concat_eq_append] at *
  rw [List.dropLast_concat] at hy
  have hymem : y ∈ front ++ [z] := List.mem_append_left _ hy
  have hz : z.getLast? = some '\\' := by
    apply @getLast?_intercalate sep z front hsep
    obtain ⟨u, hu⟩ := hagain.suffix_of_mem hsep (hsub y hymem) hlast
    rw [← hu]
    exact getLast?_append_of_some (getLast?_escapeSeparators hsep hlast)
  obtain ⟨w, hwmem, hwlast, hmass⟩ := exists_first_of_mem hitems hv hperm hsep hymem hlast
  have hw := hagain.suffix_of_mem hsep (hsub w hwmem) hwlast
  obtain ⟨pre, post, heq, hpost, hpre⟩ := exists_backslash_suffix (front ++ [z])
  rw [heq] at hw hmass
  have hne : post ≠ [] := by
    rintro rfl
    rw [List.append_nil] at heq
    have hfalse := hpre z (by rw [← heq, List.getLast?_concat]; rfl)
    rw [endsInBackslash_iff.mpr hz] at hfalse
    cases hfalse
  -- the escaped text of `w` cannot reach over a separator that is not escaped
  have hsuffix : escapeSeparators sep w <:+ [sep].intercalate post := by
    by_cases hnil : pre = []
    · rwa [hnil, List.nil_append] at hw
    · rw [intercalate_append hnil hne] at hw
      refine suffix_of_escape hsep (fun hlast => ?_) hw
      obtain ⟨pre, p, rfl⟩ := (List.eq_nil_or_concat pre).resolve_left hnil
      rw [List.concat_eq_append] at hlast hpre
      have hp := hpre p List.getLast?_concat
      rw [endsInBackslash_iff.mpr (getLast?_intercalate hsep hlast)] at hp
      cases hp
  -- so it is the whole text of these items, one of which is `w`, with a separator more
  have hfilter : post.Sublist ((pre ++ post).filter endsInBackslash) := by
    rw [List.filter_append, List.filter_eq_self.mpr hpost]
    exact List.sublist_append_right _ _
  have hlength := @length_intercalate_add_one sep post hne
  have hle := hsuffix.length_le
  rw [length_escapeSeparators] at hle
  have hmass' := mass_sublist hfilter
  have hall := eq_of_mass hfilter (by omega)
  have hw_mem : w ∈ post := by
    rw [hall]
    exact List.mem_filter.mpr ⟨heq ▸ hwmem, endsInBackslash_iff.mpr hwlast⟩
  have htwo : 2 ≤ post.length := by
    rw [hall, ← heq, List.filter_append, List.length_append,
      List.filter_cons_of_pos (endsInBackslash_iff.mpr hz), List.length_cons]
    have hpos := List.length_pos_of_mem (List.mem_filter.mpr ⟨hy, endsInBackslash_iff.mpr hlast⟩)
    omega
  have hcount := @count_intercalate sep post hne
  rw [← hsuffix.eq_of_length (by rw [length_escapeSeparators]; omega),
    count_escapeSeparators hsep] at hcount
  have hsum :=
    List.single_le_sum (fun n _ => Nat.zero_le n) _
    (List.mem_map_of_mem (f := List.count sep) hw_mem)
  omega

end

theorem length_lt_mass (h : s ∈ list) : s.length < mass list := by
  induction list with
  | nil => cases h
  | cons t list ih =>
    rw [mass_cons]
    rcases List.mem_cons.mp h with rfl | h
    · omega
    · have := ih h
      omega

/-- An escaped text in joined items is in one of them. -/
theorem exists_infix_of_escape (hsep : sep ≠ '\\')
    (hlast : ∀ s ∈ list.dropLast, s.getLast? ≠ some '\\') (hne : list ≠ [])
    (h : escapeSeparators sep w <:+: [sep].intercalate list) :
    ∃ s ∈ list, escapeSeparators sep w <:+: s := by
  induction list with
  | nil => exact absurd rfl hne
  | cons s list ih =>
    by_cases hlist : list = []
    · rw [hlist, List.intercalate_singleton] at h
      exact ⟨s, List.mem_cons_self, h⟩
    · rw [intercalate_cons hlist] at h
      rw [List.dropLast_cons_of_ne_nil hlist] at hlast
      rcases infix_of_escape hsep (hlast s List.mem_cons_self) h with h | h
      · exact ⟨s, List.mem_cons_self, h⟩
      · obtain ⟨t, ht, hwithin⟩ :=
          ih (fun t ht => hlast t (List.mem_cons_of_mem s ht)) hlist h
        exact ⟨t, List.mem_cons_of_mem s ht, hwithin⟩

/-- No separator is in joined items that are all given back: a longer one with a separator would be
needed for each. -/
theorem not_mem_of_subset (hsep : sep ≠ '\\')
    (hlast : ∀ s ∈ list.dropLast, s.getLast? ≠ some '\\')
    (hagain : Splits sep ([sep].intercalate list) rest) (hsub : ∀ s ∈ list, s ∈ rest) :
    ∀ s ∈ list, sep ∉ s := by
  intro s hs hmem
  have hlonger : ∀ n, ∃ t ∈ list, sep ∈ t ∧ n ≤ t.length := fun n => by
    induction n with
    | zero => exact ⟨s, hs, hmem, Nat.zero_le _⟩
    | succ n ih =>
      obtain ⟨t, ht, hsept, hn⟩ := ih
      obtain ⟨u, hu, hwithin⟩ := exists_infix_of_escape hsep hlast (List.ne_nil_of_mem ht)
        (hagain.infix_of_mem hsep (hsub t ht))
      have hlength := hwithin.length_le
      rw [length_escapeSeparators] at hlength
      have hcount : 0 < t.count sep := List.count_pos_iff.mpr hsept
      refine ⟨u, hu, hwithin.subset ?_, by omega⟩
      rw [← List.count_pos_iff, count_escapeSeparators hsep]
      exact hcount
  obtain ⟨t, ht, -, hn⟩ := hlonger (mass list)
  exact absurd (length_lt_mass ht) (Nat.not_lt_of_le hn)

/-! ## What is given back -/

/-- The sub-values of a field. -/
def subValues (sep : Char) (field : CString) : List CString :=
  (splitStringAsRList field sep).toOption.getD []

/-- The separators that join the items are seen as separators. -/
def Joins (sep : Char) : List CString → Prop
  | [] | [_] => True
  | s :: t :: list =>
    s.getLast? ≠ some '\\' ∧ Stops sep (sep :: [sep].intercalate (t :: list)) ∧
      Joins sep (t :: list)

/-- The items, one after the other taken apart again. -/
def retaken (sep : Char) : List CString → List CString
  | [] => []
  | [s] => subValues sep s
  | s :: t :: list => subValues sep (s ++ [sep]) ++ retaken sep (t :: list)

theorem subValues_of_eq_ok (h : splitStringAsRList.loop sep s = .ok items) :
    subValues sep s = items := by
  rw [subValues, splitStringAsRList, h]
  rfl

theorem stops_of_ne (hsep : sep ≠ '\\') : Stops sep (sep :: t) :=
  .inr ⟨t, rfl, fun h => absurd h hsep⟩

theorem joins_iff (hsep : sep ≠ '\\') :
    Joins sep list ↔ ∀ s ∈ list.dropLast, s.getLast? ≠ some '\\' := by
  induction list with
  | nil => exact iff_of_true trivial fun s hs => by cases hs
  | cons s list ih =>
    cases list with
    | nil => exact iff_of_true trivial fun s hs => by cases hs
    | cons t list =>
      rw [Joins, and_iff_right (stops_of_ne hsep), ih, List.dropLast_cons_cons,
        List.forall_mem_cons]

/-- What is copied does not depend on what stands behind the separator. -/
theorem subStrnCopyChr_append (hu : u.getLast? ≠ some '\\') (hstop : Stops sep (sep :: t)) :
    subStrnCopyChr len (u ++ sep :: t) sep = subStrnCopyChr len (u ++ [sep]) sep := by
  induction len generalizing u with
  | zero => rfl
  | succ len ih =>
    cases u with
    | nil =>
      have hend : Stops sep [sep] := .inr ⟨[], rfl, fun _ h => by cases h⟩
      rw [List.nil_append, List.nil_append, subStrnCopyChr_stop hstop, subStrnCopyChr_stop hend]
    | cons c u =>
      cases u with
      | nil =>
        have hc : ∀ w : CString, ¬ (c = '\\' ∧ w.head? = some sep) := fun w h =>
          hu (congrArg some h.1)
        rw [List.singleton_append, List.singleton_append, subStrnCopyChr, subStrnCopyChr,
          if_neg (hc _), if_neg (hc _)]
        have hnil := @ih [] (fun h => by cases h)
        rw [List.nil_append, List.nil_append] at hnil
        rw [hnil]
      | cons d u =>
        have htail := @ih (d :: u) (getLast?_ne_of_suffix ⟨[c], rfl⟩ hu)
        rw [List.cons_append, List.cons_append, List.cons_append, List.cons_append, subStrnCopyChr,
          subStrnCopyChr, List.head?_cons, List.head?_cons, List.tail_cons, List.tail_cons]
        rw [List.cons_append, List.cons_append] at htail
        rw [htail, ih (getLast?_ne_of_suffix ⟨[c, d], rfl⟩ hu)]

theorem splitLoop_append (hu : u.getLast? ≠ some '\\') (hstop : Stops sep (sep :: t))
    (hshort : u.length < cfMaxVarSize) (h : splitStringAsRList.loop sep t = .ok items) :
    splitStringAsRList.loop sep (u ++ sep :: t) = .ok (subValues sep (u ++ [sep]) ++ items) := by
  have hend : Stops sep [sep] := .inr ⟨[], rfl, fun _ h => by cases h⟩
  suffices ∃ front, splitStringAsRList.loop sep (u ++ [sep]) = .ok front ∧
      splitStringAsRList.loop sep (u ++ sep :: t) = .ok (front ++ items) by
    obtain ⟨front, hfront, heq⟩ := this
    rw [heq, subValues_of_eq_ok hfront]
  induction hn : u.length using Nat.strong_induction_on generalizing u with
  | _ n ih =>
    have hle := @length_subStrnCopyChr_le sep [] u cfMaxVarSize hu hend
    have hcopy := @subStrnCopyChr_append sep t u cfMaxVarSize hu hstop
    generalize hx : subStrnCopyChr cfMaxVarSize (u ++ [sep]) sep = x at hle hcopy
    have hfull : x.length ≠ cfMaxVarSize := (hle.trans_lt hshort).ne
    have hne : u ++ [sep] ≠ [] := by simp
    have hne' : u ++ sep :: t ≠ [] := by simp
    simp only [splitLoop_eq_ok_iff hne, splitLoop_eq_ok_iff hne', hcopy, hx]
    rcases Nat.eq_or_lt_of_le hle with heq | hlt
    · have hdrop : (u ++ sep :: t).drop (x.length + 1) = t := by
        rw [heq, ← List.drop_drop, List.drop_left]
        rfl
      have hdrop' : (u ++ [sep]).drop (x.length + 1) = [] := by
        rw [heq, ← List.drop_drop, List.drop_left]
        rfl
      rw [hdrop, hdrop', h]
      exact ⟨[x], ⟨hfull, [], splitLoop_nil, rfl⟩, hfull, items, rfl, rfl⟩
    · have hdrop : (u ++ sep :: t).drop (x.length + 1) = u.drop (x.length + 1) ++ sep :: t :=
        List.drop_append_of_le_length hlt
      have hdrop' : (u ++ [sep]).drop (x.length + 1) = u.drop (x.length + 1) ++ [sep] :=
        List.drop_append_of_le_length hlt
      have hlength : (u.drop (x.length + 1)).length < n := by
        rw [List.length_drop]
        omega
      obtain ⟨front, hfront, heq⟩ := ih _ hlength
        (getLast?_ne_of_suffix (List.drop_suffix _ _) hu) (hlength.trans (hn ▸ hshort)) rfl
      rw [hdrop, hdrop', hfront, heq]
      exact ⟨x :: front, ⟨hfull, front, rfl, rfl⟩, hfull, front ++ items, rfl, rfl⟩

/-- Joined items that are short are taken apart one by one. -/
theorem splitLoop_intercalate (h : Joins sep list) (hshort : ∀ s ∈ list, s.length < cfMaxVarSize) :
    splitStringAsRList.loop sep ([sep].intercalate list) = .ok (retaken sep list) := by
  induction list with
  | nil => exact splitLoop_nil
  | cons s list ih =>
    have hs := hshort s List.mem_cons_self
    cases list with
    | nil =>
      obtain ⟨items, hitems⟩ := @exists_splitLoop_of_short sep s hs
      rw [List.intercalate_singleton, hitems, retaken, subValues_of_eq_ok hitems]
    | cons t list =>
      rw [intercalate_cons (List.cons_ne_nil _ _)]
      exact splitLoop_append h.1 h.2.1 hs
        (ih h.2.2 fun s hs => hshort s (List.mem_cons_of_mem _ hs))

/-! ## Items without separators -/

theorem subStrnCopyChr_of_not_mem (hlength : s.length ≤ len) (hs : sep ∉ s) (hstop : Stops sep t)
    (hlast : t = [] ∨ s.getLast? ≠ some '\\') : subStrnCopyChr len (s ++ t) sep = s := by
  induction s generalizing len with
  | nil => exact subStrnCopyChr_stop hstop
  | cons c s ih =>
    obtain ⟨hc, hmem⟩ := not_or.mp (mt List.mem_cons.mpr hs)
    obtain ⟨len, rfl⟩ := Nat.exists_eq_add_of_lt (Nat.lt_of_lt_of_le (Nat.succ_pos _) hlength)
    rw [Nat.zero_add] at hlength ⊢
    have hrest := ih (Nat.le_of_succ_le_succ hlength) hmem
      (hlast.imp_right (getLast?_ne_of_suffix ⟨[c], rfl⟩))
    have hnot : ¬ (c = '\\' ∧ (s ++ t).head? = some sep) := by
      rintro ⟨rfl, hhead⟩
      cases s with
      | nil =>
        rcases hlast with rfl | hlast
        · cases hhead
        · exact hlast rfl
      | cons d s => exact hmem (Option.some.inj hhead ▸ List.mem_cons_self)
    rw [List.cons_append, subStrnCopyChr, if_neg hnot, if_neg (Ne.symm hc), hrest]

theorem subValues_of_not_mem (hshort : s.length < cfMaxVarSize) (hs : sep ∉ s) (hne : s ≠ []) :
    subValues sep s = [s] := by
  have hcopy := subStrnCopyChr_of_not_mem (t := []) hshort.le hs (.inl rfl) (.inl rfl)
  rw [List.append_nil] at hcopy
  apply subValues_of_eq_ok
  rw [splitLoop_eq_ok_iff hne, hcopy]
  refine ⟨hshort.ne, [], ?_, rfl⟩
  rw [List.drop_eq_nil_of_le (Nat.le_succ _), splitLoop_nil]

theorem subValues_separator (hshort : s.length < cfMaxVarSize) (hs : sep ∉ s)
    (hlast : s.getLast? ≠ some '\\') : subValues sep (s ++ [sep]) = [s] := by
  have hend : Stops sep [sep] := .inr ⟨[], rfl, fun _ h => by cases h⟩
  have hcopy := subStrnCopyChr_of_not_mem hshort.le hs hend (.inr hlast)
  apply subValues_of_eq_ok
  rw [splitLoop_eq_ok_iff (by simp), hcopy]
  refine ⟨hshort.ne, [], ?_, rfl⟩
  rw [← List.drop_drop, List.drop_left]
  exact splitLoop_nil

theorem subValues_nil : subValues sep [] = [] := subValues_of_eq_ok splitLoop_nil

/-- They are given back, except for an empty one at the end. -/
theorem retaken_eq (h : Joins sep list) (hshort : ∀ s ∈ list, s.length < cfMaxVarSize)
    (hs : ∀ s ∈ list, sep ∉ s) :
    retaken sep list = if list.getLast? = some [] then list.dropLast else list := by
  induction list with
  | nil => rfl
  | cons s list ih =>
    have hshort' := hshort s List.mem_cons_self
    have hs' := hs s List.mem_cons_self
    cases list with
    | nil =>
      rw [retaken]
      by_cases hnil : s = []
      · rw [hnil, subValues_nil]
        rfl
      · rw [subValues_of_not_mem hshort' hs' hnil, if_neg]
        exact fun h => hnil (Option.some.inj h)
    | cons t list =>
      rw [retaken, subValues_separator hshort' hs' h.1,
        ih h.2.2 (fun s hs => hshort s (List.mem_cons_of_mem _ hs))
          fun t ht => hs t (List.mem_cons_of_mem _ ht), List.getLast?_cons_cons,
          List.dropLast_cons_cons]
      split_ifs <;> rfl

/-- An item without separators is not escaped in the text. -/
theorem eq_append_of_subStrnCopyChr (h : (subStrnCopyChr len t sep).length < len)
    (hs : sep ∉ subStrnCopyChr len t sep) :
    ∃ rest, t = subStrnCopyChr len t sep ++ rest ∧ (rest = [] ∨ ∃ u, rest = sep :: u) := by
  induction len generalizing t with
  | zero => exact absurd h (Nat.not_lt_zero _)
  | succ len ih =>
    cases t with
    | nil => exact ⟨[], rfl, .inl rfl⟩
    | cons c t =>
      rw [subStrnCopyChr] at h hs ⊢
      split_ifs at h hs ⊢ with hescaped hc
      · exact absurd List.mem_cons_self hs
      · exact ⟨c :: t, rfl, .inr ⟨t, by rw [hc]⟩⟩
      · obtain ⟨rest, heq, hrest⟩ :=
          ih (Nat.lt_of_succ_lt_succ h) fun h => hs (List.mem_cons_of_mem _ h)
        exact ⟨rest, congrArg (c :: ·) heq, hrest⟩

/-- Only two texts have a single item without separators. -/
theorem eq_of_splitLoop_singleton (h : splitStringAsRList.loop sep t = .ok [s]) (hs : sep ∉ s) :
    t = s ∨ t = s ++ [sep] := by
  have ht : t ≠ [] := by
    rintro rfl
    rw [splitLoop_nil] at h
    cases h
  obtain ⟨hfull, rest, hrest, heq⟩ := (splitLoop_eq_ok_iff ht).mp h
  obtain ⟨rfl, rfl⟩ := List.cons_eq_cons.mp heq
  obtain ⟨u, hu, hstop⟩ := eq_append_of_subStrnCopyChr
    (Nat.lt_of_le_of_ne length_subStrnCopyChr_le_len hfull) hs
  have hlength := splitLoop_drop_eq_nil hrest
  generalize subStrnCopyChr cfMaxVarSize t sep = x at *
  rcases hstop with rfl | ⟨w, rfl⟩
  · exact .inl (by rw [hu, List.append_nil])
  · right
    rw [hu, List.length_append, List.length_cons] at hlength
    obtain rfl : w = [] := List.length_eq_zero_iff.mp (by omega)
    exact hu

end Cfengine
