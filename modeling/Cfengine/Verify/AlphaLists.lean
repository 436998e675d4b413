import Cfengine.Verify.ClassHeaps

/-!
# Looking up classes by expressions

`MatchInAlphaList` searches only the list of the first character of an expression, if that is a
letter, a digit or `_`. It finds a class then if one with this first character matches
(`matchInAlphaList_iff`).
-/

namespace Cfengine

variable {fullTextMatch : CString → CString → Bool} {heaps : ClassHeaps} {al : AlphaList} {a : Nat}
  {c : Char} {names : List CString} {name r s : CString}

/-! ## The lists of characters -/

theorem AlphaList.mem_prepend :
    name ∈ al.prepend s c ↔ (name = s ∧ s.headD '\x00' = c) ∨ name ∈ al c := by
  rw [AlphaList.prepend]
  by_cases hc : s.headD '\x00' = c
  · subst hc
    rw [Function.update_self, List.mem_cons, and_iff_left rfl]
  · rw [Function.update_of_ne (Ne.symm hc), or_iff_right fun h => hc h.2]

/-- These names are prepended, one after the other. -/
def prependNames (a : Nat) (names : List CString) (heaps : ClassHeaps) : ClassHeaps :=
  names.foldl (fun heaps name => prependAlphaList heaps a name) heaps

theorem mem_prependNames :
    name ∈ (prependNames a names heaps).items a c ↔
      (name ∈ names ∧ name.headD '\x00' = c) ∨ name ∈ heaps.items a c := by
  induction names generalizing heaps with
  | nil => exact (or_iff_right fun h => List.not_mem_nil h.1).symm
  | cons first names ih =>
    have hfirst : name ∈ (prependAlphaList heaps a first).items a c ↔
        (name = first ∧ first.headD '\x00' = c) ∨ name ∈ heaps.items a c := by
      rw [prependAlphaList_eq, setItems_items, Function.update_self, AlphaList.mem_prepend]
    rw [prependNames, List.foldl_cons, ← prependNames, ih, hfirst, List.mem_cons]
    constructor
    · rintro (⟨hmem, hhead⟩ | ⟨rfl, hhead⟩ | hmem)
      · exact .inl ⟨.inr hmem, hhead⟩
      · exact .inl ⟨.inl rfl, hhead⟩
      · exact .inr hmem
    · rintro (⟨rfl | hmem, hhead⟩ | hmem)
      · exact .inr (.inl ⟨rfl, hhead⟩)
      · exact .inl ⟨hmem, hhead⟩
      · exact .inr (.inr hmem)

/-! ## The search -/

/-- A string with a first character, all of them of ASCII. -/
def AsciiName (name : CString) : Prop := name ≠ [] ∧ ∀ c ∈ name, c.toNat < 128

instance : Decidable (AsciiName name) := inferInstanceAs (Decidable (_ ∧ _))

/-- The expression starts with a letter, a digit or `_`. -/
def StartsPlain (r : CString) : Prop := (r.headD '\x00').isAlphanum = true ∨ r.headD '\x00' = '_'

instance : Decidable (StartsPlain r) := inferInstanceAs (Decidable (_ ∨ _))

theorem AsciiName.headD_lt (h : AsciiName name) : (name.headD '\x00').toNat < cfAlphabetSize := by
  obtain ⟨c, name, rfl⟩ := List.exists_cons_of_ne_nil h.1
  exact lt_trans (h.2 c List.mem_cons_self) (by decide)

/-- Which names are searched. -/
theorem matchInAlphaList_prependNames (hnames : ∀ name ∈ names, AsciiName name) :
    matchInAlphaList fullTextMatch
      ((prependNames a names (heaps.setItems a emptyAlphaList)).items a) r = true ↔
      ∃ name ∈ names, (StartsPlain r → name.headD '\x00' = r.headD '\x00') ∧
        fullTextMatch r name = true := by
  have hmem : ∀ name c, name ∈ (prependNames a names (heaps.setItems a emptyAlphaList)).items a c ↔
      name ∈ names ∧ name.headD '\x00' = c := by
    intro name c
    rw [mem_prependNames, setItems_items, Function.update_self]
    exact or_iff_left List.not_mem_nil
  rw [matchInAlphaList]
  change (if StartsPlain r then _ else _) = true ↔ _
  by_cases hplain : StartsPlain r
  · rw [if_pos hplain, List.any_eq_true]
    constructor
    · rintro ⟨name, hname, hmatch⟩
      exact ⟨name, ((hmem _ _).mp hname).1, fun _ => ((hmem _ _).mp hname).2, hmatch⟩
    · rintro ⟨name, hname, hhead, hmatch⟩
      exact ⟨name, (hmem _ _).mpr ⟨hname, hhead hplain⟩, hmatch⟩
  · rw [if_neg hplain, List.any_eq_true]
    constructor
    · rintro ⟨i, -, hany⟩
      obtain ⟨name, hname, hmatch⟩ := List.any_eq_true.mp hany
      exact ⟨name, ((hmem _ _).mp hname).1, fun h => absurd h hplain, hmatch⟩
    · rintro ⟨name, hname, -, hmatch⟩
      refine ⟨(name.headD '\x00').toNat, List.mem_range.mpr (hnames name hname).headD_lt,
        List.any_eq_true.mpr ⟨name, (hmem _ _).mpr ⟨hname, (Char.ofNat_toNat _).symm⟩, hmatch⟩⟩

theorem StartsPlain.ne_nil (h : StartsPlain r) : r ≠ [] := by
  rintro rfl
  exact absurd h (by decide)

theorem headD_eq_iff (hname : name ≠ []) (hr : r ≠ []) :
    name.headD '\x00' = r.headD '\x00' ↔ name.head? = r.head? := by
  obtain ⟨c, name, rfl⟩ := List.exists_cons_of_ne_nil hname
  obtain ⟨d, r, rfl⟩ := List.exists_cons_of_ne_nil hr
  exact Option.some_inj.symm

/-- The search finds a class exactly if there is one that matches, where the expression does not
start with a letter, a digit or `_`, or no class matches, or one that starts like it does. -/
theorem matchInAlphaList_iff (hnames : ∀ name ∈ names, AsciiName name) :
    (matchInAlphaList fullTextMatch
      ((prependNames a names (heaps.setItems a emptyAlphaList)).items a) r = true ↔
        ∃ name ∈ names, fullTextMatch r name = true) ↔
      (StartsPlain r → (∃ name ∈ names, fullTextMatch r name = true) →
        ∃ name ∈ names, name.head? = r.head? ∧ fullTextMatch r name = true) := by
  rw [matchInAlphaList_prependNames hnames]
  constructor
  · intro h hplain hmatch
    obtain ⟨name, hname, hhead, hmatch⟩ := h.mpr hmatch
    exact ⟨name, hname, (headD_eq_iff (hnames name hname).1 hplain.ne_nil).mp (hhead hplain),
      hmatch⟩
  · refine fun h =>
      ⟨fun ⟨name, hname, _, hmatch⟩ => ⟨name, hname, hmatch⟩, fun ⟨name, hname, hmatch⟩ => ?_⟩
    by_cases hplain : StartsPlain r
    · obtain ⟨name, hname, hhead, hmatch⟩ := h hplain ⟨name, hname, hmatch⟩
      exact ⟨name, hname, fun _ => (headD_eq_iff (hnames name hname).1 hplain.ne_nil).mpr hhead,
        hmatch⟩
    · exact ⟨name, hname, fun hplain' => absurd hplain' hplain, hmatch⟩

/-- An expression finds what matches in all lists exactly if it does not start so, or if only
classes match that start like it. -/
theorem matchInAlphaList_lists_iff :
    (∀ names : List CString, (∀ name ∈ names, AsciiName name) →
      (matchInAlphaList fullTextMatch
        ((prependNames a names (heaps.setItems a emptyAlphaList)).items a) r = true ↔
        ∃ name ∈ names, fullTextMatch r name = true)) ↔
      (StartsPlain r → ∀ name, AsciiName name → fullTextMatch r name = true →
        name.head? = r.head?) := by
  constructor
  · intro h hplain name hname hmatch
    have hnames : ∀ name' ∈ [name], AsciiName name' := List.forall_mem_singleton.mpr hname
    obtain ⟨name', hmem, hhead, -⟩ := (matchInAlphaList_prependNames hnames).mp
      ((h [name] hnames).mpr ⟨name, List.mem_singleton_self name, hmatch⟩)
    rw [List.mem_singleton.mp hmem] at hhead
    exact (headD_eq_iff hname.1 hplain.ne_nil).mp (hhead hplain)
  · intro h names hnames
    rw [matchInAlphaList_prependNames hnames]
    refine ⟨fun ⟨name, hname, _, hmatch⟩ => ⟨name, hname, hmatch⟩, fun ⟨name, hname, hmatch⟩ =>
      ⟨name, hname, fun hplain => ?_, hmatch⟩⟩
    exact (headD_eq_iff (hnames name hname).1 hplain.ne_nil).mpr
      (h hplain name (hnames name hname) hmatch)

/-! ## Alternatives -/

/-- `FullTextMatch` with an expression of alternatives of plain characters. -/
def matchAlternatives (regexp teststring : CString) : Bool :=
  regexp = teststring || (regexp.splitOn '|').any (· = teststring)

/-- The classes have no private copies, and there are none. -/
def noClasses : ClassHeaps where
  items := fun _ => emptyAlphaList
  fresh := 2
  vheap := 0
  vaddclasses := 1
  privclassheap := []
  vnegheap := []
  vdelclasses := []
  vhardheap := emptyAlphaList
  abortheap := []
  abortbundleheap := []
  abortbundle := false

theorem asciiName_singleton (hc : c.toNat < 128) : AsciiName [c] :=
  ⟨List.cons_ne_nil _ _, List.forall_mem_singleton.mpr hc⟩

/-- `a` is found with `a|b`, next to `b`. -/
theorem matchInAlphaList_first :
    matchInAlphaList matchAlternatives
        ((prependNames 0 ["b".toList, "a".toList] (noClasses.setItems 0 emptyAlphaList)).items 0)
        "a|b".toList = true ↔
      ∃ name ∈ ["b".toList, "a".toList], matchAlternatives "a|b".toList name = true :=
  (matchInAlphaList_iff (List.forall_mem_cons.mpr ⟨asciiName_singleton (by decide),
    List.forall_mem_singleton.mpr (asciiName_singleton (by decide))⟩)).mpr fun _ _ =>
      ⟨"a".toList, List.mem_cons_of_mem _ (List.mem_singleton_self _), rfl, by decide⟩

/-- `b` alone is not. -/
theorem matchInAlphaList_second :
    ¬ (matchInAlphaList matchAlternatives
        ((prependNames 0 ["b".toList] (noClasses.setItems 0 emptyAlphaList)).items 0)
        "a|b".toList = true ↔
      ∃ name ∈ ["b".toList], matchAlternatives "a|b".toList name = true) := by
  intro h
  exact absurd (h.mpr ⟨"b".toList, List.mem_singleton_self _, by decide⟩) (by decide)

end Cfengine
