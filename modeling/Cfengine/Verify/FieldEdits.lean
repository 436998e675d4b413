import Cfengine.ColumnEdits
import Cfengine.Verify.SplitString
import Cfengine.Theory.Occurrences

/-!
# Editing one field of a line

With a literal separator and blank fields allowed, `SplitRegexAsRList` gives the fields between the
occurrences of the separator, which `Rlist2String` joins to the line again. `EditColumns` joins them
with a new value in the selected field, in a buffer that the new line may not fit
(`editColumns_editedLine_iff`).
-/

namespace Cfengine
open Occurrences

variable {env : RegEx} {a : ColumnAttributes} {promiser regex s sp string line field v : CString}
  {count max : Nat} {retval : Bool} {region : List (Option CString)}

/-- The regular expression matches the literal `s` and nothing else. -/
def RegEx.MatchesLiteral (env : RegEx) (regex s : CString) : Prop :=
  ∀ t, env.blockTextMatch regex t = (find? s t).map fun i => (i, i + s.length)

/-! ## Splitting and joining -/

theorem last_eq (hshort : sp.length < cfMaxVarSize) (hlt : sp.length < string.length) :
    RegEx.splitRegexAsRList.loop.last true string sp = [sp] := by
  rw [RegEx.splitRegexAsRList.loop.last, List.take_of_length_le (Nat.le_sub_one_of_lt hshort)]
  simp [hlt.ne]

theorem splitRegexLoop_eq (hlit : env.MatchesLiteral regex s) (hs : s ≠ [])
    (hcount : count + (fields s sp).length ≤ max)
    (hshort : ∀ f ∈ fields s sp, f.length < cfMaxVarSize) (hle : sp.length ≤ string.length)
    (hlast : sp.length < string.length ∨ s <:+: sp) :
    RegEx.splitRegexAsRList.loop env regex max true string count sp = .ok (fields s sp) := by
  induction sp using fields_induction hs generalizing count with
  | none t h =>
    rw [fields_of_none h] at hcount hshort ⊢
    have hlt : t.length < string.length := hlast.resolve_right (find?_eq_none_iff.mp h)
    rw [RegEx.splitRegexAsRList.loop, if_pos (Nat.lt_of_succ_le hcount), hlit, h]
    exact congrArg Except.ok (last_eq (hshort t (List.mem_singleton_self t)) hlt)
  | some u v h hfields ih =>
    rw [hfields] at hcount hshort ⊢
    have hu : u.length < cfMaxVarSize := hshort u List.mem_cons_self
    have hpos := List.length_pos_of_ne_nil hs
    have hlength : (u ++ (s ++ v)).length = u.length + s.length + v.length := by
      rw [List.length_append, List.length_append, Nat.add_assoc]
    have hrest := @ih (count + 1)
      (by rw [List.length_cons] at hcount; omega)
      (fun f hf => hshort f (List.mem_cons_of_mem u hf)) (by omega) (.inl (by omega))
    rw [RegEx.splitRegexAsRList.loop, if_pos (by rw [List.length_cons] at hcount; omega), hlit, h]
    dsimp only [Option.map_some]
    rw [if_neg (by omega), if_neg (by omega), if_neg (by omega), if_neg hu.ne, if_pos (by simp),
      List.take_left, ← List.drop_drop, List.drop_left, List.drop_left, hrest]
    rfl

theorem length_fields_le (hs : s ≠ []) : (fields s line).length ≤ line.length + 1 := by
  induction line using fields_induction hs with
  | none t h =>
    rw [fields_of_none h]
    exact Nat.le_add_left 1 _
  | some u v h hfields ih =>
    have := List.length_pos_of_ne_nil hs
    rw [hfields, List.length_cons, List.length_append, List.length_append]
    omega

/-- A line whose fields can be edited. -/
structure Splittable (s line : CString) : Prop where
  separator : s <:+: line
  short : line.length < cfBufSize
  fields_short : ∀ f ∈ fields s line, f.length < cfMaxVarSize

theorem Splittable.splitRegexAsRList_eq (h : Splittable s line) (hlit : env.MatchesLiteral regex s)
    (hs : s ≠ []) : env.splitRegexAsRList regex cfInfinity true line = .ok (fields s line) := by
  refine splitRegexLoop_eq hlit hs ?_ h.fields_short le_rfl (.inr h.separator)
  have := @length_fields_le s line hs
  have := h.short
  rw [cfBufSize] at this
  rw [cfInfinity]
  omega

theorem Splittable.rlist2String_eq (h : Splittable s line) (hs : s ≠ []) :
    rlist2String (fields s line) s = .ok line := by
  rw [rlist2String, intercalate_fields hs, if_pos h.short]

/-! ## The new value of a field -/

/-- The new value of a field, if it gets one. -/
def ColumnAttributes.newField (a : ColumnAttributes) (field : CString) : Option CString :=
  if a.warn then none
  else
    match a.valueSeparator with
    | none => some (if a.columnOperation = some .delete then [] else a.columnValue)
    | some sep =>
      if field = a.columnValue then none
      else
        match splitStringAsRList field sep with
        | .error _ => none
        | .ok items =>
          let (items, retval) := a.doEditColumn items
          if retval then some ([sep].intercalate items) else none

theorem editField_of_none (hfield : field.length < cfMaxVarSize) (h : a.newField field = none) :
    a.editField field = .ok (field, false) := by
  rw [ColumnAttributes.newField] at h
  rw [ColumnAttributes.editField]
  cases hsep : a.valueSeparator with
  | none =>
    rw [hsep] at h
    split_ifs at h with hwarn
    exact if_pos hwarn
  | some sep =>
    obtain ⟨items, hitems⟩ := @exists_splitLoop_of_short sep field hfield
    simp only [hsep, splitStringAsRList, hitems] at h ⊢
    by_cases hvalue : field = a.columnValue
    · exact if_pos hvalue
    · rw [if_neg hvalue]
      rw [if_neg hvalue] at h
      have hkept : ((a.doEditColumn items).2 && !a.warn) = false := by
        cases hwarn : a.warn with
        | true => exact Bool.and_false _
        | false =>
          rw [hwarn, if_neg Bool.false_ne_true, ite_eq_right_iff] at h
          rw [Bool.not_false, Bool.and_true, Bool.eq_false_iff]
          exact fun hchanged => Option.some_ne_none _ (h hchanged)
      exact if_neg (by rw [hkept]; exact Bool.false_ne_true)

/-- A new value of sub-values has to fit the buffer they are joined in. -/
theorem editField_of_some (hfield : field.length < cfMaxVarSize) (h : a.newField field = some v) :
    a.editField field =
      if a.valueSeparator.isSome ∧ cfBufSize ≤ v.length then .error .bufferOverflow
      else .ok (v, true) := by
  rw [ColumnAttributes.newField] at h
  rw [ColumnAttributes.editField]
  have hwarn : ¬ a.warn = true := by
    intro hwarn
    rw [if_pos hwarn] at h
    cases h
  rw [if_neg hwarn] at h
  cases hsep : a.valueSeparator with
  | none =>
    rw [hsep] at h
    cases h
    dsimp only
    rw [if_neg hwarn]
    by_cases hdelete : a.columnOperation = some .delete
    · rw [if_pos hdelete, if_pos hdelete]
      rfl
    · rw [if_neg hdelete, if_neg hdelete]
      rfl
  | some sep =>
    obtain ⟨items, hitems⟩ := @exists_splitLoop_of_short sep field hfield
    simp only [hsep, splitStringAsRList, hitems] at h ⊢
    split_ifs at h with hvalue hchanged
    cases h
    have hjoined : ((a.doEditColumn items).2 && !a.warn) = true := by
      rw [hchanged, Bool.eq_false_of_not_eq_true hwarn]
      rfl
    rw [if_neg hvalue]
    change (if _ then _ else _) = _
    rw [if_pos hjoined, rlist2String]
    by_cases hfits : ([sep].intercalate (a.doEditColumn items).1).length < cfBufSize
    · rw [if_pos hfits, if_neg fun h => Nat.not_le_of_lt hfits h.2]
      rfl
    · rw [if_neg hfits, if_pos ⟨rfl, Nat.le_of_not_lt hfits⟩]
      rfl

/-! ## The edited line -/

/-- The line with a new value in the selected field, if it gets one. `EditColumns` does not split at
a separator that is longer than half of its buffer. -/
def ColumnAttributes.editedLine (a : ColumnAttributes) (s line : CString) : Option CString :=
  if cfMaxVarSize / 2 < s.length ∨
      ((fields s line).length < a.selectColumn && !a.extendColumns) = true then none
  else
    (a.newField ((a.extended (fields s line)).getD (a.selectColumn - 1) [])).map fun v =>
      s.intercalate ((a.extended (fields s line)).set (a.selectColumn - 1) v)

theorem selected_short {columns : List CString} (h : ∀ f ∈ columns, f.length < cfMaxVarSize) :
    ((a.extended columns).getD (a.selectColumn - 1) []).length < cfMaxVarSize := by
  rw [List.getD_eq_getElem?_getD]
  cases hget : (a.extended columns)[a.selectColumn - 1]? with
  | none => exact Nat.zero_lt_succ _
  | some f =>
    rcases List.mem_append.mp (List.mem_of_getElem? hget) with hf | hf
    · exact h f hf
    · rw [List.eq_of_mem_replicate hf]
      exact Nat.zero_lt_succ _

theorem lt_length_extended (a : ColumnAttributes) (columns : List CString) :
    a.selectColumn - 1 < (a.extended columns).length := by
  have := a.selectColumn_pos
  rw [ColumnAttributes.extended, List.length_append, List.length_replicate]
  omega

theorem length_le_intercalate {list : List CString} (h : v ∈ list) :
    v.length ≤ (s.intercalate list).length := by
  induction list with
  | nil => cases h
  | cons f list ih =>
    cases list with
    | nil =>
      rw [List.mem_singleton.mp h, List.intercalate_singleton]
    | cons g list =>
      rw [List.intercalate_cons_cons, List.length_append, List.length_append]
      rcases List.mem_cons.mp h with rfl | h
      · omega
      · have := ih h
        omega

theorem Splittable.editLineByColumn_of_none (h : Splittable s line)
    (hsmall : s.length ≤ cfMaxVarSize / 2) (hedit : a.editedLine s line = none) :
    ∃ columns, a.editLineByColumn (fields s line) = .ok (columns, false) := by
  rw [ColumnAttributes.editLineByColumn]
  rw [ColumnAttributes.editedLine] at hedit
  by_cases hfew : ((fields s line).length < a.selectColumn && !a.extendColumns) = true
  · exact ⟨_, if_pos hfew⟩
  · rw [if_neg (not_or.mpr ⟨Nat.not_lt_of_le hsmall, hfew⟩), Option.map_eq_none_iff] at hedit
    rw [if_neg hfew]
    dsimp only
    rw [editField_of_none (selected_short h.fields_short) hedit]
    exact ⟨_, rfl⟩

theorem Splittable.editLineByColumn_of_some (h : Splittable s line)
    (hedit : a.editedLine s line = some v) :
    a.editLineByColumn (fields s line) = .error .bufferOverflow ∧ cfBufSize ≤ v.length ∨
      ∃ columns, a.editLineByColumn (fields s line) = .ok (columns, true) ∧
        s.intercalate columns = v := by
  rw [ColumnAttributes.editLineByColumn]
  rw [ColumnAttributes.editedLine] at hedit
  split_ifs at hedit with hnot
  obtain ⟨value, hvalue, rfl⟩ := Option.map_eq_some_iff.mp hedit
  rw [if_neg (not_or.mp hnot).2]
  dsimp only
  rw [editField_of_some (selected_short h.fields_short) hvalue]
  by_cases hlong : a.valueSeparator.isSome ∧ cfBufSize ≤ value.length
  · rw [if_pos hlong]
    exact .inl ⟨rfl, hlong.2.trans
      (length_le_intercalate (List.mem_set (lt_length_extended a _) value))⟩
  · rw [if_neg hlong]
    exact .inr ⟨_, rfl, rfl⟩

/-! ## The lines of a region -/

section
variable (hlit : env.MatchesLiteral a.columnSeparator s) (hs : s ≠ []) (hblanks : a.blanksOk = true)
  (hmatch : env.fullTextMatch promiser line = true)
include hlit hmatch

/-- A line with a separator, behind which the editor does not stop. -/
theorem loop_of_huge (hline : s <:+: line) (hhuge : cfMaxVarSize / 2 < s.length) :
    editColumns.loop env a promiser retval (some line :: region) =
      .ok ⟨some line :: region, false, 0⟩ := by
  obtain ⟨i, hi⟩ := Option.ne_none_iff_exists'.mp (mt find?_eq_none_iff.mp (not_not.mpr hline))
  rw [editColumns.loop, if_pos hmatch, hlit, hi]
  dsimp only [Option.map_some]
  rw [Nat.add_sub_cancel_left, if_pos hhuge]

include hs hblanks

theorem loop_of_small (hline : Splittable s line) (hsmall : s.length ≤ cfMaxVarSize / 2) :
    editColumns.loop env a promiser retval (some line :: region) = do
      let (columns, retval) ← a.editLineByColumn (fields s line)
      if retval then
        let name ← rlist2String columns s
        return (← editColumns.loop env a promiser retval region).cons (some name) 1
      else return (← editColumns.loop env a promiser retval region).cons (some line) 0 := by
  obtain ⟨i, hi⟩ :=
    Option.ne_none_iff_exists'.mp (mt find?_eq_none_iff.mp (not_not.mpr hline.separator))
  obtain ⟨u, v, heq, hu⟩ := exists_of_find? hi
  have hseparator : (line.drop i).take s.length = s := by
    rw [heq, ← hu, List.drop_left, List.take_left]
  rw [editColumns.loop, if_pos hmatch, hlit, hi]
  dsimp only [Option.map_some]
  rw [Nat.add_sub_cancel_left, if_neg (Nat.not_lt_of_le hsmall), hseparator, hblanks,
    hline.splitRegexAsRList_eq hlit hs]
  rfl

theorem loop_of_none (hline : Splittable s line) (hsmall : s.length ≤ cfMaxVarSize / 2)
    (hedit : a.editedLine s line = none) :
    editColumns.loop env a promiser retval (some line :: region) = do
      return (← editColumns.loop env a promiser false region).cons (some line) 0 := by
  obtain ⟨columns, hcolumns⟩ := hline.editLineByColumn_of_none hsmall hedit
  rw [loop_of_small hlit hs hblanks hmatch hline hsmall, hcolumns]
  rfl

theorem loop_of_some (hline : Splittable s line) (hsmall : s.length ≤ cfMaxVarSize / 2)
    (hedit : a.editedLine s line = some v) :
    editColumns.loop env a promiser retval (some line :: region) =
      if v.length < cfBufSize then do
        return (← editColumns.loop env a promiser true region).cons (some v) 1
      else .error .bufferOverflow := by
  rw [loop_of_small hlit hs hblanks hmatch hline hsmall]
  rcases hline.editLineByColumn_of_some hedit with ⟨herror, hlong⟩ | ⟨columns, hok, rfl⟩
  · rw [herror, if_neg (Nat.not_lt_of_le hlong)]
    rfl
  · rw [hok]
    change (rlist2String columns s >>= fun name => _) = _
    rw [rlist2String]
    by_cases hfits : (s.intercalate columns).length < cfBufSize
    · rw [if_pos hfits, if_pos hfits]
      rfl
    · rw [if_neg hfits, if_neg hfits]
      rfl

end

/-- The lines that the promise is about. -/
def RegEx.Selects (env : RegEx) (promiser line : CString) : Bool :=
  env.validateRegEx promiser && env.fullTextMatch promiser line

/-- The region with every selected line edited. -/
def editedRegion (env : RegEx) (a : ColumnAttributes) (promiser s : CString)
    (region : List (Option CString)) : List (Option CString) :=
  region.map (Option.map fun line =>
    if env.Selects promiser line then (a.editedLine s line).getD line else line)

/-- Splitting and joining gives back the line, and an edit only touches the selected field. -/
structure EditsSelectedField (env : RegEx) (a : ColumnAttributes) (promiser s : CString)
    (region : List (Option CString)) : Prop where
  joined : ∀ line, Splittable s line →
    ∃ columns, env.splitRegexAsRList a.columnSeparator cfInfinity a.blanksOk line = .ok columns ∧
      columns = fields s line ∧ rlist2String columns s = .ok line
  edited : ∃ r, editColumns env a promiser region = .ok r ∧
    r.region = editedRegion env a promiser s region

/-- The edited lines fit the buffer. -/
def EditsFit (env : RegEx) (a : ColumnAttributes) (promiser s : CString)
    (region : List (Option CString)) : Prop :=
  ∀ line, some line ∈ region → env.Selects promiser line = true →
    ∀ v ∈ a.editedLine s line, v.length < cfBufSize

theorem editedLine_of_huge (hhuge : cfMaxVarSize / 2 < s.length) : a.editedLine s line = none :=
  if_pos (.inl hhuge)

theorem editedRegion_of_huge (hhuge : cfMaxVarSize / 2 < s.length) :
    editedRegion env a promiser s region = region := by
  rw [editedRegion]
  refine List.map_id'' (fun name => ?_) region
  cases name with
  | none => rfl
  | some line => simp [editedLine_of_huge hhuge]

theorem exists_bind_cons {x : Except Fault LineEdits} {name : Option CString} {edits : Nat}
    {lines : List (Option CString)} :
    (∃ r, (do return (← x).cons name edits) = Except.ok r ∧ r.region = name :: lines) ↔
      ∃ r, x = .ok r ∧ r.region = lines := by
  cases x with
  | error => exact iff_of_false (fun ⟨_, h, _⟩ => by cases h) fun ⟨_, h, _⟩ => by cases h
  | ok r =>
    constructor
    · rintro ⟨_, h, hregion⟩
      cases h
      exact ⟨r, rfl, (List.cons_eq_cons.mp hregion).2⟩
    · rintro ⟨_, h, hregion⟩
      cases h
      exact ⟨_, rfl, congrArg (name :: ·) hregion⟩

theorem editsFit_cons {name : Option CString} :
    EditsFit env a promiser s (name :: region) ↔
      (∀ line, name = some line → env.Selects promiser line = true →
        ∀ v ∈ a.editedLine s line, v.length < cfBufSize) ∧ EditsFit env a promiser s region := by
  simp only [EditsFit, List.mem_cons]
  constructor
  · exact fun h =>
      ⟨fun line hname => h line (.inl hname.symm), fun line hline => h line (.inr hline)⟩
  · rintro ⟨hname, hregion⟩ line (hline | hline)
    · exact hname line hline.symm
    · exact hregion line hline

theorem editColumnsLoop_iff (hlit : env.MatchesLiteral a.columnSeparator s) (hs : s ≠ [])
    (hblanks : a.blanksOk = true) (hvalid : env.validateRegEx promiser = true)
    (hlines : ∀ line, some line ∈ region → env.Selects promiser line = true → Splittable s line) :
    (∃ r, editColumns.loop env a promiser retval region = .ok r ∧
        r.region = editedRegion env a promiser s region) ↔ EditsFit env a promiser s region := by
  induction region generalizing retval with
  | nil => exact iff_of_true ⟨_, rfl, rfl⟩ fun line hline => by cases hline
  | cons name region ih =>
    have ih' :=
      fun retval => @ih retval fun line hline => hlines line (List.mem_cons_of_mem name hline)
    rw [editsFit_cons]
    cases name with
    | none =>
      rw [editColumns.loop, and_iff_right (fun line h => by cases h), ← ih' retval]
      exact exists_bind_cons
    | some line =>
      cases hmatch : env.fullTextMatch promiser line with
      | false =>
        have hselects : env.Selects promiser line = false := by
          rw [RegEx.Selects, hmatch, Bool.and_false]
        have hregion : editedRegion env a promiser s (some line :: region) =
            some line :: editedRegion env a promiser s region := by
          simp [editedRegion, hselects]
        rw [editColumns.loop, if_neg (by simp [hmatch]), hregion, exists_bind_cons, ih' retval]
        refine (and_iff_right fun line' hline' hselects' => ?_).symm
        cases hline'
        rw [hselects] at hselects'
        cases hselects'
      | true =>
        have hselects : env.Selects promiser line = true := by
          rw [RegEx.Selects, hvalid, hmatch, Bool.and_true]
        have hline := hlines line List.mem_cons_self hselects
        have hregion : editedRegion env a promiser s (some line :: region) =
            some ((a.editedLine s line).getD line) :: editedRegion env a promiser s region := by
          simp [editedRegion, hselects]
        rcases Nat.lt_or_ge (cfMaxVarSize / 2) s.length with hhuge | hsmall
        · rw [loop_of_huge hlit hmatch hline.separator hhuge]
          refine iff_of_true ⟨_, rfl, (editedRegion_of_huge hhuge).symm⟩ ?_
          rw [← editsFit_cons]
          intro line' _ _ v hv
          rw [editedLine_of_huge hhuge] at hv
          cases hv
        · rw [hregion]
          cases hedit : a.editedLine s line with
          | none =>
            rw [loop_of_none hlit hs hblanks hmatch hline hsmall hedit, Option.getD_none,
              exists_bind_cons, ih' false]
            refine (and_iff_right fun line' hline' _ v hv => ?_).symm
            cases hline'
            rw [hedit] at hv
            cases hv
          | some v =>
            rw [loop_of_some hlit hs hblanks hmatch hline hsmall hedit, Option.getD_some]
            by_cases hfits : v.length < cfBufSize
            · rw [if_pos hfits, exists_bind_cons, ih' true]
              refine (and_iff_right fun line' hline' _ v' hv' => ?_).symm
              cases hline'
              rw [hedit] at hv'
              cases hv'
              exact hfits
            · rw [if_neg hfits]
              refine iff_of_false (fun ⟨_, h, _⟩ => by cases h) fun h => hfits ?_
              exact h.1 line rfl hselects v hedit

/-- Only the selected field is touched, exactly if every edited line fits the buffer in which its
fields are joined. -/
theorem editColumns_editedLine_iff (hlit : env.MatchesLiteral a.columnSeparator s) (hs : s ≠ [])
    (hblanks : a.blanksOk = true)
    (hlines : ∀ line, some line ∈ region → env.Selects promiser line = true → Splittable s line) :
    EditsSelectedField env a promiser s region ↔ EditsFit env a promiser s region := by
  have hjoined : ∀ line, Splittable s line →
      ∃ columns, env.splitRegexAsRList a.columnSeparator cfInfinity a.blanksOk line = .ok columns ∧
        columns = fields s line ∧ rlist2String columns s = .ok line := fun line hline => by
    rw [hblanks]
    exact ⟨_, hline.splitRegexAsRList_eq hlit hs, rfl, hline.rlist2String_eq hs⟩
  cases hvalid : env.validateRegEx promiser with
  | false =>
    have hselects : ∀ line, env.Selects promiser line = false := fun line => by
      rw [RegEx.Selects, hvalid, Bool.false_and]
    refine iff_of_true ⟨hjoined, ⟨region, false, 0⟩, ?_, ?_⟩ fun line _ h => ?_
    · rw [editColumns, if_neg (by simp [hvalid])]
    · rw [editedRegion]
      refine (List.map_id'' (fun name => ?_) region).symm
      cases name with
      | none => rfl
      | some line => simp [hselects line]
    · rw [hselects line] at h
      cases h
  | true =>
    rw [← editColumnsLoop_iff hlit hs hblanks hvalid hlines]
    constructor
    · intro h
      obtain ⟨r, hr, hregion⟩ := h.edited
      rw [editColumns, if_pos hvalid] at hr
      exact ⟨r, hr, hregion⟩
    · rintro ⟨r, hr, hregion⟩
      refine ⟨hjoined, r, ?_, hregion⟩
      rw [editColumns, if_pos hvalid, hr]

/-! ## A colon as the separator -/

/-- Regular expressions that are literals, except for `.*`. -/
def literalRegEx : RegEx where
  validateRegEx _ := true
  fullTextMatch regexp teststring := regexp = ".*".toList || regexp = teststring
  blockTextMatch regexp teststring :=
    (find? regexp teststring).map fun i => (i, i + regexp.length)

/-- The whole field `selectColumn` is set. -/
def setField (selectColumn : Nat) (columnValue : CString) (h : 0 < selectColumn) :
    ColumnAttributes where
  columnSeparator := [':']
  selectColumn := selectColumn
  valueSeparator := none
  columnValue := columnValue
  columnOperation := some .set
  extendColumns := true
  blanksOk := true
  warn := false
  selectColumn_pos := h

theorem fields_colon : fields [':'] ['a', ':', 'b'] = [['a'], ['b']] := by
  rw [fields_of_some (List.cons_ne_nil _ _) (show find? [':'] ['a', ':', 'b'] = some 1 from rfl)]
  exact congrArg (['a'] :: ·) (fields_of_none rfl)

theorem splittable_colon : Splittable [':'] ['a', ':', 'b'] where
  separator := ⟨['a'], ['b'], rfl⟩
  short := Nat.lt_of_lt_of_le (show 3 < 4 by decide) (show 4 ≤ 4096 by decide)
  fields_short f hf := by
    rw [fields_colon] at hf
    have hlength : f.length = 1 := by
      rcases List.mem_pair.mp hf with rfl | rfl <;> rfl
    rw [hlength]
    exact Nat.lt_of_lt_of_le Nat.one_lt_two (show 2 ≤ 1024 by decide)

/-- The first field is set. -/
theorem editColumns_editedLine_first :
    EditsSelectedField literalRegEx (setField 1 ['x'] Nat.one_pos) ".*".toList [':']
        [some ['a', ':', 'b']] ↔
      EditsFit literalRegEx (setField 1 ['x'] Nat.one_pos) ".*".toList [':']
        [some ['a', ':', 'b']] :=
  editColumns_editedLine_iff (fun _ => rfl) (List.cons_ne_nil _ _) rfl fun line hline _ => by
    obtain rfl := Option.some.inj (List.mem_singleton.mp hline)
    exact splittable_colon

theorem le_length_intercalate (hs : s ≠ []) {list : List CString} :
    list.length ≤ (s.intercalate list).length + 1 := by
  induction list with
  | nil => exact Nat.zero_le _
  | cons f list ih =>
    cases list with
    | nil => exact Nat.le_add_left 1 _
    | cons g list =>
      have := List.length_pos_of_ne_nil hs
      rw [List.intercalate_cons_cons, List.length_append, List.length_append, List.length_cons]
      omega

/-- The buffer overflows where the line is extended to 5000 fields. -/
theorem editColumns_extend_overflow :
    Splittable [':'] ['a', ':', 'b'] ∧
      ¬ EditsSelectedField literalRegEx (setField 5000 ['x'] (Nat.succ_pos 4999)) ".*".toList [':']
        [some ['a', ':', 'b']] := by
  refine ⟨splittable_colon, fun h => ?_⟩
  obtain ⟨r, hr, hregion⟩ := h.edited
  have hfit :=
    (@editColumnsLoop_iff literalRegEx (setField 5000 ['x'] (Nat.succ_pos 4999)) ".*".toList
    [':'] false [some ['a', ':', 'b']] (fun _ => rfl) (List.cons_ne_nil _ _) rfl rfl
    fun line hline _ => by
      obtain rfl := Option.some.inj (List.mem_singleton.mp hline)
      exact splittable_colon).mp ⟨r, hr, hregion⟩
  have hedit : (setField 5000 ['x'] (Nat.succ_pos 4999)).editedLine [':'] ['a', ':', 'b'] =
      some ([':'].intercalate (((setField 5000 ['x'] (Nat.succ_pos 4999)).extended
        (fields [':'] ['a', ':', 'b'])).set 4999 ['x'])) := by
    refine if_neg (not_or.mpr ⟨Nat.not_lt_of_le (Nat.le_add_left 1 511), ?_⟩)
    exact fun h => Bool.false_ne_true (Bool.and_eq_true_iff.mp h).2
  have hshort := hfit _ List.mem_cons_self rfl _ hedit
  have hlength := @le_length_intercalate [':'] (List.cons_ne_nil _ _)
    (((setField 5000 ['x'] (Nat.succ_pos 4999)).extended (fields [':'] ['a', ':', 'b'])).set 4999
      ['x'])
  rw [List.length_set] at hlength
  have hmany := lt_length_extended (setField 5000 ['x'] (Nat.succ_pos 4999))
    (fields [':'] ['a', ':', 'b'])
  change 4999 < _ at hmany
  rw [cfBufSize] at hshort
  omega

end Cfengine
