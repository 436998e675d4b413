import Cfengine.ColumnEdits
import Cfengine.Verify.SubValues

/-!
# Field edits that are promised twice

Whether `EditLineByColumn` brings the selected field into the promised state and then leaves it
alone depends on how the sub-values survive being joined (`ColumnAttributes.Settles`). A whole field
is set again each time.
-/

namespace Cfengine

variable {a : ColumnAttributes} {sep : Char} {field result : CString} {items columns : List CString}

namespace ColumnAttributes
variable (a : ColumnAttributes)

/-- The selected field, and an empty one if it is to be added. -/
def selected (columns : List CString) : CString :=
  (a.extended columns).getD (a.selectColumn - 1) []

/-- The promised state of a field that was `field`. -/
def Kept (field result : CString) : Prop :=
  match a.valueSeparator with
  | none => result = if a.columnOperation = some .delete then [] else a.columnValue
  | some sep =>
    match a.columnOperation with
    | some .set => result = a.columnValue
    | some .delete => a.columnValue ∉ subValues sep result
    | _ => a.columnValue ∈ subValues sep result ∧ ∀ u ∈ subValues sep field,
        u ∈ subValues sep result

/-- The first edit brings the field into the promised state, and the second one does nothing. -/
def Converges (columns : List CString) : Prop :=
  ∃ edited retval, a.editLineByColumn columns = .ok (edited, retval) ∧
    a.Kept (a.selected columns) (a.selected edited) ∧
    a.editLineByColumn edited = .ok (edited, false)

/-- The sub-values with the promised one among them. -/
def inserted (items : List CString) : List CString :=
  match a.columnOperation with
  | some .prepend => a.columnValue :: items
  | some .alphanum => alphaSortRListNames (a.columnValue :: items)
  | _ => items ++ [a.columnValue]

end ColumnAttributes

/-- Items that are all given back when they are joined. An empty one at the end is not. -/
structure Returns (sep : Char) (list : List CString) : Prop where
  no_separator : ∀ s ∈ list, sep ∉ s
  joins : Joins sep list
  last : list.getLast? = some [] → [] ∈ list.dropLast
  short : ∀ s ∈ list, s.length < cfMaxVarSize

/-- When the edit of a field converges. -/
def ColumnAttributes.Settles (a : ColumnAttributes) (field : CString) : Prop :=
  match a.valueSeparator with
  | none => False
  | some sep =>
    match a.columnOperation with
    | some .set =>
      field ≠ a.columnValue ++ [sep] ∧ (field = a.columnValue ∨ a.columnValue.length < cfBufSize)
    | some .delete =>
      if field = a.columnValue then a.columnValue = []
      else a.columnValue ∈ subValues sep field →
        Joins sep ((subValues sep field).erase a.columnValue) ∧
          a.columnValue ∉ retaken sep ((subValues sep field).erase a.columnValue)
    | _ =>
      if field = a.columnValue then a.columnValue ≠ []
      else a.columnValue ∈ subValues sep field ∨ Returns sep (a.inserted (subValues sep field))

/-! ## From the line to the field -/

/-- The same for the field on its own. -/
def ColumnAttributes.FieldConverges (a : ColumnAttributes) (field : CString) : Prop :=
  ∃ result retval, a.editField field = .ok (result, retval) ∧ a.Kept field result ∧
    a.editField result = .ok (result, false)

theorem extended_of_le (h : a.selectColumn ≤ columns.length) : a.extended columns = columns := by
  rw [ColumnAttributes.extended, Nat.sub_eq_zero_of_le h, List.replicate_zero, List.append_nil]

theorem selectColumn_le_length (a : ColumnAttributes) (columns : List CString) :
    a.selectColumn ≤ (a.extended columns).length := by
  rw [ColumnAttributes.extended, List.length_append, List.length_replicate]
  omega

theorem editLineByColumn_eq (h : columns.length < a.selectColumn → a.extendColumns = true) :
    a.editLineByColumn columns = do
      let (item, retval) ← a.editField (a.selected columns)
      return ((a.extended columns).set (a.selectColumn - 1) item, retval) := by
  rw [ColumnAttributes.editLineByColumn, if_neg]
  · rfl
  · rw [Bool.and_eq_true, decide_eq_true_iff, not_and]
    intro hlt
    rw [h hlt]
    exact Bool.false_ne_true

theorem selected_set (columns : List CString) (item : CString) :
    a.selected ((a.extended columns).set (a.selectColumn - 1) item) = item := by
  have hle := selectColumn_le_length a columns
  have hpos := a.selectColumn_pos
  rw [ColumnAttributes.selected, extended_of_le (by rwa [List.length_set]),
    List.getD_eq_getElem?_getD, List.getElem?_set_self (by omega)]
  rfl

theorem converges_iff (h : columns.length < a.selectColumn → a.extendColumns = true) :
    a.Converges columns ↔ a.FieldConverges (a.selected columns) := by
  have hset : ∀ item,
      a.selectColumn ≤ ((a.extended columns).set (a.selectColumn - 1) item).length :=
    fun item => by
      rw [List.length_set]
      exact selectColumn_le_length a columns
  have hagain : ∀ item, a.editLineByColumn ((a.extended columns).set (a.selectColumn - 1) item) = do
      let (item', retval) ← a.editField item
      return ((a.extended columns).set (a.selectColumn - 1) item', retval) := fun item => by
    rw [editLineByColumn_eq fun hlt => absurd hlt (Nat.not_lt_of_le (hset item)), selected_set,
      extended_of_le (hset item)]
    simp only [List.set_set]
  rw [ColumnAttributes.Converges, ColumnAttributes.FieldConverges, editLineByColumn_eq h]
  cases hedit : a.editField (a.selected columns) with
  | error =>
    exact iff_of_false (fun ⟨_, _, h, _⟩ => by cases h) fun ⟨_, _, h, _⟩ => by cases h
  | ok edit =>
    obtain ⟨item, retval⟩ := edit
    constructor
    · rintro ⟨edited, _, hedited, hkept, hsame⟩
      cases hedited
      rw [selected_set] at hkept
      rw [hagain] at hsame
      refine ⟨item, retval, rfl, hkept, ?_⟩
      cases hitem : a.editField item with
      | error =>
        rw [hitem] at hsame
        cases hsame
      | ok edit =>
        obtain ⟨item', retval'⟩ := edit
        rw [hitem] at hsame
        obtain ⟨hlist, rfl⟩ := Prod.mk.inj (Except.ok.inj hsame)
        rw [← selected_set columns item', hlist, selected_set]
    · rintro ⟨_, _, heq, hkept, hsame⟩
      cases heq
      refine ⟨_, retval, rfl, ?_, ?_⟩
      · rwa [selected_set]
      · rw [hagain, hsame]
        rfl

/-! ## The operations -/

theorem fieldConverges_of_unchanged (h : a.editField field = .ok (field, false)) :
    a.FieldConverges field ↔ a.Kept field field := by
  constructor
  · rintro ⟨_, _, heq, hkept, -⟩
    rw [h] at heq
    cases heq
    exact hkept
  · exact fun hkept => ⟨field, false, h, hkept, h⟩

theorem fieldConverges_of_changed (h : a.editField field = .ok (result, true)) :
    a.FieldConverges field ↔ a.Kept field result ∧ a.editField result = .ok (result, false) := by
  constructor
  · rintro ⟨_, _, heq, hkept, hsame⟩
    rw [h] at heq
    cases heq
    exact ⟨hkept, hsame⟩
  · exact fun ⟨hkept, hsame⟩ => ⟨result, true, h, hkept, hsame⟩

section
variable (hsep : a.valueSeparator = some sep)
include hsep

theorem editField_value : a.editField a.columnValue = .ok (a.columnValue, false) := by
  rw [ColumnAttributes.editField, hsep]
  exact if_pos rfl

variable (hwarn : a.warn = false)
include hwarn

theorem editField_of_ne (hne : field ≠ a.columnValue)
    (hitems : splitStringAsRList.loop sep field = .ok items) :
    a.editField field =
      if (a.doEditColumn items).2 = true then do
        return (← rlist2String (a.doEditColumn items).1 [sep], true)
      else .ok (field, false) := by
  rw [ColumnAttributes.editField, hsep]
  dsimp only
  rw [if_neg hne, splitStringAsRList, hitems, hwarn]
  change (if ((a.doEditColumn items).2 && !false) = true then _ else _) = _
  rw [Bool.not_false, Bool.and_true]
  rfl

theorem editField_of_kept (hne : field ≠ a.columnValue)
    (hitems : splitStringAsRList.loop sep field = .ok items)
    (h : (a.doEditColumn items).2 = false) :
    a.editField field = .ok (field, false) := by
  rw [editField_of_ne hsep hwarn hne hitems, h, if_neg Bool.false_ne_true]

theorem editField_of_edited (hne : field ≠ a.columnValue)
    (hitems : splitStringAsRList.loop sep field = .ok items) (h : (a.doEditColumn items).2 = true)
    (hfits : ([sep].intercalate (a.doEditColumn items).1).length < cfBufSize) :
    a.editField field = .ok ([sep].intercalate (a.doEditColumn items).1, true) := by
  rw [editField_of_ne hsep hwarn hne hitems, h, if_pos rfl, rlist2String, if_pos hfits]
  rfl

theorem not_fieldConverges_of_long (hne : field ≠ a.columnValue)
    (hitems : splitStringAsRList.loop sep field = .ok items) (h : (a.doEditColumn items).2 = true)
    (hlong : cfBufSize ≤ ([sep].intercalate (a.doEditColumn items).1).length) :
    ¬ a.FieldConverges field := by
  rintro ⟨_, _, heq, -⟩
  rw [editField_of_ne hsep hwarn hne hitems, h, if_pos rfl, rlist2String,
    if_neg (Nat.not_lt_of_le hlong)] at heq
  cases heq

variable (hvalue : sep ∉ a.columnValue) (hfield : field.length < cfMaxVarSize)
include hvalue hfield

theorem fieldConverges_set (hbackslash : '\\' ∉ a.columnValue)
    (hop : a.columnOperation = some .set) :
    a.FieldConverges field ↔
      field ≠ a.columnValue ++ [sep] ∧
        (field = a.columnValue ∨ a.columnValue.length < cfBufSize) := by
  have hkept : ∀ result, a.Kept field result ↔ result = a.columnValue := fun result => by
    rw [ColumnAttributes.Kept, hsep, hop]
  by_cases heq : field = a.columnValue
  · have hunchanged : a.editField field = .ok (field, false) := heq ▸ editField_value hsep
    rw [fieldConverges_of_unchanged hunchanged, hkept, and_iff_left (.inl heq)]
    refine iff_of_true heq fun h => ?_
    have := congrArg List.length (heq.symm.trans h)
    rw [List.length_append, List.length_singleton] at this
    omega
  · obtain ⟨items, hitems⟩ := @exists_splitLoop_of_short sep field hfield
    by_cases hone : items = [a.columnValue]
    · have hunchanged : a.editField field = .ok (field, false) := by
        apply editField_of_kept hsep hwarn heq hitems
        rw [ColumnAttributes.doEditColumn, hop]
        dsimp only
        rw [if_pos hone]
      rw [fieldConverges_of_unchanged hunchanged, hkept]
      refine iff_of_false heq fun h => ?_
      rw [hone] at hitems
      exact h.1 ((eq_of_splitLoop_singleton hitems hvalue).resolve_left heq)
    · have hedit : a.doEditColumn items = ([a.columnValue], true) := by
        rw [ColumnAttributes.doEditColumn, hop]
        exact if_neg hone
      have hne : field ≠ a.columnValue ++ [sep] := by
        rintro rfl
        apply hone
        rw [List.length_append, List.length_singleton] at hfield
        rw [← subValues_of_eq_ok hitems, subValues_separator (by omega) hvalue
          fun h => hbackslash (List.mem_of_getLast? h)]
      rw [and_iff_right hne, or_iff_right heq]
      by_cases hfits : a.columnValue.length < cfBufSize
      · have hresult := editField_of_edited hsep hwarn heq hitems (by rw [hedit])
          (by rwa [hedit, List.intercalate_singleton])
        rw [hedit, List.intercalate_singleton] at hresult
        rw [fieldConverges_of_changed hresult, hkept]
        exact iff_of_true ⟨rfl, editField_value hsep⟩ hfits
      · exact iff_of_false (not_fieldConverges_of_long hsep hwarn heq hitems (by rw [hedit])
          (by rwa [hedit, List.intercalate_singleton, ← Nat.not_lt])) hfits

omit hsep hwarn in
theorem mem_subValues_self (h : field = a.columnValue) :
    a.columnValue ∈ subValues sep a.columnValue ↔ a.columnValue ≠ [] := by
  by_cases hnil : a.columnValue = []
  · rw [hnil, subValues_nil]
    exact iff_of_false List.not_mem_nil fun h => h rfl
  · rw [subValues_of_not_mem (h ▸ hfield) hvalue hnil]
    exact iff_of_true (List.mem_singleton_self _) hnil

theorem fieldConverges_delete (hop : a.columnOperation = some .delete) :
    (field = a.columnValue → (a.FieldConverges field ↔ a.columnValue = [])) ∧
      (field ≠ a.columnValue → (a.FieldConverges field ↔ (a.columnValue ∈ subValues sep field →
        a.columnValue ∉
          subValues sep ([sep].intercalate ((subValues sep field).erase a.columnValue))))) := by
  have hkept : ∀ result, a.Kept field result ↔ a.columnValue ∉ subValues sep result :=
      fun result => by
    rw [ColumnAttributes.Kept, hsep, hop]
  have hedit : ∀ items, a.doEditColumn items =
      if a.columnValue ∈ items then (items.erase a.columnValue, true) else (items, false) :=
    fun items => by
      rw [ColumnAttributes.doEditColumn, hop]
      simp only [keyInRlist_iff]
  refine ⟨fun heq => ?_, fun hne => ?_⟩
  · have hunchanged : a.editField field = .ok (field, false) := heq ▸ editField_value hsep
    rw [fieldConverges_of_unchanged hunchanged, hkept, heq,
      mem_subValues_self hvalue hfield heq, not_not]
  · obtain ⟨items, hitems⟩ := @exists_splitLoop_of_short sep field hfield
    rw [subValues_of_eq_ok hitems]
    by_cases hmem : a.columnValue ∈ items
    · have hmass := (splits_of_eq_ok hitems).mass_le
      rw [mass_perm (List.perm_cons_erase hmem), mass_cons] at hmass
      have hlength := length_intercalate_le_mass sep (items.erase a.columnValue)
      have hshort : ([sep].intercalate (items.erase a.columnValue)).length < cfMaxVarSize := by
        omega
      have hresult := editField_of_edited hsep hwarn hne hitems (by rw [hedit, if_pos hmem])
        (by rw [hedit, if_pos hmem]; exact hshort.trans (Nat.lt_add_of_pos_right
          (Nat.succ_pos 3071)))
      rw [hedit, if_pos hmem] at hresult
      rw [fieldConverges_of_changed hresult, hkept, and_iff_left_of_imp, forall_prop_of_true hmem]
      intro hgone
      by_cases hsame : [sep].intercalate (items.erase a.columnValue) = a.columnValue
      · rw [hsame]
        exact editField_value hsep
      · obtain ⟨items', hitems'⟩ := @exists_splitLoop_of_short sep _ hshort
        apply editField_of_kept hsep hwarn hsame hitems'
        rw [subValues_of_eq_ok hitems'] at hgone
        rw [hedit, if_neg hgone]
    · have hunchanged := editField_of_kept hsep hwarn hne hitems (by rw [hedit, if_neg hmem])
      rw [fieldConverges_of_unchanged hunchanged, hkept, subValues_of_eq_ok hitems]
      exact iff_of_true hmem fun h => absurd h hmem

/-! ### Inserting the value -/

omit hsep hwarn hvalue hfield in
theorem perm_inserted (items : List CString) :
    (a.inserted items).Perm (a.columnValue :: items) := by
  rw [ColumnAttributes.inserted]
  split
  · exact .refl _
  · exact perm_sort _
  · exact List.perm_append_singleton _ _

variable (hset : a.columnOperation ≠ some .set) (hdelete : a.columnOperation ≠ some .delete)
include hset hdelete

omit hsep hwarn hvalue hfield in
theorem doEditColumn_of_mem (h : a.columnValue ∈ items) : (a.doEditColumn items).2 = false := by
  rw [ColumnAttributes.doEditColumn]
  split
  · next hop => exact absurd hop hdelete
  · next hop => exact absurd hop hset
  · rw [idempPrependRScalar, if_pos (keyInRlist_iff.mpr h)]
  · rw [idempPrependRScalar, if_pos (keyInRlist_iff.mpr h)]
  · rw [idempAppendRScalar, if_pos (keyInRlist_iff.mpr h)]
  · rw [idempAppendRScalar, if_pos (keyInRlist_iff.mpr h)]

omit hsep hwarn hvalue hfield in
theorem doEditColumn_of_not_mem (h : a.columnValue ∉ items) :
    a.doEditColumn items = (a.inserted items, true) := by
  rw [ColumnAttributes.doEditColumn, ColumnAttributes.inserted]
  split
  · next hop => exact absurd hop hdelete
  · next hop => exact absurd hop hset
  · next hop => rw [idempPrependRScalar, if_neg (mt keyInRlist_iff.mp h), hop]
  · next hop => rw [idempPrependRScalar, if_neg (mt keyInRlist_iff.mp h), hop]
  · next hop => rw [idempAppendRScalar, if_neg (mt keyInRlist_iff.mp h), hop]
  · next hop => rw [idempAppendRScalar, if_neg (mt keyInRlist_iff.mp h), hop]

omit hwarn hvalue hfield in
theorem kept_insert : a.Kept field result ↔
    ∀ s ∈ a.inserted (subValues sep field), s ∈ subValues sep result := by
  have hall : (∀ s ∈ a.inserted (subValues sep field), s ∈ subValues sep result) ↔
      a.columnValue ∈ subValues sep result ∧ ∀ u ∈ subValues sep field,
        u ∈ subValues sep result := by
    rw [← List.forall_mem_cons]
    exact forall_congr' fun s => by rw [(perm_inserted _).mem_iff]
  rw [hall, ColumnAttributes.Kept, hsep]
  dsimp only
  split
  · next hop => exact absurd hop hset
  · next hop => exact absurd hop hdelete
  · rfl

theorem fieldConverges_insert :
    (field = a.columnValue → (a.FieldConverges field ↔ a.columnValue ≠ [])) ∧
      (field ≠ a.columnValue → a.columnValue ∈ subValues sep field → a.FieldConverges field) ∧
      (field ≠ a.columnValue → a.columnValue ∉ subValues sep field →
        (a.FieldConverges field ↔
          ([sep].intercalate (a.inserted (subValues sep field))).length < cfBufSize ∧
          ∀ s ∈ a.inserted (subValues sep field),
            s ∈ subValues sep ([sep].intercalate (a.inserted (subValues sep field))))) := by
  have hkept := fun result => @kept_insert a sep field result hsep hset hdelete
  refine ⟨fun heq => ?_, fun hne hmem => ?_, fun hne hmem => ?_⟩
  · have hunchanged : a.editField field = .ok (field, false) := heq ▸ editField_value hsep
    rw [fieldConverges_of_unchanged hunchanged, hkept]
    simp only [(perm_inserted _).mem_iff, List.forall_mem_cons]
    rw [and_iff_left fun s hs => hs, heq, mem_subValues_self hvalue hfield heq]
  · obtain ⟨items, hitems⟩ := @exists_splitLoop_of_short sep field hfield
    have hmem' : a.columnValue ∈ items := subValues_of_eq_ok hitems ▸ hmem
    have hunchanged :=
      editField_of_kept hsep hwarn hne hitems (doEditColumn_of_mem hset hdelete hmem')
    rw [fieldConverges_of_unchanged hunchanged, hkept]
    intro s hs
    rcases List.mem_cons.mp ((perm_inserted _).mem_iff.mp hs) with rfl | hs
    · exact hmem
    · exact hs
  · obtain ⟨items, hitems⟩ := @exists_splitLoop_of_short sep field hfield
    rw [subValues_of_eq_ok hitems] at hmem
    have hedit := doEditColumn_of_not_mem hset hdelete hmem
    have hsub := subValues_of_eq_ok hitems
    by_cases hfits : ([sep].intercalate (a.inserted items)).length < cfBufSize
    · have hresult := editField_of_edited hsep hwarn hne hitems (by rw [hedit]) (by rwa [hedit])
      rw [hedit] at hresult
      rw [fieldConverges_of_changed hresult, hkept, hsub, and_iff_right hfits]
      refine and_iff_left_of_imp fun hback => ?_
      have hback := hback _ ((perm_inserted items).mem_iff.mpr List.mem_cons_self)
      by_cases hsame : [sep].intercalate (a.inserted items) = a.columnValue
      · dsimp only
        rw [hsame]
        exact editField_value hsep
      · cases hagain : splitStringAsRList.loop sep ([sep].intercalate (a.inserted items)) with
        | error =>
          rw [subValues, splitStringAsRList, hagain] at hback
          cases hback
        | ok items' =>
          rw [subValues_of_eq_ok hagain] at hback
          exact editField_of_kept hsep hwarn hsame hagain (doEditColumn_of_mem hset hdelete hback)
    · refine iff_of_false (not_fieldConverges_of_long hsep hwarn hne hitems (by rw [hedit]) ?_)
        fun h => hfits (hsub ▸ h.1)
      rw [hedit]
      exact Nat.le_of_not_lt hfits

end

/-! ## Converging edits -/

/-- Where `Settles` is not only sufficient: an escaped separator could survive by chance if the
separator is the backslash, or if sub-values that a deletion leaves in front of others end in a
backslash. -/
def ColumnAttributes.Regular (a : ColumnAttributes) (field : CString) : Prop :=
  match a.valueSeparator with
  | none => True
  | some sep =>
    match a.columnOperation with
    | some .set => True
    | some .delete => Joins sep ((subValues sep field).erase a.columnValue)
    | _ => sep ≠ '\\'

/-- Items that are given back, from the way they are joined. -/
theorem Returns.subset {list : List CString} (h : Returns sep list) :
    ∀ s ∈ list, s ∈ subValues sep ([sep].intercalate list) := by
  intro s hs
  rw [subValues_of_eq_ok (splitLoop_intercalate h.joins h.short),
    retaken_eq h.joins h.short h.no_separator]
  split_ifs with hlast
  · obtain ⟨front, rfl⟩ := List.getLast?_eq_some_iff.mp hlast
    have hnil := h.last hlast
    rw [List.dropLast_concat] at hnil ⊢
    rcases List.mem_append.mp hs with hs | hs
    · exact hs
    · exact List.mem_singleton.mp hs ▸ hnil
  · exact hs

/-- The other way round, where the separator is not the backslash. -/
theorem returns_of_subset (hsep : sep ≠ '\\') {v : CString} {list : List CString}
    (hitems : splitStringAsRList.loop sep field = .ok items) (hv : '\\' ∉ v)
    (hperm : list.Perm (v :: items))
    (hsub : ∀ s ∈ list, s ∈ subValues sep ([sep].intercalate list)) : Returns sep list := by
  cases hagain : splitStringAsRList.loop sep ([sep].intercalate list) with
  | error =>
    have hback := hsub v (hperm.mem_iff.mpr List.mem_cons_self)
    rw [subValues, splitStringAsRList, hagain] at hback
    cases hback
  | ok again =>
    rw [subValues_of_eq_ok hagain] at hsub
    have hlast :=
      no_backslash_of_subset (splits_of_eq_ok hitems) hv hperm hsep (splits_of_eq_ok hagain) hsub
    have hnone := not_mem_of_subset hsep hlast (splits_of_eq_ok hagain) hsub
    have hshort : ∀ s ∈ list, s.length < cfMaxVarSize :=
      fun s hs => splitLoop_length_lt hagain (hsub s hs)
    have hjoins := (joins_iff hsep).mpr hlast
    refine ⟨hnone, hjoins, fun hnil => ?_, hshort⟩
    have hback := hsub [] (List.mem_of_getLast? hnil)
    rw [splitLoop_intercalate hjoins hshort] at hagain
    rwa [← Except.ok.inj hagain, retaken_eq hjoins hshort hnone, if_pos hnil] at hback

theorem length_inserted_lt (hfield : field.length < cfMaxVarSize)
    (h : Returns sep (a.inserted (subValues sep field))) :
    ([sep].intercalate (a.inserted (subValues sep field))).length < cfBufSize := by
  obtain ⟨items, hitems⟩ := @exists_splitLoop_of_short sep field hfield
  have hvalue := h.short _ ((perm_inserted _).mem_iff.mpr List.mem_cons_self)
  have hlength := length_intercalate_le_mass sep (a.inserted (subValues sep field))
  rw [mass_perm (perm_inserted _), mass_cons, subValues_of_eq_ok hitems] at hlength
  have hmass := (splits_of_eq_ok hitems).mass_le
  rw [cfMaxVarSize] at hvalue hfield
  rw [cfBufSize, subValues_of_eq_ok hitems]
  omega

/-- A field edit converges where the sub-values survive being joined. A whole field, without
`value_separator`, is set again each time. -/
theorem editLineByColumn_settles (hwarn : a.warn = false) (hbackslash : '\\' ∉ a.columnValue)
    (hvalue : ∀ sep ∈ a.valueSeparator, sep ∉ a.columnValue)
    (hcolumn : columns.length < a.selectColumn → a.extendColumns = true)
    (hfield : (a.selected columns).length < cfMaxVarSize) :
    (a.Settles (a.selected columns) → a.Converges columns) ∧
      (a.Regular (a.selected columns) → a.Converges columns → a.Settles (a.selected columns)) := by
  rw [converges_iff hcolumn]
  generalize a.selected columns = field at hfield ⊢
  cases hsep : a.valueSeparator with
  | none =>
    have hnot : ¬ a.FieldConverges field := by
      rintro ⟨result, _, -, -, hsame⟩
      rw [ColumnAttributes.editField, hsep] at hsame
      dsimp only at hsame
      rw [if_neg (by rw [hwarn]; exact Bool.false_ne_true)] at hsame
      split_ifs at hsame <;> cases hsame
    rw [ColumnAttributes.Settles, hsep]
    exact ⟨False.elim, fun _ h => hnot h⟩
  | some sep =>
    have hvalue := hvalue sep hsep
    have hinsert : a.columnOperation ≠ some .set → a.columnOperation ≠ some .delete →
        ((if field = a.columnValue then a.columnValue ≠ []
          else a.columnValue ∈ subValues sep field ∨
          Returns sep (a.inserted (subValues sep field))) →
          a.FieldConverges field) ∧
        (sep ≠ '\\' → a.FieldConverges field →
          if field = a.columnValue then a.columnValue ≠ []
          else a.columnValue ∈ subValues sep field ∨
          Returns sep (a.inserted (subValues sep field))) := by
      intro hset hdelete
      obtain ⟨hsame, hmem, hnew⟩ := fieldConverges_insert hsep hwarn hvalue hfield hset hdelete
      by_cases heq : field = a.columnValue
      · rw [if_pos heq, hsame heq]
        exact ⟨id, fun _ h => h⟩
      · rw [if_neg heq]
        by_cases hthere : a.columnValue ∈ subValues sep field
        · exact ⟨fun _ => hmem heq hthere, fun _ _ => .inl hthere⟩
        · rw [hnew heq hthere, or_iff_right hthere]
          refine ⟨fun h => ⟨length_inserted_lt hfield h, h.subset⟩, fun hne h => ?_⟩
          obtain ⟨items, hitems⟩ := @exists_splitLoop_of_short sep field hfield
          rw [subValues_of_eq_ok hitems] at h ⊢
          exact returns_of_subset hne hitems hbackslash (perm_inserted items) h.2
    rw [ColumnAttributes.Settles, ColumnAttributes.Regular, hsep]
    dsimp only
    cases hop : a.columnOperation with
    | none =>
      exact hinsert (by rw [hop]; exact fun h => by cases h)
        (by rw [hop]; exact fun h => by cases h)
    | some op =>
      cases op with
      | set =>
        rw [fieldConverges_set hsep hwarn hvalue hfield hbackslash hop]
        exact ⟨id, fun _ h => h⟩
      | delete =>
        obtain ⟨hsame, hother⟩ := fieldConverges_delete hsep hwarn hvalue hfield hop
        by_cases heq : field = a.columnValue
        · rw [hsame heq, if_pos heq]
          exact ⟨id, fun _ h => h⟩
        · obtain ⟨items, hitems⟩ := @exists_splitLoop_of_short sep field hfield
          have hback : Joins sep ((subValues sep field).erase a.columnValue) →
              subValues sep ([sep].intercalate ((subValues sep field).erase a.columnValue)) =
                retaken sep ((subValues sep field).erase a.columnValue) := fun hjoins => by
            refine subValues_of_eq_ok (splitLoop_intercalate hjoins fun s hs => ?_)
            rw [subValues_of_eq_ok hitems] at hs
            exact splitLoop_length_lt hitems (List.mem_of_mem_erase hs)
          rw [hother heq, if_neg heq]
          constructor
          · intro h hmem
            obtain ⟨hjoins, hgone⟩ := h hmem
            rwa [hback hjoins]
          · intro hjoins h hmem
            rw [← hback hjoins]
            exact ⟨hjoins, h hmem⟩
      | prepend | append | alphanum =>
        exact hinsert (by rw [hop]; exact fun h => by cases h)
          (by rw [hop]; exact fun h => by cases h)

/-- Sub-values of the first field, separated by commas. -/
def commaField (valueSeparator : Option Char) (columnOperation : FieldOperation)
    (columnValue : CString) : ColumnAttributes where
  columnSeparator := [':']
  selectColumn := 1
  valueSeparator := valueSeparator
  columnValue := columnValue
  columnOperation := some columnOperation
  extendColumns := false
  blanksOk := true
  warn := false
  selectColumn_pos := Nat.one_pos

theorem editLineByColumn_settles_append :
    ((commaField (some ',') .append ['b']).Settles ['a'] →
        (commaField (some ',') .append ['b']).Converges [['a']]) ∧
      ((commaField (some ',') .append ['b']).Regular ['a'] →
        (commaField (some ',') .append ['b']).Converges [['a']] →
        (commaField (some ',') .append ['b']).Settles ['a']) :=
  @editLineByColumn_settles (commaField (some ',') .append ['b']) [['a']] rfl (by decide)
    (fun sep h => by cases h; decide) (fun h => absurd h (Nat.lt_irrefl 1))
    (Nat.lt_of_lt_of_le Nat.one_lt_two (show 2 ≤ 1024 by decide))

/-- A whole field that has its value already is set to it again. -/
theorem editLineByColumn_set_twice : ¬ (commaField none .set ['x']).Converges [['x']] := by
  rintro ⟨edited, retval, hedited, -, hsame⟩
  cases hedited
  cases hsame

end Cfengine
