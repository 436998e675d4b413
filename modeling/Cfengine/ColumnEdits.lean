import Cfengine.Rlist

/-!
# Field edits (`files_editline.c`, `rlist.c`, `sort.c`)

`EditColumns` behind the lock of the promise. The lines of the region are given by their names, of
which one may be `NULL`. The regular expressions are in `RegEx`.
-/

namespace Cfengine

/-- `CF_INFINITY` -/
def cfInfinity : Nat := 999999999

/-- The matching of regular expressions. -/
structure RegEx where
  validateRegEx : CString → Bool
  fullTextMatch : CString → CString → Bool
  /-- `BlockTextMatch`, with the bounds of the match. -/
  blockTextMatch : CString → CString → Option (Nat × Nat)

/-! ## Splitting -/

namespace RegEx
variable (env : RegEx) (regex : CString) (max : Nat) (blanks : Bool)

/-- The loop of `SplitRegexAsRList`, from `sp` on. -/
def splitRegexAsRList.loop (string : CString) (count : Nat) (sp : CString) :
    Except Fault (List CString) :=
  if count < max then
    match env.blockTextMatch regex sp with
    | some (start, «end») =>
      if «end» = 0 then .ok (last string sp)
      else if sp.length < «end» then .error .outOfBounds
      else if cfMaxVarSize < start then .error .bufferOverflow
      -- `node` has no NUL then
      else if start = cfMaxVarSize then .error .outOfBounds
      else
        let node := sp.take start
        if blanks || node ≠ [] then do return node :: (← loop string (count + 1) (sp.drop «end»))
        else loop string count (sp.drop «end»)
    | none => .ok (last string sp)
  else .ok []
termination_by sp.length
decreasing_by all_goals rw [List.length_drop]; omega
where
  /-- What is left behind the last separator. -/
  last (string sp : CString) : List CString :=
    let node := sp.take (cfMaxVarSize - 1)
    if blanks && sp.length ≠ string.length || node ≠ [] then [node] else []

/-- `SplitRegexAsRList` -/
def splitRegexAsRList (string : CString) : Except Fault (List CString) :=
  splitRegexAsRList.loop env regex max blanks string 0 string

end RegEx

/-! ## Sorting -/

section
variable {α : Type*} (less : α → α → Bool)

/-- A pass of `Sort`, with the number of merges in it. Of two equal elements the later one comes
first. -/
def sort.pass (insize : Nat) (p : List α) : List α × Nat :=
  if p = [] ∨ insize = 0 then (p, 0)
  else
    let q := p.drop insize
    let (list, nmerges) := pass insize (q.drop insize)
    ((p.take insize).merge (q.take insize) less ++ list, nmerges + 1)
termination_by p.length
decreasing_by
  rw [List.length_drop, List.length_drop]
  have := List.length_pos_of_ne_nil (not_or.mp ‹_›).1
  omega

variable {less}

theorem pass_nil {insize : Nat} : sort.pass less insize [] = ([], 0) := by
  rw [sort.pass, if_pos (.inl rfl)]

theorem pass_of_ne_nil {insize : Nat} {p : List α} (hp : p ≠ []) (hpos : 0 < insize) :
    sort.pass less insize p =
      ((p.take insize).merge ((p.drop insize).take insize) less ++
        (sort.pass less insize ((p.drop insize).drop insize)).1,
      (sort.pass less insize ((p.drop insize).drop insize)).2 + 1) := by
  rw [sort.pass, if_neg (not_or.mpr ⟨hp, hpos.ne'⟩)]

/-- More than one merge is only needed for more than two runs. -/
theorem length_of_one_lt_pass {insize : Nat} {p : List α} (h : 1 < (sort.pass less insize p).2) :
    insize < p.length := by
  by_contra hlength
  have hdrop : p.drop insize = [] := List.drop_eq_nil_of_le (Nat.le_of_not_lt hlength)
  rw [sort.pass] at h
  split_ifs at h
  · exact absurd h (Nat.not_lt_zero 1)
  · dsimp only at h
    rw [hdrop, List.drop_nil, pass_nil] at h
    exact absurd h (Nat.lt_irrefl 1)

theorem perm_pass (insize : Nat) (p : List α) : (sort.pass less insize p).1.Perm p := by
  induction hn : p.length using Nat.strong_induction_on generalizing p with
  | _ n ih =>
    by_cases hp : p = [] ∨ insize = 0
    · rw [sort.pass, if_pos hp]
    · obtain ⟨hnil, hpos⟩ := not_or.mp hp
      have hlt : ((p.drop insize).drop insize).length < n := by
        have := List.length_pos_of_ne_nil hnil
        rw [List.length_drop, List.length_drop]
        omega
      rw [pass_of_ne_nil hnil (Nat.pos_of_ne_zero hpos)]
      refine ((List.merge_perm_append _).append (ih _ hlt _ rfl)).trans ?_
      rw [List.append_assoc, List.take_append_drop, List.take_append_drop]

variable (less)

/-- The passes of `Sort`. -/
def sort.loop (insize : Nat) (list : List α) : List α :=
  if (sort.pass less insize list).2 ≤ 1 then (sort.pass less insize list).1
  else loop (insize * 2) (sort.pass less insize list).1
termination_by list.length - insize
decreasing_by
  have hlt := length_of_one_lt_pass (Nat.lt_of_not_le ‹_›)
  rw [(perm_pass insize list).length_eq]
  have hpos : insize ≠ 0 := by
    rintro rfl
    rename_i h
    rw [sort.pass, if_pos (.inr rfl)] at h
    exact h (Nat.zero_le 1)
  omega

/-- `Sort` -/
def sort (list : List α) : List α := sort.loop less 1 list

variable {less}

theorem perm_sort_loop (insize : Nat) (list : List α) : (sort.loop less insize list).Perm list := by
  fun_induction sort.loop less insize list with
  | case1 insize list _ => exact perm_pass insize list
  | case2 insize list _ ih => exact ih.trans (perm_pass insize list)

theorem perm_sort (list : List α) : (sort less list).Perm list := perm_sort_loop 1 list

end

/-- `AlphaSortRListNames` -/
def alphaSortRListNames (list : List CString) : List CString :=
  sort (fun lhs rhs => decide (lhs < rhs)) list

/-! ## Editing a field -/

/-- The values of `field_operation`. -/
inductive FieldOperation where
  | prepend | append | alphanum | delete | set
deriving DecidableEq

/-- The attributes that `GetColumnAttributes` reads, as `VerifyColumnEdits` lets them through. -/
structure ColumnAttributes where
  columnSeparator : CString
  selectColumn : Nat
  valueSeparator : Option Char
  columnValue : CString
  columnOperation : Option FieldOperation
  extendColumns : Bool
  blanksOk : Bool
  /-- `transaction.action == cfa_warn` -/
  warn : Bool
  selectColumn_pos : 0 < selectColumn

/-- `KeyInRlist`, as a test. -/
def keyInRlist (list : List CString) (key : CString) : Bool := list.any fun item => item = key

@[simp] theorem keyInRlist_iff {list : List CString} {key : CString} :
    keyInRlist list key = true ↔ key ∈ list := by
  simp [keyInRlist]

/-- `IdempAppendRScalar`, and whether it has appended the item. -/
def idempAppendRScalar (start : List CString) (item : CString) : List CString × Bool :=
  if keyInRlist start item then (start, false) else (start ++ [item], true)

/-- `IdempPrependRScalar`, and whether it has prepended the item. -/
def idempPrependRScalar (start : List CString) (item : CString) : List CString × Bool :=
  if keyInRlist start item then (start, false) else (item :: start, true)

namespace ColumnAttributes
variable (a : ColumnAttributes)

/-- `DoEditColumn`, with the columns that it leaves. -/
def doEditColumn (columns : List CString) : List CString × Bool :=
  match a.columnOperation with
  | some .delete =>
    if keyInRlist columns a.columnValue then (columns.erase a.columnValue, true)
    else (columns, false)
  | some .set =>
    if columns = [a.columnValue] then (columns, false)
    else ((idempPrependRScalar [] a.columnValue).1, true)
  | some .prepend => idempPrependRScalar columns a.columnValue
  | some .alphanum =>
    let (columns, retval) := idempPrependRScalar columns a.columnValue
    (alphaSortRListNames columns, retval)
  | some .append | none => idempAppendRScalar columns a.columnValue

/-- What `EditLineByColumn` does to the selected field. -/
def editField (item : CString) : Except Fault (CString × Bool) :=
  match a.valueSeparator with
  | some sep =>
    if item = a.columnValue then .ok (item, false)
    else do
      let (thisColumn, retval) := a.doEditColumn (← splitStringAsRList item sep)
      if retval && !a.warn then return (← rlist2String thisColumn [sep], true)
      else return (item, false)
  | none =>
    if a.warn then .ok (item, false)
    else if a.columnOperation = some .delete then .ok ([], true)
    else .ok (a.columnValue, true)

/-- The columns, and the empty ones that are appended to get to the selected one. -/
def extended (columns : List CString) : List CString :=
  columns ++ List.replicate (a.selectColumn - columns.length) []

/-- `EditLineByColumn`, with the columns that it leaves. -/
def editLineByColumn (columns : List CString) : Except Fault (List CString × Bool) :=
  if columns.length < a.selectColumn && !a.extendColumns then .ok (columns, false)
  else do
    let columns := a.extended columns
    let (item, retval) ← a.editField (columns.getD (a.selectColumn - 1) [])
    return (columns.set (a.selectColumn - 1) item, retval)

end ColumnAttributes

/-! ## Editing the lines -/

/-- What an editor of lines leaves: the lines of the region, what it returns, and how often it has
counted an edit. -/
structure LineEdits where
  region : List (Option CString)
  retval : Bool
  numEdits : Nat

/-- The result with a line in front. -/
def LineEdits.cons (name : Option CString) (edits : Nat) (r : LineEdits) : LineEdits :=
  ⟨name :: r.region, r.retval, edits + r.numEdits⟩

section
variable (env : RegEx) (a : ColumnAttributes) (promiser : CString)

/-- The loop of `EditColumns`. -/
def editColumns.loop (retval : Bool) : List (Option CString) → Except Fault LineEdits
  | [] => .ok ⟨[], retval, 0⟩
  | none :: ip => do return (← loop retval ip).cons none 0
  | some name :: ip =>
    if env.fullTextMatch promiser name then
      match env.blockTextMatch a.columnSeparator name with
      | none => .ok ⟨some name :: ip, false, 0⟩
      | some (s, e) =>
        if cfMaxVarSize / 2 < e - s then .ok ⟨some name :: ip, false, 0⟩
        else do
          let separator := (name.drop s).take (e - s)
          let columns ← env.splitRegexAsRList a.columnSeparator cfInfinity a.blanksOk name
          let (columns, retval) ← a.editLineByColumn columns
          if retval then
            let name ← rlist2String columns separator
            return (← loop retval ip).cons (some name) 1
          else return (← loop retval ip).cons (some name) 0
    else do return (← loop retval ip).cons (some name) 0

/-- `EditColumns` -/
def editColumns (region : List (Option CString)) : Except Fault LineEdits :=
  if env.validateRegEx promiser then editColumns.loop env a promiser false region
  else .ok ⟨region, false, 0⟩

end

attribute [grind =] ColumnAttributes.doEditColumn ColumnAttributes.editField
  ColumnAttributes.editLineByColumn editColumns

end Cfengine
