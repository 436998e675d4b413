import Cfengine.Verify.Scope

/-!
# Assignments that are rejected

`NewScalar` and `NewList` delete the variable before `AddVariableHash` looks at the value. So a
variable that is set is lost when its new value is rejected (`changesNothing_iff`).
-/

namespace Cfengine
open Probing KeyedList

/-- A value for `NewScalar` or for `NewList`. -/
inductive Assignment where
  | scalar (rval : CString)
  | list (rval : List Rval)

def Assignment.rval : Assignment → Rval
  | scalar rval => .scalar rval
  | list rval => .list rval

section
variable (getHash : CString → Fin cfHashTableSize)
  (expandScalar : List Scope → CString → Option (CString × Bool))
  (mapIteratorsFromRval : VarState → Rval → Rval) (cellText : Rval → CString)

/-- The state after the assignment. -/
def Assignment.perform (assignment : Assignment) (s : VarState) (scope lval : CString)
    (dtype : CfDataType) :
    Option VarState :=
  match assignment with
  | scalar rval => newScalar getHash expandScalar mapIteratorsFromRval cellText s scope
      lval rval dtype
  | list rval => newList getHash expandScalar mapIteratorsFromRval cellText s scope lval rval dtype

/-- `AddVariableHash` returns `false` for the value. -/
def Rejected (assignment : Assignment) (s : VarState) (scope lval : CString)
    (dtype : CfDataType) : Prop :=
  ∃ s₁, deleteFound getHash expandScalar s scope lval = some s₁ ∧
    (addVariableHash getHash expandScalar mapIteratorsFromRval cellText s₁ scope lval
      assignment.rval dtype).map
      Prod.fst = some false

/-- `GetVariable` returns what it returned, and all tables have what they had. -/
def ChangesNothing (s s' : VarState) (scope lval : CString) : Prop :=
  getVariable getHash expandScalar s'.vscope scope lval = getVariable getHash expandScalar s.vscope
    scope lval ∧
    ∀ scope' name, s'.assoc getHash scope' name = s.assoc getHash scope' name

/-- `GetVariable` finds a variable under the name. -/
def ScalarFound (s : VarState) (scope lval : CString) : Prop :=
  ∃ rval dtype, getVariable getHash expandScalar s.vscope scope lval = some (some (rval, dtype)) ∧
    dtype ≠ .notype

end

variable {getHash : CString → Fin cfHashTableSize}
  {expandScalar : List Scope → CString → Option (CString × Bool)}
  {mapIteratorsFromRval : VarState → Rval → Rval} {cellText : Rval → CString} {t : AssocHashTable}
  {s s₁ s' : VarState} {scope lval name : CString} {rval : Rval} {dtype : CfDataType} {ptr : Scope}
  {assignment : Assignment}

/-! ## Deleting -/

theorem hugeHashLookupElement_delete (buckets : Table CfAssoc) (name : CString) :
    hugeHashLookupElement getHash (hugeHashDeleteElement getHash buckets name).2 name = none := by
  rw [hugeHashLookupElement, hugeHashLookupElement.loop_eq, hugeHashDeleteElement,
    hugeHashDeleteElement.loop_eq]
  cases hstop : firstStop cfHashTableSize buckets (stopsAt name false) cfHashTableSize
      (getHash name) with
  | none => rw [hstop, Option.bind_none]
  | some j =>
    dsimp only
    cases hslot : buckets j with
    | free =>
      dsimp only
      rw [hstop, Option.bind_some, hslot]
    | deleted =>
      dsimp only
      rw [hstop, Option.bind_some, hslot]
    | entry a =>
      obtain ⟨_, _, _, hstopped, -⟩ := (firstStop_eq_some (getHash name).isLt).mp hstop
      -- the search stops at the bucket of the element as before, and finds it free
      have hstops : ∀ i, stopsAt name false (Function.update buckets j .free i) =
          stopsAt name false (buckets i) := by
        intro i
        by_cases hi : i = j
        · subst hi
          rw [Function.update_self, hstopped]
          rfl
        · rw [Function.update_of_ne hi]
      dsimp only
      rw [firstStop_congr hstops, hstop, Option.bind_some, Function.update_self]

/-- A name is not found after it is deleted. -/
theorem hashLookupElement_delete (t : AssocHashTable) (name : CString) :
    hashLookupElement getHash (hashDeleteElement getHash t name).2 name = none := by
  cases t with
  | huge buckets => exact hugeHashLookupElement_delete buckets name
  | tiny array =>
    by_cases hpresent : ∃ a ∈ array.values, a.lval = name
    · obtain ⟨a, ha, rfl⟩ := hpresent
      obtain ⟨array', heq, hmem⟩ := tinyHashDeleteElement_of_mem ha
      rw [hashDeleteElement, heq]
      exact List.find?_eq_none.mpr fun b hb => by simpa using ((hmem b).mp hb).2
    · have habsent : ∀ a ∈ array.values, a.lval ≠ name := fun a ha hname => hpresent ⟨a, ha, hname⟩
      rw [hashDeleteElement, tinyHashDeleteElement_of_absent habsent]
      exact List.find?_eq_none.mpr fun b hb => by simpa using habsent b hb

/-- A name that is not found is not deleted. -/
theorem hashDeleteElement_of_lookup_none (h : hashLookupElement getHash t name = none) :
    (hashDeleteElement getHash t name).2 = t := by
  cases t with
  | huge buckets =>
    rw [hashLookupElement, hugeHashLookupElement, hugeHashLookupElement.loop_eq] at h
    rw [hashDeleteElement, hugeHashDeleteElement, hugeHashDeleteElement.loop_eq]
    cases hstop : firstStop cfHashTableSize buckets (stopsAt name false) cfHashTableSize
        (getHash name) with
    | none => rfl
    | some j =>
      rw [hstop, Option.bind_some] at h
      dsimp only
      cases hslot : buckets j with
      | free => rfl
      | deleted => rfl
      | entry a =>
        rw [hslot] at h
        cases h
  | tiny array =>
    rw [hashLookupElement, tinyHashLookupElement, List.find?_eq_none] at h
    rw [hashDeleteElement, tinyHashDeleteElement, if_neg]
    rw [List.any_eq_true]
    rintro ⟨a, ha, hname⟩
    exact h a ha hname

theorem setHashtable_self (hptr : getScope s.vscope scope = some ptr) :
    s.setHashtable scope ptr.hashtable = s := by
  rw [VarState.setHashtable, modifyFirst_eq_self hptr rfl]

theorem deleteScalar_of_not_set (h : s.assoc getHash scope lval = none) :
    deleteScalar getHash s scope lval = s := by
  rw [deleteScalar]
  cases hptr : getScope s.vscope scope with
  | none => rfl
  | some ptr =>
    rw [assoc_of_getScope hptr rfl] at h
    dsimp only
    rw [hashDeleteElement_of_lookup_none h, setHashtable_self hptr]

theorem assoc_deleteScalar :
    (deleteScalar getHash s scope lval).assoc getHash scope lval = none := by
  rw [deleteScalar]
  cases hptr : getScope s.vscope scope with
  | none =>
    rw [VarState.assoc, hptr]
    rfl
  | some ptr =>
    dsimp only
    rw [assoc_setHashtable hptr, if_pos rfl, hashLookupElement_delete]

/-! ## Rejecting -/

/-- What is rejected is not stored. -/
theorem addVariableHash_rejected
    (h : (addVariableHash getHash expandScalar mapIteratorsFromRval cellText s scope lval rval
      dtype).map Prod.fst =
      some false) :
    addVariableHash getHash expandScalar mapIteratorsFromRval cellText s scope lval rval dtype =
      some (false, s) := by
  rw [addVariableHash] at h ⊢
  split_ifs at h ⊢ with hnull hlong hcontains
  · rfl
  · rfl
  · rfl
  · cases hptr : getScope s.vscope scope with
    | none => rfl
    | some ptr =>
      rw [hptr] at h
      dsimp only at h
      split at h
      · split at h
        · cases h
        · rw [Option.map_map] at h
          obtain ⟨unresolved, -, hfalse⟩ := Option.map_eq_some_iff.mp h
          cases hfalse
      · split at h <;> cases h

/-- The assignment of what is rejected is the deletion in front of it. -/
theorem perform_of_rejected (hdelete : deleteFound getHash expandScalar s scope lval = some s₁)
    (h : (addVariableHash getHash expandScalar mapIteratorsFromRval cellText s₁ scope lval
      assignment.rval dtype).map
      Prod.fst = some false) :
    assignment.perform getHash expandScalar mapIteratorsFromRval cellText s scope lval dtype =
      some s₁ := by
  have hreject := addVariableHash_rejected h
  cases assignment with
  | list rval =>
    rw [Assignment.perform, newList, hdelete]
    exact congrArg (Option.bind · _) hreject
  | scalar rval =>
    rw [Assignment.perform, newScalar]
    cases hptr : getScope s.vscope scope with
    | none =>
      have hset : s.assoc getHash scope lval = none := by
        rw [VarState.assoc, hptr]
        rfl
      rw [deleteFound, deleteScalar_of_not_set hset, Option.map_eq_some_iff] at hdelete
      obtain ⟨found, -, hsame⟩ := hdelete
      rw [ite_self] at hsame
      rw [hsame]
    | some ptr =>
      dsimp only
      rw [hdelete]
      exact congrArg (Option.bind · _) hreject

theorem deleteFound_of_found (hfound : ScalarFound getHash expandScalar s scope lval) :
    deleteFound getHash expandScalar s scope lval = some (deleteScalar getHash s scope lval) := by
  obtain ⟨rval, dtype, hget, htype⟩ := hfound
  rw [deleteFound, hget, Option.map_some, if_pos (by simpa using htype)]

/-- Nothing is deleted that is not found or not in the table of the scope. -/
theorem deleteFound_eq_self (hdelete : deleteFound getHash expandScalar s scope lval = some s₁)
    (h : ¬ (ScalarFound getHash expandScalar s scope lval ∧ s.assoc getHash scope lval ≠ none)) :
    s₁ = s := by
  by_cases hset : s.assoc getHash scope lval = none
  · rw [deleteFound, deleteScalar_of_not_set hset, Option.map_eq_some_iff] at hdelete
    obtain ⟨found, -, hsame⟩ := hdelete
    rw [← hsame, ite_self]
  · rw [deleteFound, Option.map_eq_some_iff] at hdelete
    obtain ⟨found, hget, hsame⟩ := hdelete
    rw [← hsame, if_neg]
    intro hany
    cases found with
    | none => cases hany
    | some found => exact h ⟨⟨found.1, found.2, hget, of_decide_eq_true hany⟩, hset⟩

/-- A rejected assignment changes nothing just if it finds nothing to delete. -/
theorem changesNothing_iff (getHash : CString → Fin cfHashTableSize)
    (expandScalar : List Scope → CString → Option (CString × Bool))
    (mapIteratorsFromRval : VarState → Rval → Rval) (cellText : Rval → CString)
    (assignment : Assignment) (s : VarState) (scope lval : CString) (dtype : CfDataType) :
    (Rejected getHash expandScalar mapIteratorsFromRval cellText assignment s scope lval dtype →
        ∃ s', assignment.perform getHash expandScalar mapIteratorsFromRval cellText s scope lval
        dtype = some s' ∧
          ChangesNothing getHash expandScalar s s' scope lval) ↔
      (Rejected getHash expandScalar mapIteratorsFromRval cellText assignment s scope lval dtype →
        ¬ (ScalarFound getHash expandScalar s scope lval ∧ s.assoc getHash scope lval ≠ none)) := by
  constructor
  · rintro h hrejected ⟨hfound, hset⟩
    obtain ⟨s', hs', -, hsame⟩ := h hrejected
    obtain ⟨s₁, hdelete, hreject⟩ := hrejected
    cases (perform_of_rejected hdelete hreject).symm.trans hs'
    cases (deleteFound_of_found hfound).symm.trans hdelete
    exact hset ((hsame scope lval).symm.trans assoc_deleteScalar)
  · intro h hrejected
    have hkeep := h hrejected
    obtain ⟨s₁, hdelete, hreject⟩ := hrejected
    cases deleteFound_eq_self hdelete hkeep
    exact ⟨s, perform_of_rejected hdelete hreject, rfl, fun _ _ => rfl⟩

/-- The value `$(x)2` is rejected for `x`, which then is not set any more. -/
theorem not_changesNothing_x :
    let s := mainScope (some (.scalar "1".toList, .str))
    ¬ (Rejected oatHash (fun _ _ => none) (fun _ rval => rval) (fun _ => [])
      (.scalar "$(x)2".toList) s "main".toList
        "x".toList .str →
      ∃ s', Assignment.perform oatHash (fun _ _ => none) (fun _ rval => rval) (fun _ => [])
          (.scalar "$(x)2".toList) s "main".toList "x".toList .str = some s' ∧
        ChangesNothing oatHash (fun _ _ => none) s s' "main".toList "x".toList) := by
  intro s h
  obtain ⟨s', hs', hget, -⟩ := h ⟨mainScope none, rfl, rfl⟩
  have hperform : Assignment.perform oatHash (fun _ _ => none) (fun _ rval => rval) (fun _ => [])
      (.scalar "$(x)2".toList) s "main".toList "x".toList .str = some (mainScope none) := rfl
  cases hperform.symm.trans hs'
  have hnone : getVariable oatHash (fun _ _ => none) (mainScope none).vscope "main".toList
    "x".toList =
      some none := rfl
  rw [hnone] at hget
  cases hget

end Cfengine
