import Cfengine.Hashes
import Cfengine.Theory.KeyedList
import Cfengine.Variables

/-!
# Scopes and variables (`scope.c`, `vars.c`, `rlist.c`)

`AddVariableHash` and `GetVariable` on the list of scopes. `ExpandScalar` and
`MapIteratorsFromRval`, which call back into these, are arguments here, and so is what `strcmp`
reads when it is given a list cell in place of a string.
-/

namespace Cfengine
open Probing KeyedList

structure Scope where
  scope : CString
  hashtable : AssocHashTable

/-- The globals `VSCOPE` and `CONTEXTID`, and whether `THIS_AGENT_TYPE` is `cf_common`. -/
structure VarState where
  vscope : List Scope
  contextId : CString
  agentIsCommon : Bool

/-! ## `scope.c` -/

/-- The name of a scope without the default namespace. -/
def scopeName (scope : CString) : CString :=
  if "default:".toList.isPrefixOf scope then scope.drop 8 else scope

def getScope (vscope : List Scope) (scope : CString) : Option Scope :=
  vscope.find? fun cp => cp.scope = scopeName scope

/-- A write to the hash table of the scope that `GetScope` returns. -/
def VarState.setHashtable (s : VarState) (scope : CString) (hashtable : AssocHashTable) :
    VarState :=
  { s with
    vscope := modifyFirst (fun cp => cp.scope = scopeName scope) (fun cp => { cp with hashtable })
      s.vscope }

section
variable (getHash : CString → Fin cfHashTableSize)

/-! ## `GetVariable` -/

/-- `sscanf(sval, "%[^.].%s", scopeid, vlval)`; a part that does not match is empty. -/
def splitQualified (sval : CString) : CString × CString :=
  let scopeid := sval.takeWhile (· ≠ '.')
  let rest := (sval.dropWhile (· ≠ '.')).drop 1
  (scopeid, if scopeid = [] then [] else
    (rest.dropWhile isspace).takeWhile (!isspace ·))

/-- `HashLookupElement` and the return of its result. -/
def lookupIn (ptr : Scope) (vlval : CString) : Option (Rval × CfDataType) :=
  (hashLookupElement getHash ptr.hashtable vlval).map fun assoc => (assoc.rval, assoc.dtype)

/-- The lookup of the expanded name `sval`. `strncpy` leaves `sval` without its NUL if the name
fills it; `strcpy(vlval, lval)` is reached unless a scope was found for a qualified name. -/
def getVariable.find (vscope : List Scope) (scope lval sval : CString) :
    Option (Option (Rval × CfDataType)) :=
  if sval.length ≥ cfMaxVarSize - 1 then none
  else if isQualifiedVariable sval then
    match getScope vscope (splitQualified sval).1 with
    | some ptr =>
      let vlval := (splitQualified sval).2
      if vlval = [] then none else some (lookupIn getHash ptr vlval)
    | none => if lval.length ≥ cfMaxVarSize then none else some none
  else if lval.length ≥ cfMaxVarSize then none
  else
    some ((getScope vscope (scope.take (cfMaxVarSize - 1))).bind fun ptr =>
      lookupIn getHash ptr lval)

/-- The outer `none` is a read or write behind the end of one of the local buffers, a read of a
name that was not set, or an exit of `ExpandScalar`; the inner one is `cf_notype`. -/
def getVariable (expandScalar : List Scope → CString → Option (CString × Bool))
    (vscope : List Scope) (scope lval : CString) : Option (Option (Rval × CfDataType)) :=
  if isExpandable lval = 0 then getVariable.find getHash vscope scope lval lval
  else
    match expandScalar vscope lval with
    | none => none
    | some (_, false) => some none
    | some (expbuf, true) => getVariable.find getHash vscope scope lval expbuf

/-! ## `CopyRvalItem` -/

mutual

/-- The elements that `AppendRlist` appends for an item: a list is appended element by element, also
among the arguments of a function call. -/
def appendedElements : Rval → List Rval
  | .scalar item => [.scalar item]
  | .list l => appendedLists l
  | .fncall name args => [.fncall name (appendedLists args)]

def appendedLists : List Rval → List Rval
  | [] => []
  | x :: l => appendedElements x ++ appendedLists l

end

/-- One round of the loop of `CopyRvalItem` over a list: a naked reference to a list is replaced
by its elements. -/
def copiedElements (getVariable : VarLookup) : Rval → List Rval
  | .scalar item =>
    if isNakedVar item '@' then
      match getVariable (getNaked item) with
      | some (.list srp, _) => appendedLists srp
      | _ => [.scalar item]
    else [.scalar item]
  | rval => appendedElements rval

def copyRvalItem (getVariable : VarLookup) : Rval → Rval
  | .scalar item => .scalar item
  | .list l => .list (l.flatMap (copiedElements getVariable))
  | .fncall name args => .fncall name (appendedLists args)

/-! ## `AddVariableHash` -/

mutual

/-- `CompareVariableValue` returns 0 for a stored value that reads as the string `stored`. -/
def comparesEqual (stored : CString) : Rval → Bool
  | .scalar item => stored = item
  | .list [] => false
  | .list (x :: l) => !someComparesEqual stored (x :: l)
  | .fncall _ _ => true

def someComparesEqual (stored : CString) : List Rval → Bool
  | [] => false
  | x :: l => comparesEqual stored x || someComparesEqual stored l

end

/-- `CompareVariableValue(rval, ap) == 0`. `strcmp` reads `ap->rval.item` as a string, also where
it is not one. -/
def compareVariableValue (cellText : Rval → CString) (rval : Rval) (ap : CfAssoc) : Bool :=
  comparesEqual (match ap.rval with | .scalar item => item | item => cellText item) rval

/-- A list element where a string is expected. -/
def elementText (cellText : Rval → CString) : Rval → CString
  | .scalar item => item
  | item => cellText item

/-- `UnresolvedVariables(ap, rval.rtype)`. The item of `ap` is walked as a list if `rval` is one:
`none` is a read of the characters of a string, or of what lies behind a function call, as a list
cell. The walk ends at the name of a function call that is a reference. -/
def unresolvedVariables (cellText : Rval → CString) (ap : CfAssoc) : Rval → Option Bool
  | .scalar _ => some (isCf3VarString (elementText cellText ap.rval) ≠ 0)
  | .list _ =>
    match ap.rval with
    | .scalar _ => none
    | .list l => some (l.any fun x => isCf3VarString (elementText cellText x) ≠ 0)
    | .fncall name _ => if isCf3VarString name ≠ 0 then some true else none
  | .fncall _ _ => some false

/-- `assoc->rval = rval; assoc->dtype = dtype` -/
def CfAssoc.assign (rval : Rval) (dtype : CfDataType) (assoc : CfAssoc) : CfAssoc :=
  { assoc with rval, dtype }

/-- The loop of `HugeHashLookupElement`, followed by a write to the association that it finds. -/
def hugeHashAssign.loop (element : CString) (rval : Rval) (dtype : CfDataType)
    (buckets : Table CfAssoc) : Nat → Nat → Table CfAssoc
  | 0, _ => buckets
  | k + 1, i =>
    match buckets i with
    | .free => buckets
    | .deleted => loop element rval dtype buckets k ((i + 1) % cfHashTableSize)
    | .entry a =>
      if element = a.lval then Function.update buckets i (.entry (a.assign rval dtype))
      else loop element rval dtype buckets k ((i + 1) % cfHashTableSize)

/-- The assignment to the association that `HashLookupElement` returns. -/
def hashAssign : AssocHashTable → CString → Rval → CfDataType → AssocHashTable
  | .huge buckets, element, rval, dtype =>
    .huge (hugeHashAssign.loop element rval dtype buckets cfHashTableSize (getHash element))
  | .tiny array, element, rval, dtype =>
    .tiny
      { values := modifyFirst (fun a => a.lval = element) (CfAssoc.assign rval dtype) array.values
        size_le := by rw [length_modifyFirst]; exact array.size_le
        nodup := by
          rw [map_modifyFirst (f := CfAssoc.assign rval dtype) fun _ => rfl]
          exact array.nodup }

/-- `rval.item == NULL` -/
def isNullItem : Rval → Bool
  | .list [] => true
  | _ => false

/-- The value is or contains a reference to the variable itself. -/
def containsVar (lval : CString) : Rval → Bool
  | .scalar item => stringContainsVar lval item
  | .list l => l.any fun
    | .scalar item => stringContainsVar lval item
    | _ => false
  | .fncall _ _ => false

/-- The lookups of `CopyRvalItem`, in the scope `CONTEXTID`. -/
def VarState.contextLookup (expandScalar : List Scope → CString → Option (CString × Bool))
    (s : VarState) : VarLookup := fun naked =>
  (getVariable getHash expandScalar s.vscope s.contextId naked).join

/-- The syntax checker looks for lists in a value, which may rewrite it in place. -/
def VarState.mappedRval (mapIteratorsFromRval : VarState → Rval → Rval) (s : VarState)
    (rval : Rval) : Rval :=
  if s.agentIsCommon && s.contextId ≠ "this".toList then mapIteratorsFromRval s rval else rval

/-- `none` is an exit through `FatalError`, or the walk of `UnresolvedVariables` over an item that
is no list. Its answer decides on a message only. The empty list is a `NULL` item. -/
def addVariableHash (expandScalar : List Scope → CString → Option (CString × Bool))
    (mapIteratorsFromRval : VarState → Rval → Rval) (cellText : Rval → CString) (s : VarState)
    (scope lval : CString) (rval : Rval) (dtype : CfDataType) : Option (Bool × VarState) :=
  if isNullItem rval then some (false, s)
  else if lval.length > cfMaxVarSize then some (false, s)
  else if scope ≠ "body".toList && containsVar lval rval then some (false, s)
  else
    match getScope s.vscope scope with
    | none => some (false, s)
    | some ptr =>
      let rval := s.mappedRval mapIteratorsFromRval rval
      let copyRvalItem := copyRvalItem (s.contextLookup getHash expandScalar)
      match hashLookupElement getHash ptr.hashtable lval with
      | some assoc =>
        if compareVariableValue cellText rval assoc then some (true, s)
        else
          (unresolvedVariables cellText assoc rval).map fun _ =>
            (true, s.setHashtable scope
              (hashAssign getHash ptr.hashtable lval (copyRvalItem rval) dtype))
      | none =>
        match hashInsertElement getHash copyRvalItem ptr.hashtable lval rval dtype with
        | (true, hashtable) => some (true, s.setHashtable scope hashtable)
        | (false, _) => none

/-! ## Variables and scopes that are made and deleted -/

/-- `DeleteScalar` and `DeleteVariable` -/
def deleteScalar (s : VarState) (scope lval : CString) : VarState :=
  match getScope s.vscope scope with
  | none => s
  | some ptr => s.setHashtable scope (hashDeleteElement getHash ptr.hashtable lval).2

/-- A variable that `GetVariable` finds is deleted. -/
def deleteFound (expandScalar : List Scope → CString → Option (CString × Bool)) (s : VarState)
    (scope lval : CString) : Option VarState :=
  (getVariable getHash expandScalar s.vscope scope lval).map fun found =>
    if found.any fun (_, dtype) => dtype ≠ .notype then deleteScalar getHash s scope lval else s

section
variable (expandScalar : List Scope → CString → Option (CString × Bool))
  (mapIteratorsFromRval : VarState → Rval → Rval) (cellText : Rval → CString)

/-- `NewScalar`; `none` is an exit, or what `GetVariable` reads or writes behind a buffer. -/
def newScalar (s : VarState) (scope lval rval : CString) (dtype : CfDataType) : Option VarState :=
  match getScope s.vscope scope with
  | none => some s
  | some _ => do
    let s ← deleteFound getHash expandScalar s scope lval
    let (_, s) ← addVariableHash getHash expandScalar mapIteratorsFromRval cellText s scope lval
      (.scalar rval) dtype
    return s

/-- `NewList` -/
def newList (s : VarState) (scope lval : CString) (rval : List Rval) (dtype : CfDataType) :
    Option VarState := do
  let s ← deleteFound getHash expandScalar s scope lval
  let (_, s) ← addVariableHash getHash expandScalar mapIteratorsFromRval cellText s scope lval
    (.list rval) dtype
  return s

end

/-- `NewScope` -/
def newScope (s : VarState) (name : CString) : VarState :=
  if s.vscope.any fun ptr => ptr.scope = name then s
  else { s with vscope := { scope := name, hashtable := hashInit } :: s.vscope }

/-- `DeleteScope` -/
def deleteScope (s : VarState) (name : CString) : VarState :=
  { s with vscope := s.vscope.eraseP fun ptr => ptr.scope = name }

/-- The loop of `HashCopy`, from the table that is iterated over to that of `scope`. -/
def copyScope.loop (expandScalar : List Scope → CString → Option (CString × Bool))
    (scope : CString) : Nat → HashIterator → VarState → VarState
  | 0, _, s => s
  | fuel + 1, i, s =>
    match hashIteratorNext i, getScope s.vscope scope with
    | (some assoc, i), some np =>
      loop expandScalar scope fuel i
        (s.setHashtable scope (hashInsertElement getHash
          (copyRvalItem (s.contextLookup getHash expandScalar)) np.hashtable assoc.lval assoc.rval
          assoc.dtype).2)
    | _, _ => s

/-- `CopyScope`. A table has at most `CF_HASHTABLESIZE` associations. -/
def copyScope (expandScalar : List Scope → CString → Option (CString × Bool)) (s : VarState)
    (newScopename oldScopename : CString) : VarState :=
  let s := newScope s newScopename
  match getScope s.vscope oldScopename with
  | none => s
  | some op =>
    copyScope.loop getHash expandScalar newScopename (cfHashTableSize + 1)
      (hashIteratorInit op.hashtable) s

end

end Cfengine
