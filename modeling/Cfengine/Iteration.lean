import Cfengine.Hashes

/-!
# List iteration (`iteration.c`, the loop of `ExpandPromiseAndDo`)

A promise that mentions list variables is expanded once for each combination of their elements.
The iteration context is a list of wheels, one for each variable: the elements between two
`CF_NULL_VALUE` sentinels, and a pointer to the current node. A pointer into a list is the rest of
the list from there on, and `NULL` is the empty rest. Reading through a `NULL` pointer is `none`.
-/

namespace Cfengine

/-- `strcmp(item, CF_NULL_VALUE) == 0` -/
def Rval.isNullValue : Rval → Bool
  | .scalar item => item = cfNullValue
  | _ => false

/-- An `Rlist` node of an iteration context: its `CfAssoc`, whose value is a list, and its
`state_ptr`. -/
structure Wheel where
  lval : CString
  dtype : CfDataType
  rval : List Rval
  statePtr : List Rval

/-- `state->next` -/
def rlistNext : List Rval → Option (List Rval)
  | [] => none
  | _ :: next => some next

/-! ## The initial state -/

/-- The sentinel at the end is appended after `state_ptr` was set to the node behind the sentinel
at the front: it shows there if there is such a node. A value that is not a list would be read as
one. -/
def orthogAppendRlist (start : List Wheel) (item : CfAssoc) : Option (List Wheel) :=
  match item.rval with
  | .list elements =>
    let statePtr := match elements with
      | [] => []
      | _ :: _ => elements ++ [.scalar cfNullValue]
    let rval := .scalar cfNullValue :: (elements ++ [.scalar cfNullValue])
    some (start ++ [{ lval := item.lval, dtype := item.dtype, rval, statePtr }])
  | _ => none

/-- The elements that are function calls are replaced by their values. -/
def evaluateElements (evaluateFunctionCall : CString → List Rval → Rval) : Rval → Rval
  | .list elements => .list (elements.map fun
    | .fncall name args => evaluateFunctionCall name args
    | element => element)
  | rval => rval

/-- `getVariable` is `GetVariable` in the scope of the promise; a variable without a value is
reported and left out. The `state_ptr` of the name list, which this function also sets, is not
read by the iteration. -/
def newIterationContext (getVariable : VarLookup)
    (evaluateFunctionCall : CString → List Rval → Rval) (copyRvalItem : Rval → Rval)
    (namelist : List CString) : Option (List Wheel) :=
  namelist.foldlM (fun derefListOfLists name =>
    match getVariable name with
    | none => some derefListOfLists
    | some (retval, dtype) =>
      orthogAppendRlist derefListOfLists
        (newAssoc copyRvalItem name (evaluateElements evaluateFunctionCall retval) dtype)) []

/-! ## Steps -/

/-- All wheels are at their last node or at `NULL`. -/
def endOfIteration (iterator : List Wheel) : Bool :=
  iterator.all fun wheel => wheel.statePtr.length ≤ 1

/-- Some wheel is at a `CF_NULL_VALUE` node. -/
def nullIterators (iterator : List Wheel) : Bool :=
  iterator.any fun wheel =>
    match wheel.statePtr with
    | [] => false
    | item :: _ => item.isNullValue

/-- The first node behind the sentinel at the front. -/
def Wheel.reset (wheel : Wheel) : Option Wheel := do
  let statePtr ← rlistNext wheel.rval
  return { wheel with statePtr }

/-- `IncrementIterationContextInternal`. Its loop over `NullIterators` leaves in its first round,
by `return` or by `break`. -/
def incrementIterationContext : List Wheel → Option (Bool × List Wheel)
  | [] => some (false, [])
  | wheel :: rest =>
    match wheel.statePtr with
    | [] => some (false, wheel :: rest)
    | [_] =>
      match rest with
      | [] => some (false, [wheel])
      | _ :: _ => do
        let (more, rest') ← incrementIterationContext rest
        if more then
          return (true, (← wheel.reset) :: rest')
        else
          return (false, wheel :: rest')
    | _ :: next => do
      let wheel := { wheel with statePtr := next }
      if nullIterators (wheel :: rest) then
        let (more, rest') ← incrementIterationContext rest
        if more then
          return (true, (← wheel.reset) :: rest')
        else
          let wheel := { wheel with statePtr := ← rlistNext next }
          return (!endOfIteration (wheel :: rest'), wheel :: rest')
      else
        return (!endOfIteration (wheel :: rest), wheel :: rest)

attribute [grind =] incrementIterationContext

/-- `do ... while (IncrementIterationContext(lol))`: the contexts in which the body runs, and the
one at the end. -/
def iterationLoop : Nat → List Wheel → Option (List (List Wheel) × List Wheel)
  | 0, _ => none
  | fuel + 1, lol => do
    let (more, lol') ← incrementIterationContext lol
    if more then
      let (visits, last) ← iterationLoop fuel lol'
      return (lol :: visits, last)
    else
      return ([lol], lol')

/-! ## `ExpandPromiseAndDo` -/

/-- `while (NullIterators(lol))`, which also breaks once `cutoff++ > cf_null_cutoff`. -/
def skipNullIterators (lol : List Wheel) : Nat → Option (List Wheel)
  | 0 => some lol
  | rounds + 1 => do
    if nullIterators lol then
      let (_, lol) ← incrementIterationContext lol
      skipNullIterators lol rounds
    else
      return lol

/-- `cf_null_cutoff` -/
def cfNullCutoff : Nat := 5

/-- The contexts in which `ExpandPromiseAndDo` expands the promise. -/
def expandPromiseAndDo (fuel : Nat) (lol : List Wheel) : Option (List (List Wheel)) := do
  if !lol.isEmpty && endOfIteration lol then
    return []
  let lol ← skipNullIterators lol (cfNullCutoff + 2)
  if !lol.isEmpty && endOfIteration lol then
    return []
  let (visits, _) ← iterationLoop fuel lol
  return visits

end Cfengine
