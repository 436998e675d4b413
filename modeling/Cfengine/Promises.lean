import Cfengine.Expand
import Cfengine.Scope
import Cfengine.Theory.Accum

/-!
# Copies of promises (`promises.c`, `args.c`, `expand.c`)

`DeRefCopyPromise` copies a promise and replaces the references to bodies in it by the attributes
of the bodies. It goes through the constraints of the promise, and `MapBodyArgs` through the
arguments of a reference, which are the ones of the promise itself. So the model returns what the
promise is afterwards, too.
-/

namespace Cfengine
open Accum

/-- `Constraint` -/
structure Constraint where
  lval : CString
  rval : Rval
  classes : CString
  referencesBody : Bool

/-- `Body` -/
structure Body where
  type : CString
  name : CString
  args : List CString
  conlist : List Constraint

/-- `Promise` -/
structure Promise where
  promiser : CString
  promisee : Option Rval
  classes : Option CString
  bundletype : CString
  bundle : CString
  «namespace» : CString
  agentsubtype : CString
  ref : Option CString
  conlist : List Constraint

/-- The value of a function call: a string or a list. -/
inductive FnCallValue where
  | scalar (item : CString)
  | list (item : List Rval)

/-- What the variables are looked up with, and the functions. -/
structure PolicyEnv where
  getHash : CString → Fin cfHashTableSize
  expandScalar : List Scope → CString → Option (CString × Bool)
  mapIteratorsFromRval : VarState → Rval → Rval
  /-- What is read of a list or a function call that is taken for a string. -/
  cellText : Rval → CString
  /-- `none` is `FNCALL_FAILURE`. A function may define variables. -/
  evaluateFunctionCall : VarState → CString → List Rval → Option FnCallValue × VarState
  functionReturnType : CString → CfDataType

namespace PolicyEnv

variable (env : PolicyEnv)

def itemText : Rval → CString
  | .scalar item => item
  | rval => env.cellText rval

/-- `GetVariable`; a name that does not fit in its buffers is not found. -/
def lookup (s : VarState) (scopeid : CString) : VarLookup := fun name =>
  (getVariable env.getHash env.expandScalar s.vscope scopeid name).join.filter
    fun (_, dtype) => dtype ≠ .notype

/-- What `ExpandPrivateScalar` reads of a variable: for a scalar type, the item as a string. -/
def scalarLookup (s : VarState) (scopeid : CString) : VarLookup := fun name =>
  (env.lookup s scopeid name).map fun (rval, dtype) =>
    if dtype ∈ [.str, .int, .real] then (.scalar (env.itemText rval), dtype) else (rval, dtype)

/-! ## `expand.c` -/

section
variable (s : VarState) (scopeid : CString)

/-- The loop of `ExpandList`, with `ExpandPrivateRval` for the elements. -/
def expandList (expandPrivateRval : Rval → Option Rval) (expandnaked : Bool) :
    List Rval → Option (List Rval)
  | [] => some []
  | .scalar item :: list => do
    let returnval ←
      if isNakedVar item '@' then
        if !expandnaked then some (.scalar item)
        else
          match env.lookup s scopeid (getNaked item) with
          | some (rval, _) => expandPrivateRval rval
          | none => expandPrivateRval (.scalar item)
      else expandPrivateRval (.scalar item)
    let rest ← expandList expandPrivateRval expandnaked list
    return appendedElements returnval ++ rest
  | rval :: list => do
    let returnval ← expandPrivateRval rval
    let rest ← expandList expandPrivateRval expandnaked list
    return appendedElements returnval ++ rest

/-- `ExpandPrivateRval`, to a depth of `fuel`; a list may refer to itself. -/
def expandPrivateRval : Nat → Rval → Option Rval
  | 0, _ => none
  | _ + 1, .scalar item =>
    (expandPrivateScalar (env.scalarLookup s scopeid) item).map fun (buffer, _) => .scalar buffer
  | fuel + 1, .list l =>
    (env.expandList s scopeid (expandPrivateRval fuel) true l).map .list
  | fuel + 1, .fncall name args =>
    (env.expandList s scopeid (expandPrivateRval fuel) false args).map (.fncall name)

end

/-! ## `args.c` -/

/-- `StringDataType`; `none` is what `GetVariable` reads or writes behind its buffers. -/
def stringDataType (s : VarState) (scopeid string : CString) : Option CfDataType :=
  if string.head? = some '$' then
    let var := extractInnerCf3VarString string
    if var = [] then some .str
    else
      (getVariable env.getHash env.expandScalar s.vscope scopeid var).map fun found =>
        if var.length = string.length then found.elim .notype Prod.snd else .str
  else some .str

/-- What a value is after it was passed to `AddVariableHash`: the syntax checker rewrites strings
in place. -/
def passedRval (s : VarState) (scope lval : CString) (rval : Rval) : Rval :=
  if isNullItem rval || lval.length > cfMaxVarSize || (getScope s.vscope scope).isNone then rval
  else
    match rval, s.mappedRval env.mapIteratorsFromRval rval with
    | .scalar _, .scalar item => .scalar item
    | .list _, .list item => .list item
    | rval, _ => rval

/-- `AddVariableHash`, whose truth value is not looked at. -/
def addVariable (s : VarState) (scopeid lval : CString) (rval : Rval) (dtype : CfDataType) :
    Option VarState :=
  (addVariableHash env.getHash env.expandScalar env.mapIteratorsFromRval env.cellText s scopeid lval
    rval dtype).map Prod.snd

/-- A value that is passed to `AddVariableHash` as a string. -/
def addAsString (s : VarState) (scopeid lval : CString) (rval : Rval) (dtype : CfDataType) :
    Option VarState :=
  if isNullItem rval then some s
  else env.addVariable s scopeid lval (.scalar (env.itemText rval)) dtype

/-- The loop of `MapBodyArgs`, for the argument `rpg` and the parameter `lval`. The result is what
the argument is afterwards. The syntax checker goes on with the copy of a call that failed. -/
def mapBodyArg (scopeid : CString) (s : VarState) (arg : Rval × CString) :
    Option (Rval × VarState) := do
  let (rpg, lval) := arg
  let dtg ← env.stringDataType s scopeid (env.itemText rpg)
  let _ ← env.stringDataType s scopeid lval
  match rpg with
  | .fncall name args =>
    let dtg := env.functionReturnType name
    match env.evaluateFunctionCall s name args with
    | (none, s) =>
      if !s.agentIsCommon then return (.fncall name args, s)
      else
        let rval := .fncall name (appendedLists args)
        let s' ← env.addAsString s scopeid lval rval dtg
        return (rval, s')
    | (some (.scalar item), s) =>
      let s' ← env.addVariable s scopeid lval (.scalar item) dtg
      return (env.passedRval s scopeid lval (.scalar item), s')
    | (some (.list item), s) =>
      let s' ← env.addAsString s scopeid lval (.list item) dtg
      return (.list item, s')
  | rval =>
    let s' ← env.addVariable s scopeid lval rval dtg
    return (env.passedRval s scopeid lval rval, s')

/-- `MapBodyArgs`: the arguments afterwards. -/
def mapBodyArgs (s : VarState) (scopeid : CString) (give : List Rval) (take : List CString) :
    Option (List Rval × VarState) :=
  if give.length ≠ take.length then some (give, s)
  else mapAccum (env.mapBodyArg scopeid) s (give.zip take)

/-! ## `promises.c` -/

/-- `IsBody` -/
def isBody (list : List Body) (ns key : CString) : Option Body :=
  let fqname :=
    if ':' ∈ key ∨ ns = "default".toList then
      if "default:".toList.isPrefixOf key then key.drop "default:".length else key
    else (ns ++ ':' :: key).take (cfBufSize - 2)
  list.find? fun bp => bp.name = fqname

/-- The body that a constraint refers to. -/
def bodyOf (bodies : List Body) (ns : CString) (cp : Constraint) : Option Body :=
  match cp.rval with
  | .scalar bodyname => if cp.referencesBody then isBody bodies ns bodyname else none
  | .fncall name _ => isBody bodies ns name
  | .list _ => none

def copyRval (s : VarState) : Rval → Rval :=
  copyRvalItem (s.contextLookup env.getHash env.expandScalar)

def bodyScope : CString := "body".toList

/-- The attributes of a body, expanded in the scope `body`. -/
def expandConlist (fuel : Nat) (s : VarState) (conlist : List Constraint) :
    Option (List Constraint) :=
  conlist.mapM fun scp => (env.expandPrivateRval s bodyScope fuel scp.rval).map fun returnval =>
    { scp with rval := returnval, referencesBody := false }

/-- The constraints that are appended to the copy for one of the promise, what this one is
afterwards, and the variables. -/
def deRefConstraint (fuel : Nat) (bodies : List Body) (ns : CString) (s : VarState)
    (cp : Constraint) : Option ((List Constraint × Constraint) × VarState) :=
  match bodyOf bodies ns cp with
  | none => some (([{ cp with rval := env.copyRval s cp.rval, referencesBody := false }], cp), s)
  | some bp =>
    let referent : Constraint :=
      { lval := cp.lval, rval := .scalar "true".toList, classes := cp.classes,
        referencesBody := false }
    if bp.args ≠ [] then
      let s := newScope s bodyScope
      match cp.rval with
      | .fncall name (arg :: args) => do
        let (give, s) ← env.mapBodyArgs s bodyScope (arg :: args) bp.args
        let conlist ← env.expandConlist fuel s bp.conlist
        return ((referent :: conlist, { cp with rval := .fncall name give }),
          deleteScope s bodyScope)
      | _ => do
        let conlist ← env.expandConlist fuel s bp.conlist
        return ((referent :: conlist, cp), deleteScope s bodyScope)
    else
      match cp.rval with
      | .fncall _ _ => some (([referent], cp), s)
      | _ =>
        some ((referent :: bp.conlist.map fun scp =>
          { scp with rval := env.copyRval s scp.rval, referencesBody := false }, cp), s)

/-- The copy of a promise, the promise afterwards, and the variables. -/
structure DeRefCopy where
  pcopy : Promise
  pp : Promise
  vars : VarState

/-- `DeRefCopyPromise`; `none` is an exit, or a write behind the end of a local buffer. The bodies
are only read. -/
def deRefCopyPromise (fuel : Nat) (bodies : List Body) (s : VarState) (pp : Promise) :
    Option DeRefCopy :=
  let promisee := pp.promisee.map (env.copyRval s)
  if !pp.promisee.any isNullItem && promisee.any isNullItem then none
  else
    (mapAccum (env.deRefConstraint fuel bodies pp.namespace) s pp.conlist).map fun (l, s) =>
      { pcopy := { pp with promisee, conlist := (l.map Prod.fst).flatten }
        pp := { pp with conlist := l.map Prod.snd }
        vars := s }

end PolicyEnv

end Cfengine
