import Cfengine.PolicyNames
import Cfengine.Theory.Checks

/-!
# The check of a policy (`policy.c`)

`PolicyCheck` looks at the bundles and bodies of a policy and appends an error for each thing that
is wrong. What it knows of the promise types is a parameter, `CF_ALL_SUBTYPES`.
-/

namespace Cfengine
open Checks

/-- `SubType` -/
structure SubType where
  name : Option CString
  promiselist : List Promise

/-- What is read of a `Bundle` with its promises. -/
structure PolicyBundle extends Bundle where
  type : CString
  args : List CString
  subtypes : List SubType

/-- `Policy` -/
structure Policy where
  bundles : List PolicyBundle
  bodies : List Body

/-- What an error is about. -/
inductive PolicyElement where
  | bundle (bundle : PolicyBundle)
  | body (body : Body)
  | subType (subtype : SubType)
  | constraint (constraint : Constraint)

/-- The format of a message with its arguments. -/
inductive PolicyMessage where
  /-- `Variable contains existing data type contstraint %s, tried to redefine with %s` -/
  | varsConstraintDuplicateType (dataType lval : CString)
  /-- `Conflicting arity in calling bundle %s, expected %d arguments, %d given` -/
  | methodsBundleArity (name : CString) (expected given : Nat)
  /-- `Use of a reserved container name as a bundle name "%s"` -/
  | bundleNameReserved (name : CString)
  /-- `Duplicate definition of bundle %s with type %s` -/
  | bundleRedefinition (name type : CString)
  /-- `Duplicate definition of body %s with type %s` -/
  | bodyRedefinition (name type : CString)
  /-- `Missing promise type category for %s bundle`, with a pointer to the bundle for the string. -/
  | subtypeMissingName
  /-- `%s is not a valid type category for bundle %s` -/
  | subtypeInvalid (name : Option CString) (bundle : CString)

/-- `PolicyError` -/
structure PolicyError where
  subject : PolicyElement
  message : PolicyMessage

/-- `IsDataType` -/
def isDataType (s : CString) : Bool :=
  ["string", "slist", "int", "ilist", "real", "rlist"].any fun type => type.toList = s

/-- `GetBundle`, for an agent. -/
def getBundle (policy : Policy) (name agent : CString) : Option PolicyBundle :=
  policy.bundles.find? fun bp => bp.name = name && (bp.type = agent || bp.type = "common".toList)

/-- `SubTypeSyntaxLookup` finds an entry of the table, which has types of promises with types of
bundles. -/
def subTypeSyntaxLookup (syntaxTable : List (CString × CString)) (bundleType : CString)
    (subtypeName : Option CString) :
    Bool :=
  syntaxTable.any fun entry => subtypeName = some entry.1 &&
    (bundleType = entry.2 || "*".toList = entry.2)

/-- The loop of `PolicyCheckPromiseVars`, behind a constraint for this data type. -/
def policyCheckPromiseVars.loop : Option CString → List Constraint → Check PolicyError
  | _, [] => passed
  | dataType, cp :: conlist =>
    if isDataType cp.lval then
      both (dataType.elim passed fun dataType =>
          report ⟨.constraint cp, .varsConstraintDuplicateType dataType cp.lval⟩)
        (loop (some cp.lval) conlist)
    else loop dataType conlist

/-- `PolicyCheckPromiseVars` -/
def policyCheckPromiseVars (pp : Promise) : Check PolicyError :=
  policyCheckPromiseVars.loop none pp.conlist

/-- The check of a constraint in `PolicyCheckPromiseMethods`. -/
def policyCheckUsebundle (policy : Policy) (cp : Constraint) : Check PolicyError :=
  if cp.lval = "usebundle".toList then
    match cp.rval with
    | .fncall name args =>
      (getBundle policy name "agent".toList).elim passed fun callee =>
        ensure (args.length = callee.args.length)
          ⟨.constraint cp, .methodsBundleArity name callee.args.length args.length⟩
    | _ => passed
  else passed

/-- `PolicyCheckPromiseMethods` -/
def policyCheckPromiseMethods (policy : Policy) (pp : Promise) : Check PolicyError :=
  each (policyCheckUsebundle policy) pp.conlist

/-- `PolicyCheckPromise` -/
def policyCheckPromise (policy : Policy) (pp : Promise) : Check PolicyError :=
  if pp.agentsubtype = "vars".toList then policyCheckPromiseVars pp
  else if pp.agentsubtype = "methods".toList then policyCheckPromiseMethods policy pp
  else passed

/-- `PolicyCheckSubType` -/
def policyCheckSubType (syntaxTable : List (CString × CString)) (policy : Policy)
    (bundle : PolicyBundle) (subtype : SubType) : Check PolicyError :=
  both (ensure subtype.name.isSome ⟨.subType subtype, .subtypeMissingName⟩) <|
  both (ensure (subTypeSyntaxLookup syntaxTable bundle.type subtype.name)
      ⟨.subType subtype, .subtypeInvalid subtype.name bundle.name⟩) <|
  each (policyCheckPromise policy) subtype.promiselist

/-- `reserved_names` -/
def reservedNames : List CString :=
  ["sys", "const", "mon", "edit", "match", "mon", "this"].map String.toList

/-- `PolicyCheckBundle` -/
def policyCheckBundle (syntaxTable : List (CString × CString)) (policy : Policy)
    (bundle : PolicyBundle) :
    Check PolicyError :=
  both (ensure (!reservedNames.contains bundle.name)
    ⟨.bundle bundle, .bundleNameReserved bundle.name⟩) <|
  each (policyCheckSubType syntaxTable policy bundle) bundle.subtypes

/-- A bundle against another one. -/
def policyCheckBundles (bp bp2 : PolicyBundle) : Check PolicyError :=
  ensure (!(bp.name = bp2.name && bp.type = bp2.type))
    ⟨.bundle bp, .bundleRedefinition bp.name bp.type⟩

/-- A body against another one. -/
def policyCheckBodies (bp bp2 : Body) : Check PolicyError :=
  ensure (!(bp.name = bp2.name && bp.type = bp2.type && bp.type ≠ "file".toList))
    ⟨.body bp, .bodyRedefinition bp.name bp.type⟩

/-- `PolicyCheck` -/
def policyCheck (syntaxTable : List (CString × CString)) (policy : Policy) : Check PolicyError :=
  both (eachPair policyCheckBundles policy.bundles) <|
  both (each (policyCheckBundle syntaxTable policy) policy.bundles) <|
  eachPair policyCheckBodies policy.bodies

end Cfengine
