import Cfengine.Scope

/-!
# Stack frames (`scope.c`)

The scope `this` is saved by giving it another name in the list of scopes, while a stack holds a
pointer to it. A pointer is the address of an element of the list.
-/

namespace Cfengine

def thisScope : CString := "this".toList

/-- `VSCOPE` with the addresses of its elements, `CF_STCK` and `CF_STCKFRAME`. -/
structure FrameState where
  vars : VarState
  addresses : List Nat
  cfStck : List Nat
  cfStckFrame : Nat

/-- An address that is not in use. -/
def malloc (addresses : List Nat) : Nat := addresses.sum + 1

/-- `op->scope = name`, where `op` is an address. -/
def renameScope (addresses : List Nat) (vscope : List Scope) (op : Nat) (name : CString) :
    List Scope :=
  List.zipWith (fun address cp => if address = op then { cp with scope := name } else cp) addresses
    vscope

namespace FrameState

/-- `DeleteScope("this")` -/
def deleteThisScope (s : FrameState) : FrameState :=
  { s with
    vars := deleteScope s.vars thisScope
    addresses := s.addresses.eraseIdx (s.vars.vscope.findIdx fun ptr => ptr.scope = thisScope) }

/-- `PushThisScope` -/
def pushThisScope (s : FrameState) : FrameState :=
  match (s.addresses.zip s.vars.vscope).find? fun (_, cp) => cp.scope = thisScope with
  | none => s
  | some (op, _) =>
    let frame := s.cfStckFrame + 1
    { s with
      cfStckFrame := frame
      cfStck := op :: s.cfStck
      vars :=
        { s.vars with
          vscope := renameScope s.addresses s.vars.vscope op
            (("this_".toList ++ Nat.toDigits 10 frame).take (cfMaxVarSize - 1)) } }

/-- `PopThisScope`; `none` is an exit, or a write through a pointer to no scope. -/
def popThisScope (s : FrameState) : Option FrameState :=
  if s.cfStckFrame = 0 then some s
  else
    let s := s.deleteThisScope
    match s.cfStck with
    | [] => none
    | op :: cfStck =>
      if op ∈ s.addresses then
        some
          { s with
            cfStck
            cfStckFrame := s.cfStckFrame - 1
            vars :=
              { s.vars with vscope := renameScope s.addresses s.vars.vscope op thisScope } }
      else none

end FrameState

/-- What is done to the scope `this`: a block saves it, copies a scope to a new one, goes on with
that and restores the saved one. -/
inductive ScopeStep where
  | newScalar (lval rval : CString) (dtype : CfDataType)
  | newList (lval : CString) (rval : List Rval) (dtype : CfDataType)
  | deleteScalar (lval : CString)
  | block (oldScopename : CString) (body : List ScopeStep)

namespace ScopeStep

section
variable (getHash : CString → Fin cfHashTableSize)
  (expandScalar : List Scope → CString → Option (CString × Bool))
  (mapIteratorsFromRval : VarState → Rval → Rval) (cellText : Rval → CString)

/-- `CopyScope("this", oldScopename)` -/
def copyToThisScope (s : FrameState) (oldScopename : CString) : FrameState :=
  { s with
    vars := copyScope getHash expandScalar s.vars thisScope oldScopename
    addresses :=
      if s.vars.vscope.any fun ptr => ptr.scope = thisScope then s.addresses
      else malloc (s.addresses ++ s.cfStck) :: s.addresses }

mutual

def run (s : FrameState) : ScopeStep → Option FrameState
  | newScalar lval rval dtype =>
    (Cfengine.newScalar getHash expandScalar mapIteratorsFromRval cellText s.vars thisScope lval
      rval
      dtype).map fun vars => { s with vars }
  | newList lval rval dtype =>
    (Cfengine.newList getHash expandScalar mapIteratorsFromRval cellText s.vars thisScope lval rval
      dtype).map fun vars => { s with vars }
  | deleteScalar lval =>
    some { s with vars := Cfengine.deleteScalar getHash s.vars thisScope lval }
  | block oldScopename body =>
    (runAll (copyToThisScope getHash expandScalar s.pushThisScope oldScopename) body).bind
      FrameState.popThisScope

def runAll (s : FrameState) : List ScopeStep → Option FrameState
  | [] => some s
  | x :: steps => (run s x).bind fun s => runAll s steps

end

end

end ScopeStep

end Cfengine
