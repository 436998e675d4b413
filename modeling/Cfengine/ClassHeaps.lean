import Cfengine.EnvContext
import Cfengine.FilesNames
import Cfengine.PersistentContext

/-!
# Class heaps (`env_context.c`, `alphalist.c`)

The functions that define and cancel classes, and the stack of the private ones. An `AlphaList` is
given by the address of its items: a copy of the pointers is a copy of the address, and the items
are where they were.
-/

namespace Cfengine

/-- The globals with the classes. -/
structure ClassHeaps where
  /-- The items at an address. -/
  items : Nat → AlphaList
  /-- The next address of `malloc`. -/
  fresh : Nat
  vheap : Nat
  vaddclasses : Nat
  privclassheap : List Nat
  vnegheap : List CString
  vdelclasses : List CString
  vhardheap : AlphaList
  /-- The names, each with the classes in which it counts. -/
  abortheap : List (CString × Option CString)
  abortbundleheap : List (CString × Option CString)
  abortbundle : Bool

namespace ClassHeaps

/-- What `IsDefinedClass` reads. -/
def context (heaps : ClassHeaps) : ClassContext where
  vnegheap := heaps.vnegheap
  vdelclasses := heaps.vdelclasses
  vhardheap := heaps.vhardheap
  vheap := heaps.items heaps.vheap
  vaddclasses := heaps.items heaps.vaddclasses

/-- Items are written at an address. -/
def setItems (heaps : ClassHeaps) (address : Nat) (al : AlphaList) : ClassHeaps :=
  { heaps with items := Function.update heaps.items address al }

/-- Items are written at a new address. -/
def alloc (heaps : ClassHeaps) (al : AlphaList) : ClassHeaps :=
  { heaps.setItems heaps.fresh al with fresh := heaps.fresh + 1 }

end ClassHeaps

/-! ## Lists -/

/-- No items. -/
def emptyAlphaList : AlphaList := fun _ => []

/-- `PrependAlphaList` -/
def prependAlphaList (heaps : ClassHeaps) (al : Nat) (string : CString) : ClassHeaps :=
  let i := string.headD '\x00'
  heaps.setItems al (Function.update (heaps.items al) i (string :: heaps.items al i))

/-- `DeleteFromAlphaList`, which deletes the first item with this name. -/
def deleteFromAlphaList (heaps : ClassHeaps) (al : Nat) (string : CString) : ClassHeaps :=
  let i := string.headD '\x00'
  heaps.setItems al (Function.update (heaps.items al) i ((heaps.items al i).erase string))

/-- `CF_ALPHABETSIZE` -/
def cfAlphabetSize : Nat := 256

/-- `MatchInAlphaList` -/
def matchInAlphaList (fullTextMatch : CString → CString → Bool) (al : AlphaList)
    (string : CString) : Bool :=
  let i := string.headD '\x00'
  if i.isAlphanum ∨ i = '_' then (al i).any (fullTextMatch string)
  else (List.range cfAlphabetSize).any fun i => (al (Char.ofNat i)).any (fullTextMatch string)

/-- `CanonifyNameInPlace` -/
def canonifyNameInPlace (s : CString) : CString := s.map fun c => if c.isAlphanum then c else '_'

/-- `CanonifyName` -/
def canonifyName (str : CString) : CString := canonifyNameInPlace (str.take (cfBufSize - 1))

/-! ## Defining and deleting -/

/-- `strncpy` to a buffer of `CF_MAXVARSIZE`, which has no end where the string does not fit. -/
def copyName (s : CString) : Option CString := if s.length ≥ cfMaxVarSize then none else some s

/-- The buffer with the qualified name of `NewBundleClass` and `DeleteClass`. -/
def qualifyName («namespace» : Option CString) (name : CString) : Option CString :=
  match «namespace» with
  | none => copyName name
  | some ns =>
    if ns ≠ "default".toList then some ((ns ++ ':' :: name).take (cfMaxVarSize - 1))
    else copyName name

section
variable (fullTextMatch : CString → CString → Bool)

/-- `IsRegexItemIn` -/
def isRegexItemIn (context : ClassContext) (list : List (CString × Option CString))
    (regex : CString) : Bool :=
  list.any fun ptr =>
    isDefinedClass context none ptr.2 &&
      (regex = ptr.1 || fullTextMatch regex ptr.1 || fullTextMatch ptr.1 regex)

/-- What `NewClass` and `NewBundleClass` do before they look for the class. `none` is the end of the
program. -/
def abortOnName (heaps : ClassHeaps) («class» : CString) : Option ClassHeaps :=
  let heaps :=
    { heaps with
      abortbundle := heaps.abortbundle ||
        isRegexItemIn fullTextMatch heaps.context heaps.abortbundleheap «class» }
  if isRegexItemIn fullTextMatch heaps.context heaps.abortheap «class» then none else some heaps

/-- What they do when it has been defined. -/
def abortOnClasses (heaps : ClassHeaps) («namespace» : Option CString) : Option ClassHeaps :=
  let isDefined (ip : CString × Option CString) : Bool :=
    isDefinedClass heaps.context «namespace» (some ip.1)
  if heaps.abortheap.any isDefined then none
  else some { heaps with abortbundle := heaps.abortbundle || heaps.abortbundleheap.any isDefined }

/-- What both of them do with the qualified name, in the list that they define it in. -/
def defineClass («class» : CString) («namespace» : Option CString) (al : Nat) (heaps : ClassHeaps) :
    Option ClassHeaps :=
  if «class» = [] then some heaps
  else do
    let heaps ← abortOnName fullTextMatch heaps «class»
    if inAlphaList (heaps.items al) «class» then return heaps
    else abortOnClasses (prependAlphaList heaps al «class») «namespace»

/-- `NewClass`. A name that does not fit in its buffer is the end of the program, too. -/
def newClass (oclass : CString) («namespace» : Option CString) (heaps : ClassHeaps) :
    Option ClassHeaps :=
  if oclass.length ≥ cfMaxVarSize then none
  else
    let canonclass := canonifyNameInPlace (chop oclass)
    let «class» :=
      match «namespace» with
      | none => canonclass
      | some ns =>
        if ns ≠ "default".toList then (ns ++ ':' :: canonclass).take (cfMaxVarSize - 1)
        else canonclass
    defineClass fullTextMatch «class» «namespace» heaps.vheap heaps

/-- `NewBundleClass` -/
def newBundleClass («class» : CString) («namespace» : Option CString) (heaps : ClassHeaps) :
    Option ClassHeaps :=
  (qualifyName «namespace» «class»).bind fun copy =>
    defineClass fullTextMatch (chop copy) «namespace» heaps.vaddclasses heaps

end

/-- `DeleteClass` -/
def deleteClass (oclass : CString) («namespace» : Option CString) (heaps : ClassHeaps) :
    Option ClassHeaps :=
  (if ':' ∈ oclass then copyName oclass else qualifyName «namespace» oclass).map fun «class» =>
    let heaps := deleteFromAlphaList heaps heaps.vheap «class»
    deleteFromAlphaList heaps heaps.vaddclasses «class»

/-! ## The stack -/

/-- `InitAlphaList(&VADDCLASSES)` -/
def initVaddclasses (heaps : ClassHeaps) : ClassHeaps :=
  { heaps.alloc emptyAlphaList with vaddclasses := heaps.fresh }

/-- `PushPrivateClassContext` -/
def pushPrivateClassContext (inherit : Bool) (heaps : ClassHeaps) : ClassHeaps :=
  -- `CopyAlphaListPointers(ap, &VADDCLASSES)`
  let ap := heaps.vaddclasses
  let heaps := initVaddclasses heaps
  if inherit then
    let heaps := initVaddclasses heaps
    -- `DupAlphaListPointers(&VADDCLASSES, ap)`: the copy of the items is the one on the stack
    let heaps := { heaps.alloc (heaps.items ap) with
      vaddclasses := ap, privclassheap := heaps.fresh :: heaps.privclassheap }
    heaps
  else { heaps with privclassheap := ap :: heaps.privclassheap }

/-- `PopPrivateClassContext`. `none` is the `FatalError` of `PopStack`. -/
def popPrivateClassContext (heaps : ClassHeaps) : Option ClassHeaps :=
  let heaps := heaps.setItems heaps.vaddclasses emptyAlphaList
  match heaps.privclassheap with
  | [] => none
  | ap :: stack => some { heaps with vaddclasses := ap, privclassheap := stack }

/-- A call of one of the functions. -/
inductive ClassOp where
  | newClass (oclass : CString) («namespace» : Option CString)
  | newBundleClass («class» : CString) («namespace» : Option CString)
  | deleteClass (oclass : CString) («namespace» : Option CString)
  | pushPrivateClassContext (inherit : Bool)
  | popPrivateClassContext
deriving DecidableEq

def ClassOp.run (fullTextMatch : CString → CString → Bool) (heaps : ClassHeaps) :
    ClassOp → Option ClassHeaps
  | .newClass oclass ns => Cfengine.newClass fullTextMatch oclass ns heaps
  | .newBundleClass «class» ns => Cfengine.newBundleClass fullTextMatch «class» ns heaps
  | .deleteClass oclass ns => Cfengine.deleteClass oclass ns heaps
  | .pushPrivateClassContext inherit => some (Cfengine.pushPrivateClassContext inherit heaps)
  | .popPrivateClassContext => Cfengine.popPrivateClassContext heaps

/-- The calls, as long as the program does not end. -/
def runClassOps (fullTextMatch : CString → CString → Bool) (heaps : ClassHeaps)
    (ops : List ClassOp) : Option ClassHeaps := ops.foldlM (ClassOp.run fullTextMatch) heaps

/-! ## The classes of promises -/

/-- `CheckParseClass` with `CF_IDRANGE` -/
def checkParseClass (s : CString) : Bool :=
  s ≠ [] && s.all fun c => c.isAlphanum || c ∈ "_$(){}[].:".toList

/-- `DeleteAllClasses` -/
def deleteAllClasses : List CString → ClassHeaps × StateDb → ClassHeaps × StateDb
  | [], s => s
  | string :: list, (heaps, dbp) =>
    if !checkParseClass string then (heaps, dbp)
    else
      let dbp := deletePersistentContext string dbp
      let heaps := deleteFromAlphaList heaps heaps.vheap (canonifyName string)
      let heaps := deleteFromAlphaList heaps heaps.vaddclasses (canonifyName string)
      let heaps := { heaps with vdelclasses := heaps.vdelclasses ++ [canonifyName string] }
      deleteAllClasses list (heaps, dbp)

/-- `AddAllClasses`. `none` is the end of the program. -/
def addAllClasses (fullTextMatch : CString → CString → Bool) (now : Nat)
    («namespace» : Option CString) (persist : Nat) (policy : StatePolicy) :
    List CString → ClassHeaps × StateDb → Option (ClassHeaps × StateDb)
  | [], s => some s
  | item :: list, (heaps, dbp) => do
    let classname := canonifyNameInPlace item
    let dbp :=
      if persist > 0 then
        newPersistentContext now (canonifyName item) («namespace».getD "(null)".toList)
          persist policy
          dbp
      else dbp
    let heaps ← newClass fullTextMatch classname «namespace» heaps
    addAllClasses fullTextMatch now «namespace» persist policy list (heaps, dbp)

end Cfengine
