import Cfengine.ColumnEdits
import Cfengine.Evalfunction
import Cfengine.Scope

/-!
# Arrays from files (`evalfunction.c`)

`BuildLineArray` makes an array of the lines of a file and their fields. What it reads besides its
arguments is in `ArrayEnv`.
-/

namespace Cfengine

structure ArrayEnv extends RegEx where
  getHash : CString → Fin cfHashTableSize
  expandScalar : List Scope → CString → Option (CString × Bool)
  mapIteratorsFromRval : VarState → Rval → Rval
  /-- What is read of a list or a function call that is taken for a string. -/
  cellText : Rval → CString
  /-- `Str2Int`, which reads the time when the agent started. -/
  str2Int : CString → Int
  /-- `THIS_BUNDLE` -/
  thisBundle : CString

/-- The conversion `%d`. -/
def printInt (i : Int) : CString :=
  if i < 0 then '-' :: Nat.toDigits 10 i.natAbs else Nat.toDigits 10 i.natAbs

namespace ArrayEnv
variable (env : ArrayEnv)

/-- `NewScalar(THIS_BUNDLE, lval, rval, dt)` -/
def newScalar (s : VarState) (lval rval : CString) (dt : CfDataType) : Option VarState :=
  Cfengine.newScalar env.getHash env.expandScalar env.mapIteratorsFromRval env.cellText s
    env.thisBundle lval rval dt

/-- What is copied to `this_rval`; `none` is a read of what was not set, or an exit. -/
def thisRval (item : CString) : CfDataType → Option CString
  | .str => if item.length < cfMaxVarSize - 1 then some item else none
  | .int => some (printInt ((env.str2Int item).bmod (2 ^ 32)))
  | .real => if scanWord item = [] then none else some ((scanWord item).take 255)
  | _ => none

/-- The name of an element of the array, in a buffer. -/
def elementName (arrayLval index : CString) (vcount : Nat) : CString :=
  (arrayLval ++ '[' :: (index ++ "][".toList ++ Nat.toDigits 10 vcount ++ [']'])).take
    (cfMaxVarSize - 1)

/-- The loop of `BuildLineArray` over the fields of a line. -/
def buildLineArray.fields (arrayLval : CString) (type : CfDataType) (intIndex : Bool)
    (hcount : Nat) :
    List CString → Nat → CString → VarState → Option VarState
  | [], _, _, s => some s
  | item :: rp, vcount, firstOne, s => do
    let thisRval ← env.thisRval item type
    let firstOne := if firstOne = [] then thisRval else firstOne
    let index := if intIndex then Nat.toDigits 10 hcount else firstOne
    let s ← env.newScalar s (elementName arrayLval index vcount) thisRval type
    fields arrayLval type intIndex hcount rp (vcount + 1) firstOne s

/-- What `sscanf(sp, "%1023[^\n]", linebuf)` reads. -/
def scanLine (sp : CString) : CString := (sp.takeWhile (· ≠ '\n')).take (cfMaxVarSize - 1)

/-- A carriage return at the end of the line is removed. -/
def chopReturn (linebuf : CString) : CString :=
  if linebuf.getLast? = some '\r' then linebuf.dropLast else linebuf

/-- The loop of `BuildLineArray` over the lines, with as many rounds as there are characters. -/
def buildLineArray.loop (arrayLval split : CString) (maxent : Nat) (type : CfDataType)
    (intIndex : Bool) :
    Nat → CString → Nat → Nat → VarState → Option (Nat × VarState)
  | 0, _, hcount, _, s => some (hcount, s)
  | fuel + 1, sp, hcount, lcount, s =>
    if hcount < maxent && sp ≠ [] then
      let linebuf := scanLine sp
      if linebuf = [] || linebuf = ['\r'] then
        loop arrayLval split maxent type intIndex fuel (sp.drop 1) hcount lcount s
      -- the array is too big
      else if lcount > cfHashTableSize then some (hcount, s)
      else do
        let newlist ← (env.splitRegexAsRList split maxent true (chopReturn linebuf)).toOption
        let s ← buildLineArray.fields env arrayLval type intIndex hcount newlist 0 [] s
        let sp := sp.drop linebuf.length
        if sp = [] then some (hcount + 1, s)
        else loop arrayLval split maxent type intIndex fuel (sp.drop 1) (hcount + 1) (lcount + 1) s
    else some (hcount, s)

/-- `BuildLineArray` -/
def buildLineArray (arrayLval fileBuffer split : CString) (maxent : Int) (type : CfDataType)
    (intIndex : Bool) (s : VarState) : Option (Nat × VarState) :=
  buildLineArray.loop env arrayLval split maxent.toNat type intIndex (fileBuffer.length + 1)
    fileBuffer 0 0 s

end ArrayEnv

end Cfengine
