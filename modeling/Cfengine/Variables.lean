import Cfengine.Defs

/-!
# Variable syntax (`vars.c`, `expand.c`)

The recognisers of variable references in strings. `IsCf3VarString` and `IsExpandable` are the
same scan, which keeps the last bracket of either direction and the nesting depth while it is
behind a sigil; `ExtractOuterCf3VarString` and `ExtractInnerCf3VarString` count brackets of both
kinds together. An empty result of the latter two is an empty `substr`.
-/

namespace Cfengine

def isOpenBracket (c : Char) : Bool := c = '(' || c = '{'

def isCloseBracket (c : Char) : Bool := c = ')' || c = '}'

/-- A bracket follows. -/
def startsWithBracket : CString → Bool
  | [] => false
  | c :: _ => isOpenBracket c

/-! ## Counting references -/

/-- The local variables of the scan. -/
structure VarScan where
  left : Char := 'x'
  right : Char := 'x'
  dollar : Bool := false
  bracks : Int := 0
  vars : Nat := 0
deriving DecidableEq

/-- The `switch` on the next character `c`, with `next` behind it. -/
def VarScan.read (sigils : CString) (scan : VarScan) (c : Char) (next : CString) : VarScan :=
  if c ∈ sigils then
    if startsWithBracket next then { scan with dollar := true } else scan
  else if isOpenBracket c then
    if scan.dollar then { scan with left := c, bracks := scan.bracks + 1 } else scan
  else if isCloseBracket c then
    if scan.dollar then { scan with right := c, bracks := scan.bracks - 1 } else scan
  else scan

def isBracketPair (left right : Char) : Bool :=
  left = '(' && right = ')' || left = '{' && right = '}'

/-- The end of a reference is counted. -/
def VarScan.count (scan : VarScan) : VarScan :=
  if isBracketPair scan.left scan.right && scan.dollar && scan.bracks = 0 then
    { scan with vars := scan.vars + 1, dollar := false }
  else scan

/-- The loop over the string. It gives up at a slash inside a reference if there must be none. -/
def scanVars (sigils : CString) (noSlash : Bool) : VarScan → CString → Option VarScan
  | scan, [] => some scan
  | scan, c :: next =>
    let scan := scan.read sigils c next
    if noSlash && scan.bracks > 0 && c = '/' then none
    else scanVars sigils noSlash scan.count next

/-- The number of references, and 0 for broken syntax. -/
def isCf3VarString (str : CString) : Nat :=
  match scanVars ['$', '@'] true {} str with
  | none => 0
  | some scan => if scan.dollar && scan.bracks ≠ 0 then 0 else scan.vars

def isExpandable (str : CString) : Nat :=
  match scanVars ['$'] false {} str with
  | none => 0
  | some scan => if scan.bracks ≠ 0 then 0 else scan.vars

/-! ## Extracting references -/

/-- The effect of a character on the nesting depth. -/
def bracketDelta (c : Char) : Int :=
  if isOpenBracket c then 1 else if isCloseBracket c then -1 else 0

/-- The text before the bracket that brings the depth to 0. -/
def extractInnerCf3VarString.loop (bracks : Int) : CString → Option CString
  | [] => none
  | c :: rest =>
    let bracks := bracks + bracketDelta c
    if bracks = 0 then some [] else (loop bracks rest).map (c :: ·)

def extractInnerCf3VarString : CString → CString
  | _ :: c :: rest =>
    if isOpenBracket c then (extractInnerCf3VarString.loop 1 rest).getD [] else []
  | _ => []

/-- The text up to the bracket that closes the first one behind a `$`. A `$` without a bracket
ends the search. -/
def extractOuterCf3VarString.loop (dollar onebrack : Bool) (bracks : Int) :
    CString → Option CString
  | [] => none
  | c :: rest =>
    if c = '$' && !startsWithBracket rest then none
    else
      let dollar := dollar || c = '$'
      let onebrack := onebrack || isOpenBracket c
      let bracks := bracks + bracketDelta c
      if dollar && bracks = 0 && onebrack then some [c]
      else (loop dollar onebrack bracks rest).map (c :: ·)

def extractOuterCf3VarString (str : CString) : CString :=
  (extractOuterCf3VarString.loop false false 0 str).getD []

/-! ## Other tests on names and values -/

/-- A `.` before any `[`. -/
def isQualifiedVariable : CString → Bool
  | [] => false
  | c :: rest => c ≠ '[' && (c = '.' || isQualifiedVariable rest)

/-- One of `$(v)`, `${v}`, `@(v)` and `@{v}` occurs. -/
def stringContainsVar (v : CString) : CString → Bool
  | [] => false
  | c :: rest =>
    (c = '$' || c = '@') && (('(' :: (v ++ [')'])).isPrefixOf rest ||
      ('{' :: (v ++ ['}'])).isPrefixOf rest) || stringContainsVar v rest

/-- The loop of `IsNakedVar`. The last character must be the end of the variable. -/
def isNakedVar.loop (count : Int) : CString → Bool
  | [] => count = 0
  | c :: rest =>
    if c ∈ ['(', '{', '['] then loop (count + 1) rest
    else if c ∈ [')', '}', ']'] then
      if count - 1 = 0 && !rest.isEmpty then false else loop (count - 1) rest
    else loop count rest

def isNakedVar (str : CString) (vtype : Char) : Bool :=
  str.length ≥ 3 && str.head? = some vtype &&
    (str[1]? = some '(' && str.getLast? = some ')' ||
      str[1]? = some '{' && str.getLast? = some '}') &&
    isNakedVar.loop 0 str

/-- `@(listname)` to `listname` -/
def getNaked (s1 : CString) : CString :=
  if s1.length < 4 then s1 else (s1.drop 2).take (s1.length - 3)

end Cfengine
