import Cfengine.LogicExpressions

/-!
# Class contexts (`env_context.c`)

`IsDefinedClass` evaluates a class expression in the current context of classes.
`SplitContextExpression` rewrites one into a list of alternatives, with `SplitRegexAsRList` of
`rlist.c` and `Join` of `files_names.c`.
-/

namespace Cfengine
open Descent

/-! ## Defined classes -/

/-- `AlphaList`: the list of a string is that of its first character, which is NUL for the empty
string. -/
abbrev AlphaList := Char → List CString

/-- The globals that `EvalTokenAsClass` reads. -/
structure ClassContext where
  vnegheap : List CString
  vdelclasses : List CString
  vhardheap : AlphaList
  vheap : AlphaList
  vaddclasses : AlphaList

/-- The empty string is in every list. -/
def isItemIn (list : List CString) (item : CString) : Bool := item = [] || item ∈ list

def inAlphaList (al : AlphaList) (string : CString) : Bool :=
  isItemIn (al (string.headD '\x00')) string

/-- The buffer `qualified_class` of `EvalTokenAsClass`. -/
def qualifiedClass («namespace» : Option CString) (classname : CString) : CString :=
  let qualified :=
    if ':' ∈ classname then
      if "default:".toList.isPrefixOf classname then classname.drop "default:".length
      else classname
    else
      match «namespace» with
      | none => classname
      | some ns => if ns ≠ "default".toList then ns ++ ':' :: classname else classname
  qualified.take (cfMaxVarSize - 1)

def evalTokenAsClass (context : ClassContext) («namespace» : Option CString)
    (classname : CString) : ExpressionValue :=
  let qualified := qualifiedClass «namespace» classname
  .ofBool <|
    if classname = "any".toList then true
    else if isItemIn context.vnegheap qualified then false
    else if isItemIn context.vdelclasses qualified then false
    else if inAlphaList context.vhardheap classname then true
    else if inAlphaList context.vheap qualified then true
    else inAlphaList context.vaddclasses qualified

/-- `EvalVarRef`: class expressions are expanded before they are evaluated. -/
def evalVarRef (_ : CString) : Option CString := none

/-- The result of the parser is used wherever in the string it stopped. -/
def isDefinedClass (context : ClassContext) («namespace» : Option CString) :
    Option CString → Bool
  | none => true
  | some expr =>
    match (parseExpression expr).result with
    | none => false
    | some res => evalExpression (evalTokenAsClass context «namespace») evalVarRef res = .expTrue

/-- `ValidClassName`, which is also what `ValidateClassSyntax` checks. -/
def validClassName (str : CString) : Bool :=
  let res := parseExpression str
  res.result.isSome && res.rest = []

/-! ## `SplitRegexAsRList` -/

/-- `BlockTextMatch` for the regex `[chars]+`: where the first run of these characters starts and
ends. -/
def blockTextMatch (chars teststring : CString) : Option (Nat × Nat) :=
  let start := (teststring.takeWhile (· ∉ chars)).length
  let run := (teststring.drop start).takeWhile (· ∈ chars)
  if run = [] then none else some (start, start + run.length)

/-- What is appended from `sp` on, with room for `room` more elements. -/
def splitRegexAsRList.loop (chars : CString) (blanks : Bool) (string : CString) :
    Nat → Nat → CString → List CString
  | 0, _, _ => []
  | fuel + 1, room, sp =>
    if room = 0 then []
    else
      match blockTextMatch chars sp with
      | some (start, stop) =>
        let node := sp.take start
        if blanks || node ≠ [] then
          node :: loop chars blanks string fuel (room - 1) (sp.drop stop)
        else loop chars blanks string fuel room (sp.drop stop)
      | none =>
        let node := sp.take (cfMaxVarSize - 1)
        if blanks && sp.length ≠ string.length || node ≠ [] then [node] else []

/-- `SplitRegexAsRList` with the regex `[chars]+`, for strings that fit in its buffer. -/
def splitRegexAsRList (string chars : CString) (max : Nat) (blanks : Bool) : List CString :=
  splitRegexAsRList.loop chars blanks string (string.length + 1) max string

/-! ## Splitting class expressions -/

def isBracketed (s : CString) : Bool :=
  s.head? = some '(' && s.getLast? = some ')' && !decide ([')', '('] <:+: s) &&
    s.count '(' = s.count ')' && s.count '(' + s.count ')' ≤ 2

/-- The characters that `GetORAtom` copies to the buffer, and what follows them. -/
def getORAtom (bracklevel : Int) : CString → CString × CString
  | [] => ([], [])
  | c :: sp =>
    if c = '|' && bracklevel = 0 then ([], c :: sp)
    else
      let bracklevel :=
        if c = '(' then bracklevel + 1 else if c = ')' then bracklevel - 1 else bracklevel
      let (buffer, rest) := getORAtom bracklevel sp
      (c :: buffer, rest)

/-- True for exactly one pair of brackets, and for unbalanced ones. -/
def hasBrackets (s : CString) : Bool := s.count '(' ≠ s.count ')' || s.count '(' = 1

/-- `Join` does nothing if the buffer would run out of space. -/
def join (path leaf : CString) (bufsize : Nat) : CString :=
  if path.length + leaf.length > bufsize - cfBufferMargin then path else path ++ leaf

/-- `Join`, behind a separator if there is something to separate from. -/
def joinWith (sep : Char) (path leaf : CString) : CString :=
  join (if path ≠ [] then path ++ [sep] else path) leaf cfMaxVarSize

/-- The string without the first and the last character. -/
def stripBrackets (s : CString) : CString := s.dropLast.drop 1

/-- One round of the loop over `andlist`, on `orstring` and `andstring`. -/
def collectPiece (strings : CString × CString) (item : CString) : CString × CString :=
  if isBracketed item then (joinWith '|' strings.1 (stripBrackets item), strings.2)
  else (strings.1, joinWith '.' strings.2 item)

/-- What `SplitContextExpression` prepends for one alternative. -/
def prependAtoms (cbuff : CString) (list : List CString) : List CString :=
  if isBracketed cbuff then stripBrackets cbuff :: list
  else if hasBrackets cbuff then
    let andlist := splitRegexAsRList cbuff ['.', '&'] 99 false
    let (orstring, andstring) := andlist.foldl collectPiece ([], [])
    if orstring ≠ [] then
      -- distribution of `P.(A|B)` to `P.A|P.B`
      (splitRegexAsRList orstring ['|'] 99 false).foldl
        (fun list item => (item ++ '.' :: andstring).take (cfMaxVarSize - 1) :: list) list
    else andstring :: list
  else cbuff :: list

/-- The loop over the string, which passes each alternative to `prepend`. -/
def splitContextExpression.loop (prepend : CString → List CString → List CString) :
    Nat → CString → List CString → List CString
  | 0, _, list => list
  | fuel + 1, sp, list =>
    if sp = [] then list
    else
      let (cbuff, sp) := getORAtom 0 (sp.dropWhile (· = '|'))
      if cbuff = [] then list
      else
        match sp with
        | [] => prepend cbuff list
        | _ :: sp => loop prepend fuel sp (prepend cbuff list)

/-- `SplitContextExpression`, for contexts that fit in its buffer. -/
def splitContextExpression : Option CString → List CString
  | none => ["any".toList]
  | some context => splitContextExpression.loop prependAtoms context.length context []

end Cfengine
