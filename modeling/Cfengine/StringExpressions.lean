import Cfengine.Defs
import Cfengine.Theory.Descent

/-!
# String expressions (`string_expressions.c`)

The parser of names. A `ParseResult` keeps what is left of the text in place of the position; all
callers parse to the end of the string.
-/

namespace Cfengine
open Descent

inductive StringExpression where
  | concat (lhs rhs : StringExpression)
  | literal (literal : CString)
  | varref (name : StringExpression)
deriving DecidableEq, Repr

abbrev StringParseResult := ParseResult Char StringExpression

/-! ## Parsing -/

section
variable (parseStringExpression : Parser Char StringExpression)

def parseQname (expr : CString) : StringParseResult :=
  (parseStringExpression expr).bind fun lhs rest =>
    match rest with
    | [] => ⟨some lhs, []⟩
    | c :: next =>
      if c = '.' then
        (parseStringExpression next).bind fun rhs rest =>
          ⟨some (.concat lhs (.concat (.literal ['.']) rhs)), rest⟩
      else ⟨some lhs, rest⟩

def parseVarRef (expr : CString) : StringParseResult :=
  match expr with
  | dollar :: bracket :: next =>
    if dollar = '$' then
      if bracket = '(' || bracket = '{' then
        let closingBracket := if bracket = '(' then ')' else '}'
        (parseQname parseStringExpression next).bind fun name rest =>
          match rest with
          | [] => ⟨none, []⟩
          | c :: next => if c = closingBracket then ⟨some (.varref name), next⟩ else ⟨none, rest⟩
      else ⟨none, bracket :: next⟩
    else ⟨none, expr⟩
  | _ => ⟨none, expr⟩

def validTokenCharacter (c : Char) : Bool :=
  'a' ≤ c && c ≤ 'z' || 'A' ≤ c && c ≤ 'Z' || '0' ≤ c && c ≤ '9' ||
    (c = '_' || c = '[' || c = ']' || c = ':')

def parseToken (expr : CString) : StringParseResult :=
  let literal := expr.takeWhile validTokenCharacter
  if literal = [] then ⟨none, expr⟩
  else ⟨some (.literal literal), expr.dropWhile validTokenCharacter⟩

def parseTerm (expr : CString) : StringParseResult :=
  let res := parseToken expr
  if res.result.isSome then res else parseVarRef parseStringExpression expr

/-- The body of `ParseStringExpression`. -/
def parseStringExpression.body (expr : CString) : StringParseResult :=
  (parseTerm parseStringExpression expr).bind fun lhs rest =>
    match parseStringExpression rest with
    | ⟨some rhs, rest'⟩ => ⟨some (.concat lhs rhs), rest'⟩
    | ⟨none, _⟩ => ⟨some lhs, rest⟩

end

def parseStringExpression : Parser Char StringExpression := recurse parseStringExpression.body

/-! ## Evaluation -/

def evalStringExpression (evalfn : CString → Option CString) :
    StringExpression → Option CString
  | .concat lhs rhs => do
    let lhs ← evalStringExpression evalfn lhs
    let rhs ← evalStringExpression evalfn rhs
    return lhs ++ rhs
  | .literal literal => literal
  | .varref name => do
    let name ← evalStringExpression evalfn name
    evalfn name

attribute [grind =] parseQname parseVarRef validTokenCharacter parseToken parseTerm
  parseStringExpression.body evalStringExpression

end Cfengine
