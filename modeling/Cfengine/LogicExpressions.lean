import Cfengine.StringExpressions

/-!
# Class expressions (`logic_expressions.c`)
-/

namespace Cfengine
open Descent

inductive Expression where
  | or (lhs rhs : Expression)
  | and (lhs rhs : Expression)
  | not (arg : Expression)
  | eval (name : StringExpression)
deriving DecidableEq, Repr

inductive ExpressionValue where
  | expError | expFalse | expTrue
deriving DecidableEq, Repr

/-- The conversion of a C truth value. -/
def ExpressionValue.ofBool (b : Bool) : ExpressionValue := if b then expTrue else expFalse

/-! ## Parsing -/

section
variable (parseExpression : Parser Char Expression)

def parsePrimary (expr : CString) : ParseResult Char Expression :=
  match expr with
  | '(' :: next =>
    (parseExpression next).bind fun res rest =>
      match rest with
      | [] => ⟨none, []⟩
      | c :: next => if c = ')' then ⟨some res, next⟩ else ⟨none, rest⟩
  | _ => (parseStringExpression expr).bind fun name rest => ⟨some (.eval name), rest⟩

def parseNotExpression (expr : CString) : ParseResult Char Expression :=
  match expr with
  | '!' :: next => (parsePrimary parseExpression next).bind fun arg rest => ⟨some (.not arg), rest⟩
  | _ => parsePrimary parseExpression expr

def parseAndExpression.body (parseAndExpression : Parser Char Expression) (expr : CString) :
    ParseResult Char Expression :=
  (parseNotExpression parseExpression expr).bind fun lhs rest =>
    match rest with
    | [] => ⟨some lhs, []⟩
    | c :: next =>
      if c = '.' || c = '&' then
        (parseAndExpression next).bind fun rhs rest => ⟨some (.and lhs rhs), rest⟩
      else ⟨some lhs, rest⟩

def parseAndExpression : Parser Char Expression :=
  recurse (parseAndExpression.body parseExpression)

/-- Skips the second `|` of `||`. -/
def skipBar : CString → CString
  | [] => []
  | c :: next => if c = '|' then next else c :: next

def parseExpression.body (expr : CString) : ParseResult Char Expression :=
  (parseAndExpression parseExpression expr).bind fun lhs rest =>
    match rest with
    | [] => ⟨some lhs, []⟩
    | c :: next =>
      if c = '|' then
        (parseExpression (skipBar next)).bind fun rhs rest => ⟨some (.or lhs rhs), rest⟩
      else ⟨some lhs, rest⟩

end

def parseExpression : Parser Char Expression := recurse parseExpression.body

/-! ## Evaluation -/

/-- Both operands are always evaluated, and an error in either is an error. -/
def evalExpression (nameevalfn : CString → ExpressionValue)
    (varrefevalfn : CString → Option CString) : Expression → ExpressionValue
  | .or lhs rhs =>
    match evalExpression nameevalfn varrefevalfn lhs,
        evalExpression nameevalfn varrefevalfn rhs with
    | .expError, _ | _, .expError => .expError
    | lhs, rhs => .ofBool (lhs = .expTrue || rhs = .expTrue)
  | .and lhs rhs =>
    match evalExpression nameevalfn varrefevalfn lhs,
        evalExpression nameevalfn varrefevalfn rhs with
    | .expError, _ | _, .expError => .expError
    | lhs, rhs => .ofBool (lhs = .expTrue && rhs = .expTrue)
  | .not arg =>
    match evalExpression nameevalfn varrefevalfn arg with
    | .expError => .expError
    | .expFalse => .expTrue
    | .expTrue => .expFalse
  | .eval name =>
    match evalStringExpression varrefevalfn name with
    | none => .expError
    | some name => nameevalfn name

attribute [grind =] parsePrimary parseNotExpression parseAndExpression.body skipBar
  parseExpression.body evalExpression ExpressionValue.ofBool

end Cfengine
