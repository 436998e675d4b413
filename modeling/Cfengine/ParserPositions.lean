import Cfengine.Theory.Positions
import Cfengine.LogicExpressions

/-!
# The parsers by positions (`string_expressions.c`, `logic_expressions.c`, `env_context.c`)

The parsers of names and of class expressions again, this time as the code calls them: each gets the
whole text and the positions between which it is to parse, and looks at single characters. To look
behind `expr[end]` is a fault. A position is an `int` in the code; here it is a natural number.
-/

namespace Cfengine.Positional
open Positions

section
variable (expr : CString) («end» : Nat)

/-- `expr[i]`; the text ends with a null character. -/
def charAt (i : Nat) : Except Stuck Char :=
  if i ≤ «end» then .ok (expr.getD i '\x00') else .error .outOfBounds

/-- `i < end && expr[i] == c`. -/
def hasChar (i : Nat) (c : Char) : Except Stuck Bool :=
  if i < «end» then do
    return (← charAt expr «end» i) = c
  else return false

/-! ## Names -/

section
variable (parseStringExpression : PosParser StringExpression)

def parseQname (start : Nat) : Except Stuck (Result StringExpression) :=
  andThen (parseStringExpression start) fun lhs position => do
    if position = «end» then return ⟨some lhs, position⟩
    if (← charAt expr «end» position) ≠ '.' then return ⟨some lhs, position⟩
    andThen (parseStringExpression (position + 1)) fun rhs position =>
      .ok ⟨some (.concat lhs (.concat (.literal ['.']) rhs)), position⟩

def parseVarRef (start : Nat) : Except Stuck (Result StringExpression) := do
  if start + 1 < «end» then
    if (← charAt expr «end» start) = '$' then
      let bracket ← charAt expr «end» (start + 1)
      if bracket = '(' || bracket = '{' then
        let closingBracket := if bracket = '(' then ')' else '}'
        andThen (parseQname expr «end» parseStringExpression (start + 2)) fun name position => do
          if ← hasChar expr «end» position closingBracket then
            return ⟨some (.varref name), position + 1⟩
          else return ⟨none, position⟩
      else return ⟨none, start + 1⟩
    else return ⟨none, start⟩
  else return ⟨none, start⟩

/-- The loop of `ParseToken`, with the number of turns that are left. -/
def parseToken.loop : Nat → Nat → Except Stuck Nat
  | 0, _ => .error .outOfSteps
  | n + 1, endlit =>
    if endlit < «end» then do
      if validTokenCharacter (← charAt expr «end» endlit) then loop n (endlit + 1)
      else return endlit
    else return endlit

def parseToken (start : Nat) : Except Stuck (Result StringExpression) := do
  let endlit ← parseToken.loop expr «end» («end» - start + 1) start
  if endlit > start then return ⟨some (.literal ((expr.drop start).take (endlit - start))), endlit⟩
  else return ⟨none, endlit⟩

def parseTerm (start : Nat) : Except Stuck (Result StringExpression) := do
  let res ← parseToken expr «end» start
  if res.result.isSome then return res
  else parseVarRef expr «end» parseStringExpression start

/-- The body of `ParseStringExpression`. -/
def parseStringExpression.body (start : Nat) : Except Stuck (Result StringExpression) :=
  andThen (parseTerm expr «end» parseStringExpression start) fun lhs position => do
    let res ← parseStringExpression position
    match res.result with
    | some rhs => return ⟨some (.concat lhs rhs), res.position⟩
    | none => return ⟨some lhs, position⟩

end

def parseStringExpression : PosParser StringExpression :=
  recurse «end» (parseStringExpression.body expr «end»)

/-! ## Class expressions -/

section
variable (parseExpression : PosParser Expression)

def parsePrimary (start : Nat) : Except Stuck (Result Expression) := do
  if ← hasChar expr «end» start '(' then
    andThen (parseExpression (start + 1)) fun res position => do
      if ← hasChar expr «end» position ')' then return ⟨some res, position + 1⟩
      else return ⟨none, position⟩
  else
    andThen (parseStringExpression expr «end» start) fun name position =>
      .ok ⟨some (.eval name), position⟩

def parseNotExpression (start : Nat) : Except Stuck (Result Expression) := do
  if ← hasChar expr «end» start '!' then
    andThen (parsePrimary expr «end» parseExpression (start + 1)) fun arg position =>
      .ok ⟨some (.not arg), position⟩
  else parsePrimary expr «end» parseExpression start

def parseAndExpression.body (parseAndExpression : PosParser Expression) (start : Nat) :
    Except Stuck (Result Expression) :=
  andThen (parseNotExpression expr «end» parseExpression start) fun lhs position => do
    if position = «end» then return ⟨some lhs, position⟩
    let c ← charAt expr «end» position
    if c ≠ '.' && c ≠ '&' then return ⟨some lhs, position⟩
    andThen (parseAndExpression (position + 1)) fun rhs position =>
      .ok ⟨some (.and lhs rhs), position⟩

def parseAndExpression : PosParser Expression :=
  recurse «end» (parseAndExpression.body expr «end» parseExpression)

def parseExpression.body (start : Nat) : Except Stuck (Result Expression) :=
  andThen (parseAndExpression expr «end» parseExpression start) fun lhs position => do
    if position = «end» then return ⟨some lhs, position⟩
    if (← charAt expr «end» position) ≠ '|' then return ⟨some lhs, position⟩
    let position := if ← hasChar expr «end» (position + 1) '|' then position + 1 else position
    andThen (parseExpression (position + 1)) fun rhs position => .ok ⟨some (.or lhs rhs), position⟩

end

def parseExpression : PosParser Expression := recurse «end» (parseExpression.body expr «end»)

end

/-- The two parts are copied from `str` and from `str + position`, which has to lie in the text. -/
def highlightExpressionError (str : CString) (position : Nat) : Except Stuck CString :=
  if position ≤ str.length then .ok (str.take position ++ "->".toList ++ str.drop position)
  else .error .outOfBounds

end Cfengine.Positional
