import Cfengine.AddrLib
import Cfengine.Json

/-!
# Reading JSON primitives (`json.c`, `string_lib.c`)

The integer or real number that a primitive stands for. `strtol` and `strtod` read the longest
number at the start of a text; what `strtod` makes of it is not looked at, so a `double` is the text
it was read from.
-/

namespace Cfengine

/-- `strtol` in base 10: the number and `end`. -/
def strtol (str : CString) : Int × CString := (scanLong str).getD (0, str)

/-- `StringToLong` -/
def stringToLong (str : CString) : Except JsonFault Int := do
  let (result, «end») := strtol str
  jsonAssert «end».isEmpty
  return result

/-- Digits with a point among them or beside them: what follows, if there is a digit. -/
def scanMantissa (base : Nat) (s : CString) : Option CString :=
  let int := s.takeWhile (Numerals.isDigit base)
  match s.drop int.length with
  | '.' :: rest =>
    let frac := rest.takeWhile (Numerals.isDigit base)
    if int = [] ∧ frac = [] then none else some (rest.drop frac.length)
  | rest => if int = [] then none else some rest

/-- What follows the exponent behind a letter, or the text itself if there is none. -/
def skipExponent (lower upper : Char) : CString → CString
  | [] => []
  | letter :: rest =>
    let (_, number) := scanSign rest
    let digits := number.takeWhile (Numerals.isDigit 10)
    if (letter = lower ∨ letter = upper) ∧ digits ≠ [] then number.drop digits.length
    else letter :: rest

/-- The text behind a word, in letters of either case. -/
def skipWord (word s : CString) : Option CString :=
  if (s.take word.length).map Char.toLower = word then some (s.drop word.length) else none

/-- The characters in parentheses that may follow `nan`. -/
def skipNanChars (s : CString) : CString :=
  match s with
  | '(' :: rest =>
    match rest.dropWhile fun c => c.isAlphanum || c = '_' with
    | ')' :: rest => rest
    | _ => s
  | _ => s

/-- `infinity`, `inf` or `nan`: what follows. -/
def scanNonFinite (s : CString) : Option CString :=
  skipWord "infinity".toList s <|> skipWord "inf".toList s <|>
    (skipWord "nan".toList s).map skipNanChars

/-- A number in base 16: what follows. -/
def scanHexadecimal : CString → Option CString
  | '0' :: x :: rest =>
    if x = 'x' ∨ x = 'X' then (scanMantissa 16 rest).map (skipExponent 'p' 'P') else none
  | _ => none

/-- The `end` of `strtod`. -/
def strtodEnd (str : CString) : CString :=
  let (_, s) := scanSign (str.dropWhile isspace)
  (scanNonFinite s <|> scanHexadecimal s <|> (scanMantissa 10 s).map (skipExponent 'e' 'E')).getD
    str

/-- `StringToDouble` -/
def stringToDouble (str : CString) : Except JsonFault CString := do
  let «end» := strtodEnd str
  jsonAssert «end».isEmpty
  return str.take (str.length - «end».length)

/-- `JsonPrimitiveGetAsInteger` -/
def jsonPrimitiveGetAsInteger : JsonElement → Except JsonFault Int
  | .container .. => .error .assertion
  | .primitive _ type value => do
    jsonAssert (type = .integer)
    stringToLong value

/-- `JsonPrimitiveGetAsReal` -/
def jsonPrimitiveGetAsReal : JsonElement → Except JsonFault CString
  | .container .. => .error .assertion
  | .primitive _ type value => do
    jsonAssert (type = .real)
    stringToDouble value

/-- `12.5e-3` is read up to its end, and of `1.2.3` the second fraction is left. -/
example : (strtodEnd "12.5e-3".toList, strtodEnd "1.2.3".toList, strtodEnd "0x1.8p1z".toList,
    strtodEnd " -Inf".toList) = ([], ".3".toList, ['z'], []) := by decide

end Cfengine
