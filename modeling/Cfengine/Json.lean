import Cfengine.Defs
import Cfengine.Theory.Numerals

/-!
# JSON elements (`json.c`)

Elements, how they are built, printed and parsed. A text is what is left of a C string at a pointer
into it, so the end of the list is the terminating NUL, and a pointer is moved over a character that
is there.
-/

namespace Cfengine

/-- `JsonContainerType` -/
inductive JsonContainerType where
  | object | array
deriving DecidableEq

/-- `JsonPrimitiveType` -/
inductive JsonPrimitiveType where
  | string | integer | real | bool | null
deriving DecidableEq

/-- `JsonElement` -/
inductive JsonElement where
  | container (propertyName : Option CString) (type : JsonContainerType)
      (children : List JsonElement)
  | primitive (propertyName : Option CString) (type : JsonPrimitiveType) (value : CString)

/-- What ends the program, or would. -/
inductive JsonFault where
  /-- An `assert` does not hold. -/
  | assertion
  /-- A read behind the terminating NUL. -/
  | outOfBounds
  /-- Not a fault of the program: the model has run out of steps. -/
  | outOfFuel
deriving DecidableEq

/-- `assert` -/
def jsonAssert (condition : Bool) : Except JsonFault Unit :=
  if condition then .ok () else .error .assertion

namespace JsonElement

/-- The element is a container of this type. -/
def isContainer (type : JsonContainerType) : JsonElement → Bool
  | .container _ type' _ => type = type'
  | .primitive .. => false

def isPrimitive : JsonElement → Bool
  | .container .. => false
  | .primitive .. => true

/-- `element->propertyName` -/
def propertyName : JsonElement → Option CString
  | .container propertyName .. | .primitive propertyName .. => propertyName

/-- `JsonElementSetPropertyName` -/
def setPropertyName (propertyName : CString) : JsonElement → JsonElement
  | .container _ type children => .container (some propertyName) type children
  | .primitive _ type value => .primitive (some propertyName) type value

/-- `SequenceAppend` on the children. -/
def sequenceAppend (element child : JsonElement) : JsonElement :=
  match element with
  | .container propertyName type children => .container propertyName type (children ++ [child])
  | .primitive .. => element

end JsonElement

/-- `JSON_TRUE` -/
def jsonTrue : CString := ['t', 'r', 'u', 'e']

/-- `JSON_FALSE` -/
def jsonFalse : CString := ['f', 'a', 'l', 's', 'e']

/-- `JSON_NULL` -/
def jsonNull : CString := ['n', 'u', 'l', 'l']

/-! ## Building elements -/

/-- The cases of `EscapeJsonString`. -/
def escapeJsonChar (c : Char) : CString :=
  if c = '"' || c = '\\' then ['\\', c]
  else if c = '\x08' then ['\\', 'b']
  else if c = '\x0c' then ['\\', 'f']
  else if c = '\n' then ['\\', 'n']
  else if c = '\r' then ['\\', 'r']
  else if c = '\t' then ['\\', 't']
  else [c]

/-- `EscapeJsonString` -/
def escapeJsonString (unescapedString : CString) : CString :=
  unescapedString.flatMap escapeJsonChar

/-- `JsonElementCreatePrimitive` -/
def jsonElementCreatePrimitive (type : JsonPrimitiveType) (value : CString) : JsonElement :=
  .primitive none type value

/-- `JsonObjectCreate` -/
def jsonObjectCreate : JsonElement := .container none .object []

/-- `JsonArrayCreate` -/
def jsonArrayCreate : JsonElement := .container none .array []

/-- `JsonIntegerCreate` -/
def jsonIntegerCreate (value : Int32) : JsonElement :=
  jsonElementCreatePrimitive .integer ((Numerals.decimal value.toInt).take 31)

/-- `JsonBoolCreate` -/
def jsonBoolCreate (value : Bool) : JsonElement :=
  jsonElementCreatePrimitive .bool (if value then jsonTrue else jsonFalse)

/-- `JsonNullCreate` -/
def jsonNullCreate : JsonElement := jsonElementCreatePrimitive .null jsonNull

/-- `JsonStringCreate`. A string that is `NULL` is `none`. -/
def jsonStringCreate (value : Option CString) : Except JsonFault JsonElement :=
  match value with
  | none => .error .assertion
  | some value => .ok (jsonElementCreatePrimitive .string (escapeJsonString value))

/-- `_JsonObjectAppendPrimitive` -/
def jsonObjectAppendPrimitive (object : JsonElement) (key : CString) (child : JsonElement) :
    Except JsonFault JsonElement := do
  jsonAssert (object.isContainer .object)
  jsonAssert child.isPrimitive
  return object.sequenceAppend (child.setPropertyName key)

/-- `JsonObjectAppendString` -/
def jsonObjectAppendString (object : JsonElement) (key value : CString) :
    Except JsonFault JsonElement := do
  jsonAssert (object.isContainer .object)
  jsonObjectAppendPrimitive object key
    (jsonElementCreatePrimitive .string (escapeJsonString value))

/-- `JsonObjectAppendArray` and `JsonObjectAppendObject`, with the type that the child must have. -/
def jsonObjectAppendContainer (type : JsonContainerType) (object : JsonElement) (key : CString)
    (child : JsonElement) : Except JsonFault JsonElement := do
  jsonAssert (object.isContainer .object)
  jsonAssert (child.isContainer type)
  return object.sequenceAppend (child.setPropertyName key)

/-- `JsonObjectAppendArray` -/
def jsonObjectAppendArray := jsonObjectAppendContainer .array

/-- `JsonObjectAppendObject` -/
def jsonObjectAppendObject := jsonObjectAppendContainer .object

/-- `_JsonArrayAppendPrimitive` -/
def jsonArrayAppendPrimitive (array child : JsonElement) : Except JsonFault JsonElement := do
  jsonAssert (array.isContainer .array)
  jsonAssert child.isPrimitive
  return array.sequenceAppend child

/-- `JsonArrayAppendString` -/
def jsonArrayAppendString (array : JsonElement) (value : Option CString) :
    Except JsonFault JsonElement := do
  jsonAssert (array.isContainer .array)
  jsonArrayAppendPrimitive array (← jsonStringCreate value)

/-- `JsonArrayAppendArray` and `JsonArrayAppendObject`, with the type that the child must have. -/
def jsonArrayAppendContainer (type : JsonContainerType) (array child : JsonElement) :
    Except JsonFault JsonElement := do
  jsonAssert (array.isContainer .array)
  jsonAssert (child.isContainer type)
  return array.sequenceAppend child

/-- `JsonArrayAppendArray` -/
def jsonArrayAppendArray := jsonArrayAppendContainer .array

/-- `JsonArrayAppendObject` -/
def jsonArrayAppendObject := jsonArrayAppendContainer .object

/-! ## Printing -/

/-- `PrintIndent` -/
def printIndent (num : Nat) : CString := List.replicate (num * 2) ' '

/-- `JsonPrimitivePrint` -/
def jsonPrimitivePrint (type : JsonPrimitiveType) (value : CString) (indentLevel : Nat) : CString :=
  match type with
  | .string => printIndent indentLevel ++ '"' :: value ++ ['"']
  | _ => printIndent indentLevel ++ value

/-- The line of an object up to the value. -/
def printPropertyName (propertyName : Option CString) (indentLevel : Nat) : CString :=
  printIndent (indentLevel + 1) ++ '"' :: propertyName.getD [] ++ ['"', ':', ' ']

/-- `JsonArrayPrint`, given what its loop prints. -/
def jsonArrayPrint (children : List JsonElement) (loop : CString) (indentLevel : Nat) : CString :=
  if children.isEmpty then ['[', ']'] else ['[', '\n'] ++ loop ++ printIndent indentLevel ++ [']']

/-- `JsonObjectPrint`, given what its loop prints. -/
def jsonObjectPrint (loop : CString) (indentLevel : Nat) : CString :=
  ['\x7b', '\n'] ++ loop ++ printIndent indentLevel ++ ['}']

/-- What is printed behind a child. -/
def printSeparator (rest : List JsonElement) : CString :=
  if rest.isEmpty then ['\n'] else [',', '\n']

mutual

/-- The loop of `JsonArrayPrint`. A child of either type stands behind its indentation. -/
def jsonArrayPrint.loop : List JsonElement → Nat → CString
  | [], _ => []
  | child :: rest, indentLevel =>
    printIndent (indentLevel + 1) ++ jsonChildPrint child (indentLevel + 1) ++
      printSeparator rest ++ jsonArrayPrint.loop rest indentLevel

/-- The loop of `JsonObjectPrint`. -/
def jsonObjectPrint.loop : List JsonElement → Nat → CString
  | [], _ => []
  | child :: rest, indentLevel =>
    printPropertyName child.propertyName indentLevel ++ jsonChildPrint child (indentLevel + 1) ++
      printSeparator rest ++ jsonObjectPrint.loop rest indentLevel

/-- A child behind its indentation: `JsonPrimitivePrint` with no more of it, or
`JsonContainerPrint`. -/
def jsonChildPrint : JsonElement → Nat → CString
  | .primitive _ type value, _ => jsonPrimitivePrint type value 0
  | .container _ .object children, indentLevel =>
    jsonObjectPrint (jsonObjectPrint.loop children indentLevel) indentLevel
  | .container _ .array children, indentLevel =>
    jsonArrayPrint children (jsonArrayPrint.loop children indentLevel) indentLevel

end

/-- `JsonElementPrint` -/
def jsonElementPrint (element : JsonElement) (indentLevel : Nat) : CString :=
  match element with
  | .primitive _ type value => jsonPrimitivePrint type value indentLevel
  | .container .. => jsonChildPrint element indentLevel

/-! ## Parsing -/

/-- `IsWhitespace` -/
def isJsonWhitespace (ch : Char) : Bool := ch = ' ' || ch = '\t' || ch = '\n' || ch = '\r'

/-- `IsSeparator` -/
def isJsonSeparator (ch : Char) : Bool := isJsonWhitespace ch || ch = ',' || ch = ']' || ch = '}'

/-- `IsDigit`, from 1 to 9. -/
def isJsonDigit (ch : Char) : Bool := '1' ≤ ch && ch ≤ '9'

/-- `*(*data + i)`, which is `none` at the NUL. -/
def jsonCharAt (data : CString) (i : Nat) : Except JsonFault (Option Char) :=
  if i ≤ data.length then .ok data[i]? else .error .outOfBounds

/-- `*data = *data + 1` -/
def jsonAdvance : CString → Except JsonFault CString
  | [] => .error .outOfBounds
  | _ :: data => .ok data

/-- An element, with the pointer to its last character, or `NULL`. The pointer behind a failure is
not looked at by any caller. -/
abbrev JsonParsed := Except JsonFault (Option (JsonElement × CString))

section
variable (pcre : CString → CString → Bool)

/-- `StringMatch`, with a match of the pattern anywhere in the text. -/
def stringMatch (regex str : CString) : Bool := regex = str || pcre regex str

/-- A literal, if the character at its length is a separator or the NUL. -/
def jsonParseLiteral (literal : CString) (element : JsonElement) (data : CString) : JsonParsed := do
  let next ← jsonCharAt data literal.length
  if next.all isJsonSeparator then return some (element, data.drop (literal.length - 1))
  else return none

/-- `JsonParseAsBoolean` -/
def jsonParseAsBoolean (data : CString) : JsonParsed :=
  if stringMatch pcre ('^' :: jsonTrue) data then
    jsonParseLiteral jsonTrue (jsonBoolCreate true) data
  else if stringMatch pcre ('^' :: jsonFalse) data then
    jsonParseLiteral jsonFalse (jsonBoolCreate false) data
  else .ok none

/-- `JsonParseAsNull` -/
def jsonParseAsNull (data : CString) : JsonParsed :=
  if stringMatch pcre ('^' :: jsonNull) data then jsonParseLiteral jsonNull jsonNullCreate data
  else .ok none

end

/-- The characters behind a backslash that is left out. -/
def isJsonUnescaped (ch : Char) : Bool :=
  ch = '"' || ch = '\\' || ch = '\x08' || ch = '\x0c' || ch = '\n' || ch = '\r' || ch = '\t'

/-- The loop of `JsonParseAsString`, with the character in front of the pointer. -/
def jsonParseAsString.loop : Char → CString → CString → Option (CString × CString)
  | _, _, [] => none
  | prev, writer, ch :: data =>
    if ch = '"' && prev ≠ '\\' then some (writer, ch :: data)
    else if ch = '\\' && data.head?.any isJsonUnescaped then loop ch writer data
    else loop ch (writer ++ [ch]) data

/-- `JsonParseAsString`, with the pointer to the closing quote. On failure the pointer is at the
NUL, or still where it was. -/
def jsonParseAsString : CString → Option (CString × CString)
  | [] => none
  | ch :: data => if ch = '"' then jsonParseAsString.loop ch [] data else none

/-- The variables of `JsonParseAsNumber`. A `prev_char` of 0 is `none`. -/
structure JsonNumberState where
  zeroStarted : Bool
  seenDot : Bool
  seenExponent : Bool
  prevChar : Option Char
  writer : CString

/-- `prev_char` is a digit, zero included. -/
def JsonNumberState.behindDigit (s : JsonNumberState) : Bool :=
  s.prevChar.any fun ch => ch = '0' || isJsonDigit ch

/-- `prev_char` is `e` or `E`. -/
def JsonNumberState.behindExponent (s : JsonNumberState) : Bool :=
  s.prevChar.any fun ch => ch = 'e' || ch = 'E'

/-- The cases of `JsonParseAsNumber`: the state behind a character, if it is allowed. -/
def JsonNumberState.read (s : JsonNumberState) (ch : Char) : Option JsonNumberState :=
  let s' := { s with prevChar := some ch, writer := s.writer ++ [ch] }
  if ch = '-' then if s.prevChar.isSome && !s.behindExponent then none else some s'
  else if ch = '+' then if !s.behindExponent then none else some s'
  else if ch = '0' then
    if s.zeroStarted && !s.seenDot && !s.seenExponent then none
    else some { s' with zeroStarted := s.zeroStarted || s.prevChar.isNone }
  else if ch = '.' then if !s.behindDigit then none else some { s' with seenDot := true }
  else if ch = 'e' || ch = 'E' then
    if s.seenExponent then none
    else if !s.behindDigit then none
    else some { s' with seenExponent := true }
  else if s.zeroStarted && !s.seenDot && !s.seenExponent then none
  else if !isJsonDigit ch then none
  else some s'

/-- The loop of `JsonParseAsNumber`, up to a separator or the NUL. -/
def jsonParseAsNumber.loop (s : JsonNumberState) : CString → Option (JsonNumberState × CString)
  | [] => some (s, [])
  | ch :: data =>
    if isJsonSeparator ch then some (s, ch :: data)
    else match s.read ch with
      | none => none
      | some s => loop s data

/-- `JsonParseAsNumber`. Behind the loop the pointer goes back to the last character of the
number. -/
def jsonParseAsNumber (data : CString) : Option (JsonElement × CString) :=
  match jsonParseAsNumber.loop ⟨false, false, false, none, []⟩ data with
  | none => none
  | some (s, data) =>
    match s.prevChar with
    | none => none
    | some ch =>
      if !s.behindDigit then none
      else
        some (jsonElementCreatePrimitive (if s.seenDot then .real else .integer) s.writer,
          ch :: data)

section
variable (pcre : CString → CString → Bool)

/-- What the two loops below do with a character that begins none of the other values. -/
def jsonParsePrimitive (ch : Char) (data : CString) : JsonParsed := do
  if ch = '-' || ch = '0' || isJsonDigit ch then return jsonParseAsNumber data
  else match ← jsonParseAsBoolean pcre data with
    | some child => return some child
    | none => jsonParseAsNull pcre data

mutual

/-- The loop of `JsonParseAsArray`. The first argument bounds its steps and those of the calls. -/
def jsonParseAsArray.loop : Nat → JsonElement → CString → JsonParsed
  | 0, _, _ => .error .outOfFuel
  | _ + 1, _, [] => .ok none
  | fuel + 1, array, ch :: data =>
    if isJsonWhitespace ch then jsonParseAsArray.loop fuel array data
    else if ch = '"' then
      match jsonParseAsString (ch :: data) with
      | none => do
        let array ← jsonArrayAppendString array none
        jsonParseAsArray.loop fuel array (← jsonAdvance [])
      | some (value, data) => do
        let array ← jsonArrayAppendString array (some value)
        jsonParseAsArray.loop fuel array (← jsonAdvance data)
    else if ch = '[' then do
      match ← jsonParseAsArray.loop fuel jsonArrayCreate data with
      | none => return none
      | some (child, data) =>
        let array ← jsonArrayAppendArray array child
        jsonParseAsArray.loop fuel array (← jsonAdvance data)
    else if ch = '\x7b' then do
      match ← jsonParseAsObject.loop fuel jsonObjectCreate none data with
      | none => return none
      | some (child, data) =>
        let array ← jsonArrayAppendObject array child
        jsonParseAsArray.loop fuel array (← jsonAdvance data)
    else if ch = ',' then jsonParseAsArray.loop fuel array data
    else if ch = ']' then .ok (some (array, ch :: data))
    else do
      match ← jsonParsePrimitive pcre ch (ch :: data) with
      | none => return none
      | some (child, data) =>
        let array ← jsonArrayAppendPrimitive array child
        jsonParseAsArray.loop fuel array (← jsonAdvance data)

/-- The loop of `JsonParseAsObject`. -/
def jsonParseAsObject.loop : Nat → JsonElement → Option CString → CString → JsonParsed
  | 0, _, _, _ => .error .outOfFuel
  | _ + 1, _, _, [] => .ok none
  | fuel + 1, object, propertyName, ch :: data =>
    if isJsonWhitespace ch then jsonParseAsObject.loop fuel object propertyName data
    else match propertyName with
    | none =>
      if ch = '"' then
        match jsonParseAsString (ch :: data) with
        | none => .ok none
        | some (name, data) => do
          jsonParseAsObject.loop fuel object (some name) (← jsonAdvance data)
      else if ch = ',' then jsonParseAsObject.loop fuel object none data
      else if ch = '}' then .ok (some (object, ch :: data))
      else .ok none
    | some name =>
      if ch = '"' then
        match jsonParseAsString (ch :: data) with
        | none => .ok none
        | some (value, data) => do
          let object ← jsonObjectAppendString object name value
          jsonParseAsObject.loop fuel object none (← jsonAdvance data)
      else if ch = ':' then jsonParseAsObject.loop fuel object (some name) data
      else if ch = '[' then do
        match ← jsonParseAsArray.loop fuel jsonArrayCreate data with
        | none => return none
        | some (child, data) =>
          let object ← jsonObjectAppendArray object name child
          jsonParseAsObject.loop fuel object none (← jsonAdvance data)
      else if ch = '\x7b' then do
        match ← jsonParseAsObject.loop fuel jsonObjectCreate none data with
        | none => return none
        | some (child, data) =>
          let object ← jsonObjectAppendObject object name child
          jsonParseAsObject.loop fuel object none (← jsonAdvance data)
      else if ch = ',' || ch = '}' then .ok none
      else do
        match ← jsonParsePrimitive pcre ch (ch :: data) with
        | none => return none
        | some (child, data) =>
          let object ← jsonObjectAppendPrimitive object name child
          jsonParseAsObject.loop fuel object none (← jsonAdvance data)

end

/-- `JsonParseAsArray` -/
def jsonParseAsArray (data : CString) : JsonParsed :=
  match data with
  | [] => .ok none
  | ch :: rest =>
    if ch = '[' then jsonParseAsArray.loop pcre data.length jsonArrayCreate rest else .ok none

/-- `JsonParseAsObject` -/
def jsonParseAsObject (data : CString) : JsonParsed :=
  match data with
  | [] => .ok none
  | ch :: rest =>
    if ch = '\x7b' then jsonParseAsObject.loop pcre data.length jsonObjectCreate none rest
    else .ok none

/-- `JsonParse` -/
def jsonParse : CString → JsonParsed
  | [] => .ok none
  | ch :: data =>
    if ch = '\x7b' then jsonParseAsObject pcre (ch :: data)
    else if ch = '[' then jsonParseAsArray pcre (ch :: data)
    else if isJsonWhitespace ch then jsonParse data
    else .ok none

end

end Cfengine
