import Cfengine.Rlist

/-!
# Lists that are taken apart (`item_lib.c`, `rlist.c`)

`SplitString` collects an item in a buffer, and `ParseShownRlist` reads what `PrintRlist` prints.
-/

namespace Cfengine

/-- The loop of `SplitString`: the character in front of `sp`, and `before[0..i-1]`. -/
def splitString.loop (sep : Char) (last : Option Char) (before : CString) :
    CString → Except Fault (List CString)
  | [] => if cfBufSize ≤ before.length then .error .bufferOverflow else .ok [before]
  | c :: sp =>
    if cfBufSize ≤ before.length then .error .bufferOverflow
    else if c = sep then
      if last = some '\\' then
        -- `i--`, which leaves the buffer if nothing is in it
        if before = [] then .error .bufferOverflow
        else loop sep (some c) (before.dropLast ++ [sep]) sp
      else do return before :: (← loop sep (some c) [] sp)
    else loop sep (some c) (before ++ [c]) sp

/-- `SplitString`, the names of the items. -/
def splitString (string : CString) (sep : Char) : Except Fault (List CString) :=
  splitString.loop sep none [] string

/-- The characters of the conversion `%*[{ '"]`. -/
def isShownMark (c : Char) : Bool := c = '\x7b' || c = ' ' || c = '\'' || c = '"'

/-- The characters that end the conversion `%255[^'"]`. -/
def isShownQuote (c : Char) : Bool := c = '\'' || c = '"'

/-- `sscanf(rp->item, "%*[{ '\"]%255[^'\"]", value)`: what `value` holds then. -/
def scanShown (item value : CString) : CString :=
  let sp := item.dropWhile isShownMark
  let scanned := (sp.takeWhile (!isShownQuote ·)).take 255
  if sp.length = item.length ∨ scanned = [] then value else scanned

/-- The loop of `ParseShownRlist`. -/
def parseShownRlist.loop (value : CString) : List CString → List CString
  | [] => []
  | item :: rp => scanShown item value :: loop (scanShown item value) rp

attribute [grind =] parseShownRlist.loop

/-- `ParseShownRlist`, with what the variable `value` holds at first. -/
def parseShownRlist (value string : CString) : Except Fault (List CString) := do
  return parseShownRlist.loop value (← splitStringAsRList string ',')

end Cfengine
