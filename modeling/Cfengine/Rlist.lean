import Cfengine.Defs

/-!
# Lists of values (`rlist.c`, `conversion.c`, `string_lib.c`, `fncall.c`)

Lists of scalars are taken apart, edited and joined, and values are printed. Splitting leaves the
pointer one behind the terminating NUL, where a character is read that decides nothing: the position
is tested next. An `int` has 32 bits and a `size_t` 64.
-/

namespace Cfengine

/-! ## Splitting and joining -/

/-- `SubStrnCopyChr`, whose value is the length of what it copies. -/
def subStrnCopyChr (len : Nat) («from» : CString) (sep : Char) : CString :=
  match len, «from» with
  | 0, _ => []
  | _, [] => []
  | len + 1, c :: sp =>
    if c = '\\' ∧ sp.head? = some sep then sep :: subStrnCopyChr len sp.tail sep
    else if c = sep then []
    else c :: subStrnCopyChr len sp sep

attribute [grind =] subStrnCopyChr

/-- The loop of `SplitStringAsRList`. A `node` without its NUL is read beyond its end. -/
def splitStringAsRList.loop (sep : Char) (sp : CString) : Except Fault (List CString) :=
  if sp = [] then .ok []
  else
    let node := subStrnCopyChr cfMaxVarSize sp sep
    if node.length = cfMaxVarSize then .error .outOfBounds
    else do return node :: (← loop sep (sp.drop (node.length + 1)))
termination_by sp.length
decreasing_by
  rw [List.length_drop]
  have := List.length_pos_of_ne_nil ‹sp ≠ []›
  omega

/-- `SplitStringAsRList` -/
def splitStringAsRList (string : CString) (sep : Char) : Except Fault (List CString) :=
  splitStringAsRList.loop sep string

/-- `Rlist2String`, through `line[CF_BUFSIZE]`. -/
def rlist2String (list : List CString) (sep : CString) : Except Fault CString :=
  let line := sep.intercalate list
  if line.length < cfBufSize then .ok line else .error .bufferOverflow

/-! ## Printing -/

/-- The loop of `EscapeQuotes`, whose counter goes up by 2 for a character and by 4 for a quote. -/
def escapeQuotes.loop (outSz : Int) (i : Int) : CString → CString
  | [] => []
  | c :: spf =>
    if i < outSz - 2 then
      if c = '\'' ∨ c = '"' then '\\' :: c :: loop outSz (i + 4) spf
      else c :: loop outSz (i + 2) spf
    else []

/-- `EscapeQuotes`. A negative size is a huge one for `memset`. -/
def escapeQuotes (s : CString) (outSz : Int) : Except Fault CString :=
  if outSz < 0 then .error .bufferOverflow else .ok (escapeQuotes.loop outSz 0 s)

/-- `buffer_size` in `RvalPrint`, converted to the `int` that `EscapeQuotes` takes. -/
def rvalBufferSize (item : CString) : Int := Int.bmod (item.length * 2 + 1) (2 ^ 32)

mutual

/-- The loop of `FnCallPrint`. -/
def fnCallPrint.loop : List Rval → CString
  | [] => []
  | .scalar item :: rp => item ++ ',' :: fnCallPrint.loop rp
  | .fncall _ args :: rp => fnCallPrint.loop args ++ fnCallPrint.loop rp
  | .list _ :: rp => "(** Unknown argument **)\n".toList ++ fnCallPrint.loop rp

end

mutual

/-- The loop of `RlistPrint`. -/
def rlistPrint.loop : List Rval → Except Fault CString
  | [] => .ok []
  | item :: rp => do
    let printed ← rvalPrint item
    let rest ← rlistPrint.loop rp
    return '\'' :: printed ++ '\'' :: (if rp.isEmpty then [] else [',']) ++ rest

/-- `RvalPrint`. Of an item that is `NULL` nothing is printed. -/
def rvalPrint : Rval → Except Fault CString
  | .scalar item => escapeQuotes item (rvalBufferSize item)
  | .list list => do
    if list.isEmpty then return []
    let printed ← rlistPrint.loop list
    return " \x7b".toList ++ printed ++ ['}']
  | .fncall _ args => .ok (fnCallPrint.loop args)

end

end Cfengine
