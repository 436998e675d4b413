import Cfengine.Variables

/-!
# Expansion of scalar references (`expand.c`)

`ExpandPrivateScalar` copies a string to a buffer and replaces the references in it. The result of
the model is the buffer and the returned truth value; `none` is an exit through `FatalError`, or a
write behind the end of a local buffer.
-/

namespace Cfengine

/-- `strlcat(dst, src, size)` -/
def strlcat (dst src : CString) (size : Nat) : CString := dst ++ src.take (size - 1 - dst.length)

def expandOverflow (str1 str2 : CString) : Bool :=
  str1.length + str2.length > cfExpandSize - cfBufferMargin

/-- A reference that is written back: `snprintf(name, CF_MAXVARSIZE, "$(%s)", currentitem)`. -/
def writtenBack (varstring : Char) (currentitem : CString) : CString :=
  (if varstring = '}' then '$' :: '{' :: (currentitem ++ ['}'])
    else '$' :: '(' :: (currentitem ++ [')'])).take (cfMaxVarSize - 1)

/-- The name of the reference `$(temp)`: the result of the recursive call if there are references
in it. -/
def expandName (nested : Option (CString × Bool)) (temp : CString) : Option CString :=
  if isCf3VarString temp ≠ 0 then nested.map Prod.fst else some temp

/-- The `for` loop, entered with `sp` at the rest of the string. The recursive call of
`ExpandPrivateScalar` starts the loop anew on the text of the reference, with an empty buffer. -/
def expandPrivateScalar.loop (getVariable : VarLookup) :
    Nat → CString → CString → Bool → Option (CString × Bool)
  | 0, _, _, _ => none
  | fuel + 1, sp, buffer, returnval =>
    let currentitem := sp.takeWhile (· ≠ '$')
    if expandOverflow buffer currentitem then none
    else
      let buffer := strlcat buffer currentitem cfExpandSize
      match sp.dropWhile (· ≠ '$') with
      | [] => some (buffer, returnval)
      | sigil :: rest =>
        let var := if startsWithBracket rest then extractOuterCf3VarString (sigil :: rest) else []
        if var = [] then
          loop getVariable fuel rest (strlcat buffer ['$'] cfExpandSize) returnval
        else if var.length ≥ cfBufSize then none
        else do
          let varstring := if rest.head? = some '{' then '}' else ')'
          let temp := extractInnerCf3VarString (sigil :: rest)
          let currentitem ← expandName (loop getVariable fuel temp [] true) temp
          let next := (sigil :: rest).drop var.length
          match getVariable currentitem with
          | some (.scalar item, .str) | some (.scalar item, .int) | some (.scalar item, .real) =>
            if expandOverflow buffer item then none
            else loop getVariable fuel next (strlcat buffer item cfExpandSize) returnval
          | none | some (_, .slist) | some (_, .ilist) | some (_, .rlist) =>
            loop getVariable fuel next
              (strlcat buffer (writtenBack varstring currentitem) cfExpandSize) false
          | some _ => some (buffer, false)

/-- Each round of the loop consumes a character and each recursive call gets a shorter string, so
the length of the string bounds both. -/
def expandPrivateScalar (getVariable : VarLookup) (string : CString) : Option (CString × Bool) :=
  if string = [] then some ([], false)
  else expandPrivateScalar.loop getVariable (string.length + 1) string [] true

end Cfengine
