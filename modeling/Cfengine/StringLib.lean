import Cfengine.Defs
import Cfengine.Theory.Occurrences

/-!
# Strings (`string_lib.c`, `matching.c`)

The functions that escape characters and replace substrings, for which lengths are those that an
`int` can have, and `StringSubstring`.
-/

namespace Cfengine
open Occurrences

/-! ## Escaping a character -/

/-- `CountChar`. A backslash at the end stands in front of the NUL, which may be what is counted: it
is skipped then, and what is behind it is read. -/
def countChar (sep : Char) : CString → Except Fault Nat
  | [] => .ok 0
  | [c] =>
    if c = '\\' ∧ sep = '\x00' then .error .outOfBounds
    else .ok (if c = sep then 1 else 0)
  | c :: d :: sp =>
    if c = '\\' ∧ d = sep then countChar sep sp
    else do return (← countChar sep (d :: sp)) + (if c = sep then 1 else 0)

/-- What `EscapeCharCopy` writes. -/
def escapeCharCopy.loop (toEscape escapeWith : Char) : CString → CString
  | [] => []
  | c :: inPos =>
    if c = toEscape then escapeWith :: c :: loop toEscape escapeWith inPos
    else c :: loop toEscape escapeWith inPos

/-- `EscapeCharCopy`, with all that it has allocated. -/
def escapeCharCopy (str : CString) (toEscape escapeWith : Char) : Except Fault (List Char) := do
  let outSize := str.length + (← countChar toEscape str) + 1
  let out := escapeCharCopy.loop toEscape escapeWith str
  if outSize < out.length then .error .bufferOverflow
  else return out ++ List.replicate (outSize - out.length) '\x00'

/-! ## Replacing substrings -/

/-- The loop of `SearchAndReplace`. The occurrence is the one that `strstr` finds. -/
def searchAndReplace.loop (search replace : CString) (hsearch : search ≠ []) (sourcePtr : CString) :
    CString :=
  match _h : find? search sourcePtr with
  | none => sourcePtr
  | some foundPtr =>
    sourcePtr.take foundPtr ++ replace ++
      loop search replace hsearch (sourcePtr.drop (foundPtr + search.length))
termination_by sourcePtr.length
decreasing_by exact length_drop_lt hsearch _h

/-- `SearchAndReplace` -/
def searchAndReplace (source search replace : CString) : CString :=
  if h : search = [] then source else searchAndReplace.loop search replace h source

/-- The loop of `ReplaceStr`, with what is written so far. An empty `from` would be found
forever. -/
def replaceStr.loop («from» «to» : CString) (hfrom : «from» ≠ []) (outSz : Nat)
    (out rest : CString) :
    CString × Bool :=
  match rest with
  | [] => (out, true)
  | c :: rest =>
    if out.length < outSz then
      if «from» <+: c :: rest then
        if outSz ≤ out.length + «to».length then (out, false)
        else loop «from» «to» hfrom outSz (out ++ «to») ((c :: rest).drop «from».length)
      else loop «from» «to» hfrom outSz (out ++ [c]) rest
    else (out, true)
termination_by rest.length
decreasing_by
  · have := List.length_pos_of_ne_nil hfrom
    rw [List.length_drop, List.length_cons]
    omega
  · exact Nat.lt_succ_self _

/-- `ReplaceStr`, with all of the buffer. -/
def replaceStr («in» : CString) (outSz : Nat) («from» «to» : CString) (hfrom : «from» ≠ []) :
    List Char × Bool :=
  let (out, success) := replaceStr.loop «from» «to» hfrom outSz [] «in»
  (out ++ List.replicate (outSz - out.length) '\x00', success)

/-! ## Escaping special characters -/

/-- A character as `EscapeSpecialChars` writes it. -/
def escapeSpecialChar (noEscList : CString) (c : Char) : CString :=
  if c ∈ noEscList then [c] else if c.isAlphanum then [c] else ['\\', c]

/-- The loop of `EscapeSpecialChars`. Behind `noEscSeq` one more character is written. It may be the
NUL, and the loop goes on behind it then. -/
def escapeSpecialChars.loop (strEscSz : Nat) (noEscSeq noEscList : CString) (strEsc sp : CString) :
    Except Fault CString :=
  match sp with
  | [] => .ok strEsc
  | c :: sp =>
    if strEsc.length + 2 < strEscSz then
      if noEscSeq <+: c :: sp then
        if strEscSz ≤ strEsc.length + noEscSeq.length then .ok strEsc
        else
          match _h : (c :: sp).drop noEscSeq.length with
          | [] => .error .outOfBounds
          | d :: rest =>
            let strEsc := strEsc ++ noEscSeq ++ escapeSpecialChar noEscList d
            if strEscSz < strEsc.length then .error .bufferOverflow
            else loop strEscSz noEscSeq noEscList strEsc rest
      else loop strEscSz noEscSeq noEscList (strEsc ++ escapeSpecialChar noEscList c) sp
    else .ok strEsc
termination_by sp.length
decreasing_by
  · have hlength := congrArg List.length _h
    rw [List.length_drop, List.length_cons, List.length_cons] at hlength
    rw [List.length_cons]
    omega
  · exact Nat.lt_succ_self _

/-- `EscapeSpecialChars` -/
def escapeSpecialChars (str : CString) (strEscSz : Nat) (noEscSeq noEscList : CString) :
    Except Fault CString :=
  escapeSpecialChars.loop strEscSz noEscSeq noEscList [] str

/-! ## Slices -/

/-- An `int` as a `size_t`. -/
def toSizeT (n : Int) : Nat := (n % 2 ^ 64).toNat

/-- `StringSubstring`; nothing is `NULL`. The source is read up to its end at most, and it may not
be read in front of its start. -/
def stringSubstring (source : CString) (sourceLen : Nat) (start len : Int) :
    Except Fault (Option CString) :=
  if len = 0 then .ok (some [])
  else do
    let «end» ←
      if len < 0 then pure (toSizeT (sourceLen + len - 1))
      else if 2 ^ 31 ≤ start + len then throw .intOverflow
      else pure (toSizeT (start + len - 1))
    let «end» := min «end» (toSizeT (sourceLen - 1))
    -- the sum is a `size_t`, and an `int` again
    let start := if start < 0 then (sourceLen + start).bmod (2 ^ 32) else start
    if «end» ≤ toSizeT start then return none
    else if start < 0 ∨ source.length < start then throw .outOfBounds
    else return some ((source.drop start.toNat).take («end» - start.toNat + 1))

attribute [grind =] countChar escapeCharCopy.loop

end Cfengine
