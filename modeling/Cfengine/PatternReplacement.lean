import Cfengine.ColumnEdits

/-!
# Pattern replacements (`files_editline.c`)

`ReplacePatterns` behind the lock of the promise. `ExpandScalar` and the regular expressions are
parameters.
-/

namespace Cfengine

/-- `CF_MAX_REPLACE` -/
def cfMaxReplace : Nat := 20

/-- The attributes that `GetReplaceAttributes` reads. -/
structure ReplaceAttributes where
  replaceValue : CString
  occurrences : Option CString
  /-- `transaction.action == cfa_warn` -/
  warn : Bool

/-- `once_only` -/
def ReplaceAttributes.onceOnly (a : ReplaceAttributes) : Bool := a.occurrences = some "first".toList

/-- `NotAnchored` -/
def notAnchored (s : CString) : Bool := s.head? ≠ some '^' || s.getLast? ≠ some '$'

section
variable (env : RegEx) (expandScalar : CString → CString) (a : ReplaceAttributes)
  (promiser : CString)

/-- The inner loop of `ReplacePatterns`, with the number of replacements up to `CF_MAX_REPLACE`. It
leaves the line, and whether something has been replaced. -/
def replaceMatches : Nat → Nat → CString → Bool → Except Fault (CString × Bool)
  | cutoff, matchLen, lineBuff, replaced =>
    match env.blockTextMatch promiser lineBuff with
    | none => .ok (lineBuff, replaced)
    | some (startOff, endOff) =>
      -- "Improper convergent expression matches defacto convergence, so accepting"
      if matchLen = lineBuff.length then .ok (lineBuff, replaced)
      else
        match cutoff with
        | 0 => .ok (lineBuff, replaced)
        | cutoff + 1 =>
          if cfBufSize ≤ startOff then .error .bufferOverflow
          else
            let before := lineBuff.take startOff
            let after := (lineBuff.drop endOff).take (cfBufSize - 1)
            let lineBuff :=
              (before ++ expandScalar a.replaceValue ++ after).take (cfExpandSize - 2)
            if a.onceOnly then .ok (lineBuff, true)
            else replaceMatches cutoff (endOff - startOff) lineBuff true

/-- The loop of `ReplacePatterns` over the lines. -/
def replacePatterns.loop (retval : Bool) : List (Option CString) → Except Fault LineEdits
  | [] => .ok ⟨[], retval, 0⟩
  | none :: ip => do return (← loop retval ip).cons none 0
  | some name :: ip =>
    -- `line_buff` has no NUL then
    if cfBufSize ≤ name.length then .error .outOfBounds
    else do
      let (lineBuff, replaced) ←
        replaceMatches env expandScalar a promiser cfMaxReplace 0 name false
      if notAnchored promiser && (env.blockTextMatch promiser lineBuff).isSome then
        return ⟨some name :: ip, retval, 0⟩
      else if a.warn then return (← loop retval ip).cons (some name) 0
      else if replaced then
        if a.onceOnly then return ⟨some lineBuff :: ip, true, 1⟩
        else return (← loop true ip).cons (some lineBuff) 1
      else return (← loop retval ip).cons (some name) 0

/-- `ReplacePatterns` -/
def replacePatterns (region : List (Option CString)) : Except Fault LineEdits :=
  replacePatterns.loop env expandScalar a promiser false region

end

attribute [grind =] replaceMatches replacePatterns.loop

end Cfengine
