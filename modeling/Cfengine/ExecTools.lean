import Cfengine.Defs

/-!
# Command lines without a shell (`exec_tools.c`)

`ArgSplitCommand` splits a command line into the arguments of `execv`. Its array grows as it is
filled, and ends with `NULL`.
-/

namespace Cfengine

/-- `INITIAL_ARGS` -/
def initialArgs : Nat := 8

/-- One of the quotes that an argument may start with. -/
def isArgQuote (c : Char) : Bool := c = '"' || c = '\'' || c = '`'

/-- An array of `argslen` pointers, of which the first `argc` are written; `NULL` is `none`. -/
structure ArgArray where
  args : List (Option CString)
  argslen : Nat

/-- `args[argc++] = arg` -/
def ArgArray.store (arg : Option CString) (a : ArgArray) : Except Fault ArgArray :=
  if a.args.length < a.argslen then .ok { a with args := a.args ++ [arg] }
  else .error .bufferOverflow

/-- `xrealloc`, if the array is full. -/
def ArgArray.expand (argslen : Nat → Nat) (a : ArgArray) : ArgArray :=
  if a.args.length = a.argslen then { a with argslen := argslen a.argslen } else a

/-- The argument that ends at such a character, and where the search goes on: the second delimiter
is skipped. -/
def argUntil (isEnd : Char → Bool) (s : CString) : CString × CString :=
  let arg := s.takeWhile (!isEnd ·)
  match s.dropWhile (!isEnd ·) with
  | [] => (arg, [])
  | c :: rest => (arg, if isArgQuote c then rest else c :: rest)

/-- The argument at the start of a text, which is no space. -/
def nextArg : CString → CString × CString
  | [] => ([], [])
  | c :: s => if isArgQuote c then argUntil (decide <| · = c) s else argUntil isspace (c :: s)

/-- The loop of `ArgSplitCommand`, for at most so many rounds. -/
def argSplitCommand.loop : Nat → CString → ArgArray → Except Fault ArgArray
  | _, [], a => .ok a
  | 0, _ :: _, a => .ok a
  | fuel + 1, c :: s, a =>
    if isspace c then argSplitCommand.loop fuel s a
    else do
      let a ← (a.expand (· * 2)).store (some (nextArg (c :: s)).1)
      argSplitCommand.loop fuel (nextArg (c :: s)).2 a

/-- `ArgSplitCommand` -/
def argSplitCommand (comm : CString) : Except Fault ArgArray := do
  let a ← argSplitCommand.loop comm.length comm ⟨[], initialArgs⟩
  (a.expand (· + 1)).store none

end Cfengine
