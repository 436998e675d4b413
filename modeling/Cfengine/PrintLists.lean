import Cfengine.Defs

/-!
# Lists in bounded buffers (`rlist.c`, `item_lib.c`, `files_names.c`, `fncall.c`)

Printing into a buffer of `bufsize` bytes. A string that reaches the end of its buffer has
overwritten what is behind it.
-/

namespace Cfengine

/-- `strcat` into a buffer. -/
def strcat (dest src : CString) (size : Nat) : Except Fault CString :=
  if size ≤ dest.length + src.length then .error .bufferOverflow else .ok (dest ++ src)

/-- `JoinMargin` without `nextFree`; `Join` is the one with `CF_BUFFERMARGIN`. The length of `leaf`
is an `int`: strings are shorter than 2^31 characters. -/
def joinMargin (path leaf : CString) (bufsize margin : Nat) : Except Fault (CString × Bool) :=
  if path.length + leaf.length > bufsize - margin then .ok (path, false)
  else do return (← strcat path leaf bufsize, true)

/-- `StartJoin` -/
def startJoin (leaf : CString) (bufsize : Nat) : Except Fault (CString × Bool) :=
  joinMargin [] leaf bufsize cfBufferMargin

/-- `EndJoin` -/
def endJoin (path leaf : CString) (bufsize : Nat) : Except Fault (CString × Bool) :=
  joinMargin path leaf bufsize 0

/-- What `JoinSilent` appends to a string that it has cut. -/
def truncatedMark : CString := ['.', '.', '.', 'T', 'R', 'U', 'N', 'C', 'A', 'T', 'E', 'D']

/-- `JoinSilent`, for strings of the same lengths. -/
def joinSilent (path leaf : CString) (bufsize : Nat) : Except Fault (CString × Bool) :=
  if path.length + leaf.length > bufsize - cfBufferMargin then do
    let path ← strcat path (leaf.take (bufsize - cfBufferMargin)) bufsize
    return ((← endJoin path truncatedMark bufsize).1, false)
  else do return (← strcat path leaf bufsize, true)

/-- Goes on with what was joined, or closes the list. -/
def orClose (bufsize : Nat) (leaf : CString) (next : CString → Except Fault (CString × Bool))
    (joined : CString × Bool) : Except Fault (CString × Bool) :=
  if joined.2 then next joined.1 else do return ((← endJoin joined.1 leaf bufsize).1, false)

/-- The body of the loops in `PrintRlist` and `PrintItemList`: an item between quotes, and a comma
if there are `more`. -/
def printQuoted (bufsize : Nat) (print next : CString → Except Fault (CString × Bool)) (more : Bool)
    (buffer : CString) : Except Fault (CString × Bool) := do
  orClose bufsize ['\'', '}'] (fun buffer => do
    orClose bufsize ['\'', '}'] (fun buffer => do
      orClose bufsize ['\'', '}'] (fun buffer => do
        if more then orClose bufsize ['}'] next (← joinSilent buffer [','] bufsize)
        else next buffer) (← joinSilent buffer ['\''] bufsize)) (← print buffer))
    (← joinSilent buffer ['\''] bufsize)

/-- The end of both. -/
def printEnd (bufsize : Nat) (buffer : CString) : Except Fault (CString × Bool) := do
  return ((← endJoin buffer ['}'] bufsize).1, true)

/-- The loop of `PrintItemList`, on the names. -/
def printItemList.loop (bufsize : Nat) : List CString → CString → Except Fault (CString × Bool)
  | [] => printEnd bufsize
  | name :: ip =>
    printQuoted bufsize (fun buffer => joinMargin buffer name bufsize cfBufferMargin)
      (loop bufsize ip) (!ip.isEmpty)

/-- `PrintItemList` -/
def printItemList (bufsize : Nat) (list : List CString) : Except Fault (CString × Bool) := do
  printItemList.loop bufsize list (← startJoin ['\x7b'] bufsize).1

/-- The loop of `PrintFnCall`. -/
def printFnCall.loop (bufsize : Nat) : List Rval → CString → Except Fault CString
  | [], buffer => strcat buffer [')'] bufsize
  | rval :: rp, buffer => do
    let (buffer, _) ← match rval with
      | .scalar item => joinMargin buffer item bufsize cfBufferMargin
      | .fncall name args => do
        let work ← loop cfMaxVarSize args ((name ++ ['(']).take (cfMaxVarSize - 1))
        joinMargin buffer work bufsize cfBufferMargin
      | .list _ => .ok (buffer, true)
    loop bufsize rp (← if rp.isEmpty then .ok buffer else strcat buffer [','] bufsize)

/-- `PrintFnCall`, which starts the buffer anew. -/
def printFnCall (bufsize : Nat) (name : CString) (args : List Rval) :
    Except Fault (CString × Bool) := do
  let buffer ← printFnCall.loop bufsize args ((name ++ ['(']).take (bufsize - 1))
  return (buffer, !buffer.isEmpty)

mutual

/-- The loop of `PrintRlist`. -/
def printRlist.loop (bufsize : Nat) : List Rval → CString → Except Fault (CString × Bool)
  | [] => printEnd bufsize
  | rval :: rp =>
    printQuoted bufsize (printRval bufsize rval) (printRlist.loop bufsize rp) (!rp.isEmpty)

/-- `PrintRval`. A list in it starts the buffer anew. -/
def printRval (bufsize : Nat) : Rval → CString → Except Fault (CString × Bool)
  | .scalar item => fun buffer => joinSilent buffer item bufsize
  | .list list => fun buffer => do
    if list.isEmpty then return (buffer, false)
    printRlist.loop bufsize list (← startJoin ['\x7b'] bufsize).1
  | .fncall name args => fun _ => printFnCall bufsize name args

end

/-- `PrintRlist` -/
def printRlist (bufsize : Nat) (list : List Rval) : Except Fault (CString × Bool) := do
  printRlist.loop bufsize list (← startJoin ['\x7b'] bufsize).1

attribute [grind =] strcat joinMargin joinSilent orClose

end Cfengine
