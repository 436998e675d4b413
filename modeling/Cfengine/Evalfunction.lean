import Cfengine.Defs

/-!
# Built-in functions (`evalfunction.c`)

`FnCallPeers`, `FnCallPeerLeader` and `FnCallPeerLeaders` read the same list of hosts. The files
and the regular expressions for comments are parameters; an `int` has 32 bits and a `long` 64.
-/

namespace Cfengine

/-- `FnCallResult` -/
inductive FnCallResult where
  | success (rval : Rval)
  | failure

/-- The names of this host. -/
structure ThisHost where
  vfqname : CString
  vuqname : CString
  vfqname_lt : vfqname.length < cfMaxVarSize
  vuqname_lt : vuqname.length < cfMaxVarSize

/-- Whether a name is `VFQNAME` or `VUQNAME`. -/
def ThisHost.isNamed (host : ThisHost) (s : CString) : Bool := s = host.vfqname || s = host.vuqname

def isNewline (c : Char) : Bool := c = '\n' || c = '\r'

/-- `CfReadFile`, where `contents` is what can be read of the file. The newline behind a single
line is removed. -/
def cfReadFile (contents : Option CString) (maxsize : Nat) : Option CString :=
  contents.map fun contents =>
    let result := contents.take maxsize
    if result.dropLast.any isNewline then result
    else if result.getLast?.any isNewline then result.dropLast
    else result

def closeStringHole (s : CString) (start stop : Nat) : CString :=
  if stop ≤ start then s else s.take start ++ s.drop stop

/-- The loop of `StripPatterns`, which gives up when it has stripped too often. -/
def stripPatterns.loop (blockTextMatch : CString → Option (Nat × Nat)) :
    Nat → Nat → CString → CString
  | 0, _, fileBuffer => fileBuffer
  | fuel + 1, count, fileBuffer =>
    match blockTextMatch fileBuffer with
    | none => fileBuffer
    | some (start, stop) =>
      let fileBuffer := closeStringHole fileBuffer start stop
      if count > fileBuffer.length then fileBuffer
      else loop blockTextMatch fuel (count + 1) fileBuffer

/-- `StripPatterns`, where `pattern` is `BlockTextMatch` for the pattern if that is not empty. -/
def stripPatterns (pattern : Option (CString → Option (Nat × Nat))) (fileBuffer : CString) :
    CString :=
  match pattern with
  | none => fileBuffer
  | some blockTextMatch => stripPatterns.loop blockTextMatch (fileBuffer.length + 2) 0 fileBuffer

/-- The loop of `SplitRegexAsRList` for the regex `\n`, with blanks. What is in front of a newline
is copied to a buffer of `CF_MAXVARSIZE` characters, and has to leave space for a NUL. -/
def splitLines.loop (string : CString) : Nat → Nat → CString → Except Fault (List CString)
  | 0, _, _ => .ok []
  | fuel + 1, room, sp =>
    if room = 0 then .ok []
    else if '\n' ∈ sp then
      let node := sp.takeWhile (· ≠ '\n')
      if node.length ≥ cfMaxVarSize then .error .bufferOverflow
      else (loop string fuel (room - 1) (sp.drop (node.length + 1))).map (node :: ·)
    else
      let node := sp.take (cfMaxVarSize - 1)
      .ok (if sp.length ≠ string.length || node ≠ [] then [node] else [])

/-- `SplitRegexAsRList(string, "\n", max, true)` -/
def splitLines (string : CString) (max : Nat) : Except Fault (List CString) :=
  splitLines.loop string (string.length + 1) max string

def emptyString (s : CString) : Bool := s.all isspace

/-- The conversion `%s`. -/
def scanWord (s : CString) : CString := (s.dropWhile isspace).takeWhile (!isspace ·)

/-- What the loops below read of the lines: empty ones are skipped. -/
def lineNames (newlist : List CString) : List CString :=
  (newlist.filter (!emptyString ·)).map scanWord

/-- The hosts in a file. -/
def readNames (pattern : Option (CString → Option (Nat × Nat))) (fileBuffer : CString) :
    Except Fault (List CString) :=
  (splitLines (stripPatterns pattern fileBuffer) 100000).map lineNames

/-- The smallest `int`. -/
def intMin : Int := -2 ^ 31

section
variable (host : ThisHost)

/-- The loop of `FnCallPeers`. -/
def fnCallPeers.loop (groupsize : Int) :
    List CString → Nat → Bool → List CString → Except Fault (List CString)
  | [], _, _, pruned => .ok pruned
  | s :: rp, i, found, pruned =>
    let found' := found || host.isNamed s
    let pruned := if host.isNamed s then pruned else s :: pruned
    if groupsize = 0 then .error .divideByZero
    else if groupsize = intMin then .error .intOverflow
    else if (i : Int).tmod groupsize = groupsize - 1 then
      if found' then .ok pruned else loop groupsize rp (i + 1) found' []
    else loop groupsize rp (i + 1) found' pruned

/-- The name of a leader, as this host sees it. -/
def leaderName (s : CString) : CString := if host.isNamed s then "localhost".toList else s

/-- The loop of `FnCallPeerLeader`; the buffer stays empty if there is no leader. -/
def fnCallPeerLeader.loop (groupsize : Int) :
    List CString → Nat → Bool → Except Fault CString
  | [], _, _ => .ok []
  | s :: rp, i, found =>
    let found' := found || host.isNamed s
    if groupsize = 0 then .error .divideByZero
    else if (i : Int).tmod groupsize = 0 ∧ found' then .ok (leaderName host s)
    else loop groupsize rp (i + 1) found'

/-- The loop of `FnCallPeerLeaders`. -/
def fnCallPeerLeaders.loop (groupsize : Int) :
    List CString → Nat → List CString → Except Fault (List CString)
  | [], _, pruned => .ok pruned
  | s :: rp, i, pruned =>
    if groupsize = 0 then .error .divideByZero
    else if (i : Int).tmod groupsize = 0 then
      loop groupsize rp (i + 1) (leaderName host s :: pruned)
    else loop groupsize rp (i + 1) pruned

/- `size` is the value of `Str2Int` for the group size, which is assigned to an `int`. -/
variable (pattern : Option (CString → Option (Nat × Nat))) (contents : Option CString) (size : Int)

def fnCallPeers : Except Fault FnCallResult :=
  match cfReadFile contents 100000 with
  | none => .ok .failure
  | some fileBuffer => do
    let pruned ← fnCallPeers.loop host (size.bmod (2 ^ 32)) (← readNames pattern fileBuffer) 0
      false []
    return if pruned = [] then .failure else .success (.list (pruned.map .scalar))

def fnCallPeerLeader : Except Fault FnCallResult :=
  match cfReadFile contents 100000 with
  | none => .ok .failure
  | some fileBuffer => do
    let buffer ← fnCallPeerLeader.loop host (size.bmod (2 ^ 32)) (← readNames pattern fileBuffer) 0
      false
    return if buffer = [] then .failure else .success (.scalar buffer)

/-- Where there are no leaders the buffer of the file is freed twice. -/
def fnCallPeerLeaders : Except Fault FnCallResult :=
  match cfReadFile contents 100000 with
  | none => .ok .failure
  | some fileBuffer => do
    let pruned ← fnCallPeerLeaders.loop host (size.bmod (2 ^ 32)) (← readNames pattern fileBuffer) 0
      []
    if pruned = [] then .error .doubleFree else return .success (.list (pruned.map .scalar))

end

end Cfengine
