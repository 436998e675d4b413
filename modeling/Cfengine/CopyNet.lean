import Cfengine.GetStream

/-!
# Copies of remote files (`client_code.c`, `files_copy.c`)

`CopyRegularFileNet` asks for a file and reads as many bytes as `stat` said that it has. What the
connection delivers and what the disk does are inputs.
-/

namespace Cfengine.Net

/-! ## The destination -/

/-- A file that is open: its bytes, and the offset of the descriptor. -/
structure Destination where
  bytes : List Char
  offset : Nat
deriving DecidableEq

namespace Destination

/-- `FullWrite`, which does not call `write` if there is nothing to write. Behind the end of the
file there are NULs. -/
def write (file : Destination) (ptr : List Char) : Destination :=
  if ptr = [] then file
  else
    ⟨(file.bytes.take file.offset).rightpad file.offset '\x00' ++ ptr ++
        file.bytes.drop (file.offset + ptr.length),
      file.offset + ptr.length⟩

/-- `lseek` from the current offset -/
def lseek (file : Destination) (offset : Nat) : Destination :=
  { file with offset := file.offset + offset }

/-- `ftruncate` -/
def ftruncate (file : Destination) (length : Nat) : Destination :=
  { file with bytes := (file.bytes.take length).rightpad length '\x00' }

end Destination

/-- `FSWrite`: the buffer, which has a sentinel if holes are made, the file, and
`last_write_made_hole`. -/
def fsWrite (makeholes writable : Bool) (file : Destination) (buf : List Char)
    (towrite nRead : Nat) : Option (List Char × Destination × Bool) :=
  let buf := if makeholes then writeBytes buf nRead ['\x01'] else buf
  if !writable then none
  else if makeholes && (buf.take nRead).all (· = '\x00') then some (buf, file.lseek nRead, true)
  else some (buf, file.write (buf.take towrite), false)

/-! ## The copy -/

/-- What a copy is given, and what the disk does: whether the block at an offset can be written, and
whether the hole at the end can. -/
structure CopyEnv where
  size : Nat
  makeholes : Bool
  writable : Nat → Bool
  truncatable : Bool

/-- The variables of the loop. -/
structure Copying where
  nReadTotal : Nat
  buf : List Char
  file : Destination
  lastWriteMadeHole : Bool
  socket : List RecvResult

/-- The end of a copy. -/
structure Copied where
  value : Bool
  file : Destination
  socket : List RecvResult
deriving DecidableEq

/-- What is taken for a text of the server in a buffer. -/
def isStatusText (nReadTotal : Nat) (buf : List Char) : Bool :=
  let value := ((scanLiteral ['t'] (cstr buf)).bind scanInt).elim (-1) Prod.fst
  (nReadTotal = 0 && cfFailedStr.isPrefixOf buf) || cfChangedStr.isPrefixOf buf ||
    (value > 0 && "BAD: ".toList.isPrefixOf (buf.drop cfInbandOffset))

/-- `FlushFileStream`, which calls `recv` for each byte. -/
def flushFileStream : Nat → List RecvResult → Except RecvStop (List RecvResult)
  | 0, socket => .ok socket
  | _ + 1, [] => .error .waiting
  | toget + 1, .data _ cs :: socket => flushFileStream toget (unread cs socket)
  | _ + 1, .closed :: socket => .ok (.closed :: socket)
  | toget + 1, .interrupted :: socket | toget + 1, .failed :: socket => flushFileStream toget socket

/-- How many bytes the next block has. -/
def CopyEnv.toget (env : CopyEnv) (nReadTotal : Nat) : Nat :=
  if env.size - nReadTotal > 2048 then 2048
  else if env.size ≠ 0 then env.size - nReadTotal
  else 0

/-- The body of the loop of `CopyRegularFileNet`: the end of the copy, or the variables in front of
`n_read_total += towrite`. -/
def copyBlock (env : CopyEnv) (c : Copying) : Except RecvStop (Copied ⊕ Copying) := do
  let towrite := env.toget c.nReadTotal
  let received ← recvSocketStream c.buf towrite c.socket
  match received.value with
  | none => return .inl ⟨false, c.file, received.socket⟩
  | some nRead =>
    if isStatusText c.nReadTotal received.buffer then
      return .inl ⟨false, c.file, received.socket⟩
    else
      match fsWrite env.makeholes (env.writable c.nReadTotal) c.file received.buffer
          towrite nRead with
      | none =>
        let socket ← flushFileStream (env.size - c.nReadTotal) received.socket
        return .inl ⟨false, c.file, socket⟩
      | some (buf, file, hole) => return .inr ⟨c.nReadTotal, buf, file, hole, received.socket⟩

/-- What is done behind the loop. -/
def finishCopy (env : CopyEnv) (c : Copying) : Except RecvStop Copied :=
  if c.lastWriteMadeHole then
    if env.truncatable then
      .ok ⟨true, (c.file.write ['\x00']).ftruncate c.nReadTotal, c.socket⟩
    else
      (flushFileStream (env.size - c.nReadTotal) c.socket).map fun socket => ⟨false, c.file, socket⟩
  else .ok ⟨true, c.file, c.socket⟩

theorem CopyEnv.toget_pos {env : CopyEnv} {nReadTotal : Nat} (h : nReadTotal < env.size) :
    0 < env.toget nReadTotal := by
  rw [CopyEnv.toget]
  split
  · decide
  · rw [if_pos (by omega)]
    omega

/-- The loop of `CopyRegularFileNet`. -/
def copyLoop (env : CopyEnv) (c : Copying) : Except RecvStop Copied :=
  match copyBlock env c with
  | .error stop => .error stop
  | .ok (.inl copied) => .ok copied
  | .ok (.inr next) =>
    let nReadTotal := c.nReadTotal + env.toget c.nReadTotal
    if nReadTotal ≥ env.size then finishCopy env { next with nReadTotal }
    else copyLoop env { next with nReadTotal }
termination_by env.size - c.nReadTotal
decreasing_by
  have := @CopyEnv.toget_pos env c.nReadTotal (by omega)
  omega

/-- The request of a copy. -/
def getRequest (source : CString) : List Char :=
  ("GET 2048 ".toList ++ source).take (cfBufSize - 1)

/-- `CopyRegularFileNet`, where `buf` is what `xmalloc` returns and `opened` is whether the file
`new` can be created. `none` is `FatalError`. -/
def copyRegularFileNet (env : CopyEnv) (source new : CString) (opened : Bool)
    (sends : List SendResult) (buf : List Char) (socket : List RecvResult) :
    Option (Except RecvStop Copied) :=
  let file : Destination := ⟨[], 0⟩
  let workbuf := getRequest source
  if new.length > cfBufSize - 20 || !opened then some (.ok ⟨false, file, socket⟩)
  else
    (sendTransaction sends workbuf workbuf.length cfDone).map fun sent =>
      if !sent.1 then .ok ⟨false, file, socket⟩ else copyLoop env ⟨0, buf, file, false, socket⟩

end Cfengine.Net
