import Cfengine.CopyNet

/-!
# Copies of local files (`files_copy.c`, `full_write.c`)

`CopyRegularFileDisk` reads a file in blocks and makes holes of the blocks of zeros. The calls of
`read`, `write`, `lseek` and `ftruncate` are given what the system answers, one answer for each
call; when there are no more of them, a call does all that it is asked for.
-/

namespace Cfengine.Disk

/-- What the system answers. -/
inductive Answer where
  /-- One byte and so many more at most, where bytes are read or written. -/
  | done (more : Nat)
  /-- `EINTR` -/
  | interrupted
  | failed
deriving DecidableEq

/-! ## Writing -/

/-- The end of a call that takes answers. -/
structure Outcome where
  value : Bool
  file : Net.Destination
  answers : List Answer

/-- `FullWrite`; false is a negative value. -/
def fullWrite : List Answer → Net.Destination → List Char → Outcome
  | [], desc, ptr => ⟨true, desc.write ptr, []⟩
  | answer :: answers, desc, ptr =>
    if ptr = [] then ⟨true, desc, answer :: answers⟩
    else
      match answer with
      | .done more => fullWrite answers (desc.write (ptr.take (more + 1))) (ptr.drop (more + 1))
      | .interrupted => fullWrite answers desc ptr
      | .failed => ⟨false, desc, answers⟩

/-- `lseek` from the current offset. -/
def lseek (desc : Net.Destination) (offset : Nat) : List Answer → Outcome
  | [] => ⟨true, desc.lseek offset, []⟩
  | .done _ :: answers => ⟨true, desc.lseek offset, answers⟩
  | .interrupted :: answers | .failed :: answers => ⟨false, desc, answers⟩

def ftruncate (desc : Net.Destination) (length : Nat) : List Answer → Outcome
  | [] => ⟨true, desc.ftruncate length, []⟩
  | .done _ :: answers => ⟨true, desc.ftruncate length, answers⟩
  | .interrupted :: answers | .failed :: answers => ⟨false, desc, answers⟩

/-! ## Blocks -/

/-- The loop over words of four bytes: what is behind the first that is not zero. -/
def firstWord : Nat → List Char → Except Fault Nat
  | intp, a :: b :: c :: d :: buf =>
    if a = '\x00' ∧ b = '\x00' ∧ c = '\x00' ∧ d = '\x00' then firstWord (intp + 4) buf
    else .ok (intp + 4)
  | _, _ => .error .outOfBounds

/-- The loop over bytes. -/
def firstByte : Nat → List Char → Except Fault Nat
  | cp, c :: buf => if c = '\x00' then firstByte (cp + 1) buf else .ok (cp + 1)
  | _, [] => .error .outOfBounds

/-- Whether the first byte that is not zero is the sentinel. -/
def findsSentinel (buf : List Char) (nRead : Nat) : Except Fault Bool := do
  let intp ← firstWord 0 buf
  let cp ← firstByte (intp - 4) (buf.drop (intp - 4))
  return nRead < cp

/-- The end of a block: the end of its call, the buffer, and `last_write_made_hole`. -/
structure BlockWritten extends Outcome where
  buf : List Char
  hole : Bool

/-- What `FSWrite` does with a block, and `CopyRegularFileDisk`. -/
def fsWrite (makeholes : Bool) (dd : Net.Destination) (buf : List Char) (towrite nRead : Nat)
    (answers : List Answer) : Except Fault BlockWritten :=
  if makeholes then
    if buf.length ≤ nRead then .error .bufferOverflow
    else
      let buf := Net.writeBytes buf nRead ['\x01']
      match findsSentinel buf nRead with
      | .error fault => .error fault
      | .ok true => .ok ⟨lseek dd nRead answers, buf, true⟩
      | .ok false => .ok ⟨fullWrite answers dd (buf.take towrite), buf, false⟩
  else .ok ⟨fullWrite answers dd (buf.take towrite), buf, false⟩

/-! ## The end of a copy -/

/-- What is returned, and the file at the destination, if there is one. -/
structure Copied where
  value : Bool
  destination : Option (List Char)
deriving DecidableEq

/-- `unlink`, which does not fail. -/
def unlink (_ : Option (List Char)) : Option (List Char) := none

/-- What is done behind the loop over the blocks. -/
def finishCopy (lastWriteMadeHole : Bool) (dd : Net.Destination) (nReadTotal : Nat)
    (answers : List Answer) :
    Copied :=
  if lastWriteMadeHole then
    let written := fullWrite answers dd ['\x00']
    if written.value then
      let truncated := ftruncate written.file nReadTotal written.answers
      if truncated.value then ⟨true, some truncated.file.bytes⟩
      else ⟨false, unlink (some truncated.file.bytes)⟩
    else ⟨false, unlink (some written.file.bytes)⟩
  else ⟨true, some dd.bytes⟩

/-! ## Blocks of a remote file -/

/-- What `CopyRegularFileNet` gives to `FSWrite`: the buffer behind a block that it received, how
many bytes it asked for, and how many it received. -/
structure ReceivedBlock where
  buf : List Char
  towrite : Nat
  nRead : Nat

/-- The blocks of `CopyRegularFileNet`, one after the other, and what is behind them. -/
def writeBlocks (makeholes : Bool) :
    List ReceivedBlock → Bool → Net.Destination → Nat → List Answer → Except Fault Copied
  | [], lastWriteMadeHole, dd, nReadTotal, answers =>
    .ok (finishCopy lastWriteMadeHole dd nReadTotal answers)
  | block :: blocks, _, dd, nReadTotal, answers =>
    match fsWrite makeholes dd block.buf block.towrite block.nRead answers with
    | .error fault => .error fault
    | .ok written =>
      if written.value then
        writeBlocks makeholes blocks written.hole written.file (nReadTotal + block.towrite)
          written.answers
      else .ok ⟨false, unlink (some written.file.bytes)⟩

/-! ## The copy of a local file -/

/-- The variables of the loop, with what is left of the source. -/
structure Copying where
  source : List Char
  buf : List Char
  dd : Net.Destination
  lastWriteMadeHole : Bool
  nReadTotal : Nat
  answers : List Answer

/-- How a round of the loop ends. -/
inductive Round where
  | next (c : Copying)
  | «break» (c : Copying)
  | «return» (copied : Copied)

/-- A round in which this many bytes are read at most. -/
def copyBlock (makeHoles : Bool) (count : Nat) (c : Copying) : Except Fault Round :=
  let bytes := c.source.take count
  let nRead := bytes.length
  if nRead = 0 then .ok (.break c)
  else
    match fsWrite makeHoles c.dd (Net.writeBytes c.buf 0 bytes) nRead nRead c.answers with
    | .error fault => .error fault
    | .ok written =>
      if written.value then
        .ok (.next ⟨c.source.drop count, written.buf, written.file, written.hole,
          c.nReadTotal + nRead, written.answers⟩)
      else .ok (.return ⟨false, unlink (some written.file.bytes)⟩)

/-- The body of the loop of `CopyRegularFileDisk`. -/
def copyRound (makeHoles : Bool) (bufSize : Nat) (c : Copying) : Except Fault Round :=
  match c.answers with
  | [] => copyBlock makeHoles bufSize c
  | .done more :: answers => copyBlock makeHoles (min (more + 1) bufSize) { c with answers }
  | .interrupted :: answers => .ok (.next { c with answers })
  | .failed :: _ => .ok (.return ⟨false, some c.dd.bytes⟩)

section
variable {answers : List Answer} {dd : Net.Destination}

theorem length_fullWrite {ptr : List Char} :
    (fullWrite answers dd ptr).answers.length ≤ answers.length := by
  induction answers generalizing dd ptr with
  | nil => exact le_rfl
  | cons answer answers ih =>
    rw [fullWrite.eq_def]
    dsimp only
    split
    · exact le_rfl
    · cases answer with
      | done more => exact Nat.le_succ_of_le ih
      | interrupted => exact Nat.le_succ_of_le ih
      | failed => exact Nat.le_succ _

theorem length_lseek {offset : Nat} :
    (lseek dd offset answers).answers.length ≤ answers.length := by
  cases answers with
  | nil => exact le_rfl
  | cons answer answers => cases answer <;> exact Nat.le_succ _

theorem length_fsWrite {makeholes : Bool} {buf : List Char} {towrite nRead : Nat}
    {written : BlockWritten} (h : fsWrite makeholes dd buf towrite nRead answers = .ok written) :
    written.answers.length ≤ answers.length := by
  rw [fsWrite] at h
  dsimp only at h
  split at h
  · split at h
    · cases h
    · split at h
      · cases h
      · cases h
        exact length_lseek
      · cases h
        exact length_fullWrite
  · cases h
    exact length_fullWrite

theorem copyBlock_lt {makeHoles : Bool} {count : Nat} {c c' : Copying}
    (h : copyBlock makeHoles count c = .ok (.next c')) :
    c'.source.length + c'.answers.length < c.source.length + c.answers.length := by
  rw [copyBlock] at h
  split at h
  · cases h
  · rename_i hread
    split at h
    · cases h
    · rename_i written hwritten
      have hanswers := length_fsWrite hwritten
      rw [List.length_take] at hread
      split at h
      · cases h
        dsimp only
        rw [List.length_drop]
        omega
      · cases h

/-- Every round reads, or takes an answer. -/
theorem copyRound_lt {makeHoles : Bool} {bufSize : Nat} {c c' : Copying}
    (h : copyRound makeHoles bufSize c = .ok (.next c')) :
    c'.source.length + c'.answers.length < c.source.length + c.answers.length := by
  rw [copyRound] at h
  split at h
  · exact copyBlock_lt h
  · rename_i hanswers
    have hlt := copyBlock_lt h
    rw [hanswers, List.length_cons]
    exact Nat.lt_succ_of_lt hlt
  · rename_i hanswers
    cases h
    rw [hanswers, List.length_cons]
    exact Nat.lt_succ_self _
  · cases h

end

/-- The loop of `CopyRegularFileDisk`, and what is behind it. -/
def copyLoop (makeHoles : Bool) (bufSize : Nat) (c : Copying) : Except Fault Copied :=
  match _h : copyRound makeHoles bufSize c with
  | .error fault => .error fault
  | .ok (.next c) => copyLoop makeHoles bufSize c
  | .ok (.break c) => .ok (finishCopy c.lastWriteMadeHole c.dd c.nReadTotal c.answers)
  | .ok (.return copied) => .ok copied
termination_by c.source.length + c.answers.length
decreasing_by exact copyRound_lt _h

/-- What a copy finds: whether the source can be opened, and its status be read, and what it holds;
whether the destination can be created; and the answers of the system. -/
structure Files where
  opened : Bool
  stated : Bool
  source : List Char
  created : Bool
  answers : List Answer

/-- `CopyRegularFileDisk`, where `buf` is what `xmalloc` returns. -/
def copyRegularFileDisk (files : Files) (makeHoles : Bool) (bufSize : Nat) (buf : List Char)
    (destination : Option (List Char)) : Except Fault Copied :=
  if !files.opened then .ok ⟨false, unlink destination⟩
  else if !files.stated then .ok ⟨false, unlink destination⟩
  else
    let destination := unlink destination
    if !files.created then .ok ⟨false, unlink destination⟩
    else copyLoop makeHoles bufSize ⟨files.source, buf, ⟨[], 0⟩, false, 0, files.answers⟩

end Cfengine.Disk
