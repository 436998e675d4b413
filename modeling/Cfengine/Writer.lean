import Cfengine.Sort

/-!
# Writers to memory (`writer.c`, `alloc.c`)

A `StringWriter` appends to a buffer that it enlarges when a text and its NUL do not fit. A `size_t`
has 64 bits.
-/

namespace Cfengine

/-- The value of a `size_t`. -/
def sizeT (n : Nat) : Nat := n % 2 ^ 64

/-- A string that is in memory: no object has 2^63 bytes. -/
abbrev StoredString := { s : CString // s.length + 1 < 2 ^ 63 }

/-- How memory is given out: which sizes there is room for, and what is in new memory. -/
structure Allocator where
  available : Nat → Bool
  available_lt : ∀ size, available size = true → size < 2 ^ 63
  garbage : Nat → Char

/-- `StringWriterImpl` -/
structure StringWriterImpl where
  /-- All that is allocated. -/
  data : List Char
  len : Nat
  allocated : Nat
deriving DecidableEq

/-- Why a call does not return. -/
inductive WriterStop where
  /-- There is no memory, and the process exits. -/
  | exit
  /-- A write behind the end of the buffer. -/
  | overflow
deriving DecidableEq

/-- `StringWriter` -/
def stringWriter : StringWriterImpl := ⟨['\x00'], 0, 1⟩

/-- Bytes are written from an offset on. -/
def storeAt (data : List Char) (offset : Nat) (bytes : List Char) : Except WriterStop (List Char) :=
  if offset + bytes.length ≤ data.length then
    .ok (data.take offset ++ bytes ++ data.drop (offset + bytes.length))
  else .error .overflow

section
variable (memory : Allocator)

/-- `xrealloc` -/
def xrealloc (data : List Char) (size : Nat) : Except WriterStop (List Char) :=
  if memory.available size then
    .ok (data.take size ++ (List.range (size - data.length)).map memory.garbage)
  else .error .exit

/-- `StringWriterReallocate` -/
def stringWriterReallocate (writer : StringWriterImpl) (extraLength : Nat) :
    Except WriterStop StringWriterImpl := do
  let allocated := max (sizeT (writer.allocated * 2)) (sizeT (writer.len + extraLength + 1))
  return { writer with data := ← xrealloc memory writer.data allocated, allocated }

/-- The buffer, which is enlarged if it has not so many bytes as are wanted. -/
def makeRoom (writer : StringWriterImpl) (wanted extraLength : Nat) :
    Except WriterStop StringWriterImpl :=
  if wanted > writer.allocated then stringWriterReallocate memory writer extraLength else .ok writer

/-- `StringWriterWriteChar` -/
def stringWriterWriteChar (writer : StringWriterImpl) (c : Char) :
    Except WriterStop (StringWriterImpl × Nat) := do
  let writer ← makeRoom memory writer (sizeT (writer.len + 2)) 2
  let data ← storeAt writer.data writer.len [c]
  let data ← storeAt data (sizeT (writer.len + 1)) ['\x00']
  return ({ writer with data, len := sizeT (writer.len + 1) }, 1)

/-- `StringWriterWriteLen`; `strlcpy` writes the NUL. -/
def stringWriterWriteLen (writer : StringWriterImpl) (str : CString) (len : Nat) :
    Except WriterStop (StringWriterImpl × Nat) := do
  let len := min str.length len
  let writer ← makeRoom memory writer (sizeT (writer.len + len + 1)) len
  let data ← storeAt writer.data writer.len (str.take len ++ ['\x00'])
  return ({ writer with data, len := sizeT (writer.len + len) }, len)

/-- A call on a `StringWriter`. That of `WriterWriteF` comes with what the format makes of its
arguments. -/
inductive WriterCall where
  | write (str : StoredString)
  | writeLen (str : StoredString) (len : Nat)
  | writeChar (c : Char)
  | writeF (str : StoredString)

/-- `WriterWrite`, `WriterWriteLen`, `WriterWriteChar` and `WriterWriteF`. A text that is longer
than an `int` can say is an error of `vasprintf`. -/
def WriterCall.run (writer : StringWriterImpl) :
    WriterCall → Except WriterStop (StringWriterImpl × Nat)
  | write str => stringWriterWriteLen memory writer str.1 intMax
  | writeLen str len => stringWriterWriteLen memory writer str.1 len
  | writeChar c => stringWriterWriteChar memory writer c
  | writeF str =>
    if str.1.length ≤ intMax && memory.available (str.1.length + 1) then
      stringWriterWriteLen memory writer str.1 intMax
    else .error .exit

end

/-- `StringWriterLength` -/
def stringWriterLength (writer : StringWriterImpl) : Nat := writer.len

/-- `StringWriterData`: the memory from the pointer on. -/
def stringWriterData (writer : StringWriterImpl) : List Char := writer.data

end Cfengine
