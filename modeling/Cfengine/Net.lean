import Cfengine.Server
import Cfengine.Server.Transfer

/-!
# Transactions on a connection (`net.c`)

The results of `send` and `recv` are an input. A buffer is the list of its bytes.
-/

namespace Cfengine.Net
open Numerals

/-- `CF_MORE` -/
def cfMore : Char := 'm'

/-- `CF_DONE` -/
def cfDone : Char := 't'

/-! ## Sending -/

/-- What `send` returns. -/
inductive SendResult where
  /-- At most `n + 1` bytes are sent. -/
  | sent (n : Nat)
  /-- -1, with `EINTR` -/
  | interrupted
  | failed
deriving DecidableEq

/-- `SendSocketStream`: whether all is sent, the bytes on the connection, and the results that are
left. Where no result is left, everything is sent at once. -/
def sendSocketStream : List SendResult → List Char → Bool × List Char × List SendResult
  | [], buffer => (true, buffer, [])
  | .sent n :: results, buffer =>
    if buffer.length ≤ n + 1 then (true, buffer, results)
    else
      let (ok, stream, results) := sendSocketStream results (buffer.drop (n + 1))
      (ok, buffer.take (n + 1) ++ stream, results)
  | .interrupted :: results, buffer =>
    if buffer = [] then (true, [], results) else sendSocketStream results buffer
  | .failed :: results, _ => (false, [], results)

/-- What `snprintf` writes in front of a transaction, for the format `%c %d`. -/
def transactionHeader (status : Char) (wlen : Nat) : List Char :=
  ((status :: ' ' :: decimal wlen).take (cfInbandOffset - 1)).rightpad cfInbandOffset '\x00'

/-- The length of what `SendTransaction` sends. -/
def transactionLength (buffer : List Char) (len : Nat) : Nat :=
  if len = 0 then (cstr buffer).length else len

/-- `SendTransaction`; `none` is `FatalError`. -/
def sendTransaction (results : List SendResult) (buffer : List Char) (len : Nat) (status : Char) :
    Option (Bool × List Char × List SendResult) :=
  let wlen := transactionLength buffer len
  if wlen > cfBufSize - cfInbandOffset then none
  else some (sendSocketStream results (transactionHeader status wlen ++ buffer.take wlen))

/-! ## Receiving -/

/-- What `recv` returns. Of bytes that are not asked for, the next `recv` returns the rest. -/
inductive RecvResult where
  | data (first : Char) (rest : List Char)
  /-- 0, and so on from then on. -/
  | closed
  /-- -1, with `EINTR` -/
  | interrupted
  /-- -1, also if the time is out. -/
  | failed
deriving DecidableEq

/-- Why a call does not return. -/
inductive RecvStop where
  /-- `recv` is asked to write in front of the buffer. -/
  | beforeBuffer
  /-- `recv` waits. -/
  | waiting
deriving DecidableEq

/-- The end of a call: the value, where `none` is -1, the buffer, and the results that are left. -/
structure Received where
  value : Option Nat
  buffer : List Char
  socket : List RecvResult
deriving DecidableEq

/-- Bytes are written into a buffer from an offset on. -/
def writeBytes (buffer : List Char) (offset : Nat) (bytes : List Char) : List Char :=
  buffer.take offset ++ bytes ++ buffer.drop (offset + bytes.length)

/-- Bytes that were not asked for. -/
def unread (bytes : List Char) (socket : List RecvResult) : List RecvResult :=
  match bytes with
  | [] => socket
  | c :: cs => .data c cs :: socket

/-- The end of `RecvSocketStream`. -/
def terminate (already : Nat) (buffer : List Char) (socket : List RecvResult) : Received :=
  ⟨some already, writeBytes buffer already ['\x00'], socket⟩

/-- The loop of `RecvSocketStream`, which asks for `toget - already` bytes. -/
def recvSocketStream.loop (toget : Nat) (socket : List RecvResult) (already : Nat)
    (buffer : List Char) : Except RecvStop Received :=
  if already = toget then .ok (terminate already buffer socket)
  else
    match socket with
    | [] => .error .waiting
    | .data c cs :: socket =>
      let got := (c :: cs).take (toget - already)
      let buffer := writeBytes buffer already got
      if (c :: cs).length ≤ toget - already then loop toget socket (already + got.length) buffer
      else .ok (terminate toget buffer (unread ((c :: cs).drop (toget - already)) socket))
    | .closed :: socket => .ok (terminate already buffer (.closed :: socket))
    | .interrupted :: socket =>
      -- The `continue` goes on to `already += got`, where `got` is -1.
      match already with
      | 0 => .error .beforeBuffer
      | already + 1 => loop toget socket already buffer
    | .failed :: socket => .ok ⟨none, buffer, socket⟩

attribute [grind =] recvSocketStream.loop

/-- `RecvSocketStream` -/
def recvSocketStream (buffer : List Char) (toget : Nat) (socket : List RecvResult) :
    Except RecvStop Received :=
  if toget > cfBufSize - 1 then .ok ⟨none, buffer, socket⟩
  else recvSocketStream.loop toget socket 0 buffer

/-- The format `%c %u`, into a status that is `x` and a length that is 0. -/
def scanHeader (proto : CString) : Char × Nat :=
  match proto with
  | [] => ('x', 0)
  | status :: s => (status, (scanUnsigned s).elim 0 Prod.fst)

/-- The end of `ReceiveTransaction`; `more` is `none` if nothing is assigned to it. -/
structure TransactionReceived extends Received where
  more : Option Bool
deriving DecidableEq

/-- `ReceiveTransaction` -/
def receiveTransaction (buffer : List Char) (socket : List RecvResult) :
    Except RecvStop TransactionReceived := do
  let header ← recvSocketStream (List.replicate (cfInbandOffset + 1) '\x00') cfInbandOffset socket
  if header.value = none then return ⟨⟨none, buffer, header.socket⟩, none⟩
  else
    let (status, len) := scanHeader (cstr header.buffer)
    if len > cfBufSize - cfInbandOffset then return ⟨⟨none, buffer, header.socket⟩, none⟩
    else if "CAUTH".toList.isPrefixOf header.buffer then
      return ⟨⟨none, buffer, header.socket⟩, none⟩
    else
      let payload ← recvSocketStream buffer len header.socket
      return ⟨payload, some (status = cfMore)⟩

end Cfengine.Net
