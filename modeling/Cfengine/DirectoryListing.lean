import Cfengine.FilesNames
import Cfengine.Server
import Cfengine.Server.Transfer

/-!
# Directory listings (`server.c`, `client_code.c`)

`CfOpenDirectory` and `CfSecOpenDirectory` pack the names of a directory into transactions, and
`OpenDirRemote` unpacks them. The directory is open, and the network delivers what is sent.
-/

namespace Cfengine

/-- `CFD_TERMINATOR` -/
def cfdTerminator : CString := "---cfXen/gine/cfXen/gine---".toList

/-- `CF_FAILEDSTR` -/
def cfFailedStr : CString := "BAD: Unspecified server refusal (see verbose server output)".toList

/-- What ends the program, or would. -/
inductive DirectoryFault where
  /-- A write behind the end of a buffer. -/
  | bufferOverflow
  /-- A read behind the end of a buffer. -/
  | outOfBounds
  /-- `FatalError` of `SendTransaction` -/
  | fatalError
deriving DecidableEq

/-- `memset(sendbuffer, 0, CF_BUFSIZE)` -/
def zeroBuffer : List Char := List.replicate cfBufSize '\x00'

/-- Bytes are written into a buffer from an offset on. -/
def writeAt (buffer : List Char) (offset : Nat) (bytes : List Char) :
    Except DirectoryFault (List Char) :=
  if offset + bytes.length ≤ buffer.length then
    .ok (buffer.take offset ++ bytes ++ buffer.drop (offset + bytes.length))
  else .error .bufferOverflow

/-- `strncpy(buffer + offset, src, n)` -/
def strncpyAt (buffer : List Char) (offset : Nat) (src : CString) (n : Nat) :
    Except DirectoryFault (List Char) :=
  writeAt buffer offset (src.take n ++ List.replicate (n - src.length) '\x00')

/-- `strcpy(buffer + offset, src)` -/
def strcpyAt (buffer : List Char) (offset : Nat) (src : CString) :
    Except DirectoryFault (List Char) :=
  writeAt buffer offset (src ++ ['\x00'])

/-- `SendTransaction`: the bytes that are sent. -/
def sendTransaction (buffer : List Char) (len : Nat) : Except DirectoryFault (List Char) :=
  let wlen := if len = 0 then (buffer.takeWhile (· ≠ '\x00')).length else len
  if wlen > cfBufSize - cfInbandOffset then .error .fatalError else .ok (buffer.take wlen)

/-! ## The server -/

/-- The loop over the names, and what is done behind it. -/
def packNames (send : List Char → Nat → Except DirectoryFault (List Char)) :
    List CString → List Char → Nat → Except DirectoryFault (List (List Char))
  | [], sendbuffer, offset => do
    let sendbuffer ← strcpyAt sendbuffer offset cfdTerminator
    return [← send sendbuffer (offset + 2 + cfdTerminator.length)]
  | name :: names, sendbuffer, offset => do
    if name.length + 1 + offset ≥ cfBufSize - cfMaxLinkSize then
      let transaction ← send sendbuffer (offset + 1)
      let sendbuffer ← strncpyAt zeroBuffer 0 name cfMaxLinkSize
      return transaction :: (← packNames send names sendbuffer (name.length + 1))
    else
      let sendbuffer ← strncpyAt sendbuffer offset name cfMaxLinkSize
      packNames send names sendbuffer (offset + name.length + 1)

/-- `CfOpenDirectory` -/
def cfOpenDirectory (names : List CString) : Except DirectoryFault (List (List Char)) :=
  packNames sendTransaction names zeroBuffer 0

/-- `EncryptString` into the buffer `out`, and `SendTransaction`. -/
def sendEncrypted (encryptString : List Char → List Char) (sendbuffer : List Char) (len : Nat) :
    Except DirectoryFault (List Char) := do
  let cipher := encryptString (sendbuffer.take len)
  let out ← writeAt zeroBuffer 0 cipher
  sendTransaction out cipher.length

/-- `CfSecOpenDirectory` -/
def cfSecOpenDirectory (encryptString : List Char → List Char) (names : List CString) :
    Except DirectoryFault (List (List Char)) :=
  packNames (sendEncrypted encryptString) names zeroBuffer 0

/-! ## The client -/

/-- The loop over the names in a buffer: those in front of an empty one or of the terminator, and
whether it is the terminator. -/
def unpackNames : Nat → List Char → Except DirectoryFault (List CString × Bool)
  | 0, _ => .error .outOfBounds
  | _ + 1, [] => .error .outOfBounds
  | fuel + 1, c :: sp =>
    if c = '\x00' then .ok ([], false)
    else if cfdTerminator.isPrefixOf (c :: sp) then .ok ([], true)
    else
      match (c :: sp).dropWhile (· ≠ '\x00') with
      | [] => .error .outOfBounds
      | _ :: rest => do
        let (names, terminated) ← unpackNames fuel rest
        return ((c :: sp).takeWhile (· ≠ '\x00') :: names, terminated)

/-- `ReceiveTransaction` with this transaction next: what is then in the buffer, and `none` for a
return value of -1. -/
def receiveTransaction (recvbuffer transaction : List Char) : Option (List Char) :=
  if transaction.length > cfBufSize - cfInbandOffset then none
  else some (transaction ++ '\x00' :: recvbuffer.drop (transaction.length + 1))

/-- The loop of `OpenDirRemote`, with the names so far. Where no transaction is left, the connection
is closed, and `none` is `NULL`. -/
def openDirRemote.loop (decryptString : Option (List Char → List Char)) :
    List (List Char) → List Char → List CString → Except DirectoryFault (Option (List CString))
  | [], _, files => .ok (some files)
  | transaction :: transactions, recvbuffer, files =>
    match receiveTransaction recvbuffer transaction with
    | none => .ok none
    | some recvbuffer =>
      if transaction.length = 0 then .ok (some files)
      else
        let recvbuffer :=
          match decryptString with
          | none => recvbuffer
          | some decrypt => overwrite (decrypt transaction) recvbuffer
        if cfFailedStr.isPrefixOf recvbuffer then .ok none
        else if "BAD:".toList.isPrefixOf recvbuffer then .ok none
        else do
          let (names, terminated) ← unpackNames recvbuffer.length recvbuffer
          if terminated then return some (files ++ names)
          else loop decryptString transactions recvbuffer (files ++ names)

/-- `OpenDirRemote`, with what the server sends. `decryptString` is used for an encrypted copy. -/
def openDirRemote (decryptString : Option (List Char → List Char)) (transactions : List (List Char))
    (recvbuffer : List Char) : Except DirectoryFault (Option (List CString)) :=
  openDirRemote.loop decryptString transactions recvbuffer []

end Cfengine
