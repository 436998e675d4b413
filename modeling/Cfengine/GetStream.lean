import Cfengine.DirectoryListing
import Cfengine.Net

/-!
# What the server sends for a file (`server.c`)

The bytes that `CfGetFile` sends, and the transactions that `CfEncryptGetFile` sends, for a client
that asks for blocks of 2048 bytes. The rounds of a transfer are all of its rounds.
-/

namespace Cfengine.Net

/-- `CF_CHANGEDSTR1` and `CF_CHANGEDSTR2` -/
def cfChangedStr : CString := "BAD: File changed while copying".toList

/-- The buffer `sendbuffer` with a text; `stale` is what it had before. -/
def sendbuffer (text stale : List Char) : List Char :=
  (overwrite (text.take (cfBufSize - 1) ++ ['\x00']) stale).rightpad cfBufSize '\x00'

/-- The text of a file that changed. -/
def changedText (filename : CString) : CString := cfChangedStr ++ ": ".toList ++ filename

/-- What `RefuseAccess` sends. -/
def refuseAccessBytes (stale : List Char) (size : Nat) : List Char :=
  let buffer := sendbuffer cfFailedStr stale
  transactionHeader cfDone (transactionLength buffer size) ++
    buffer.take (transactionLength buffer size)

/-- What `CfGetFile` sends with `SendSocketStream`. -/
def streamBytes (filename : CString) (stale : List Char) : TransferEvent → List Char
  | .failed => (sendbuffer cfFailedStr stale).take 2048
  | .changed => (sendbuffer (changedText filename) stale).take 2048
  | .data bytes => bytes
  | .cipher .. => []

/-- How a request ends. -/
inductive GetOutcome where
  /-- `AccessControl` refuses. -/
  | refused
  /-- `CfGetFile` or `CfEncryptGetFile` is called. -/
  | served (uid : Nat) (maproot : Bool) (sb : FileStat) (opened : Bool)
      (rounds : List TransferRound)

/-- The bytes that are sent for `GET`. Where the rights are missing, the first event of `CfGetFile`
is `RefuseAccess`. -/
def GetOutcome.stream (filename : CString) (stale : List Char) : GetOutcome → List Char
  | .refused => refuseAccessBytes stale 0
  | .served uid maproot sb opened rounds =>
    let events := (cfGetFile uid maproot 2048 sb opened rounds).1
    if transferRights uid maproot sb then events.flatMap (streamBytes filename stale)
    else refuseAccessBytes stale 2048 ++ (events.drop 1).flatMap (streamBytes filename stale)

end Cfengine.Net
