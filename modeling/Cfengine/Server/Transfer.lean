import Cfengine.Defs

/-!
# The transfer of a file (`server.c`)

`CfGetFile` and `CfEncryptGetFile` send a file in rounds. What the system and the cryptography do in
a round is an input, so a list of rounds is the beginning of a transfer.
-/

namespace Cfengine

/-- `CF_INBAND_OFFSET` -/
def cfInbandOffset : Nat := 8

/-- `struct stat`; `readOther` is the bit `S_IROTH` of `st_mode`. -/
structure FileStat where
  size : Nat
  uid : Nat
  readOther : Bool

/-- What is sent. -/
inductive TransferEvent where
  /-- `CF_FAILEDSTR`, the refusal -/
  | failed
  /-- `CF_CHANGEDSTR1` and `CF_CHANGEDSTR2` -/
  | changed
  | data (bytes : List Char)
  /-- A transaction with the status `CF_MORE` or `CF_DONE`. -/
  | cipher (bytes : List Char) (more : Bool)
deriving DecidableEq

inductive TransferEnd where
  | returned
  /-- `FatalError` -/
  | exited
  /-- The length of what is sent is negative, or not initialised. -/
  | undefined
  /-- There is another round. -/
  | running
deriving DecidableEq

/-- What happens in a round: the bytes that are read, the size of the file if it is looked at, the
bytes encrypted, and whether they can be sent. -/
structure TransferRound where
  read : Option (List Char)
  stat : Option Nat
  cipher : Option (List Char)
  sent : Bool

/-- What is sent, and how it ends. -/
abbrev Transfer := List TransferEvent × TransferEnd

/-- `TransferRights`, where `uid` and `maproot` are those of the connection. -/
def transferRights (uid : Nat) (maproot : Bool) (sb : FileStat) : Bool :=
  if uid ≠ 0 && !maproot then sb.uid = uid || sb.readOther else true

/-- `RefuseAccess`, which calls `SendTransaction`, and what is sent then. -/
def refuseAccess (size : Nat) (next : Transfer) : Transfer :=
  if size > cfBufSize - cfInbandOffset then ([], .exited) else (.failed :: next.1, next.2)

/-- Every how many rounds the size of the file is looked at. -/
def statInterval (size : Nat) : Nat := if size > 10485760 then 32 else 3

/-- The length of what `CfGetFile` sends, which is left as it is if the size of the file is 0. -/
def cfGetFile.sendlen (size total : Nat) (sendlen : Int) : Int :=
  if ((size : Int) - total).tdiv 2048 > 0 then 2048
  else if size ≠ 0 then (size : Int) - total
  else sendlen

/-- The loop of `CfGetFile`. -/
def cfGetFile.loop (div size : Nat) : List TransferRound → Nat → Nat → Int → Transfer
  | [], _, _, _ => ([], .running)
  | r :: rounds, count, total, sendlen =>
    match r.read with
    | none | some [] => ([], .returned)
    | some sendbuffer =>
      match if count % div = 0 then r.stat else some size with
      | none => ([], .returned)
      | some st_size =>
        if st_size ≠ size then ([.changed], .returned)
        else
          let sendlen := cfGetFile.sendlen size total sendlen
          if sendlen < 0 then ([], .undefined)
          else
            let next : Transfer :=
              if r.sent then loop div size rounds (count + 1) (total + sendbuffer.length) sendlen
              else ([], .returned)
            (.data ((sendbuffer.rightpad cfBufSize '\x00').take sendlen.toNat) :: next.1, next.2)

/-- `CfGetFile`. The buffer `sb` is what `cfstat` writes, or not initialised if it fails. There is
no `return` behind the refusal. -/
def cfGetFile (uid : Nat) (maproot : Bool) (bufSize : Nat) (sb : FileStat) (opened : Bool)
    (rounds : List TransferRound) : Transfer :=
  let transfer : Transfer :=
    if opened then cfGetFile.loop (statInterval sb.size) sb.size rounds 0 0 0
    else ([.failed], .returned)
  if transferRights uid maproot sb then transfer
  else refuseAccess bufSize (.failed :: transfer.1, transfer.2)

/-- The loop of `CfEncryptGetFile`; `out` is what was encrypted last, with its length. -/
def cfEncryptGetFile.loop (div size : Nat) :
    List TransferRound → Nat → Nat → Option (List Char) → Transfer
  | [], _, _, _ => ([], .running)
  | r :: rounds, count, total, out =>
    match r.read with
    | none => ([], .returned)
    | some sendbuffer =>
      match if count % div = 0 then r.stat else some size with
      | none => ([], .returned)
      | some st_size =>
        if st_size ≠ size then ([.changed], .returned)
        else
          let total := total + sendbuffer.length
          if sendbuffer ≠ [] && r.cipher = none then ([.failed], .returned)
          else
            match if sendbuffer ≠ [] then r.cipher else out with
            | none => ([], .undefined)
            | some out =>
              let more : Bool := total < size
              let next : Transfer :=
                if more && r.sent then loop div size rounds (count + 1) total (some out)
                else ([], .returned)
              (.cipher out more :: next.1, next.2)

/-- `CfEncryptGetFile`, which has no `return` behind the refusal either. -/
def cfEncryptGetFile (uid : Nat) (maproot : Bool) (bufSize : Nat) (sb : FileStat) (opened : Bool)
    (rounds : List TransferRound) : Transfer :=
  let transfer : Transfer :=
    if opened then cfEncryptGetFile.loop (statInterval sb.size) sb.size rounds 0 0 none
    else ([.failed], .returned)
  if transferRights uid maproot sb then transfer
  else refuseAccess bufSize (.failed :: transfer.1, transfer.2)

end Cfengine
