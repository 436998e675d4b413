import Cfengine.DbmApi

/-!
# Hosts and the addresses they were last seen at (`lastseen.c`)

The database has the address of a host under the key `k<hostkey>`, the host of an address under
`a<address>`, and the quality of the connections in both directions under `qi<hostkey>` and
`qo<hostkey>`. Times and reals are the bits that are stored.
-/

namespace Cfengine

/-- The bytes of a word in memory. -/
def wordBytes (word : BitVec 64) : List Char :=
  (List.range 8).map fun i => Char.ofNat (word.toNat / 256 ^ i % 256)

/-- The word that eight bytes hold. -/
def wordOfBytes (bytes : List Char) : BitVec 64 :=
  BitVec.ofNat 64 (bytes.foldr (fun c n => c.toNat % 256 + 256 * n) 0)

/-- `QPoint` -/
structure QPoint where
  q : BitVec 64
  expect : BitVec 64
  var : BitVec 64
  dq : BitVec 64
deriving DecidableEq

/-- `QDefinite(0)` -/
def qDefiniteZero : QPoint := ⟨0, 0, 0, 0⟩

/-- `KeyHostSeen` -/
structure KeyHostSeen where
  lastseen : BitVec 64
  Q : QPoint
deriving DecidableEq

namespace KeyHostSeen

/-- `sizeof(KeyHostSeen)` -/
def size : Nat := 40

def toBytes (seen : KeyHostSeen) : List Char :=
  wordBytes seen.lastseen ++ wordBytes seen.Q.q ++ wordBytes seen.Q.expect ++
    wordBytes seen.Q.var ++ wordBytes seen.Q.dq

def ofBytes (bytes : List Char) : KeyHostSeen :=
  let word i := wordOfBytes ((bytes.drop (8 * i)).take 8)
  ⟨word 0, ⟨word 1, word 2, word 3, word 4⟩⟩

end KeyHostSeen

/-- The key `snprintf` makes of a tag and a name. -/
def taggedKey (tag name : CString) : CString := (tag ++ name).take (cfBufSize - 1)

section
variable (qAverage : QPoint → BitVec 64 → QPoint)

/-- `UpdateLastSawHost`; `qAverage` is `QAverage` with the weight 0.4, of the old point and the time
that went by. -/
def updateLastSawHost (db : DBHandle) (hostkey address : CString) (incoming : Bool)
    (timestamp : BitVec 64) : DBHandle :=
  let qualityKey := taggedKey ['q', if incoming then 'i' else 'o'] hostkey
  let newq : KeyHostSeen :=
    match readDB db qualityKey KeyHostSeen.size with
    | some bytes =>
      let q := KeyHostSeen.ofBytes bytes
      ⟨timestamp, qAverage q.Q (timestamp - q.lastseen)⟩
    | none => ⟨timestamp, qDefiniteZero⟩
  let db := writeDB db qualityKey newq.toBytes
  let db := writeDB db (taggedKey ['k'] hostkey) (address ++ ['\x00'])
  writeDB db (taggedKey ['a'] address) (hostkey ++ ['\x00'])

/-- `RemoveHostFromLastSeen` -/
def removeHostFromLastSeen (db : DBHandle) (hostkey : CString) : DBHandle :=
  let hostkeyKey := taggedKey ['k'] hostkey
  let db :=
    match readDB db hostkeyKey cfBufSize with
    | some address => deleteDB db (taggedKey ['a'] (bufferText address))
    | none => db
  let db := deleteDB db (taggedKey ['q', 'i'] hostkey)
  let db := deleteDB db (taggedKey ['q', 'o'] hostkey)
  deleteDB db hostkeyKey

/-- `Address2HostkeyInDB`: the result, and the database behind the call. -/
def address2HostkeyInDB (db : DBHandle) (address : CString) : Option CString × DBHandle :=
  let addressKey := taggedKey ['a'] address
  match readDB db addressKey cfBufSize with
  | none => (none, db)
  | some hostkey =>
    let hostkey := bufferText hostkey
    match readDB db (taggedKey ['k'] hostkey) cfBufSize with
    | none => (none, deleteDB db addressKey)
    | some backAddress =>
      if address ≠ bufferText backAddress then (none, deleteDB db addressKey)
      else (some hostkey, db)

/-- A host key or an address, short enough that no key is cut. -/
structure ShortText where
  text : CString
  noNul : '\x00' ∉ text
  fits : text.length + 2 < cfBufSize

instance : DecidableEq ShortText := fun s t =>
  decidable_of_iff (s.text = t.text) ⟨fun h => by cases s; cases t; cases h; rfl, fun h => h ▸ rfl⟩

/-- A call on the database. -/
inductive LastseenCall where
  | update (hostkey address : ShortText) (incoming : Bool) (timestamp : BitVec 64)
  | remove (hostkey : ShortText)
  | lookup (address : ShortText)

/-- The database behind a call. -/
def LastseenCall.step (db : DBHandle) : LastseenCall → DBHandle
  | update hostkey address incoming timestamp =>
    updateLastSawHost qAverage db hostkey.text address.text incoming timestamp
  | remove hostkey => removeHostFromLastSeen db hostkey.text
  | lookup address => (address2HostkeyInDB db address.text).2

end

end Cfengine
