import Cfengine.Lastseen

/-!
# The migration of the lastseen database (`dbm_migration_lastseen.c`)

A version 0 entry has the key `+<hostkey>` or `-<hostkey>`, and the address of the host in 128 bytes
and a `QPoint0` as its value. Each operation on the database takes effect or reports a failure;
which one it is comes with the attempt.
-/

namespace Cfengine

/-- `QPOINT0_OFFSET` -/
def qpoint0Offset : Nat := 128

/-- `QPoint0` -/
structure QPoint0 where
  q : BitVec 64
  expect : BitVec 64
  var : BitVec 64
deriving DecidableEq

/-- `sizeof(QPoint0)` -/
def QPoint0.size : Nat := 24

def QPoint0.ofBytes (bytes : List Char) : QPoint0 :=
  let word i := wordOfBytes ((bytes.drop (8 * i)).take 8)
  ⟨word 0, word 1, word 2⟩

/-! ## Reals, by their bits -/

def doubleExponent (x : BitVec 64) : Nat := x.toNat / 2 ^ 52 % 2 ^ 11

/-- `isfinite` -/
def isfinite (x : BitVec 64) : Bool := doubleExponent x ≠ 2 ^ 11 - 1

/-- `x < 0`, for a finite real. -/
def isNegative (x : BitVec 64) : Bool := 2 ^ 63 < x.toNat

/-- `(time_t) x`, for a finite real that is not negative. -/
def timeOfDouble (x : BitVec 64) : BitVec 64 :=
  if doubleExponent x < 1023 then 0
  else BitVec.ofNat 64 ((2 ^ 52 + x.toNat % 2 ^ 52) * 2 ^ (doubleExponent x - 1023) / 2 ^ 52)

/-! ## Entries -/

/-- The key of a version 0 entry. -/
def isVersion0Key (key : List Char) : Bool := key.head?.any fun c => c = '+' || c = '-'

section
variable (key value : List Char)

def oldHostkey : CString := bufferText (key.drop 1)

def oldAddress : CString := bufferText value

def oldQuality : QPoint0 := QPoint0.ofBytes (value.drop qpoint0Offset)

/-- The size of a value that is migrated. -/
def saneSize : Bool := value.length = qpoint0Offset + QPoint0.size

def malformedQuality : Bool :=
  let q := oldQuality value
  !isfinite q.q || isNegative q.q || !isfinite q.expect || !isfinite q.var

/-- The quality record of the migrated entry. -/
def newQuality : KeyHostSeen :=
  let q := oldQuality value
  ⟨timeOfDouble q.q, ⟨q.expect, q.expect, q.var, 0⟩⟩

def hostkeyKey : CString := taggedKey ['k'] (oldHostkey key)

def addressKey : CString := taggedKey ['a'] (oldAddress value)

def qualityKey : CString :=
  taggedKey ['q', if key.head? = some '-' then 'i' else 'o'] (oldHostkey key)

end

/-- Whether the operations on an entry take effect. -/
structure EntryOutcomes where
  hostkey : Bool
  address : Bool
  quality : Bool
  delete : Bool

/-- The database, the flag `errors`, and what the operations have returned so far. -/
structure MigrationState where
  db : DBHandle
  errors : Bool
  returned : List Bool

namespace MigrationState

def write (s : MigrationState) (key : CString) (src : List Char) (ok : Bool) : MigrationState :=
  { s with db := if ok then writeDB s.db key src else s.db, returned := s.returned ++ [ok] }

/-- `DBCursorDeleteEntry` -/
def deleteEntry (s : MigrationState) (key : List Char) (ok : Bool) : MigrationState :=
  { s with
    db := if ok then Function.update s.db key none else s.db
    returned := s.returned ++ [ok] }

def fail (s : MigrationState) : MigrationState := { s with errors := true }

end MigrationState

/-- The body of the loop of `LastseenMigrationVersion0`. -/
def migrateEntry (s : MigrationState) (key value : List Char) (o : EntryOutcomes) :
    MigrationState :=
  if key.length = 0 then s
  else if !isVersion0Key key then s
  else if !saneSize value then s.deleteEntry key o.delete
  else
    let s := s.write (hostkeyKey key) (oldAddress value ++ ['\x00']) o.hostkey
    if !o.hostkey then s.fail
    else
      let s := s.write (addressKey value) (oldHostkey key ++ ['\x00']) o.address
      if !o.address then s.fail
      else if malformedQuality value then s.deleteEntry key o.delete
      else
        let s := s.write (qualityKey key) (newQuality value).toBytes o.quality
        if !o.quality then s.fail
        else
          let s := s.deleteEntry key o.delete
          if !o.delete then s.fail else s

/-- An entry that the cursor comes to. -/
structure Visit where
  key : List Char
  outcomes : EntryOutcomes

/-- An attempt to migrate: the entries that the cursor comes to, in their order, and whether
`NewDBCursor`, `DeleteDBCursor` and the last `WriteDB` take effect. -/
structure Attempt where
  newCursor : Bool
  visits : List Visit
  deleteCursor : Bool
  version : Bool

/-- One round of the loop. `NextDB` returns no entry that is not there. -/
def migrateVisit (s : MigrationState) (v : Visit) : MigrationState :=
  match s.db v.key with
  | none => s
  | some value => migrateEntry s v.key value v.outcomes

/-- The loop of `LastseenMigrationVersion0`. -/
def migrateEntries (s : MigrationState) (visits : List Visit) : MigrationState :=
  visits.foldl migrateVisit s

/-- `LastseenMigrationVersion0`, which returns `!errors`. -/
def lastseenMigrationVersion0 (db : DBHandle) (a : Attempt) : MigrationState :=
  if !a.newCursor then ⟨db, true, [false]⟩
  else
    let s := migrateEntries ⟨db, false, []⟩ a.visits
    let s := { s with returned := s.returned ++ [a.deleteCursor] }
    let s := if a.deleteCursor = false then s.fail else s
    if s.errors then s
    else
      let s := s.write "version".toList ['1', '\x00'] a.version
      if !a.version then s.fail else s

end Cfengine
