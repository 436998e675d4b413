import Cfengine.DbmApi

/-!
# Digests of files (`files_hashes.c`)

The comparison of two files, by their digests or byte by byte, and the database of digests. What is
read of a file is a list of the results of the calls.
-/

namespace Cfengine

/-- `EVP_MAX_MD_SIZE` -/
def evpMaxMdSize : Nat := 64

/-- A file that `HashFile` reads: what is in it, and what each call of `fread` returns, until it is
nothing. There are no calls if the file cannot be opened. -/
structure HashedFile where
  contents : List Char
  freads : Option (List (List Char))

/-- A file that `CompareBinaryFiles` reads: what is in it, and what each call of `read` returns,
where `none` is the value -1. All calls fail behind the end of the list, and so they do if the file
cannot be opened. A call that returns 0 is at the end of the file. -/
structure ComparedFile where
  contents : List Char
  reads : List (Option (List Char))
  eof : ∀ (pieces : List (List Char)) rest, (∀ piece ∈ pieces, piece ≠ []) →
    reads = pieces.map some ++ some [] :: rest → pieces.flatten = contents

/-- A digest of the OpenSSL library. -/
structure MessageDigest where
  size : Nat
  size_le : size ≤ evpMaxMdSize
  final : List Char → List Char
  length_final : ∀ bytes, (final bytes).length = size

/-! ## Comparison -/

/-- The loop of `HashFile`: the bytes that the digest is updated with. -/
def hashFile.loop : List (List Char) → List Char
  | [] => []
  | buffer :: freads => if buffer = [] then [] else buffer ++ loop freads

/-- `HashFile` writes the digest to a buffer, and nothing if the file cannot be opened. -/
def hashFile (md : MessageDigest) (file : HashedFile) (digest : List Char) : List Char :=
  match file.freads with
  | none => digest
  | some freads => md.final (hashFile.loop freads) ++ digest.drop md.size

/-- `attr.copy.servers` is empty, or the first server is this host. -/
def isLocalCopy (servers : List CString) : Bool :=
  servers.head?.all (· = "localhost".toList)

/-- The static buffers of `CompareFileHashes`. -/
structure StaticDigests where
  digest1 : List Char
  digest2 : List Char
deriving DecidableEq

/-- `CompareFileHashes`; `net` is the result of `CompareHashNet`. -/
def compareFileHashes (md : MessageDigest) (file1 file2 : HashedFile) (ssize dsize : Nat)
    (servers : List CString) (net : Bool) (static : StaticDigests) : Bool × StaticDigests :=
  if ssize ≠ dsize then (true, static)
  else if isLocalCopy servers then
    let static : StaticDigests :=
      ⟨hashFile md file1 static.digest1, hashFile md file2 static.digest2⟩
    (static.digest1.take evpMaxMdSize ≠ static.digest2.take evpMaxMdSize, static)
  else (net, static)

/-- The loop of `CompareBinaryFiles`. If both calls fail then `memcmp` is called with the length
-1. -/
def compareBinaryFiles.loop : List (Option (List Char)) → List (Option (List Char)) →
    Except Fault Bool
  | some buff1 :: reads1, some buff2 :: reads2 =>
    if buff1.length ≠ buff2.length || buff1 ≠ buff2 then .ok true
    else if buff1 ≠ [] then loop reads1 reads2
    else .ok false
  | reads1, reads2 =>
    if reads1.headD none = none && reads2.headD none = none then .error .outOfBounds
    else .ok true

/-- `CompareBinaryFiles` -/
def compareBinaryFiles (file1 file2 : ComparedFile) (ssize dsize : Nat) (servers : List CString)
    (net : Bool) : Except Fault Bool :=
  if ssize ≠ dsize then .ok true
  else if isLocalCopy servers then compareBinaryFiles.loop file1.reads file2.reads
  else .ok net

/-- A comparison of two files. -/
inductive Comparison where
  | fileHashes (file1 file2 : HashedFile) (ssize dsize : Nat) (servers : List CString)
  | binaryFiles (file1 file2 : ComparedFile) (ssize dsize : Nat) (servers : List CString)

/-- The result of a comparison on this host, and the static buffers behind it. -/
def Comparison.call (md : MessageDigest) (static : StaticDigests) :
    Comparison → Except Fault Bool × StaticDigests
  | .fileHashes file1 file2 ssize dsize servers =>
    let (result, static) := compareFileHashes md file1 file2 ssize dsize servers false static
    (.ok result, static)
  | .binaryFiles file1 file2 ssize dsize servers =>
    (compareBinaryFiles file1 file2 ssize dsize servers false, static)

/-- The static buffers behind a comparison. -/
def Comparison.step (md : MessageDigest) (static : StaticDigests)
    (c : Comparison) : StaticDigests :=
  (c.call md static).2

/-- The static buffers before the first comparison. -/
def StaticDigests.start : StaticDigests :=
  ⟨List.replicate (evpMaxMdSize + 1) '\x00', List.replicate (evpMaxMdSize + 1) '\x00'⟩

/-! ## The database -/

/-- `enum cfhashes` without `cf_nohash`, which has no name. -/
inductive CfHashes where
  | md5 | sha224 | sha256 | sha384 | sha512 | sha1 | sha | besthash | crypt
deriving DecidableEq

/-- `FileHashName` -/
def fileHashName : CfHashes → CString
  | .md5 => "md5".toList
  | .sha224 => "sha224".toList
  | .sha256 => "sha256".toList
  | .sha384 => "sha384".toList
  | .sha512 => "sha512".toList
  | .sha1 => "sha1".toList
  | .sha => "sha".toList
  | .besthash => "best".toList
  | .crypt => "crypt".toList

/-- `FileHashSize` -/
def fileHashSize : CfHashes → Nat
  | .md5 => 16
  | .sha224 => 28
  | .sha256 => 32
  | .sha384 => 48
  | .sha512 => 64
  | .sha1 => 20
  | .sha => 20
  | .besthash => 0
  | .crypt => 64

/-- `CF_INDEX_FIELD_LEN` -/
def cfIndexFieldLen : Nat := 7

/-- `CF_INDEX_OFFSET` -/
def cfIndexOffset : Nat := cfIndexFieldLen + 1

/-- The name of a file, a string without NUL. -/
abbrev FileName := { name : CString // '\x00' ∉ name }

/-- The digests by their keys. A key is all of its bytes. -/
abbrev ChecksumDB := List Char → Option (List Char)

/-- `NewIndexKey` -/
def newIndexKey (type : CfHashes) (name : CString) : List Char :=
  ((fileHashName type).take cfIndexFieldLen).rightpad cfIndexOffset '\x00' ++ name ++ ['\x00']

/-- `ReadHash` -/
def readHash (dbp : ChecksumDB) (type : CfHashes) (name : CString) : Option (List Char) :=
  dbp (newIndexKey type name)

/-- `WriteHash` -/
def writeHash (dbp : ChecksumDB) (type : CfHashes) (name : CString) (digest : List Char) :
    ChecksumDB :=
  Function.update dbp (newIndexKey type name) (some digest)

/-- `DeleteHash` -/
def deleteHash (dbp : ChecksumDB) (type : CfHashes) (name : CString) : ChecksumDB :=
  Function.update dbp (newIndexKey type name) none

/-- The loop over the bytes of two digests finds a difference. -/
def digestsDiffer (type : CfHashes) (digest dbdigest : List Char) : Bool :=
  (List.range (fileHashSize type)).any fun i => digest[i]? ≠ dbdigest[i]?

/-- `FileHashChanged` -/
def fileHashChanged (dbp : ChecksumDB) (filename : CString) (digest : List Char) (type : CfHashes)
    (update : Bool) : Bool × ChecksumDB :=
  match readHash dbp type filename with
  | some dbdigest =>
    if digestsDiffer type digest dbdigest then
      (true, if update then writeHash (deleteHash dbp type filename) type filename digest else dbp)
    else (false, dbp)
  | none => (false, writeHash dbp type filename digest)

/-- `PurgeHashes`; `cfstat` is whether a file exists. The walk through the database looks at each
entry once. -/
def purgeHashes (dbp : ChecksumDB) (path : Option CString) (update : Bool)
    (cfstat : CString → Bool) : ChecksumDB :=
  match path with
  | some path => if cfstat path then dbp else deleteDB dbp path
  | none => fun key =>
    let obj := (key.drop cfIndexOffset).takeWhile (· ≠ '\x00')
    if !cfstat obj && update then none else dbp key

/-- A call on the database, and what files there are then. -/
inductive ChecksumOp where
  | changed (filename : FileName) (digest : List Char) (type : CfHashes) (update : Bool)
  | purge (path : Option FileName) (cfstat : CString → Bool)

/-- `PurgeHashes` without a path is called with `update`. -/
def ChecksumOp.step (dbp : ChecksumDB) : ChecksumOp → ChecksumDB
  | .changed filename digest type update => (fileHashChanged dbp filename digest type update).2
  | .purge path cfstat => purgeHashes dbp (path.map Subtype.val) true cfstat

/-- What `FileHashChanged` returns. -/
def ChecksumOp.result (dbp : ChecksumDB) : ChecksumOp → Option Bool
  | .changed filename digest type update => some (fileHashChanged dbp filename digest type update).1
  | .purge _ _ => none

end Cfengine
