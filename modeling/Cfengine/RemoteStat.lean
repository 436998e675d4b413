import Cfengine.AddrLib

/-!
# Remote `stat` (`server.c`, `client_code.c`)

`StatFile` formats what it knows about a file as one line, and `cf_remote_stat` scans it. A reply is
the text of one transaction.
-/

namespace Cfengine
open Numerals

/-- `enum cf_filetype` -/
inductive CfFiletype where
  | reg | link | dir | fifo | block | char | sock
deriving DecidableEq

namespace CfFiletype

/-- The number of an enumerator. -/
def toInt : CfFiletype → Int
  | reg => 0
  | link => 1
  | dir => 2
  | fifo => 3
  | block => 4
  | char => 5
  | sock => 6

/-- The enumerator with a number. -/
def ofInt? (n : Int) : Option CfFiletype :=
  [reg, link, dir, fifo, block, char, sock].find? (·.toInt = n)

/-- `S_IFREG` and the others. -/
def bits : CfFiletype → Nat
  | reg => 0o100000
  | link => 0o120000
  | dir => 0o040000
  | fifo => 0o010000
  | block => 0o060000
  | char => 0o020000
  | sock => 0o140000

end CfFiletype

/-- `struct stat` -/
structure StatBuf where
  st_mode : Nat
  st_uid : Nat
  st_gid : Nat
  st_size : Int
  st_atime : Int
  st_mtime : Int
  st_ctime : Int
  st_ino : Nat
  st_nlink : Nat
  st_dev : Nat
  st_blocks : Int
deriving DecidableEq

/-- `S_ISREG` and the others. -/
def StatBuf.isType (s : StatBuf) (type : CfFiletype) : Bool := s.st_mode &&& 0o170000 = type.bits

/-- `Stat` -/
structure CfStat where
  cf_type : Option CfFiletype
  cf_lmode : Nat
  cf_mode : Nat
  cf_uid : Nat
  cf_gid : Nat
  cf_size : Int
  cf_atime : Int
  cf_mtime : Int
  cf_ctime : Int
  cf_makeholes : Int
  cf_readlink : Option CString
  cf_nlink : Int
  cf_ino : Int
  cf_dev : Int
deriving DecidableEq

/-- `DEV_BSIZE` -/
def devBsize : Int := 512

/-! ## The server -/

/-- `cf_type`, which is that of a link only if none of the other cases applies. -/
def statType (islink : Bool) (s : StatBuf) : CfFiletype :=
  if s.isType .fifo then .fifo
  else if s.isType .block then .block
  else if s.isType .char then .char
  else if s.isType .sock then .sock
  else if s.isType .reg then .reg
  else if s.isType .dir then .dir
  else if islink then .link
  else .reg

/-- `StatFile`, from the result of `lstat`, the target of the link and what `stat` says about
that. -/
def statFile (statbuf : StatBuf) (linkbuf : CString) (statlinkbuf : Option StatBuf) : CfStat :=
  let islink := statbuf.isType .link
  let file :=
    match islink, statlinkbuf with
    | true, some target =>
      { statbuf with
        st_size := target.st_size
        st_mode := target.st_mode
        st_uid := target.st_uid
        st_gid := target.st_gid
        st_mtime := target.st_mtime
        st_ctime := target.st_ctime }
    | _, _ => statbuf
  { cf_type := some (statType islink file)
    cf_lmode := if islink then statbuf.st_mode &&& 0o7777 else 0
    cf_mode := file.st_mode &&& 0o7777
    cf_uid := file.st_uid &&& 0xFFFFFFFF
    cf_gid := file.st_gid &&& 0xFFFFFFFF
    cf_size := file.st_size
    cf_atime := file.st_atime
    cf_mtime := file.st_mtime
    cf_ctime := file.st_ctime
    cf_makeholes := if file.st_size > file.st_blocks * devBsize then 1 else 0
    cf_readlink := some (if islink then linkbuf else [])
    cf_nlink := (file.st_nlink : Int).bmod (2 ^ 32)
    cf_ino := (file.st_ino : Int).bmod (2 ^ 32)
    cf_dev := file.st_dev }

/-- The numbers of the line, in their order. -/
def CfStat.fields (cfst : CfStat) : List Int :=
  [cfst.cf_type.elim 0 CfFiletype.toInt, cfst.cf_mode, cfst.cf_lmode, cfst.cf_uid, cfst.cf_gid,
    cfst.cf_size, cfst.cf_atime, cfst.cf_mtime, cfst.cf_ctime, cfst.cf_makeholes, cfst.cf_ino,
    cfst.cf_nlink, cfst.cf_dev]

/-- The two replies of `StatFile`. -/
def statReplies (cfst : CfStat) : CString × CString :=
  (("OK:".toList ++ cfst.fields.flatMap fun n => ' ' :: decimal n).take (cfBufSize - 1),
    "OK:".toList ++ cfst.cf_readlink.getD [])

/-! ## The client -/

/-- The widths of the conversions `%1d %5u %12u %12u %12u %16lld %14ld %14ld %14ld %1hhd %12d %12d
%16lld`. -/
def statWidths : List Nat := [1, 5, 12, 12, 12, 16, 14, 14, 14, 1, 12, 12, 16]

/-- A conversion with a width, and what it leaves. -/
def scanWidth (width : Nat) (s : CString) : Option (Int × CString) :=
  let s := s.dropWhile isspace
  (scanInteger 10 (s.take width)).map fun (n, rest) => (n, rest ++ s.drop width)

/-- Conversions one after another, up to the first that fails. -/
def scanWidths : List Nat → CString → List Int
  | [], _ => []
  | width :: widths, s =>
    match scanWidth width s with
    | none => []
    | some (n, rest) => n :: scanWidths widths rest

/-- What is stored for the numbers of a line, each in a variable of its type. -/
def CfStat.ofFields (readlink : Option CString) : List Int → Option CfStat
  | [d_ft, mode, lmode, uid, gid, d_off, atime, mtime, ctime, makeholes, ino, nlink, d_dev] =>
    let cf_type := CfFiletype.ofInt? (d_ft.bmod (2 ^ 32))
    let lmode := (lmode % 2 ^ 32).toNat
    some
      { cf_type
        cf_lmode := if lmode ≠ 0 then lmode ||| CfFiletype.link.bits else lmode
        cf_mode := (mode % 2 ^ 32).toNat ||| cf_type.elim 0 CfFiletype.bits
        cf_uid := (uid % 2 ^ 32).toNat
        cf_gid := (gid % 2 ^ 32).toNat
        cf_size := d_off
        cf_atime := atime
        cf_mtime := mtime
        cf_ctime := ctime
        cf_makeholes := makeholes.bmod (2 ^ 8)
        cf_readlink := readlink
        cf_nlink := nlink.bmod (2 ^ 32)
        cf_ino := ino.bmod (2 ^ 32)
        cf_dev := d_dev % 2 ^ 64 }
  | _ => none

/-- What is stored in the `struct stat` of the caller. A remote link is looked at as a link if
`stattype` says so. -/
def CfStat.fill (cfst : CfStat) (stattype : CString) (buf : StatBuf) : StatBuf :=
  { buf with
    st_mode := if cfst.cf_lmode ≠ 0 && stattype = "link".toList then cfst.cf_lmode else cfst.cf_mode
    st_uid := cfst.cf_uid
    st_gid := cfst.cf_gid
    st_size := cfst.cf_size
    st_atime := cfst.cf_atime
    st_mtime := cfst.cf_mtime
    st_ctime := cfst.cf_ctime
    st_ino := (cfst.cf_ino % 2 ^ 64).toNat
    st_nlink := (cfst.cf_nlink % 2 ^ 64).toNat
    st_dev := cfst.cf_dev.toNat }

/-- `cf_remote_stat`, from the two replies: what is put in the cache and in the buffer. Fewer than
13 numbers are an error. -/
def cfRemoteStat (replies : CString × CString) (stattype : CString) (buf : StatBuf) :
    Option (CfStat × StatBuf) :=
  if "unsynchronized".toList <:+: replies.1 then none
  else if "BAD:".toList <+: replies.1 then none
  else if "OK:".toList <+: replies.1 then
    let readlink := if replies.2.length > 3 then some (replies.2.drop 3) else none
    (CfStat.ofFields readlink (scanWidths statWidths (replies.1.drop 3))).map fun cfst =>
      (cfst, cfst.fill stattype buf)
  else none

end Cfengine
