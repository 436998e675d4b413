import Cfengine.Defs
import Cfengine.Theory.Numerals

/-!
# Address patterns (`addr_lib.c`)

`FuzzySetMatch` guesses the notation of a pattern from its characters and returns 0 if the address
is in the set. `long` has 64 bits and `HAVE_GETADDRINFO` is defined. The conversions of `sscanf`
are those of the C library: a number that is too large becomes the largest one, and a variable
whose conversion fails keeps its value.
-/

namespace Cfengine
open Numerals

/-- `CF_MAX_IP_LEN` -/
def cfMaxIpLen : Nat := 64

def scanSign : CString → Int × CString
  | '-' :: rest => (-1, rest)
  | '+' :: rest => (1, rest)
  | s => (1, s)

/-- The `0x` that a number in base 16 may start with. -/
def skipHexPrefix (base : Nat) : CString → CString
  | '0' :: x :: rest => if base = 16 ∧ (x = 'x' ∨ x = 'X') then rest else '0' :: x :: rest
  | s => s

/-- An optional sign and a number in base 10 or 16, behind spaces, and what follows. -/
def scanInteger (base : Nat) (s : CString) : Option (Int × CString) :=
  let (sign, s) := scanSign (s.dropWhile isspace)
  let s := skipHexPrefix base s
  let digits := s.takeWhile (isDigit base)
  if digits = [] then none else some (sign * value base digits, s.drop digits.length)

/-- The largest `long`. -/
def longMax : Int := 2 ^ 63 - 1

/-- The conversion `%ld`. -/
def scanLong (s : CString) : Option (Int × CString) :=
  (scanInteger 10 s).map fun (n, rest) => (max (-2 ^ 63) (min n longMax), rest)

/-- The conversion `%lx`, of an `unsigned long` that is stored in a `long`. -/
def scanHex (s : CString) : Option (Int × CString) :=
  (scanInteger 16 s).map fun (n, rest) =>
    (if n.natAbs < 2 ^ 64 then n.bmod (2 ^ 64) else -1, rest)

/-- The format `%ld-%ld` or `%lx-%lx`: what is assigned to the two variables. -/
def scanRange (conversion : CString → Option (Int × CString)) (s : CString) :
    Option Int × Option Int :=
  match conversion s with
  | none => (none, none)
  | some (n, '-' :: rest) => (some n, (conversion rest).map Prod.fst)
  | some (n, _) => (some n, none)

/-- The format `%16[^/]/%d` or `%40[^/]/%d`: the address and the mask. -/
def scanCidr (width : Nat) (s1 : CString) : CString × Int :=
  let address := (s1.take width).takeWhile (· ≠ '/')
  if address = [] then ([], 0)
  else
    match s1.drop address.length with
    | '/' :: rest => (address, (scanLong rest).elim 0 fun (mask, _) => mask.bmod (2 ^ 32))
    | _ => (address, 0)

def strncmp : CString → CString → Nat → Int
  | _, _, 0 => 0
  | [], [], _ => 0
  | [], c2 :: _, _ => -c2.toNat
  | c1 :: _, [], _ => c1.toNat
  | c1 :: s1, c2 :: s2, n + 1 => if c1 = c2 then strncmp s1 s2 n else c1.toNat - c2.toNat

/-! ## Ranges -/

/-- The numbers that the range loops read a part of the pattern and a block of the address to. -/
structure RangeScan where
  «from» : Int
  «to» : Int
  cmp : Int

/-- What is read of one part of the pattern and one block of the address: `ranged` reads them if
the part is a range, and `plain` if it is not. -/
def readPart (ranged plain : CString → Option (Int × CString)) (scan : RangeScan)
    (buffer1 buffer2 : CString) : RangeScan :=
  if '-' ∈ buffer1 then
    let (lo, hi) := scanRange ranged buffer1
    { «from» := lo.getD scan.«from», «to» := hi.getD scan.«to»
      cmp := (ranged buffer2).elim scan.cmp Prod.fst }
  else
    { scan with
      «from» := (plain buffer1).elim scan.«from» Prod.fst
      cmp := (plain buffer2).elim scan.cmp Prod.fst }

/-- The comparison of one block, where `below` says that it is below the range. -/
def matchedPart (below : Int → Int → Bool) (buffer1 : CString) (scan : RangeScan) : Bool :=
  if '-' ∈ buffer1 then
    !(scan.«from» < 0 || scan.«to» < 0) && !(below scan.«from» scan.cmp || scan.cmp > scan.«to»)
  else scan.«from» = scan.cmp

/-- The octets of IPv4 are read in base 10. -/
def readOctet : RangeScan → CString → CString → RangeScan := readPart scanLong scanLong

def matchedOctet : CString → RangeScan → Bool := matchedPart fun «from» cmp => «from» > cmp

/-- The blocks of IPv6 are read in base 16 if they are in a range, and in base 10 if they are
not. -/
def readBlock : RangeScan → CString → CString → RangeScan := readPart scanHex scanLong

def matchedBlock : CString → RangeScan → Bool := matchedPart fun «from» cmp => «from» ≥ cmp

/-- A pointer into a string, moved by `n`; `none` behind the NUL. -/
def advance (sp : CString) (n : Nat) : Option CString :=
  if n ≤ sp.length then some (sp.drop n) else none

/-- The loops over the parts of the pattern and the blocks of the address. Only the loop for IPv4
stops at an empty part (`breaks`); the other one goes on with what is in the buffer. -/
def rangeLoop (sep : Char) (breaks : Bool) (read : RangeScan → CString → CString → RangeScan)
    (matched : CString → RangeScan → Bool) :
    Nat → Option CString → Option CString → CString → CString → RangeScan → Except Fault Int
  | 0, _, _, _, _, _ => .ok 0
  | _ + 1, none, _, _, _, _ => .error .outOfBounds
  | rounds + 1, some sp1, sp2, buffer1, buffer2, scan =>
    let part := sp1.takeWhile (· ≠ sep)
    if part.length ≥ cfMaxIpLen then .error .bufferOverflow
    else
      let buffer1 := if breaks || part ≠ [] then part else buffer1
      if breaks && buffer1 = [] then .ok 0
      else
        match sp2 with
        | none => .error .outOfBounds
        | some sp2 =>
          let block := sp2.takeWhile (· ≠ sep)
          if block.length ≥ cfMaxIpLen then .error .bufferOverflow
          else
            let buffer2 := if block ≠ [] then block else buffer2
            let scan := read scan buffer1 buffer2
            if matched buffer1 scan then
              rangeLoop sep breaks read matched rounds (advance sp1 (buffer1.length + 1))
                (advance sp2 (buffer2.length + 1)) buffer1 buffer2 scan
            else .ok (-1)

/-! ## The patterns -/

/-- The comparison of the first blocks of two IPv6 addresses of 16 bytes. -/
def cidrLoop (addr1 addr2 : Nat → Nat) : Nat → Nat → Except Fault Int
  | 0, _ => .ok 0
  | blocks + 1, i =>
    if i ≥ 16 then .error .outOfBounds
    else if addr1 i ≠ addr2 i then .ok (-1)
    else cidrLoop addr1 addr2 blocks (i + 1)

section
/- `sockaddr_pton` for `AF_INET`, as the number that `htonl` makes of the address, and for
`AF_INET6`, as the bytes of the address. -/
variable (sockaddrPton : CString → Nat) (sockaddrPton6 : CString → Nat → Nat)

def fuzzySetMatch.cidr4 (s1 s2 : CString) : Except Fault Int :=
  let (address, mask) := scanCidr 16 s1
  let shift := 32 - mask
  if shift < 0 ∨ shift ≥ 64 then .error .badShift
  else
    let a1 := sockaddrPton address >>> shift.toNat
    let a2 := sockaddrPton s2 >>> shift.toNat
    if a1 = a2 then .ok 0 else .ok (-1)

def fuzzySetMatch.cidr6 (s1 s2 : CString) : Except Fault Int :=
  let (address, mask) := scanCidr 40 s1
  if mask.tmod 8 ≠ 0 then .ok (-1)
  else cidrLoop (sockaddrPton6 address) (sockaddrPton6 s2) (mask.tdiv 8).toNat 0

/-- `FuzzySetMatch`, where the buffers of the range loops are empty before they are filled. -/
def fuzzySetMatch (s1 s2 : CString) : Except Fault Int :=
  let isCIDR : Bool := '/' ∈ s1
  let isrange : Bool := '-' ∈ s1
  let isv4 : Bool := '.' ∈ s1 ∨ '.' ∈ s2
  let isv6 : Bool := ':' ∈ s1 ∨ ':' ∈ s2
  if s1 = s2 then .ok 0
  else if isv4 && isv6 then .ok (-1)
  else if isCIDR && isrange then .ok (-1)
  else if !(isv6 || isv4) then .ok (-1)
  else if !(isrange || isCIDR) then
    if s2.length > s1.length && s2[s1.length]? ≠ some '.' then .ok (-1)
    else .ok (strncmp s1 s2 s1.length)
  else if isv4 then
    if isCIDR then fuzzySetMatch.cidr4 sockaddrPton s1 s2
    else rangeLoop '.' true readOctet matchedOctet 4 (some s1) (some s2) [] [] ⟨-1, -1, -1⟩
  else
    if isCIDR then fuzzySetMatch.cidr6 sockaddrPton6 s1 s2
    else rangeLoop ':' false readBlock matchedBlock 8 (some s1) (some s2) [] [] ⟨-1, -1, -1⟩

end

end Cfengine
