import Cfengine.AddrLib

/-!
# Checks of address ranges (`addr_lib.c`, `evalfunction.c`)

`FuzzyMatchParse` is asked whether a range is well formed before `FnCallIPRange` matches the
addresses of the host.
-/

namespace Cfengine
open Numerals

/-- The first loop of `FuzzyMatchParse`, with the digits read in a row: whether `isADDR` is set
behind it. -/
def fuzzyMatchParse.isAddr : Nat → CString → Bool
  | _, [] => false
  | count, c :: sp =>
    if !isDigit 16 c then false
    else if c = ':' then true
    else if isDigit 10 c then if count + 1 > 3 then false else isAddr (count + 1) sp
    else isAddr 0 sp

/-- The loop over the octets, some of which are ranges. -/
def fuzzyMatchParse.ranges : Nat → Option CString → Int → Int → Except Fault Bool
  | 0, _, _, _ => .ok true
  | _ + 1, none, _, _ => .error .outOfBounds
  | i + 1, some sp1, «from», «to» =>
    let buffer1 := sp1.takeWhile (· ≠ '.')
    if buffer1.length ≥ cfMaxIpLen then .error .bufferOverflow
    else if '-' ∈ buffer1 then
      let (lo, hi) := scanRange scanLong buffer1
      let lo := lo.getD «from»
      let hi := hi.getD «to»
      if lo < 0 ∨ hi < 0 then .ok false
      else if hi < lo then .ok false
      else ranges i (advance sp1 (buffer1.length + 1)) lo hi
    else ranges i (advance sp1 (buffer1.length + 1)) «from» «to»

/-- `FuzzyMatchParse` -/
def fuzzyMatchParse (s : CString) : Except Fault Bool := do
  let isCIDR : Bool := '/' ∈ s
  let isrange : Bool := '-' ∈ s
  let isv4 : Bool := '.' ∈ s
  let isv6 : Bool := ':' ∈ s
  let mask := (scanCidr 16 s).2
  let mask6 := (scanCidr 40 s).2
  if !fuzzyMatchParse.isAddr 0 s then return true
  else if isv4 && isv6 then return false
  else if isCIDR && isrange then return false
  else if isv4 && isCIDR && (s.length > 19 || mask < 8 || mask > 30) then return false
  else if isv4 && isrange && !(← fuzzyMatchParse.ranges 4 (some s) (-1) (-1)) then return false
  else if isv6 && isCIDR && (s.length < 20 || s.length > 42 || mask6.tmod 8 ≠ 0 || mask6 > 15) then
    return false
  else return true

section
variable (sockaddrPton : CString → Nat) (sockaddrPton6 : CString → Nat → Nat)

/-- The loop of `FnCallIPRange` over `IPADDRESSES`. -/
def fnCallIPRange.loop (vipaddress range : CString) : List CString → Except Fault Bool
  | [] => .ok false
  | name :: ip => do
    if (← fuzzySetMatch sockaddrPton sockaddrPton6 range vipaddress) = 0 then return true
    else if (← fuzzySetMatch sockaddrPton sockaddrPton6 range name) = 0 then return true
    else loop vipaddress range ip

/-- `FnCallIPRange`; the result is none for `FNCALL_FAILURE`. -/
def fnCallIPRange (vipaddress : CString) (ipaddresses : List CString) (range : CString) :
    Except Fault (Option CString) := do
  if !(← fuzzyMatchParse range) then return none
  else
    let matched ← fnCallIPRange.loop sockaddrPton sockaddrPton6 vipaddress range ipaddresses
    return some (if matched then "any".toList else "!any".toList)

end

end Cfengine
