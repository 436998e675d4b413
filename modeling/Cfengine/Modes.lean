import Cfengine.Defs

/-!
# Mode strings (`modes.c`)

`ParseModeString`. A mode is a word of 32 bits, as an `int` and a `mode_t` are.
-/

namespace Cfengine

/-- `enum modestate` -/
inductive ModeState where
  | wild | who | which
deriving DecidableEq

/-- `enum modesort` -/
inductive ModeSort where
  | unknown | numeric | symbolic
deriving DecidableEq

/-- The local variables of `ParseModeString`. -/
structure ModeParse where
  affected : BitVec 32 := 0
  value : BitVec 32 := 0
  gotaction : Bool := false
  noError : Bool := true
  action : Char := '='
  state : ModeState := .wild
  foundSort : ModeSort := .unknown
  sort : ModeSort := .unknown
  plusmask : BitVec 32 := 0
  minusmask : BitVec 32 := 0

/-- `CheckModeState` -/
def checkModeState (stateA stateB : ModeState) (sortA sortB : ModeSort) : Bool :=
  if stateA ≠ .wild ∧ stateB ≠ .wild ∧ stateA ≠ stateB then false
  else if sortA ≠ .unknown ∧ sortB ≠ .unknown ∧ sortA ≠ sortB then false
  else true

/-- `SetModeMask`, on the two masks. -/
def setModeMask (action : Char) (value affected p m : BitVec 32) : Option (BitVec 32 × BitVec 32) :=
  if action = '+' then some (p ||| value, m)
  else if action = '-' then some (p, m ||| value)
  else if action = '=' then some (p ||| value, m ||| (~~~value &&& 0o7777 &&& affected))
  else none

/-- What a letter for a class of users adds to `affected`. -/
def modeClass (c : Char) : Option (BitVec 32) :=
  if c = 'a' then some 0o7777
  else if c = 'u' then some 0o4700
  else if c = 'g' then some 0o2070
  else if c = 'o' then some 0o0007
  else none

/-- What a letter for a permission adds to `value`. -/
def modePermission (affected : BitVec 32) (c : Char) : Option (BitVec 32) :=
  if c = 'r' then some (0o444 &&& affected)
  else if c = 'w' then some (0o222 &&& affected)
  else if c = 'x' then some (0o111 &&& affected)
  else if c = 's' then some (0o6000 &&& affected)
  else if c = 't' then some 0o1000
  else none

/-- `+`, `-` and `=`. -/
def isModeAction (c : Char) : Bool := c = '+' || c = '-' || c = '='

def isOctalDigit (c : Char) : Bool := '0' ≤ c && c ≤ '7'

/-- `sscanf` with `%o`, for a string that starts with a digit: the low bits of what `strtoul`
returns. -/
def scanOctal (sp : CString) : BitVec 32 :=
  let n := (sp.takeWhile isOctalDigit).foldl (fun n c => n * 8 + (c.toNat - '0'.toNat)) 0
  BitVec.ofNat 32 (min n (2 ^ 64 - 1))

namespace ModeParse

/-- A letter for a class. -/
def classLetter (m : ModeParse) (bits : BitVec 32) : ModeParse :=
  { m with
    noError := checkModeState .who m.state .symbolic m.sort
    affected := m.affected ||| bits
    sort := .symbolic }

/-- A letter for a permission. -/
def permissionLetter (m : ModeParse) (bits : BitVec 32) : ModeParse :=
  { m with
    noError := checkModeState .which m.state .symbolic m.sort
    value := m.value ||| bits
    sort := .symbolic }

/-- An action. -/
def setAction (m : ModeParse) (c : Char) : ModeParse :=
  { m with
    noError := checkModeState .who m.state .symbolic m.sort
    action := c
    state := .which
    gotaction := true
    sort := .unknown }

/-- A number. -/
def setNumber (m : ModeParse) (value : BitVec 32) : ModeParse :=
  { m with
    noError := checkModeState .which m.state .numeric m.sort
    sort := .numeric
    gotaction := true
    state := .which
    affected := 0o7777
    value := value }

/-- The masks with the item that has been read. -/
def setMask (m : ModeParse) : Option (BitVec 32 × BitVec 32) :=
  setModeMask m.action m.value m.affected m.plusmask m.minusmask

/-- Behind a comma. -/
def nextItem (m : ModeParse) (masks : BitVec 32 × BitVec 32) : ModeParse :=
  { m with
    plusmask := masks.1
    minusmask := masks.2
    foundSort := m.sort
    sort := .unknown
    action := '='
    affected := 0
    value := 0
    gotaction := false
    state := .who }

end ModeParse

/-- The loop of `ParseModeString`; `none` is false. -/
def parseModeString.loop (modestring : CString) (m : ModeParse) :
    CString → Option (BitVec 32 × BitVec 32)
  | [] =>
    if (m.state = .who ∨ m.value = 0) ∧ modestring ≠ ['0', '0', '0', '0'] ∧
        modestring ≠ ['0', '0', '0'] then
      none
    else m.setMask
  | c :: sp =>
    match modeClass c, modePermission m.affected c with
    | some bits, _ => loop modestring (m.classLetter bits) sp
    | _, some bits => loop modestring (m.permissionLetter bits) sp
    | none, none =>
      if isModeAction c then
        if m.gotaction then none else loop modestring (m.setAction c) sp
      else if isOctalDigit c then
        let value := scanOctal (c :: sp)
        if 0o7777 < value.toInt then none
        else loop modestring (m.setNumber value) (sp.dropWhile Char.isDigit)
      else if c = ',' then
        match m.setMask with
        | none => none
        | some masks => loop modestring (m.nextItem masks) sp
      else none
termination_by sp => sp.length
decreasing_by all_goals
  first
  | exact Nat.lt_succ_self _
  | exact Nat.lt_succ_of_le (List.length_dropWhile_le _ _)

attribute [grind =] parseModeString.loop

/-- `ParseModeString`, with the two masks if it returns true. -/
def parseModeString (modestring : Option CString) : Option (BitVec 32 × BitVec 32) :=
  match modestring with
  | none => some (0, 0)
  | some modestring => parseModeString.loop modestring {} modestring

/-- The permissions that a file with the permissions `mode` gets. -/
def newPermissions (mode : BitVec 32) (masks : BitVec 32 × BitVec 32) : BitVec 32 :=
  (mode ||| masks.1) &&& ~~~masks.2

/-- `SelectModeMatch`, on `st_mode`. -/
def selectModeMatch (stMode : BitVec 32) : List CString → Bool
  | [] => false
  | item :: rp =>
    match parseModeString (some item) with
    | none => selectModeMatch stMode rp
    | some masks =>
      if newPermissions (stMode &&& 0o7777) masks &&& 0o7777 = stMode &&& 0o7777 then true
      else selectModeMatch stMode rp

end Cfengine
