import Cfengine.Defs

/-!
# File names (`files_names.c`)

The path functions as they are on Unix: the only file separator is `/`, and `VSYSTEMHARDCLASS` is
neither `mingw` nor `cfnt`. A string that is edited in place is returned.
-/

namespace Cfengine

/-- `CF_MAXLINKSIZE` -/
def cfMaxLinkSize : Nat := 256

/-- `IsFileSep` -/
def isFileSep (c : Char) : Bool := c = '/'

/-- `FILE_SEPARATOR_STR` -/
def fileSeparatorStr : CString := ['/']

/-- `Chop` removes trailing spaces. -/
def chop (str : CString) : CString :=
  if str.length > cfExpandSize then str else str.rdropWhile isspace

/-- `AddSlash`, which looks at the separators in use. -/
def addSlash (str : CString) : CString :=
  if str = [] then ['/']
  else
    let f := '/' ∈ str
    let b := '\\' ∈ str
    let sep := if f ∧ ¬ b then ['/'] else if b ∧ ¬ f then ['\\'] else fileSeparatorStr
    if str.getLast?.any isFileSep then str else str ++ sep

/-- The last of the first `k` characters that is a separator. -/
def lastFileSeparator.loop (str : CString) : Nat → Option Nat
  | 0 => none
  | sp + 1 => if str[sp]?.any isFileSep then some sp else loop str sp

/-- `LastFileSeparator`, as an index. -/
def lastFileSeparator (str : CString) : Option Nat := lastFileSeparator.loop str str.length

/-- `ChopLastNode` -/
def chopLastNode (str : CString) : Bool × CString :=
  let (ret, str) :=
    match lastFileSeparator str with
    | none => (false, str)
    | some sp => (true, str.take sp)
  (ret, if str = [] then addSlash str else str)

/-- `JoinPath`; `none` if the buffer runs out of space. -/
def joinPath (path leaf : CString) : Option CString :=
  let path := addSlash (chop path)
  if path.length + leaf.length > cfBufSize - cfBufferMargin then none else some (path ++ leaf)

/-- `RootDirLength` -/
def rootDirLength (f : CString) : Nat := if f.head?.any isFileSep then 1 else 0

/-- The loop of `CompressPath`, from `sp` on. The length of a node is checked before it is
incremented, so that one more character than `CF_MAXLINKSIZE` passes. -/
def compressPath.loop : Nat → CString → CString → Bool × CString
  | _, [], dest => (true, dest)
  | 0, _, dest => (false, dest)
  | fuel + 1, c :: sp, dest =>
    if isFileSep c then loop fuel sp dest
    else
      let node := (c :: sp).takeWhile (!isFileSep ·)
      let next := (c :: sp).dropWhile (!isFileSep ·)
      if node.length > cfMaxLinkSize + 1 then (false, dest)
      else if node = ['.'] then loop fuel next dest
      else if node = ['.', '.'] then
        let (ret, dest) := chopLastNode dest
        if ret then loop fuel next dest else (false, dest)
      else
        let dest := addSlash dest
        match joinPath dest node with
        | none => (false, dest)
        | some dest => loop fuel next dest

/-- `CompressPath`: what is returned, and `dest`. -/
def compressPath (src : CString) : Bool × CString :=
  let rootlen := rootDirLength src
  compressPath.loop src.length (src.drop rootlen) (src.take rootlen)

/-- The loop of `DeEscapeQuotedString`, from the index `sp` on, with `dest` as it is up to `cp`. -/
def deEscapeQuotedString.loop (start : Char) (len : Int) : Nat → CString → CString → Nat × CString
  | sp, c :: src, dest =>
    if (sp : Int) < len then
      if c = start then (if src ≠ [] then 2 + sp else 0, dest)
      else if c = '\\' then
        match src with
        | '\n' :: d :: src => loop start len (sp + 3) src (dest ++ [d])
        -- the NUL is copied
        | ['\n'] => (0, dest)
        | d :: src =>
          if d = '\\' ∨ d = '"' ∨ d = '\'' then loop start len (sp + 2) src (dest ++ [d])
          else loop start len (sp + 1) (d :: src) (dest ++ [c])
        | [] => loop start len (sp + 1) [] (dest ++ [c])
      else loop start len (sp + 1) src (dest ++ [c])
    else (0, dest)
  | _, [], dest => (0, dest)

attribute [grind =] deEscapeQuotedString.loop

/-- `DeEscapeQuotedString`: what is returned, and `dest`. -/
def deEscapeQuotedString (src dest : CString) : Nat × CString :=
  let len := (src.length : Int).bmod (2 ^ 32)
  if len = 0 then (0, dest)
  else
    match src with
    | [] => (0, dest)
    | start :: src => deEscapeQuotedString.loop start len 1 src []

end Cfengine
