import Cfengine.Defs

/-!
# Package versions (`verify_packages.c`)

The built-in comparison of package versions, the one by external commands, and the search of local
repositories for a version. What an external command answers, the patterns of pcre and the
directories are arguments.
-/

namespace Cfengine

/-- `enum version_cmp` -/
inductive VersionCmp where
  | eq | neq | gt | lt | ge | le | cmpNone
deriving DecidableEq

/-- `VersionCmpResult` -/
inductive VersionCmpResult where
  | error | noMatch | «match»
deriving DecidableEq

/-- The sign of `strcmp`. -/
def strcmp (s t : CString) : Ordering := cmp s t

/-! ## The built-in comparison -/

/-- `CanonifyChar`, in its buffer of `CF_BUFSIZE` -/
def canonifyChar (str : CString) (ch : Char) : CString :=
  (str.take (cfBufSize - 1)).map fun c => if c = ch then '_' else c

/-- The loop of `ParsePackageVersion`: the numerals and the separators from `sp` on. -/
def parsePackageVersion.loop : Nat → CString → List CString × List CString
  | 0, _ => ([], [])
  | _ + 1, [] => ([], [])
  | fuel + 1, c :: sp =>
    let numeral := ((c :: sp).take 29).takeWhile Char.isAlphanum
    match (c :: sp).drop numeral.length with
    | [] => ([numeral], [])
    | c :: sp =>
      let (num, sep) := loop fuel sp
      (numeral :: num, (if c.isAlphanum then [] else [c]) :: sep)

/-- `ParsePackageVersion` -/
def parsePackageVersion (version : CString) : List CString × List CString :=
  parsePackageVersion.loop version.length version

/-- The loop over the separators. -/
def compatibleSeparators : List CString → List CString → Bool
  | pr :: separatorsPr, «in» :: separatorsIn =>
    if strcmp pr «in» = .eq then compatibleSeparators separatorsPr separatorsIn else false
  | _, _ => true

/-- `version_matched` -/
def versionMatched (cmpResult : Ordering) (versionEqual : Bool) : VersionCmp → Bool
  | .eq | .cmpNone => versionEqual
  | .neq => !versionEqual
  | .gt => cmpResult = .lt
  | .lt => cmpResult = .gt
  | .ge => cmpResult = .lt || versionEqual
  | .le => cmpResult = .gt || versionEqual

/-- `break_loop` -/
def breakLoop (cmpResult : Ordering) : VersionCmp → Bool
  | .gt | .ge => cmpResult = .gt
  | .lt | .le => cmpResult = .lt
  | .eq | .neq | .cmpNone => false

/-- The loop over the numerals, and what is done behind it. -/
def compareNumerals (cmp : VersionCmp) (versionEqual : Bool) :
    List CString → List CString → Bool
  | pr :: numbersPr, «in» :: numbersIn =>
    if versionMatched (strcmp pr «in») versionEqual cmp then true
    else if breakLoop (strcmp pr «in») cmp then false
    else compareNumerals cmp versionEqual numbersPr numbersIn
  | _ :: _, [] => cmp = .lt || cmp = .le
  | [], _ :: _ => cmp = .gt || cmp = .ge
  | [], [] => false

/-- `ComparePackageVersionsInternal` -/
def comparePackageVersionsInternal (v1 v2 : CString) (cmp : VersionCmp) : VersionCmpResult :=
  let (numbersPr, separatorsPr) := parsePackageVersion (canonifyChar v1 ',')
  let (numbersIn, separatorsIn) := parsePackageVersion (canonifyChar v2 ',')
  let versionEqual := strcmp v2 v1 = .eq
  if compatibleSeparators separatorsPr separatorsIn &&
      compareNumerals cmp versionEqual numbersPr numbersIn then .match
  else .noMatch

/-! ## The comparison by commands -/

/-- `InvertResult` -/
def invertResult : VersionCmpResult → VersionCmpResult
  | .error => .error
  | .noMatch => .match
  | .match => .noMatch

/-- `AndResults` -/
def andResults : VersionCmpResult → VersionCmpResult → VersionCmpResult
  | .error, _ => .error
  | _, .error => .error
  | .match, .match => .match
  | _, _ => .noMatch

/-- The attributes of a package promise that the comparison reads. -/
structure Packages where
  packageSelect : VersionCmp
  packageVersionLessCommand : Option CString
  packageVersionEqualCommand : Option CString
  packageCommandsUseshell : Bool

/-- What `cf_pclose` returns for a command, with a shell or without, after `$(v1)` and `$(v2)` have
been expanded in it. It is `none` where the command does not start. -/
abbrev CmpCommands := Bool → CString → CString → CString → Option Int

section
variable (commands : CmpCommands) (a : Packages)

/-- `RunCmpCommand` -/
def runCmpCommand (command v1 v2 : CString) : VersionCmpResult :=
  match commands a.packageCommandsUseshell command v1 v2 with
  | none => .error
  | some retcode =>
    if retcode = -1 then .error
    else if retcode = 0 then .match else .noMatch

/-- `ComparePackageVersionsLess` -/
def comparePackageVersionsLess (v1 v2 : CString) : VersionCmpResult :=
  match a.packageVersionLessCommand with
  | some command => runCmpCommand commands a command v1 v2
  | none => comparePackageVersionsInternal v1 v2 .gt

/-- `ComparePackageVersionsEqual` -/
def comparePackageVersionsEqual (v1 v2 : CString) : VersionCmpResult :=
  match a.packageVersionEqualCommand with
  | some command => runCmpCommand commands a command v1 v2
  | none =>
    andResults (invertResult (comparePackageVersionsLess commands a v1 v2))
      (invertResult (comparePackageVersionsLess commands a v2 v1))

/-- `ComparePackageVersionsCmd` -/
def comparePackageVersionsCmd (v1 v2 : CString) : VersionCmpResult :=
  match a.packageSelect with
  | .eq | .cmpNone => comparePackageVersionsEqual commands a v1 v2
  | .neq => invertResult (comparePackageVersionsEqual commands a v1 v2)
  | .lt => comparePackageVersionsLess commands a v1 v2
  | .gt => comparePackageVersionsLess commands a v2 v1
  | .ge => invertResult (comparePackageVersionsLess commands a v1 v2)
  | .le => invertResult (comparePackageVersionsLess commands a v2 v1)

/-- `PackageItem` -/
structure PackageItem where
  name : CString
  version : CString
  arch : CString

/-- `CompareCSVName(s1, s2) == 0` -/
def compareCsvName : CString → CString → Bool
  | [], [] => true
  | sp1 :: s1, sp2 :: s2 =>
    (if sp1 = ',' then '_' else sp1) = (if sp2 = ',' then '_' else sp2) && compareCsvName s1 s2
  | _, _ => false

/-- `ComparePackages` -/
def comparePackages (n v arch : CString) (pi : PackageItem) : VersionCmpResult :=
  if !compareCsvName n pi.name then .noMatch
  else if arch ≠ "*".toList && arch ≠ pi.arch then .noMatch
  else if v = "*".toList then .match
  else if a.packageVersionLessCommand.isSome then
    comparePackageVersionsCmd commands a pi.version v
  else comparePackageVersionsInternal v pi.version a.packageSelect

end

/-! ## The largest available version -/

/-- `NAME_MAX` -/
def nameMax : Nat := 255

/-- `struct dirent` -/
structure Dirent where
  dName : CString
  fits : dName.length ≤ nameMax
deriving DecidableEq

/-- A compiled pattern: whether `RegExMatchFullString` accepts a string, and where `pcre_exec` finds
the first group in one. -/
structure Pcre where
  matchFullString : CString → Bool
  firstGroup : CString → Option (Nat × Nat)

/-- The pattern and the directories that the search uses. `OpenDirLocal` gives what `ReadDir` reads
from then on. -/
structure PackageFiles where
  compileRegExp : CString → Option Pcre
  openDirLocal : CString → Option (List Dirent)

section
variable (env : PackageFiles) (regexp : CString)

/-- `FullTextMatch` -/
def fullTextMatch (teststring : CString) : Bool :=
  regexp = teststring ||
    match env.compileRegExp regexp with
    | none => false
    | some rx => rx.matchFullString teststring

/-- `FirstBackReference` -/
def firstBackReference (rx : Pcre) (teststring : CString) : CString :=
  match rx.firstGroup teststring with
  | none => []
  | some (start, «end») =>
    if «end» - start < cfMaxVarSize then (teststring.drop start).take («end» - start) else []

/-- `ExtractFirstReference` -/
def extractFirstReference (teststring : CString) : CString :=
  match env.compileRegExp regexp with
  | none => []
  | some rx =>
    match firstBackReference rx teststring with
    | [] => "CF_NOMATCH".toList
    | c :: backreference => c :: backreference

end

/-- `largestVer[strlen(largestVer) - 1]++`; a character after the last one ends the string. -/
def incrementLast : CString → CString
  | [] => []
  | [c] => if (c.toNat + 1) % 256 = 0 then [] else [Char.ofNat (c.toNat + 1)]
  | c :: d :: s => c :: incrementLast (d :: s)

/-- What `largestVer` has before the loops of `FindLargestVersionAvail`. -/
def initialVersion (ver : CString) (packageSelect : VersionCmp) : CString :=
  if ver = [] || ver = "*".toList then []
  else
    let largestVer := ver.take (cfMaxVarSize - 1)
    if packageSelect = .gt then incrementLast largestVer else largestVer

section
variable (env : PackageFiles) (refAnyVer : CString) (commands : CmpCommands) (a : Packages)

/-- The body of the loop over a directory, on `largestVer` and, where `match` is set,
`largestVerName`. -/
def checkFile (largest : CString × Option CString) (dirp : Dirent) : CString × Option CString :=
  if fullTextMatch env refAnyVer dirp.dName then
    let matchVer := extractFirstReference env refAnyVer dirp.dName
    if comparePackageVersionsLess commands a matchVer largest.1 ≠ .noMatch then
      (matchVer.take (cfMaxVarSize - 1), some (dirp.dName.take (cfMaxVarSize - 1)))
    else largest
  else largest

/-- The loop over the repositories. -/
def findLargestVersionAvail.loop :
    List CString → CString × Option CString → CString × Option CString
  | [], largest => largest
  | repository :: repositories, largest =>
    match env.openDirLocal repository with
    | none => loop repositories largest
    | some files => loop repositories (files.foldl (checkFile env refAnyVer commands a) largest)

/-- `FindLargestVersionAvail`: `matchName` and `matchVers`, where it returns true. -/
def findLargestVersionAvail (ver : CString) (packageSelect : VersionCmp)
    (repositories : List CString) : Option (CString × CString) :=
  match findLargestVersionAvail.loop env refAnyVer commands a repositories
      (initialVersion ver packageSelect, none) with
  | (_, none) => none
  | (largestVer, some largestVerName) => some (largestVerName, largestVer)

end

attribute [grind =] strcmp canonifyChar parsePackageVersion.loop parsePackageVersion
  compatibleSeparators versionMatched breakLoop compareNumerals comparePackageVersionsInternal
  invertResult andResults runCmpCommand comparePackageVersionsLess comparePackageVersionsEqual
  comparePackageVersionsCmd compareCsvName comparePackages

end Cfengine
