import Cfengine.ItemLib

/-!
# Line insertions (`files_editline.c`)

`VerifyLineInsertions` behind the lock of the promise. The regular expressions and what the code
reads of other files are in `EditEnv`.
-/

namespace Cfengine
open LinkedList

/-- `enum insert_match` -/
inductive InsertMatch where
  | ignoreLeading | ignoreTrailing | ignoreEmbedded | exactMatch
deriving DecidableEq

/-- What the line editor calls. -/
structure EditEnv where
  /-- `CompileRegExp` and `RegExMatchFullString`; a pattern that does not compile matches
  nothing. -/
  regExMatchFullString : CString → CString → Bool
  /-- `BlockTextMatch` -/
  blockTextMatch : CString → CString → Bool
  /-- `MatchPolicy` where the policy is not `exact_match`. -/
  whitespaceMatch : List InsertMatch → CString → CString → Bool
  /-- The lines that `fgets` and `StripTrailingNewline` make of a file, if it can be opened. -/
  fgets : CString → Option (List CString)
  expandScalar : CString → CString

/-- `FullTextMatch` -/
def EditEnv.fullTextMatch (env : EditEnv) (regexp teststring : CString) : Bool :=
  regexp = teststring || env.regExMatchFullString regexp teststring

/-- `EditLocation` -/
structure EditLocation where
  lineMatching : Option CString
  beforeAfter : CfEditOrder
  firstLast : Option CString

/-- `LineSelect` -/
structure LineSelect where
  startwithFromList : List CString
  notStartwithFromList : List CString
  matchFromList : List CString
  notMatchFromList : List CString
  containsFromList : List CString
  notContainsFromList : List CString

/-- `EditRegion` -/
structure EditRegion where
  selectStart : Option CString
  selectEnd : Option CString
  includeStart : Bool

/-- The attributes that `GetInsertionAttributes` reads. The region is there if `haveregion` is
set. -/
structure InsertionAttributes where
  location : EditLocation
  sourcetype : Option CString
  expandvars : Bool
  lineSelect : LineSelect
  insertMatch : List InsertMatch
  region : Option EditRegion
  /-- `transaction.action == cfa_warn` -/
  warn : Bool

/-- `EditContext` -/
structure EditContext where
  fileStart : List FileItem
  numEdits : Nat

/-- The file with an edit. -/
def EditContext.edit (s : EditContext) (file : List FileItem) : EditContext :=
  ⟨file, s.numEdits + 1⟩

namespace InsertionAttributes
variable (a : InsertionAttributes)

def hasSourcetype (sourcetype : String) : Bool := a.sourcetype = some sourcetype.toList

/-- The variable `preserve_block` of `InsertCompoundLineAtLocation`. -/
def preserveBlock : Bool :=
  a.hasSourcetype "preserve_block" || a.hasSourcetype "file_preserve_block"

/-- The variable `isfileinsert`. -/
def isFileInsert : Bool := a.hasSourcetype "file" || a.hasSourcetype "file_preserve_block"

end InsertionAttributes

/-- `SanityCheckInsertions` -/
def sanityCheckInsertions (a : InsertionAttributes) : Bool :=
  let given (list : List CString) : Nat := if list = [] then 0 else 1
  let with_ := given a.lineSelect.startwithFromList + given a.lineSelect.matchFromList +
    given a.lineSelect.containsFromList
  let not_ := given a.lineSelect.notStartwithFromList + given a.lineSelect.notMatchFromList +
    given a.lineSelect.notContainsFromList
  let exact_ := a.insertMatch.any (· = .exactMatch)
  let ignoreSomething := a.insertMatch.any (· ≠ .exactMatch)
  not_ ≤ 1 && !(with_ ≠ 0 && not_ ≠ 0) &&
    !(ignoreSomething && a.hasSourcetype "preserve_block") && !(exact_ && ignoreSomething)

section
variable (env : EditEnv) (a : InsertionAttributes)

/-- `SelectLine` -/
def selectLine (line : CString) : Bool :=
  let select := a.lineSelect
  if select.startwithFromList ≠ [] then
    select.startwithFromList.any fun selector => selector.isPrefixOf line
  else if select.notStartwithFromList ≠ [] then
    !select.notStartwithFromList.any fun selector => selector.isPrefixOf line
  else if select.matchFromList ≠ [] then
    select.matchFromList.any fun selector => env.fullTextMatch selector line
  else if select.notMatchFromList ≠ [] then
    !select.notMatchFromList.any fun selector => env.fullTextMatch selector line
  else if select.containsFromList ≠ [] then
    select.containsFromList.any fun selector => env.blockTextMatch selector line
  else if select.notContainsFromList ≠ [] then
    !select.notContainsFromList.any fun selector => env.blockTextMatch selector line
  else true

/-- `MatchPolicy`. No policy means `exact_match`, which counts as soon as it is first. -/
def matchPolicy (camel haystack : CString) : Bool :=
  match a.insertMatch with
  | [] | .exactMatch :: _ => camel = haystack
  | policies => env.whitespaceMatch policies camel haystack

/-- The lines that the conversion `%2048[^\n]` reads of a chunk. The character behind each of them
is skipped. -/
def readLines.loop (buf : CString) : CString → List CString
  | [] => [buf]
  | c :: sp => if c = '\n' || buf.length = 2048 then buf :: loop [] sp else loop (buf ++ [c]) sp

def readLines (chunk : CString) : List CString := readLines.loop [] chunk

/-- `InsertLineAtLocation` -/
def insertLineAtLocation (newline : CString) (s : EditContext) (location prev : ItemPtr) :
    Bool × EditContext :=
  let preserveBlock := a.hasSourcetype "preserve_block"
  let insert (file : List FileItem) : Bool × EditContext :=
    if a.warn then (true, s) else (true, s.edit file)
  if prev = .undefined && a.location.beforeAfter = .before then
    match s.fileStart with
    | [] => insert (prependItemList s.fileStart newline)
    | start :: _ =>
      if start.data ≠ newline then insert (prependItemList s.fileStart newline) else (false, s)
  else if !preserveBlock && neighbourItemMatches (matchPolicy env a) location newline
      a.location.beforeAfter s.fileStart then (false, s)
  else
    match a.location.beforeAfter with
    | .before => insert (insertItemAfter s.fileStart prev newline)
    | .after => insert (insertItemAfter s.fileStart location newline)

/-- The pointer behind a line: the next item, or the first one if there is no pointer. -/
def ItemPtr.advance (file : List FileItem) (ptr : ItemPtr) : ItemPtr :=
  match ptr with
  | .null | .undefined => startPtr file
  | .item _ => ptr.next file

/-- The loop of `InsertCompoundLineAtLocation`. A `location` is never `CF_UNDEFINED_ITEM`. -/
def insertCompoundLineAtLocation.loop (beginPtr endPtr : ItemPtr) :
    List CString → Bool → EditContext → ItemPtr → ItemPtr → Bool × EditContext
  | [], result, s, _, _ => (result, s)
  | buf :: lines, result, s, location, prev =>
    if !selectLine env a buf then loop beginPtr endPtr lines result s location prev
    else if !a.preserveBlock &&
        isItemInRegion (matchPolicy env a) s.fileStart buf beginPtr endPtr then
      loop beginPtr endPtr lines result s location prev
    else
      let (inserted, s) := insertLineAtLocation env a buf s location prev
      let location :=
        if a.preserveBlock && a.location.beforeAfter = .before && location = .null &&
            prev = .undefined then startPtr s.fileStart
        else location
      loop beginPtr endPtr lines (result || inserted) s (location.advance s.fileStart)
        (prev.advance s.fileStart)

/-- `InsertCompoundLineAtLocation` -/
def insertCompoundLineAtLocation (chunk : CString) (s : EditContext)
    (beginPtr endPtr location prev : ItemPtr) : Bool × EditContext :=
  if matchRegion env.fullTextMatch chunk s.fileStart location .null then (false, s)
  else
    insertCompoundLineAtLocation.loop env a beginPtr endPtr (readLines chunk) false s location prev

/-- The loop of `InsertFileAtLocation`, which leaves a `loc` that is `NULL`. -/
def insertFileAtLocation.loop (beginPtr endPtr : ItemPtr) :
    List CString → Bool → EditContext → ItemPtr → ItemPtr → Bool × EditContext
  | [], retval, s, _, _ => (retval, s)
  | buf :: lines, retval, s, loc, prev =>
    let exp := if a.expandvars then env.expandScalar buf else buf
    if !selectLine env a exp then loop beginPtr endPtr lines retval s loc prev
    else if !a.hasSourcetype "file_preserve_block" &&
        isItemInRegion (matchPolicy env a) s.fileStart exp beginPtr endPtr then
      loop beginPtr endPtr lines retval s loc prev
    else
      let (inserted, s) := insertCompoundLineAtLocation env a exp s beginPtr endPtr loc prev
      loop beginPtr endPtr lines (retval || inserted) s
        (if loc = .null then .null else loc.next s.fileStart) (prev.advance s.fileStart)

/-- `InsertFileAtLocation` -/
def insertFileAtLocation (promiser : CString) (s : EditContext)
    (beginPtr endPtr location prev : ItemPtr) : Bool × EditContext :=
  match env.fgets promiser with
  | none => (false, s)
  | some lines => insertFileAtLocation.loop env a beginPtr endPtr lines false s location prev

/-- `InsertMultipleLinesAtLocation` -/
def insertMultipleLinesAtLocation (promiser : CString) (s : EditContext)
    (beginPtr endPtr location prev : ItemPtr) : Bool × EditContext :=
  if a.isFileInsert then insertFileAtLocation env a promiser s beginPtr endPtr location prev
  else insertCompoundLineAtLocation env a promiser s beginPtr endPtr location prev

/-- The item `begin_ptr`, and the one before it. -/
def findRegionStart (beginPtr : ItemPtr) : ItemPtr → List FileItem → Option (ItemPtr × ItemPtr)
  | _, [] => none
  | prev, ip :: rest =>
    if .item ip.address = beginPtr then some (.item ip.address, prev)
    else findRegionStart beginPtr (.item ip.address) rest

/-- The item in front of `end_ptr`, or else the last one, and the one before it. -/
def findRegionEnd (endPtr : ItemPtr) : ItemPtr → List FileItem → Option (ItemPtr × ItemPtr)
  | _, [] => none
  | prev, ip :: rest =>
    if rest = [] || startPtr rest = endPtr then some (.item ip.address, prev)
    else findRegionEnd endPtr (.item ip.address) rest

/-- `InsertMultipleLinesToRegion` -/
def insertMultipleLinesToRegion (promiser : CString) (s : EditContext)
    (beginPtr endPtr : ItemPtr) : Bool × EditContext :=
  match s.fileStart with
  | [] => insertMultipleLinesAtLocation env a promiser s beginPtr endPtr .null .undefined
  | start :: rest =>
    let found :=
      match a.location.beforeAfter with
      | .before => findRegionStart beginPtr .undefined (start :: rest)
      | .after => findRegionEnd endPtr .undefined (start :: rest)
    match found with
    | none => (false, s)
    | some (location, prev) =>
      insertMultipleLinesAtLocation env a promiser s beginPtr endPtr location prev

/-- The loop of `SelectRegion` behind the start of the region: the end. -/
def selectRegion.findEnd (region : EditRegion) : List FileItem → ItemPtr
  | [] => .null
  | ip :: rest =>
    if region.selectEnd.any fun regexp => env.fullTextMatch regexp ip.data then .item ip.address
    else findEnd region rest

/-- The loop of `SelectRegion` up to the start of the region. -/
def selectRegion.findStart (region : EditRegion) (regexp : CString) :
    List FileItem → Option (ItemPtr × ItemPtr)
  | [] => none
  | ip :: rest =>
    if env.fullTextMatch regexp ip.data then
      if !region.includeStart && rest = [] then none
      else some (.item ip.address, selectRegion.findEnd env region rest)
    else findStart region regexp rest

/-- `SelectRegion`: the first item of the region, and the one that ends it. -/
def selectRegion (region : EditRegion) (start : List FileItem) : Option (ItemPtr × ItemPtr) :=
  match region.selectStart with
  | none => some (.undefined, .null)
  | some regexp => selectRegion.findStart env region regexp start

/-- `VerifyLineInsertions` -/
def verifyLineInsertions (promiser : CString) (s : EditContext) : EditContext :=
  if !sanityCheckInsertions a then s
  else
    let selected :=
      match a.region with
      | none => some (startPtr s.fileStart, .null)
      | some region => selectRegion env region s.fileStart
    match selected with
    | none => s
    | some (beginPtr, endPtr) =>
      let result :=
        match a.location.lineMatching with
        | none => insertMultipleLinesToRegion env a promiser s beginPtr endPtr
        | some regex =>
          match selectItemMatching env.fullTextMatch s.fileStart regex beginPtr endPtr
              a.location.firstLast with
          | none => (false, s)
          | some (found, prev) =>
            insertMultipleLinesAtLocation env a promiser s beginPtr endPtr found prev
      if result.1 then { result.2 with numEdits := result.2.numEdits + 1 } else result.2

/-- The items of a file that is loaded. -/
def loadFileAsItemList (lines : List CString) : List FileItem :=
  lines.mapIdx fun i name => ⟨i, name⟩

/-- The lines of a file that is loaded and edited, and the number of edits. -/
def editFile (promiser : CString) (lines : List CString) : List CString × Nat :=
  let s := verifyLineInsertions env a promiser ⟨loadFileAsItemList lines, 0⟩
  (contents s.fileStart, s.numEdits)

end

end Cfengine
