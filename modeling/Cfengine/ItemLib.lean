import Cfengine.Defs
import Cfengine.Theory.LinkedList

/-!
# Lists of lines (`item_lib.c`)

A file is a linked list of its lines. The pointers of the code are to items of that list, so a
function that follows a pointer takes the list too.
-/

namespace Cfengine
open LinkedList

/-- `Item`, a line of a file. -/
abbrev FileItem := Node CString

/-- `Item *` -/
inductive ItemPtr where
  /-- `NULL` -/
  | null
  /-- `CF_UNDEFINED_ITEM`, which is not followed. -/
  | undefined
  | item (address : Nat)
deriving DecidableEq

/-- `enum cfeditorder` -/
inductive CfEditOrder where
  | before | after
deriving DecidableEq

/-- The pointer to the first item. -/
def startPtr : List FileItem → ItemPtr
  | [] => .null
  | ip :: _ => .item ip.address

/-- The items from a pointer on. -/
def ItemPtr.items (file : List FileItem) : ItemPtr → List FileItem
  | .null | .undefined => []
  | .item address => nodesFrom file address

/-- `ptr->next` -/
def ItemPtr.next (file : List FileItem) (ptr : ItemPtr) : ItemPtr := startPtr (ptr.items file).tail

/-- `PrependItemList` -/
def prependItemList (liststart : List FileItem) (itemstring : CString) : List FileItem :=
  ⟨fresh liststart, itemstring⟩ :: liststart

/-- `AppendItem` -/
def appendItem (liststart : List FileItem) (itemstring : CString) : List FileItem :=
  liststart ++ [⟨fresh liststart, itemstring⟩]

/-- `InsertAfter` -/
def insertItemAfter (filestart : List FileItem) (ptr : ItemPtr) (string : CString) :
    List FileItem :=
  match ptr with
  | .null | .undefined => appendItem filestart string
  | .item address => insertAfter filestart address string

section
variable (matchPolicy : CString → CString → Bool)

/-- `IsItemInRegion` -/
def isItemInRegion (file : List FileItem) (item : CString) (beginPtr endPtr : ItemPtr) : Bool :=
  ((beginPtr.items file).takeWhile fun ip => .item ip.address ≠ endPtr).any fun ip =>
    matchPolicy item ip.data

/-- `NeighbourItemMatches` -/
def neighbourItemMatches (location : ItemPtr) (string : CString) (pos : CfEditOrder) :
    List FileItem → Bool
  | [] => false
  | ip :: rest =>
    match pos with
    | .before =>
      if rest ≠ [] && startPtr rest = location then matchPolicy string ip.data
      else neighbourItemMatches location string pos rest
    | .after =>
      if .item ip.address = location then rest.head?.any fun next => matchPolicy string next.data
      else neighbourItemMatches location string pos rest

end

section
variable (fullTextMatch : CString → CString → Bool)

/-- The loop of `MatchRegion` over the lines of the chunk, which `sscanf` reads up to the next line
end. -/
def matchRegion.loop (endPtr : ItemPtr) : List CString → List FileItem → Bool
  | [], _ => true
  | _ :: _, [] => false
  | buf :: lines, ip :: rest =>
    fullTextMatch buf ip.data && .item ip.address ≠ endPtr && loop endPtr lines rest

/-- `MatchRegion`, for a chunk whose lines are shorter than `CF_BUFSIZE`: `sscanf` reads them into a
buffer of that size without a limit. -/
def matchRegion (chunk : CString) (file : List FileItem) (beginPtr endPtr : ItemPtr) : Bool :=
  matchRegion.loop fullTextMatch endPtr (chunk.splitOn '\n') (beginPtr.items file)

/-- The loop of `SelectNextItemMatching`, which finds the item and the one before it. -/
def selectNextItemMatching (regexp : CString) : ItemPtr → List FileItem → Option (ItemPtr × ItemPtr)
  | _, [] => none
  | ipPrev, ip :: rest =>
    if fullTextMatch regexp ip.data then some (.item ip.address, ipPrev)
    else selectNextItemMatching regexp (.item ip.address) rest

/-- The loop of `SelectLastItemMatching`. -/
def selectLastItemMatching (regexp : CString) : ItemPtr → List FileItem → Option (ItemPtr × ItemPtr)
  | _, [] => none
  | ipPrev, ip :: rest =>
    match selectLastItemMatching regexp (.item ip.address) rest with
    | some found => some found
    | none => if fullTextMatch regexp ip.data then some (.item ip.address, ipPrev) else none

/-- The item in front of an address, if there is one. -/
def itemBefore (file : List FileItem) (address : Nat) : ItemPtr :=
  ((nodesBefore file address).getLast?.map fun ip => ItemPtr.item ip.address).getD .undefined

/-- `SelectItemMatching`: the item and the one before it. -/
def selectItemMatching (start : List FileItem) (regex : CString) (beginPtr endPtr : ItemPtr)
    (fl : Option CString) : Option (ItemPtr × ItemPtr) :=
  let items := (beginPtr.items start).takeWhile fun ip => .item ip.address ≠ endPtr
  let found :=
    if fl = some "first".toList then selectNextItemMatching fullTextMatch regex .undefined items
    else selectLastItemMatching fullTextMatch regex .undefined items
  match found with
  | some (.item address, .undefined) => some (.item address, itemBefore start address)
  | found => found

end

end Cfengine
