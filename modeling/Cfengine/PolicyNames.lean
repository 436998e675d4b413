import Cfengine.Promises

/-!
# Qualified names (`promises.c`, `install.c`)

How `IsBody` and `IsBundle` find a body or a bundle, with the buffer that they make its qualified
name in.
-/

namespace Cfengine

/-- What is read of a `Bundle`. -/
structure Bundle where
  name : CString
  «namespace» : CString

namespace Policy

def defaultNamespace : CString := "default".toList

/-- `strcpy` to a buffer of `CF_BUFSIZE` -/
def copyName (s : CString) : Except Fault CString :=
  if s.length < cfBufSize then .ok s else .error .bufferOverflow

/-- The key behind `default:`, or the key. -/
def stripDefault (key : CString) : CString :=
  if "default:".toList.isPrefixOf key then key.drop "default:".length else key

/-- The name in the namespace, as `snprintf` with the size `CF_BUFSIZE - 1` writes it. -/
def printName (ns key : CString) : CString := (ns ++ ':' :: key).take (cfBufSize - 2)

/-- What `IsBody` compares the names with. -/
def bodyKey (ns key : CString) : Except Fault CString :=
  if key.any (· = ':') || ns = defaultNamespace then copyName (stripDefault key)
  else .ok (printName ns key)

/-- `IsBody` -/
def isBody (list : List Body) (ns key : CString) : Except Fault (Option Body) :=
  match list with
  | [] => .ok none
  | bp :: list => do
    let fqname ← bodyKey ns key
    if bp.name = fqname then return some bp else isBody list ns key

/-- What `IsBundle` compares the name of a bundle in the namespace with. -/
def bundleKey (ns key : CString) : Except Fault CString :=
  if ns = defaultNamespace then copyName (stripDefault key)
  else if ns.isPrefixOf key then copyName key
  else .ok (printName ns key)

/-- `IsBundle` -/
def isBundle (list : List Bundle) (key : CString) : Except Fault (Option Bundle) :=
  match list with
  | [] => .ok none
  | bp :: list => do
    let fqname ← bundleKey bp.namespace key
    if bp.name = fqname then return some bp else isBundle list key

end Policy

end Cfengine
