import Mathlib

/-!
# Shared data types and limits

The data types of `cf3.defs.h` that the models below share. A C string is the list of its
characters before the terminating NUL, so `strcmp(a, b) == 0` is equality and `strlen` is
`List.length`. Fixed-size buffers appear through their sizes.
-/

namespace Cfengine

/-- A NUL-terminated string, without the NUL. -/
abbrev CString := List Char

/-- `CF_HASHTABLESIZE` -/
def cfHashTableSize : Nat := 8192

/-- `CF_MAXVARSIZE` -/
def cfMaxVarSize : Nat := 1024

/-- `CF_BUFSIZE` -/
def cfBufSize : Nat := 4096

/-- `CF_EXPANDSIZE` -/
def cfExpandSize : Nat := 2 * cfBufSize

/-- `CF_BUFFERMARGIN` -/
def cfBufferMargin : Nat := 128

/-- `CF_NULL_VALUE` -/
def cfNullValue : CString := "cf_null".toList

/-- `isspace` in the C locale. -/
def isspace (c : Char) : Bool := c = ' ' || '\t' ≤ c && c ≤ '\r'

/-- What C leaves undefined. -/
inductive Fault where
  /-- A write behind the end of a buffer. -/
  | bufferOverflow
  /-- A read behind the end of a string or an array. -/
  | outOfBounds
  | divideByZero
  | doubleFree
  /-- A shift by a negative amount, or by the width of the type or more. -/
  | badShift
  /-- A value that its signed type does not have. -/
  | intOverflow
deriving DecidableEq, Repr

/-- `enum cfdatatype` -/
inductive CfDataType where
  | str | int | real | slist | ilist | rlist | opts | olist
  | body | bundle | «class» | clist | irange | rrange | counter | notype
deriving DecidableEq, Repr

/-- `Rval`, an item with its type tag. The `next` chain of an `Rlist` is a Lean list, and the
empty list is the `NULL` list. -/
inductive Rval where
  /-- `CF_SCALAR` -/
  | scalar (item : CString)
  /-- `CF_LIST` -/
  | list (item : List Rval)
  /-- `CF_FNCALL` -/
  | fncall (name : CString) (args : List Rval)
deriving Repr

/-- `CfAssoc`, a named and typed value. -/
structure CfAssoc where
  lval : CString
  rval : Rval
  dtype : CfDataType
deriving Repr

/-- The brackets of a variable reference. -/
inductive Bracket where
  | paren | brace
deriving DecidableEq

namespace Bracket

def opening : Bracket → Char
  | paren => '('
  | brace => '{'

def closing : Bracket → Char
  | paren => ')'
  | brace => '}'

end Bracket

/-- `GetVariable` in a fixed state and scope; `none` is `cf_notype`. -/
abbrev VarLookup := CString → Option (Rval × CfDataType)

end Cfengine
