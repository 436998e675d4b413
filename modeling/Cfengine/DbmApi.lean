import Cfengine.Defs

/-!
# Databases (`dbm_api.c`)

A key is the bytes of a string with the NUL at its end.
-/

namespace Cfengine

/-- `DBHandle`: the values by their keys. -/
abbrev DBHandle := List Char → Option (List Char)

/-- `ReadDB`: the bytes that are copied to a buffer of `destSz` bytes. -/
def readDB (db : DBHandle) (key : CString) (destSz : Nat) : Option (List Char) :=
  (db (key ++ ['\x00'])).map (·.take destSz)

/-- `WriteDB` -/
def writeDB (db : DBHandle) (key : CString) (src : List Char) : DBHandle :=
  Function.update db (key ++ ['\x00']) (some src)

/-- `DeleteDB`, for a key that is a string. -/
def deleteDB (dbp : DBHandle) (key : CString) : DBHandle :=
  Function.update dbp (key ++ ['\x00']) none

/-- The string at the start of a buffer. -/
def bufferText (buffer : List Char) : CString := buffer.takeWhile (· ≠ '\x00')

theorem bufferText_append {text : CString} {rest : List Char} (h : '\x00' ∉ text) :
    bufferText (text ++ '\x00' :: rest) = text := by
  rw [bufferText, List.takeWhile_append_of_pos]
  · rw [List.takeWhile_cons_of_neg (by decide), List.append_nil]
  · intro c hc
    exact decide_eq_true fun heq => h (heq ▸ hc)

end Cfengine
