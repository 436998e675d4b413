import Cfengine.Defs
import Cfengine.Theory.Probing

/-!
# The variable store (`hashes.c`)

`AssocHashTable` keeps up to `TINY_LIMIT` associations in an array that is searched linearly, and
is then converted, once, into an open-addressing table of `CF_HASHTABLESIZE` buckets. A bucket is
a `Probing.Slot`: `free` is `NULL` and `deleted` is `HASH_ENTRY_DELETED`, which every search
respects and no operation writes.

`NewAssoc` stores a private copy of the value; the copy depends on the variables in scope
(`CopyRvalItem` in `rlist.c`), so it is an argument of the insertion.
-/

namespace Cfengine
open Probing

/-- `TINY_LIMIT` -/
def tinyLimit : Nat := 14

/-- `AssocArray`: the used prefix of the array. No name is in it twice. -/
structure AssocArray where
  values : List CfAssoc
  size_le : values.length ≤ tinyLimit
  nodup : (values.map CfAssoc.lval).Nodup

inductive AssocHashTable where
  | tiny (array : AssocArray)
  | huge (buckets : Table CfAssoc)

def hashInit : AssocHashTable := .tiny ⟨[], Nat.zero_le _, List.nodup_nil⟩

/-- `OatHash`, which `GetHash` returns. -/
def oatHash (key : CString) : Fin cfHashTableSize :=
  let h : UInt32 := key.foldl (fun h c =>
    let h := h + c.toUInt8.toUInt32
    let h := h + (h <<< 10)
    h ^^^ (h >>> 6)) 0
  let h := h + (h <<< 3)
  let h := h ^^^ (h >>> 11)
  let h := h + (h <<< 15)
  ⟨(h &&& 8191).toNat, by
    rw [UInt32.toNat_and]
    exact Nat.lt_succ_of_le Nat.and_le_right⟩

def newAssoc (copyRvalItem : Rval → Rval) (lval : CString) (rval : Rval) (dt : CfDataType) :
    CfAssoc :=
  { lval, rval := copyRvalItem rval, dtype := dt }

theorem nodup_lval_concat {values : List CfAssoc} {a : CfAssoc}
    (h : (values.map CfAssoc.lval).Nodup) (hnew : ¬ values.any (fun b => b.lval = a.lval)) :
    ((values ++ [a]).map CfAssoc.lval).Nodup := by
  rw [List.map_append, List.map_singleton, List.nodup_append_comm, List.singleton_append,
    List.nodup_cons]
  refine ⟨fun hin => hnew ?_, h⟩
  obtain ⟨b, hb, hname⟩ := List.mem_map.mp hin
  exact List.any_eq_true.mpr ⟨b, hb, decide_eq_true hname⟩

section
variable (getHash : CString → Fin cfHashTableSize)

/-! ## Insertion -/

/-- The loop of `HashConvertToHuge` for one association. It ends at the first `NULL` bucket, which
is met within one round because at most `TINY_LIMIT` buckets are taken. -/
def hashConvertToHuge.place (assoc : CfAssoc) (buckets : Table CfAssoc) :
    Nat → Nat → Table CfAssoc
  | 0, _ => buckets
  | k + 1, bucket =>
    match buckets bucket with
    | .free => Function.update buckets bucket (.entry assoc)
    | _ => place assoc buckets k ((bucket + 1) % cfHashTableSize)

def hashConvertToHuge (array : AssocArray) : Table CfAssoc :=
  array.values.foldl (fun buckets assoc =>
    hashConvertToHuge.place assoc buckets cfHashTableSize (getHash assoc.lval)) fun _ => .free

/-- The `do ... while (i != bucket)` loop of `HugeHashInsertElement`: one round of the table. -/
def hugeHashInsertElement.loop (assoc : CfAssoc) (buckets : Table CfAssoc) :
    Nat → Nat → Bool × Table CfAssoc
  | 0, _ => (false, buckets)
  | k + 1, i =>
    match buckets i with
    | .free | .deleted => (true, Function.update buckets i (.entry assoc))
    | .entry a =>
      if assoc.lval = a.lval then (false, buckets)
      else loop assoc buckets k ((i + 1) % cfHashTableSize)

def hugeHashInsertElement (copyRvalItem : Rval → Rval) (buckets : Table CfAssoc)
    (element : CString) (rval : Rval) (dtype : CfDataType) : Bool × Table CfAssoc :=
  hugeHashInsertElement.loop (newAssoc copyRvalItem element rval dtype) buckets cfHashTableSize
    (getHash element)

def tinyHashInsertElement (copyRvalItem : Rval → Rval) (array : AssocArray)
    (element : CString) (rval : Rval) (dtype : CfDataType) : Bool × AssocHashTable :=
  if hsize : array.values.length = tinyLimit then
    let (ok, buckets) :=
      hugeHashInsertElement getHash copyRvalItem (hashConvertToHuge getHash array)
        element rval dtype
    (ok, .huge buckets)
  else if hnew : array.values.any (fun a => a.lval = element) then
    (false, .tiny array)
  else
    (true, .tiny
      { values := array.values ++ [newAssoc copyRvalItem element rval dtype]
        nodup := nodup_lval_concat array.nodup hnew
        size_le := by
          have := array.size_le
          rw [List.length_append, List.length_singleton]
          omega })

def hashInsertElement (copyRvalItem : Rval → Rval) :
    AssocHashTable → CString → Rval → CfDataType → Bool × AssocHashTable
  | .huge buckets, element, rval, dtype =>
    let (ok, buckets) := hugeHashInsertElement getHash copyRvalItem buckets element rval dtype
    (ok, .huge buckets)
  | .tiny array, element, rval, dtype =>
    tinyHashInsertElement getHash copyRvalItem array element rval dtype

/-! ## Deletion -/

/-- The loop of `HugeHashDeleteElement`. The bucket of the element is set to `NULL`. -/
def hugeHashDeleteElement.loop (element : CString) (buckets : Table CfAssoc) :
    Nat → Nat → Bool × Table CfAssoc
  | 0, _ => (false, buckets)
  | k + 1, i =>
    match buckets i with
    | .free => (false, buckets)
    | .deleted => loop element buckets k ((i + 1) % cfHashTableSize)
    | .entry a =>
      if element = a.lval then (true, Function.update buckets i .free)
      else loop element buckets k ((i + 1) % cfHashTableSize)

def hugeHashDeleteElement (buckets : Table CfAssoc) (element : CString) : Bool × Table CfAssoc :=
  hugeHashDeleteElement.loop element buckets cfHashTableSize (getHash element)

/-- The loop of `TinyHashDeleteElement` stops at the first match and moves the associations after
it down by one. -/
def tinyHashDeleteElement (array : AssocArray) (element : CString) : Bool × AssocArray :=
  if array.values.any (fun a => a.lval = element) then
    (true,
      { values := array.values.eraseP (fun a => a.lval = element)
        size_le := Nat.le_trans List.length_eraseP_le array.size_le
        nodup := array.nodup.sublist (List.eraseP_sublist.map _) })
  else (false, array)

def hashDeleteElement : AssocHashTable → CString → Bool × AssocHashTable
  | .huge buckets, element =>
    let (ok, buckets) := hugeHashDeleteElement getHash buckets element
    (ok, .huge buckets)
  | .tiny array, element =>
    let (ok, array) := tinyHashDeleteElement array element
    (ok, .tiny array)

/-! ## Lookup -/

/-- The loop of `HugeHashLookupElement`. -/
def hugeHashLookupElement.loop (element : CString) (buckets : Table CfAssoc) :
    Nat → Nat → Option CfAssoc
  | 0, _ => none
  | k + 1, i =>
    match buckets i with
    | .free => none
    | .deleted => loop element buckets k ((i + 1) % cfHashTableSize)
    | .entry a =>
      if element = a.lval then some a
      else loop element buckets k ((i + 1) % cfHashTableSize)

def hugeHashLookupElement (buckets : Table CfAssoc) (element : CString) : Option CfAssoc :=
  hugeHashLookupElement.loop element buckets cfHashTableSize (getHash element)

def tinyHashLookupElement (array : AssocArray) (element : CString) : Option CfAssoc :=
  array.values.find? (fun a => a.lval = element)

def hashLookupElement : AssocHashTable → CString → Option CfAssoc
  | .huge buckets, element => hugeHashLookupElement getHash buckets element
  | .tiny array, element => tinyHashLookupElement array element

end

/-! ## Iteration -/

structure HashIterator where
  hashtable : AssocHashTable
  pos : Nat

def hashIteratorInit (hashtable : AssocHashTable) : HashIterator := { hashtable, pos := 0 }

/-- The `for` loop of `HugeHashIteratorNext`, which skips the empty and the deleted buckets. -/
def hugeHashIteratorNext.skip (buckets : Table CfAssoc) : Nat → Nat → Nat
  | 0, pos => pos
  | k + 1, pos =>
    match buckets pos with
    | .entry _ => pos
    | _ => skip buckets k (pos + 1)

def hugeHashIteratorNext (buckets : Table CfAssoc) (pos : Nat) : Option CfAssoc × Nat :=
  let pos := hugeHashIteratorNext.skip buckets (cfHashTableSize - pos) pos
  if pos = cfHashTableSize then (none, pos)
  else
    match buckets pos with
    | .entry a => (some a, pos + 1)
    | _ => (none, pos + 1)

def tinyHashIteratorNext (array : AssocArray) (pos : Nat) : Option CfAssoc × Nat :=
  match array.values[pos]? with
  | none => (none, pos)
  | some a => (some a, pos + 1)

def hashIteratorNext (i : HashIterator) : Option CfAssoc × HashIterator :=
  let (a, pos) :=
    match i.hashtable with
    | .huge buckets => hugeHashIteratorNext buckets i.pos
    | .tiny array => tinyHashIteratorNext array i.pos
  (a, { i with pos })

/-- `while ((assoc = HashIteratorNext(&i)))` sees the associations `l` and ends. -/
inductive HashIterator.Yields : HashIterator → List CfAssoc → Prop
  | done {i i'} : hashIteratorNext i = (none, i') → Yields i []
  | next {i i' a l} : hashIteratorNext i = (some a, i') → Yields i' l → Yields i (a :: l)

end Cfengine
