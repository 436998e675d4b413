import Cfengine.Defs

/-!
# Sorting linked lists (`sort.c`)

`Sort` on the links of the elements: a `NULL` pointer is `none`. It gives `none` where C does not
say what happens (a `NULL` element, an `int` that overflows), and where the fuel does not suffice.
-/

namespace Cfengine

/-- `INT_MAX` -/
def intMax : Nat := 2 ^ 31 - 1

/-- The links of the elements, with the merged list. -/
structure Links (α : Type*) where
  next : α → Option α
  list : Option α
  tail : Option α

variable {α : Type*} [DecidableEq α]

/-- An element is added to the merged list. -/
def Links.add (s : Links α) (e : α) : Links α :=
  match s.tail with
  | some tail => { s with next := Function.update s.next tail (some e), tail := some e }
  | none => { s with list := some e, tail := some e }

omit [DecidableEq α] in
/-- `insize` places along from `q`, with `psize`. -/
def sortList.advance (next : α → Option α) : Nat → α → Nat × Option α
  | 0, q => (0, some q)
  | i + 1, q =>
    match next q with
    | none => (1, none)
    | some q =>
      let (psize, q) := advance next i q
      (psize + 1, q)

variable (less : α → α → Bool)

/-- The merge of two lists. -/
def sortList.merge (s : Links α) (psize qsize : Nat) (p q : Option α) :
    Option (Links α × Option α) :=
  if 0 < psize ∨ 0 < qsize ∧ q ≠ none then
    if psize = 0 then do
      let e ← q
      merge (s.add e) psize (qsize - 1) p (s.next e)
    else if qsize = 0 ∨ q = none then do
      let e ← p
      merge (s.add e) (psize - 1) qsize (s.next e) q
    else do
      let first ← p
      let second ← q
      if less first second then merge (s.add first) (psize - 1) qsize (s.next first) q
      else merge (s.add second) psize (qsize - 1) p (s.next second)
  else some (s, q)
termination_by psize + qsize

/-- A pass, with the number of merges. -/
def sortList.pass (insize : Nat) : Nat → Links α → Nat → Option α → Option (Links α × Nat)
  | _, s, nmerges, none => some (s, nmerges)
  | 0, _, _, some _ => none
  | fuel + 1, s, nmerges, some p =>
    if nmerges = intMax then none
    else do
      let (psize, q) := sortList.advance s.next insize p
      let (s, q) ← sortList.merge less s psize insize (some p) q
      pass insize fuel s (nmerges + 1) q

/-- The passes. -/
def sortList.loop : Nat → Nat → (α → Option α) → Option α → Option ((α → Option α) × Option α)
  | 0, _, _, _ => none
  | fuel + 1, insize, next, list => do
    let (s, nmerges) ← sortList.pass less insize fuel ⟨next, none, none⟩ 0 list
    let tail ← s.tail
    let next := Function.update s.next tail none
    if nmerges ≤ 1 then return (next, s.list)
    if intMax < insize * 2 then none
    else loop fuel (insize * 2) next s.list

/-- `Sort` -/
def sortList (fuel : Nat) (next : α → Option α) (list : Option α) :
    Option ((α → Option α) × Option α) :=
  match list with
  | none => some (next, none)
  | some list => sortList.loop less fuel 1 next (some list)

end Cfengine
