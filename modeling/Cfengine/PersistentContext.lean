import Cfengine.Defs

/-!
# Persistent classes (`env_context.c`)

The state database has the persistent classes by their qualified names. `LoadPersistentContext` is
modelled by the calls of `NewClass` that it makes.
-/

namespace Cfengine

/-- `enum statepolicy` -/
inductive StatePolicy where
  | cfreset | cfpreserve
deriving DecidableEq

/-- `CfState`. The time is an `unsigned int`. -/
structure CfState where
  expires : Nat
  policy : StatePolicy
deriving DecidableEq

/-- The state database, in the order of a cursor. -/
abbrev StateDb := AList fun _ : CString => CfState

/-- What fits in an `unsigned int`. -/
def toUnsigned (n : Nat) : Nat := n % 4294967296

/-- The key of a class, in the buffer `name` of `NewPersistentContext`. -/
def persistentName («namespace» unqualifiedname : CString) : CString :=
  («namespace» ++ ':' :: unqualifiedname).take (cfBufSize - 1)

/-- `NewPersistentContext` leaves the entry as it is. -/
def isPreserved (now : Nat) : Option CfState → Bool
  | some state => state.policy = .cfpreserve && now < state.expires
  | none => false

/-- `NewPersistentContext` -/
def newPersistentContext (now : Nat) (unqualifiedname «namespace» : CString) (ttlMinutes : Nat)
    (policy : StatePolicy) (dbp : StateDb) : StateDb :=
  let name := persistentName «namespace» unqualifiedname
  if isPreserved now (dbp.lookup name) then dbp
  else dbp.insert name ⟨toUnsigned (now + toUnsigned (ttlMinutes * 60)), policy⟩

/-- `DeletePersistentContext` -/
def deletePersistentContext (name : CString) (dbp : StateDb) : StateDb := dbp.erase name

/-- The arguments of `NewClass` for a key: the name and the namespace. -/
def persistentClass (key : CString) : CString × Option CString :=
  if ':' ∈ key then
    -- `sscanf(key, "%[^:]:%[^\n]", namespace, name)`, with both of them empty before
    match key.takeWhile (· ≠ ':') with
    | [] => ([], some [])
    | c :: «namespace» =>
      ((key.drop («namespace».length + 2)).takeWhile (· ≠ '\n'), some (c :: «namespace»))
  else (key, none)

/-- The loop of `LoadPersistentContext`, with the entries that the cursor has in front of it. -/
def loadPersistentContext.loop (now : Nat) :
    List (Sigma fun _ : CString => CfState) → StateDb → List (CString × Option CString) × StateDb
  | [], dbp => ([], dbp)
  | ⟨key, q⟩ :: entries, dbp =>
    if now > q.expires then loop now entries (dbp.erase key)
    else
      let (classes, dbp) := loop now entries dbp
      (persistentClass key :: classes, dbp)

/-- `LoadPersistentContext`: the arguments of its calls of `NewClass`, and the database behind
it. -/
def loadPersistentContext (now : Nat) (dbp : StateDb) :
    List (CString × Option CString) × StateDb :=
  loadPersistentContext.loop now dbp.entries dbp

/-! ## Histories -/

/-- A call that uses the database, and when it is made. -/
inductive PersistentCall where
  | newPersistentContext (now : Nat) (unqualifiedname «namespace» : CString) (ttlMinutes : Nat)
      (policy : StatePolicy)
  | loadPersistentContext (now : Nat)

def PersistentCall.now : PersistentCall → Nat
  | .newPersistentContext now _ _ _ _ => now
  | .loadPersistentContext now => now

def PersistentCall.run (dbp : StateDb) : PersistentCall → StateDb
  | .newPersistentContext now unqualifiedname «namespace» ttlMinutes policy =>
    Cfengine.newPersistentContext now unqualifiedname «namespace» ttlMinutes policy dbp
  | .loadPersistentContext now => (Cfengine.loadPersistentContext now dbp).2

end Cfengine
