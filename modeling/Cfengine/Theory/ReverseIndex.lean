import Mathlib.Logic.Function.Basic
import Mathlib.Data.List.Infix
import Cfengine.Theory.Histories
import Cfengine.Theory.Runs

/-!
# A map with a reverse map beside it

Each host has the address at which it was last seen, and each address the host that was last seen
there. A host that moves leaves its old reverse entry behind, so a lookup of an address trusts the
reverse entry only if the host is still there, and drops it otherwise. The lookup is exact
(`Exact.resolve_eq_some`) as long as no host is forgotten whose address is another's by now.
-/

namespace ReverseIndex
open Runs Histories

/-- The address of each host, and the host of each address. -/
structure Index (H A : Type*) where
  address : H → Option A
  host : A → Option H

inductive Op (H A : Type*) where
  | see (h : H) (a : A)
  | forget (h : H)
  | lookup (a : A)

namespace Index

section
variable {H A : Type*} [DecidableEq A]

def empty : Index H A := ⟨fun _ => none, fun _ => none⟩

/-- The host that is at an address, by both maps. -/
def resolve (s : Index H A) (a : A) : Option H :=
  (s.host a).filter fun h => s.address h = some a

/-- A lookup drops a reverse entry that the address of its host does not bear out. -/
def lookup (s : Index H A) (a : A) : Index H A :=
  if s.resolve a = none then { s with host := Function.update s.host a none } else s

variable {s : Index H A} {h : H} {a a' : A}

theorem resolve_eq_some : s.resolve a = some h ↔ s.host a = some h ∧ s.address h = some a := by
  rw [resolve, Option.filter_eq_some_iff, decide_eq_true_eq]

theorem lookup_address : (s.lookup a).address = s.address := by
  rw [lookup]
  split
  · rfl
  · rfl

theorem lookup_host :
    (s.lookup a).host a' = if a' = a ∧ s.resolve a = none then none else s.host a' := by
  rw [lookup]
  by_cases hnone : s.resolve a = none
  · simp [hnone, Function.update_apply]
  · simp [hnone]

end

section
variable {H A : Type*} [DecidableEq H] [DecidableEq A]

def see (s : Index H A) (h : H) (a : A) : Index H A :=
  ⟨Function.update s.address h (some a), Function.update s.host a (some h)⟩

/-- The reverse entry of the host's address goes with the host, whoever it belongs to. -/
def forget (s : Index H A) (h : H) : Index H A where
  address := Function.update s.address h none
  host := fun a => if s.address h = some a then none else s.host a

def step (s : Index H A) : Op H A → Index H A
  | .see h a => s.see h a
  | .forget h => s.forget h
  | .lookup a => s.lookup a

variable {s : Index H A} {h h' : H} {a a' : A}

theorem see_address :
    (s.see h a).address h' = if h' = h then some a else s.address h' :=
  Function.update_apply ..

theorem see_host : (s.see h a).host a' = if a' = a then some h else s.host a' :=
  Function.update_apply ..

theorem forget_address : (s.forget h).address h' = if h' = h then none else s.address h' :=
  Function.update_apply ..

theorem forget_host : (s.forget h).host a = if s.address h = some a then none else s.host a := rfl

end

end Index

section
variable {H A : Type*}

/-- The operation sets the address of the host. -/
def Op.Moves (h : H) : Op H A → Prop
  | .see h' _ => h' = h
  | .forget h' => h' = h
  | .lookup _ => False

/-- The operation names the address as that of a host. -/
def Op.Names (a : A) : Op H A → Prop
  | .see _ a' => a' = a
  | .forget _ | .lookup _ => False

/-- In the history `h` was last seen at `a`, and not forgotten since. -/
def LastOf (ops : List (Op H A)) (h : H) (a : A) : Prop := Last (Op.Moves h) (.see h a) ops

/-- In the history `h` is the last host that was seen at `a`. -/
def LastAt (ops : List (Op H A)) (a : A) (h : H) : Prop := Last (Op.Names a) (.see h a) ops

variable {ops : List (Op H A)} {h h' : H} {a a' : A}

theorem lastOf_see : LastOf (ops ++ [.see h' a']) h a ↔
    h' = h ∧ a' = a ∨ h' ≠ h ∧ LastOf ops h a := by
  rw [LastOf, last_concat, Op.see.injEq, and_comm (b := ¬ Op.Moves h (.see h' a'))]
  rfl

theorem lastOf_forget : LastOf (ops ++ [.forget h']) h a ↔ h' ≠ h ∧ LastOf ops h a := by
  rw [LastOf, last_concat]
  exact ⟨fun hlast => ⟨(hlast.resolve_left nofun).2, (hlast.resolve_left nofun).1⟩,
    fun ⟨hne, hlast⟩ => .inr ⟨hlast, hne⟩⟩

theorem lastOf_lookup : LastOf (ops ++ [.lookup a']) h a ↔ LastOf ops h a := by
  rw [LastOf, last_concat]
  exact ⟨fun hlast => (hlast.resolve_left nofun).1, fun hlast => .inr ⟨hlast, not_false⟩⟩

theorem lastAt_see : LastAt (ops ++ [.see h' a']) a h ↔
    h' = h ∧ a' = a ∨ a' ≠ a ∧ LastAt ops a h := by
  rw [LastAt, last_concat, Op.see.injEq, and_comm (b := ¬ Op.Names a (.see h' a'))]
  rfl

theorem lastAt_forget : LastAt (ops ++ [.forget h']) a h ↔ LastAt ops a h := by
  rw [LastAt, last_concat]
  exact ⟨fun hlast => (hlast.resolve_left nofun).1, fun hlast => .inr ⟨hlast, not_false⟩⟩

theorem lastAt_lookup : LastAt (ops ++ [.lookup a']) a h ↔ LastAt ops a h := by
  rw [LastAt, last_concat]
  exact ⟨fun hlast => (hlast.resolve_left nofun).1, fun hlast => .inr ⟨hlast, not_false⟩⟩

end

/-! ## Exactness -/

section
variable {H A : Type*} {s : Index H A} {op : Op H A} {ops : List (Op H A)} {h : H} {a : A}

/-- What the two maps hold behind a history. A reverse entry may be missing, but not that of an
address whose last host is still there. -/
structure Exact (ops : List (Op H A)) (s : Index H A) : Prop where
  address : ∀ {h a}, s.address h = some a ↔ LastOf ops h a
  host : ∀ {h a}, s.host a = some h → LastAt ops a h
  resolves : ∀ {h a}, LastAt ops a h → LastOf ops h a → s.host a = some h

theorem Exact.empty : Exact [] (Index.empty : Index H A) where
  address := ⟨nofun, fun h => absurd h not_last_nil⟩
  host := nofun
  resolves := fun h => absurd h not_last_nil

variable [DecidableEq A]

/-- A lookup finds the host that was last seen at the address, if it was last seen there. -/
theorem Exact.resolve_eq_some (hs : Exact ops s) :
    s.resolve a = some h ↔ LastAt ops a h ∧ LastOf ops h a := by
  rw [Index.resolve_eq_some, hs.address]
  exact ⟨fun ⟨hhost, hlast⟩ => ⟨hs.host hhost, hlast⟩,
    fun ⟨hat, hlast⟩ => ⟨hs.resolves hat hlast, hlast⟩⟩

theorem Exact.lookup (hs : Exact ops s) : Exact (ops ++ [.lookup a]) (s.lookup a) where
  address := by
    intro h' a'
    rw [lastOf_lookup, ← hs.address, Index.lookup_address]
  host := by
    intro h' a' hhost
    rw [lastAt_lookup]
    rw [Index.lookup_host] at hhost
    split at hhost
    · cases hhost
    · exact hs.host hhost
  resolves := by
    intro h' a' hat hof
    rw [lastAt_lookup] at hat
    rw [lastOf_lookup] at hof
    rw [Index.lookup_host, if_neg]
    · exact hs.resolves hat hof
    · intro ⟨heq, hnone⟩
      rw [← heq, hs.resolve_eq_some.mpr ⟨hat, hof⟩] at hnone
      cases hnone

variable [DecidableEq H]

/-- A host is not forgotten while its address is another's. -/
def Separate (s : Index H A) : Op H A → Prop
  | .forget h => ∀ a, s.address h = some a → ∀ h', s.resolve a = some h' → h' = h
  | _ => True

theorem Index.resolve_forget_ne : (s.forget h).resolve a ≠ some h := by
  intro hresolve
  have haddress := (resolve_eq_some.mp hresolve).2
  rw [forget_address, if_pos rfl] at haddress
  cases haddress

/-- The other hosts are found as before if and only if the host that is forgotten is separate. -/
theorem Index.resolve_forget_iff :
    (∀ a h', h' ≠ h → s.resolve a = some h' → (s.forget h).resolve a = some h') ↔
      Separate s (.forget h) := by
  constructor
  · intro hkeeps a haddress h' hresolve
    by_contra hne
    have hhost := (resolve_eq_some.mp (hkeeps a h' hne hresolve)).1
    rw [forget_host, if_pos haddress] at hhost
    cases hhost
  · intro hsep a h' hne hresolve
    have hat : s.address h ≠ some a := fun heq => hne (hsep a heq h' hresolve)
    obtain ⟨hhost, haddress⟩ := resolve_eq_some.mp hresolve
    rw [resolve_eq_some, forget_host, forget_address, if_neg hat, if_neg hne]
    exact ⟨hhost, haddress⟩

namespace Exact

theorem see (hs : Exact ops s) : Exact (ops ++ [.see h a]) (s.see h a) where
  address := by
    intro h' a'
    rw [lastOf_see, ← hs.address, Index.see_address]
    by_cases heq : h' = h
    · simp [heq]
    · simp [heq, Ne.symm heq]
  host := by
    intro h' a' hhost
    rw [lastAt_see]
    rw [Index.see_host] at hhost
    split at hhost
    · rename_i heq
      cases hhost
      exact .inl ⟨rfl, heq.symm⟩
    · rename_i hne
      exact .inr ⟨Ne.symm hne, hs.host hhost⟩
  resolves := by
    intro h' a' hat hof
    rw [lastAt_see] at hat
    rw [lastOf_see] at hof
    rw [Index.see_host]
    rcases hat with ⟨rfl, rfl⟩ | ⟨hne, hat⟩
    · exact if_pos rfl
    · rw [if_neg (Ne.symm hne)]
      rcases hof with ⟨_, heq⟩ | ⟨_, hof⟩
      · exact absurd heq hne
      · exact hs.resolves hat hof

theorem forget (hs : Exact ops s) (hsep : Separate s (.forget h)) :
    Exact (ops ++ [.forget h]) (s.forget h) where
  address := by
    intro h' a'
    rw [lastOf_forget, ← hs.address, Index.forget_address]
    by_cases heq : h' = h
    · simp [heq]
    · simp [heq, Ne.symm heq]
  host := by
    intro h' a' hhost
    rw [lastAt_forget]
    rw [Index.forget_host] at hhost
    split at hhost
    · cases hhost
    · exact hs.host hhost
  resolves := by
    intro h' a' hat hof
    rw [lastAt_forget] at hat
    rw [lastOf_forget] at hof
    have hresolve := hs.resolve_eq_some.mpr ⟨hat, hof.2⟩
    have haddress : s.address h ≠ some a' := fun heq => hof.1 (hsep a' heq h' hresolve).symm
    rw [Index.forget_host, if_neg haddress]
    exact hs.resolves hat hof.2

theorem step (hs : Exact ops s) (hsep : Separate s op) : Exact (ops ++ [op]) (s.step op) := by
  cases op with
  | see h a => exact hs.see
  | forget h => exact hs.forget hsep
  | lookup a => exact hs.lookup

/-- **A lookup is exact** behind a history in which no host is forgotten while its address is
another's. -/
theorem of_run (hsep : Along Index.step Separate Index.empty ops) :
    Exact ops (run Index.step (Index.empty : Index H A) ops) := by
  induction ops using List.reverseRecOn with
  | nil => exact empty
  | append_singleton ops op ih =>
    rw [along_concat] at hsep
    rw [run_concat]
    exact (ih hsep.1).step hsep.2

end Exact

end

end ReverseIndex
