import Mathlib

/-!
# Entries that expire

An entry is in force up to the time at which it expires. A store that drops expired entries when it
comes across them agrees with one that keeps them all (`Agrees`): at later times the same entries
are in force, and, where an expired entry is replaced as an absent one is, the same ones are made.
-/

namespace Expiry

universe u

variable {V : Type u} {expires : V → Nat} {now later : Nat} {stored kept : Option V}

/-- The entry, if it is in force. -/
def inForce (expires : V → Nat) (now : Nat) (entry : Option V) : Option V :=
  entry.filter fun v => now ≤ expires v

/-- What is stored is what is kept, or it has expired before. -/
def Agrees (expires : V → Nat) (now : Nat) (stored kept : Option V) : Prop :=
  stored = kept ∨ stored = none ∧ ∃ v, kept = some v ∧ expires v < now

theorem inForce_eq_some {v : V} :
    inForce expires now stored = some v ↔ stored = some v ∧ now ≤ expires v := by
  rw [inForce, Option.filter_eq_some_iff, decide_eq_true_eq]

theorem inForce_some_of_lt {v : V} (h : expires v < now) : inForce expires now (some v) = none := by
  rw [inForce, Option.filter_some_neg]
  exact decide_eq_false (Nat.not_le.2 h)

theorem Agrees.mono (h : Agrees expires now stored kept) (hlater : now ≤ later) :
    Agrees expires later stored kept := by
  rcases h with h | ⟨h, v, hv, hexpired⟩
  · exact .inl h
  · exact .inr ⟨h, v, hv, Nat.lt_of_lt_of_le hexpired hlater⟩

/-- The same entries are in force. -/
theorem Agrees.inForce_eq (h : Agrees expires now stored kept) :
    inForce expires now stored = inForce expires now kept := by
  rcases h with rfl | ⟨rfl, v, rfl, hexpired⟩
  · rfl
  · rw [inForce_some_of_lt hexpired]
    rfl

/-- Expired entries may be dropped. -/
theorem Agrees.drop (h : Agrees expires now stored kept) :
    Agrees expires now (inForce expires now stored) kept := by
  rw [h.inForce_eq]
  cases kept with
  | none => exact .inl rfl
  | some v =>
    by_cases hv : now ≤ expires v
    · exact .inl (inForce_eq_some.2 ⟨rfl, hv⟩)
    · exact .inr ⟨inForce_some_of_lt (Nat.lt_of_not_le hv), v, rfl, Nat.lt_of_not_le hv⟩

/-- What replaces an expired entry as it replaces an absent one makes the same entries. -/
theorem Agrees.replace (h : Agrees expires now stored kept) {replace : Option V → V}
    (hreplace : ∀ v, expires v < now → replace (some v) = replace none) :
    replace stored = replace kept := by
  rcases h with rfl | ⟨rfl, v, rfl, hexpired⟩
  · rfl
  · exact (hreplace v hexpired).symm

end Expiry
