import Mathlib

/-!
# Interleaved agents

Agents with a state each, of which one moves at a time. `AtMostOne p` says that no two agents are in
states with `p`; a move keeps it if the agent that moves was in such a state already, is in none, or
finds no other one in one.
-/

namespace Interleaving

universe u v

variable {ι : Type u} {σ : Type v} {p q : σ → Prop} {f : ι → σ} {i : ι} {x : σ}

/-- No two agents are in states with `p`. -/
def AtMostOne (p : σ → Prop) (f : ι → σ) : Prop := ∀ i j, p (f i) → p (f j) → i = j

theorem AtMostOne.mono (h : AtMostOne p f) (hqp : ∀ x, q x → p x) : AtMostOne q f :=
  fun i j hi hj => h i j (hqp _ hi) (hqp _ hj)

theorem atMostOne_of_forall_not (h : ∀ i, ¬ p (f i)) : AtMostOne p f := fun i _ hi _ =>
  absurd hi (h i)

/-- While one agent is in such a state, the others are not. -/
theorem AtMostOne.others (h : AtMostOne p f) (hi : p (f i)) : ∀ j, j ≠ i → ¬ p (f j) :=
  fun _ hne hj => hne (h _ _ hj hi)

variable [DecidableEq ι]

/-- A move to a state with `p` while no other agent is in one. -/
theorem AtMostOne.update (h : AtMostOne p f) (hx : p x → ∀ j, j ≠ i → ¬ p (f j)) :
    AtMostOne p (Function.update f i x) := by
  intro j k hj hk
  by_cases hji : j = i <;> by_cases hki : k = i
  · rw [hji, hki]
  · rw [hji, Function.update_self] at hj
    rw [Function.update_of_ne hki] at hk
    exact absurd hk (hx hj k hki)
  · rw [Function.update_of_ne hji] at hj
    rw [hki, Function.update_self] at hk
    exact absurd hj (hx hk j hji)
  · rw [Function.update_of_ne hji] at hj
    rw [Function.update_of_ne hki] at hk
    exact h j k hj hk

/-- What holds of every agent holds after a move if it holds of the agent where it now is, and of
the others still. -/
theorem forall_update {P P' : ι → σ → Prop} (hothers : ∀ j, j ≠ i → P j (f j) → P' j (f j))
    (h : ∀ j, P j (f j)) (hx : P' i x) : ∀ j, P' j (Function.update f i x j) := by
  intro j
  by_cases hji : j = i
  · subst hji
    rwa [Function.update_self]
  · rw [Function.update_of_ne hji]
    exact hothers j hji (h j)

end Interleaving
