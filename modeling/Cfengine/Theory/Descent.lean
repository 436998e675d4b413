import Mathlib

/-!
# Recursive descent

A parser reads a list of tokens and stops somewhere in it. `recurse` ties the knot of a parser
that calls itself: the number of unrollings is the length of the input, which is enough if every
success consumes something and the parser calls itself on shorter inputs only (`Guarded`). Then
`recurse` solves the recursion equation (`recurse_eq`).
-/

namespace Descent

variable {τ α β γ : Type*}

/-- The result, if there is one, and the input from the position at which the parser stopped. -/
structure ParseResult (τ β : Type*) where
  result : Option β
  rest : List τ
deriving DecidableEq, Repr

abbrev Parser (τ β : Type*) := List τ → ParseResult τ β

namespace ParseResult

/-- Continues behind a success; a failure is passed on with its position. -/
def bind (x : ParseResult τ α) (f : α → List τ → ParseResult τ β) : ParseResult τ β :=
  match x.result with
  | none => ⟨none, x.rest⟩
  | some a => f a x.rest

@[simp] theorem some_bind {a : α} {rest : List τ} {f : α → List τ → ParseResult τ β} :
    bind ⟨some a, rest⟩ f = f a rest := rfl

@[simp] theorem none_bind {rest : List τ} {f : α → List τ → ParseResult τ β} :
    bind ⟨none, rest⟩ f = ⟨none, rest⟩ := rfl

theorem bind_eq_some {x : ParseResult τ α} {f : α → List τ → ParseResult τ β} {b : β}
    {rest : List τ} :
    x.bind f = ⟨some b, rest⟩ ↔ ∃ a mid, x = ⟨some a, mid⟩ ∧ f a mid = ⟨some b, rest⟩ := by
  obtain ⟨_ | a, mid⟩ := x
  · simp
  · constructor
    · exact fun h => ⟨a, mid, rfl, h⟩
    · rintro ⟨_, _, ⟨⟩, h⟩
      exact h

theorem bind_congr {x : ParseResult τ α} {f g : α → List τ → ParseResult τ β}
    (h : ∀ a rest, x = ⟨some a, rest⟩ → f a rest = g a rest) : x.bind f = x.bind g := by
  obtain ⟨_ | a, rest⟩ := x
  · rfl
  · exact h a rest rfl

end ParseResult

/-- Every success consumes something. -/
def Shortens (p : Parser τ β) : Prop :=
  ∀ ⦃s b rest⦄, p s = ⟨some b, rest⟩ → rest.length < s.length

/-- Two parsers do the same on inputs shorter than `n`. -/
def AgreeBelow (n : Nat) (p q : Parser τ β) : Prop := ∀ s, s.length < n → p s = q s

theorem AgreeBelow.mono {p q : Parser τ β} {m n : Nat} (h : AgreeBelow n p q) (hm : m ≤ n) :
    AgreeBelow m p q := fun s hs => h s (Nat.lt_of_lt_of_le hs hm)

/-- The body of a recursive parser, which takes the parser itself as an argument. -/
structure Guarded (body : Parser τ β → Parser τ β) : Prop where
  shortens : ∀ ⦃p⦄, Shortens p → Shortens (body p)
  congr : ∀ ⦃p q s⦄, Shortens p → Shortens q → AgreeBelow s.length p q → body p s = body q s

/-- The parser that is unrolled `n` times. -/
def unroll (body : Parser τ β → Parser τ β) : Nat → Parser τ β
  | 0, s => ⟨none, s⟩
  | n + 1, s => body (unroll body n) s

/-- The recursive parser with the given body. -/
def recurse (body : Parser τ β → Parser τ β) : Parser τ β := fun s =>
  unroll body (s.length + 1) s

variable {body : Parser τ β → Parser τ β}

theorem shortens_unroll (h : Guarded body) {n : Nat} : Shortens (unroll body n) := by
  induction n with
  | zero => exact nofun
  | succ n ih => exact h.shortens ih

/-- More unrollings than the input is long do not change the result. -/
theorem unroll_eq_unroll (h : Guarded body) {m n : Nat} {s : List τ} (hm : s.length < m)
    (hn : s.length < n) : unroll body m s = unroll body n s := by
  induction m generalizing n s with
  | zero => omega
  | succ m ih =>
    cases n with
    | zero => omega
    | succ n =>
      exact h.congr (shortens_unroll h) (shortens_unroll h) fun t ht => ih (by omega) (by omega)

theorem shortens_recurse (h : Guarded body) : Shortens (recurse body) :=
  fun _ _ _ hs => shortens_unroll h hs

/-- **The recursion equation.** -/
theorem recurse_eq (h : Guarded body) (s : List τ) : recurse body s = body (recurse body) s :=
  h.congr (shortens_unroll h) (shortens_recurse h) fun t ht =>
    unroll_eq_unroll h ht (Nat.lt_succ_self t.length)

/-- A recursive parser depends on a parameter of its body only as far as the body does. -/
theorem recurse_congr {body : Parser τ α → Parser τ β → Parser τ β} {p q : Parser τ α}
    (hp : Guarded (body p)) (hq : Guarded (body q)) {s : List τ}
    (hbody : ∀ r t, Shortens r → t.length ≤ s.length → body p r t = body q r t) :
    recurse (body p) s = recurse (body q) s := by
  have hunroll : ∀ n, ∀ t, t.length ≤ s.length → unroll (body p) n t = unroll (body q) n t := by
    intro n
    induction n with
    | zero => exact fun _ _ => rfl
    | succ n ih =>
      intro t ht
      rw [unroll, hbody _ t (shortens_unroll hp) ht]
      exact hq.congr (shortens_unroll hp) (shortens_unroll hq) fun u hu => ih u (by omega)
  exact hunroll _ s (Nat.le_refl _)

end Descent
