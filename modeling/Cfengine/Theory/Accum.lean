import Mathlib

/-!
# A list traversed with a state

`mapAccum` runs a step for each element, in the state that the step before it left, and collects
the results; it stops if a step fails.
-/

namespace Accum

variable {σ α β γ : Type*}

def mapAccum (step : σ → α → Option (β × σ)) : σ → List α → Option (List β × σ)
  | s, [] => some ([], s)
  | s, a :: l =>
    (step s a).bind fun (b, s) => (mapAccum step s l).map fun (bs, s) => (b :: bs, s)

/-- The element is met in the state `t`. -/
inductive Meets (step : σ → α → Option (β × σ)) : σ → List α → σ → α → Prop
  | head {s a l} : Meets step s (a :: l) s a
  | tail {s s' a b l t x} : step s a = some (b, s') → Meets step s' l t x →
    Meets step s (a :: l) t x

variable {step : σ → α → Option (β × σ)} {s s' : σ} {a : α} {l l₁ l₂ : List α} {bs : List β}

theorem mapAccum_cons_eq_some : mapAccum step s (a :: l) = some (bs, s') ↔
    ∃ b s₁ bs', step s a = some (b, s₁) ∧ mapAccum step s₁ l = some (bs', s') ∧ bs = b :: bs' := by
  rw [mapAccum, Option.bind_eq_some_iff]
  constructor
  · intro ⟨⟨b, s₁⟩, hstep, h⟩
    obtain ⟨⟨bs', s₂⟩, hrest, heq⟩ := Option.map_eq_some_iff.mp h
    cases heq
    exact ⟨b, s₁, bs', hstep, hrest, rfl⟩
  · intro ⟨b, s₁, bs', hstep, hrest, heq⟩
    subst heq
    exact ⟨(b, s₁), hstep, Option.map_eq_some_iff.mpr ⟨(bs', s'), hrest, rfl⟩⟩

/-- In a run that does not stop, no step fails. -/
theorem Meets.step_eq_some {t : σ} {x : α} (hrun : mapAccum step s l = some (bs, s'))
    (h : Meets step s l t x) : ∃ b t', step t x = some (b, t') := by
  induction h generalizing bs with
  | head =>
    obtain ⟨b, s₁, _, hstep, _⟩ := mapAccum_cons_eq_some.mp hrun
    exact ⟨b, s₁, hstep⟩
  | tail hs _ ih =>
    obtain ⟨b, s₁, _, hstep, hrest, _⟩ := mapAccum_cons_eq_some.mp hrun
    cases hs.symm.trans hstep
    exact ih hrest

/-- Results agree with the elements exactly if each step agrees where it is taken. -/
theorem mapAccum_map_eq_iff {f : β → γ} {g : α → γ} (hrun : mapAccum step s l = some (bs, s')) :
    bs.map f = l.map g ↔
      ∀ t x b t', Meets step s l t x → step t x = some (b, t') → f b = g x := by
  induction l generalizing s bs with
  | nil =>
    cases hrun
    refine iff_of_true rfl ?_
    intro t x b t' hmeets
    cases hmeets
  | cons a l ih =>
    obtain ⟨b, s₁, bs', ha, hrest, rfl⟩ := mapAccum_cons_eq_some.mp hrun
    rw [List.map_cons, List.map_cons, List.cons.injEq, ih hrest]
    constructor
    · intro ⟨hb, h⟩ t x b' t' hmeets hstep
      cases hmeets with
      | head =>
        cases ha.symm.trans hstep
        exact hb
      | tail hs hmeets =>
        cases ha.symm.trans hs
        exact h t x b' t' hmeets hstep
    · intro h
      refine ⟨h s a b s₁ .head ha, ?_⟩
      intro t x b' t' hmeets hstep
      exact h t x b' t' (.tail ha hmeets) hstep

end Accum
