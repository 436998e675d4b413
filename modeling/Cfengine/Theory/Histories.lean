import Mathlib.Data.List.Basic

/-!
# Elements of a list with their history

`Each P hist l` says that every element of `l` meets `P` together with the elements in front of it,
those of `hist` first. It is what a law about the past of each step of a run says of the run.
`Last p x l` says that nothing behind `x` meets `p`, as when `x` is the last step of its kind.
-/

namespace Histories

variable {α : Type*} {P Q : List α → α → Prop} {hist l : List α} {x : α}

/-- Each element of `l` meets `P` with what is in front of it. -/
def Each (P : List α → α → Prop) (hist l : List α) : Prop :=
  ∀ before x after, l = before ++ x :: after → P (hist ++ before) x

theorem each_nil : Each P hist [] := by
  intro before x after h
  exact absurd h.symm (List.append_ne_nil_of_right_ne_nil before (List.cons_ne_nil x after))

theorem each_cons : Each P hist (x :: l) ↔ P hist x ∧ Each P (hist ++ [x]) l := by
  constructor
  · intro h
    refine ⟨?_, ?_⟩
    · have hx := h [] x l rfl
      rwa [List.append_nil] at hx
    · intro before y after hl
      have hy := h (x :: before) y after (by rw [hl, List.cons_append])
      rwa [List.append_cons] at hy
  · intro ⟨hx, hl⟩ before y after heq
    cases before with
    | nil =>
      cases heq
      rwa [List.append_nil]
    | cons z before =>
      obtain ⟨rfl, htail⟩ := List.cons.inj heq
      have hy := hl before y after htail
      rwa [List.append_assoc] at hy

/-- Nothing in the list behind `x` meets `p`. -/
def Last (p : α → Prop) (x : α) (l : List α) : Prop :=
  ∃ before after, l = before ++ x :: after ∧ ∀ y ∈ after, ¬ p y

theorem not_last_nil {p : α → Prop} : ¬ Last p x [] := by
  intro ⟨before, after, h, _⟩
  exact List.append_ne_nil_of_right_ne_nil before (List.cons_ne_nil x after) h.symm

theorem last_concat {p : α → Prop} {y : α} : Last p x (l ++ [y]) ↔ y = x ∨ Last p x l ∧ ¬ p y := by
  constructor
  · intro ⟨before, after, heq, hafter⟩
    rcases List.eq_nil_or_concat after with rfl | ⟨after, z, rfl⟩
    · exact .inl (List.singleton_inj.mp (List.append_inj' heq rfl).2)
    · rw [List.concat_eq_append, ← List.cons_append, ← List.append_assoc] at heq
      obtain ⟨hl, hy⟩ := List.append_inj' heq rfl
      cases hy
      refine .inr ⟨⟨before, after, hl, fun w hw => hafter w ?_⟩, hafter y ?_⟩
      · rw [List.concat_eq_append]
        exact List.mem_append_left _ hw
      · rw [List.concat_eq_append]
        exact List.mem_concat_self
  · intro h
    rcases h with rfl | ⟨⟨before, after, rfl, hafter⟩, hy⟩
    · exact ⟨l, [], rfl, fun z hz => absurd hz List.not_mem_nil⟩
    · refine ⟨before, after ++ [y], by rw [List.append_assoc, List.cons_append], fun z hz => ?_⟩
      rcases List.mem_append.mp hz with hz | hz
      · exact hafter z hz
      · cases List.mem_singleton.mp hz
        exact hy

end Histories
