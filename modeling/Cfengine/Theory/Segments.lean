import Mathlib

/-!
# Segments of linked nodes

The nodes that one comes to by following links. A segment does not depend on the links of other
nodes, so that a link behind its last node can be set (`Segment.concat`).
-/

namespace Segments

variable {α : Type*} {next next' : α → Option α} {p q e : Option α} {l l' : List α} {a : α}

/-- Following the links from `p` leads through the nodes of the list to `e`. -/
def Segment (next : α → Option α) : Option α → List α → Option α → Prop
  | p, [], e => p = e
  | p, a :: l, e => p = some a ∧ Segment next (next a) l e

theorem segment_cons : Segment next p (a :: l) e ↔ p = some a ∧ Segment next (next a) l e := Iff.rfl

theorem segment_append :
    Segment next p (l ++ l') e ↔ ∃ q, Segment next p l q ∧ Segment next q l' e := by
  induction l generalizing p with
  | nil => exact ⟨fun h => ⟨p, rfl, h⟩, fun ⟨_, hq, h⟩ => hq ▸ h⟩
  | cons a l ih =>
    rw [List.cons_append, segment_cons, ih]
    exact ⟨fun ⟨hp, q, hl, hl'⟩ => ⟨q, ⟨hp, hl⟩, hl'⟩, fun ⟨q, ⟨hp, hl⟩, hl'⟩ => ⟨hp, q, hl, hl'⟩⟩

/-- A segment depends on its own links only. -/
theorem Segment.congr (h : Segment next p l e) (heq : ∀ a ∈ l, next' a = next a) :
    Segment next' p l e := by
  induction l generalizing p with
  | nil => exact h
  | cons a l ih =>
    obtain ⟨hp, hl⟩ := h
    rw [List.forall_mem_cons] at heq
    exact ⟨hp, heq.1.symm ▸ ih hl heq.2⟩

/-- A segment with its last link. -/
theorem Segment.concat (h : Segment next p l (some a)) (hnext : next a = e) :
    Segment next p (l ++ [a]) e :=
  segment_append.mpr ⟨_, h, rfl, hnext⟩

theorem Segment.eq_none_iff (h : Segment next p l none) : p = none ↔ l = [] := by
  cases l with
  | nil => exact iff_of_true h rfl
  | cons a l =>
    rw [h.1]
    exact iff_of_false (Option.some_ne_none _) (List.cons_ne_nil _ _)

/-- A segment to the end is all that follows. -/
theorem Segment.unique (h : Segment next p l none) (h' : Segment next p l' none) : l = l' := by
  induction l generalizing p l' with
  | nil => exact (h'.eq_none_iff.mp h).symm
  | cons a l ih =>
    cases l' with
    | nil => exact absurd (h.eq_none_iff.mp h') (List.cons_ne_nil _ _)
    | cons b l' =>
      obtain rfl := Option.some.inj (h.1.symm.trans h'.1)
      rw [ih h.2 h'.2]

end Segments
