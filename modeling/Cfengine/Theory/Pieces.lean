import Mathlib

/-!
# Splitting at runs of separators

`pieces sep s` are the maximal non-empty parts of `s` without separators. Where two separators
are never adjacent and none is at an end (`Separated`), the pieces joined with one separator are
`s` with every separator replaced by it.
-/

namespace Pieces

variable {α : Type*} {sep : α → Bool} {s t : List α} {c : α}

/-- The maximal non-empty parts without separators. -/
def pieces (sep : α → Bool) (s : List α) : List (List α) :=
  (s.splitOnP sep).filter (!·.isEmpty)

@[simp] theorem pieces_nil : pieces sep [] = [] := by simp [pieces]

/-- A separator ends a piece. -/
theorem pieces_append_cons (hc : sep c = true) :
    pieces sep (s ++ c :: t) = pieces sep s ++ pieces sep t := by
  rw [pieces, List.splitOnP_append_cons s t hc, List.filter_append, pieces, pieces]

theorem pieces_cons_sep (hc : sep c = true) : pieces sep (c :: s) = pieces sep s := by
  simpa using pieces_append_cons (s := []) (t := s) hc

/-- What has no separator is one piece. -/
theorem pieces_eq_singleton (hne : s ≠ []) (h : ∀ c ∈ s, sep c = false) : pieces sep s = [s] := by
  rw [pieces, List.splitOnP_eq_singleton h]
  simp [hne]

theorem ne_nil_of_mem_pieces {p : List α} (h : p ∈ pieces sep s) : p ≠ [] := by
  simpa using (List.mem_filter.mp h).2

/-- What a list consists of before and behind its first separator. -/
theorem exists_append_of_any (h : s.any sep = true) :
    ∃ u c v, s = u ++ c :: v ∧ sep c = true ∧ ∀ x ∈ u, sep x = false := by
  induction s with
  | nil => cases h
  | cons x s ih =>
    cases hx : sep x with
    | true => exact ⟨[], x, s, rfl, hx, nofun⟩
    | false =>
      rw [List.any_cons, hx, Bool.false_or] at h
      obtain ⟨u, c, v, rfl, hc, hu⟩ := ih h
      exact ⟨x :: u, c, v, rfl, hc, List.forall_mem_cons.mpr ⟨hx, hu⟩⟩

/-- The elements of a piece are elements of the list. -/
theorem mem_of_mem_pieces {p : List α} (h : p ∈ pieces sep s) (hc : c ∈ p) : c ∈ s := by
  generalize hlen : s.length = n
  induction n using Nat.strongRecOn generalizing s with
  | _ n ih =>
    cases hany : s.any sep with
    | false =>
      have hsep : ∀ x ∈ s, sep x = false := by simpa using hany
      rw [pieces, List.splitOnP_eq_singleton hsep] at h
      obtain rfl := List.mem_singleton.mp (List.mem_filter.mp h).1
      exact hc
    | true =>
      obtain ⟨u, x, v, rfl, hx, -⟩ := exists_append_of_any hany
      simp only [List.length_append, List.length_cons] at hlen
      rw [pieces_append_cons hx, List.mem_append] at h
      rcases h with h | h
      · exact List.mem_append_left _ (ih u.length (by omega) h rfl)
      · exact List.mem_append_right _ (List.mem_cons_of_mem _ (ih v.length (by omega) h rfl))

/-! ## Separated lists -/

/-- No separator is at an end of the list or next to another one. -/
inductive Separated (sep : α → Bool) : List α → Prop where
  | block {s : List α} (hne : s ≠ []) (hs : ∀ c ∈ s, sep c = false) : Separated sep s
  | sep {s t : List α} {c : α} (hne : s ≠ []) (hs : ∀ c ∈ s, sep c = false) (hc : sep c = true)
    (ht : Separated sep t) : Separated sep (s ++ c :: t)

namespace Separated

theorem append_cons (hs : Separated sep s) (hc : sep c = true) (ht : Separated sep t) :
    Separated sep (s ++ c :: t) := by
  induction hs with
  | block hne hs => exact .sep hne hs hc ht
  | sep hne hs hd _ ih =>
    rw [List.append_assoc]
    exact .sep hne hs hd ih

/-- Two lists side by side, where the last piece of the first goes on in the second. -/
theorem append (hs : Separated sep s) (ht : Separated sep t) : Separated sep (s ++ t) := by
  induction hs with
  | @block s hne hs =>
    cases ht with
    | block _ ht =>
      exact .block (List.append_ne_nil_of_left_ne_nil hne _) (List.forall_mem_append.mpr ⟨hs, ht⟩)
    | sep _ ht hc hv =>
      rw [← List.append_assoc]
      exact .sep (List.append_ne_nil_of_left_ne_nil hne _) (List.forall_mem_append.mpr ⟨hs, ht⟩)
        hc hv
  | sep hne hs hc _ ih =>
    rw [List.append_assoc]
    exact .sep hne hs hc ih

theorem pieces_ne_nil (hs : Separated sep s) : pieces sep s ≠ [] := by
  cases hs with
  | block hne hs => simp [pieces_eq_singleton hne hs]
  | sep hne hs hc _ => simp [pieces_append_cons hc, pieces_eq_singleton hne hs]

/-- The pieces joined with one separator. -/
theorem intercalate_pieces (d : α) (hs : Separated sep s) :
    [d].intercalate (pieces sep s) = s.map fun c => if sep c then d else c := by
  have hblock : ∀ u : List α, (∀ c ∈ u, sep c = false) →
      (u.map fun c => if sep c then d else c) = u := fun u hu =>
    (List.map_congr_left fun c hc => by simp [hu c hc]).trans (List.map_id u)
  induction hs with
  | block hne hs => simp [pieces_eq_singleton hne hs, hblock _ hs]
  | sep hne hs hc ht ih =>
    rw [pieces_append_cons hc, pieces_eq_singleton hne hs, List.singleton_append,
      List.intercalate_cons_of_ne_nil ht.pieces_ne_nil, ih, List.map_append, List.map_cons,
      if_pos hc, hblock _ hs]
    simp

end Separated

end Pieces
