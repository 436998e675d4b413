import Mathlib

/-!
# Parts joined with a separator

What is in a list of parts that are joined with one separator, and where the parts are found.
-/

namespace Joined

variable {α : Type*} {sep c : α} {part : List α} {parts parts' : List (List α)}

/-- What is in front of the first separator is the first part. -/
theorem takeWhile_intercalate [DecidableEq α] (hpart : sep ∉ part) :
    ([sep].intercalate (part :: parts)).takeWhile (· ≠ sep) = part := by
  have hpart' : ∀ c ∈ part, decide (c ≠ sep) = true := fun c hc =>
    decide_eq_true fun heq => hpart (heq ▸ hc)
  cases parts with
  | nil => rw [List.intercalate_singleton, List.takeWhile_eq_self_iff.mpr hpart']
  | cons part' parts =>
    rw [List.intercalate_cons_cons, List.append_assoc, List.takeWhile_append_of_pos hpart',
      List.singleton_append, List.takeWhile_cons_of_neg (by simp), List.append_nil]

theorem mem_intercalate (h : c ∈ [sep].intercalate parts) :
    c = sep ∨ ∃ part ∈ parts, c ∈ part := by
  induction parts with
  | nil => cases h
  | cons part parts ih =>
    cases parts with
    | nil =>
      rw [List.intercalate_singleton] at h
      exact .inr ⟨part, List.mem_singleton_self part, h⟩
    | cons part' parts =>
      rw [List.intercalate_cons_cons, List.mem_append, List.mem_append, List.mem_singleton] at h
      rcases h with (h | h) | h
      · exact .inr ⟨part, List.mem_cons_self, h⟩
      · exact .inl h
      · exact (ih h).imp_right fun ⟨p, hp, hc⟩ => ⟨p, List.mem_cons_of_mem _ hp, hc⟩

theorem mem_intercalate_of_mem (hpart : part ∈ parts) (h : c ∈ part) :
    c ∈ [sep].intercalate parts := by
  induction parts with
  | nil => cases hpart
  | cons part' parts ih =>
    cases parts with
    | nil =>
      rw [List.intercalate_singleton]
      exact List.mem_singleton.mp hpart ▸ h
    | cons part'' parts =>
      rw [List.intercalate_cons_cons, List.mem_append, List.mem_append]
      rcases List.mem_cons.mp hpart with rfl | hpart
      · exact .inl (.inl h)
      · exact .inr (ih hpart)

theorem intercalate_append (h : parts ≠ []) (h' : parts' ≠ []) :
    [sep].intercalate (parts ++ parts') =
      [sep].intercalate parts ++ sep :: [sep].intercalate parts' := by
  induction parts with
  | nil => exact absurd rfl h
  | cons part parts ih =>
    cases parts with
    | nil =>
      rw [List.singleton_append, List.intercalate_cons_of_ne_nil h', List.intercalate_singleton,
        List.append_assoc, List.singleton_append]
    | cons part' parts =>
      rw [List.cons_append, List.intercalate_cons_of_ne_nil (by simp), ih (by simp),
        List.intercalate_cons_cons, List.append_assoc, List.append_assoc, List.append_assoc]

/-- What is between two separators has none. -/
theorem not_mem_of_mem_splitOn [DecidableEq α] {s : List α} (h : part ∈ s.splitOn sep) :
    sep ∉ part := by
  induction s generalizing part with
  | nil =>
    rw [List.splitOn_nil, List.mem_singleton] at h
    exact h ▸ List.not_mem_nil
  | cons c s ih =>
    obtain ⟨first, rest, hsplit⟩ := List.exists_cons_of_ne_nil (List.splitOn_ne_nil sep s)
    rw [hsplit] at ih
    rw [List.splitOn_cons_eq_if_modifyHead, hsplit] at h
    by_cases hc : c = sep
    · rw [if_pos (by simpa using hc), List.mem_cons] at h
      rcases h with rfl | h
      · exact List.not_mem_nil
      · exact ih h
    · rw [if_neg (by simpa using hc), List.modifyHead_cons, List.mem_cons] at h
      rcases h with rfl | h
      · exact List.not_mem_cons_of_ne_of_not_mem (Ne.symm hc) (ih List.mem_cons_self)
      · exact ih (List.mem_cons_of_mem _ h)

end Joined
