import Mathlib

/-!
# Consecutive blocks of a list

A list cut into blocks of `g` elements each, where the last block may be shorter: the block that an
index is in, the first elements of all blocks, and the list of the blocks.
-/

namespace Blocks

variable {α : Type*} {g i p : Nat} {a : α} {l l' : List α}

/-- The block with the element at index `p`. -/
def block (g p : Nat) (l : List α) : List α := (l.drop (p / g * g)).take g

/-- The first elements of the blocks, where the first element of the list has index `i`. -/
def firsts (g i : Nat) (l : List α) : List α :=
  ((l.zipIdx i).filter fun x => x.2 % g = 0).map Prod.fst

@[simp] theorem firsts_nil : firsts g i ([] : List α) = [] := rfl

theorem firsts_cons :
    firsts g i (a :: l) = if i % g = 0 then a :: firsts g (i + 1) l else firsts g (i + 1) l := by
  rw [firsts, List.zipIdx_cons, List.filter_cons]
  split
  · rename_i h
    rw [if_pos (of_decide_eq_true h)]
    rfl
  · rename_i h
    rw [if_neg fun h' => h (decide_eq_true h')]
    rfl

theorem firsts_append : firsts g i (l ++ l') = firsts g i l ++ firsts g (i + l.length) l' := by
  rw [firsts, List.zipIdx_append, List.filter_append, List.map_append]
  rfl

theorem firsts_concat :
    firsts g i (l ++ [a]) = firsts g i l ++ if (i + l.length) % g = 0 then [a] else [] := by
  rw [firsts_append, firsts_cons, firsts_nil]

theorem firsts_eq_nil (hi : 0 < i) (h : i + l.length ≤ g) : firsts g i l = [] := by
  induction l generalizing i with
  | nil => rfl
  | cons a l ih =>
    rw [List.length_cons] at h
    have hmod : i % g ≠ 0 := by
      rw [Nat.mod_eq_of_lt (by omega)]
      exact Nat.ne_of_gt hi
    rw [firsts_cons, if_neg hmod]
    exact ih (Nat.succ_pos i) (by omega)

/-- A list that is one block. -/
theorem firsts_of_length_le (h : (a :: l).length ≤ g) : firsts g 0 (a :: l) = [a] := by
  rw [List.length_cons] at h
  rw [firsts_cons, if_pos (Nat.zero_mod g), firsts_eq_nil Nat.one_pos (by omega)]

theorem firsts_ne_nil (hi : i % g = 0) (h : l ≠ []) : firsts g i l ≠ [] := by
  cases l with
  | nil => exact absurd rfl h
  | cons a l =>
    rw [firsts_cons, if_pos hi]
    exact List.cons_ne_nil _ _

/-- A list that is more than one block. -/
theorem one_lt_length_firsts (hg : 0 < g) (h : g < l.length) : 1 < (firsts g 0 l).length := by
  have hfirst : firsts g 0 (l.take g) ≠ [] :=
    firsts_ne_nil (Nat.zero_mod g) (List.ne_nil_of_length_pos (by simp; omega))
  have hsecond : firsts g g (l.drop g) ≠ [] :=
    firsts_ne_nil (Nat.mod_self g) (List.ne_nil_of_length_pos (by simp; omega))
  have hsplit := @firsts_append α g 0 (l.take g) (l.drop g)
  rw [List.take_append_drop, List.length_take_of_le (Nat.le_of_lt h), Nat.zero_add] at hsplit
  rw [hsplit, List.length_append]
  have := List.length_pos_iff.mpr hfirst
  have := List.length_pos_iff.mpr hsecond
  omega

theorem exists_of_mem_firsts (h : a ∈ firsts g i l) : ∃ j, l[j]? = some a ∧ (i + j) % g = 0 := by
  rw [firsts, List.mem_map] at h
  obtain ⟨⟨b, j⟩, hmem, rfl⟩ := h
  obtain ⟨hmem, hmod⟩ := List.mem_filter.mp hmem
  obtain ⟨hle, hget⟩ := List.mk_mem_zipIdx_iff_le_and_getElem?_sub.mp hmem
  refine ⟨j - i, hget, ?_⟩
  rw [Nat.add_sub_cancel' hle]
  exact of_decide_eq_true hmod

theorem mem_firsts {j : Nat} (hj : l[j]? = some a) (h : (i + j) % g = 0) : a ∈ firsts g i l := by
  rw [firsts, List.mem_map]
  refine ⟨(a, i + j), List.mem_filter.mpr ⟨?_, decide_eq_true h⟩, rfl⟩
  rw [List.mk_mem_zipIdx_iff_le_and_getElem?_sub, Nat.add_sub_cancel_left]
  exact ⟨Nat.le_add_right i j, hj⟩

theorem mem_block (hg : 0 < g) {j : Nat} (hj : l[j]? = some a) (h : j / g = p / g) :
    a ∈ block g p l := by
  have hdiv := Nat.div_add_mod j g
  have hmod := Nat.mod_lt j hg
  rw [h, Nat.mul_comm] at hdiv
  rw [block, List.mem_iff_getElem?]
  refine ⟨j % g, ?_⟩
  rw [List.getElem?_take_of_lt hmod, List.getElem?_drop, hdiv, hj]

theorem head?_block (hg : 0 < g) : (block g p l).head? = l[p / g * g]? := by
  rw [block, List.head?_take, if_neg (Nat.ne_of_gt hg), List.head?_drop]

theorem block_of_length_le (h : l.length ≤ g) (hp : p < l.length) : block g p l = l := by
  rw [block, Nat.div_eq_of_lt (Nat.lt_of_lt_of_le hp h), Nat.zero_mul, List.drop_zero,
    List.take_of_length_le h]

theorem block_concat (hg : 0 < g) (hp : p < l.length) :
    block g p (l ++ [a]) = block g p l ++ if l.length / g = p / g then [a] else [] := by
  have hle := Nat.div_mul_le_self p g
  have hdrop : (l.drop (p / g * g)).length = l.length - p / g * g := List.length_drop
  rw [block, List.drop_append_of_le_length (by omega), List.take_append, hdrop, block]
  congr 1
  have hlast := Nat.div_add_mod l.length g
  have hmod := Nat.mod_lt l.length hg
  rw [Nat.mul_comm] at hlast
  split
  · rename_i heq
    rw [heq] at hlast
    exact List.take_of_length_le (by rw [List.length_singleton]; omega)
  · rename_i hne
    have hlt : p / g + 1 ≤ l.length / g :=
      Nat.lt_of_le_of_ne (Nat.div_le_div_right (Nat.le_of_lt hp)) (Ne.symm hne)
    have hmul := Nat.mul_le_mul_right g hlt
    rw [Nat.succ_mul] at hmul
    rw [Nat.sub_eq_zero_of_le (by omega), List.take_zero]

/-! ## All blocks -/

/-- The blocks of a list. -/
def chunks (g : Nat) (l : List α) : List (List α) :=
  if g = 0 ∨ l = [] then [] else l.take g :: chunks g (l.drop g)
termination_by l.length
decreasing_by
  rename_i h
  rw [not_or] at h
  have := List.length_pos_iff.mpr h.2
  rw [List.length_drop]
  omega

@[simp] theorem chunks_nil : chunks g ([] : List α) = [] := by rw [chunks, if_pos (.inr rfl)]

theorem chunks_of_ne_nil (hg : 0 < g) (h : l ≠ []) :
    chunks g l = l.take g :: chunks g (l.drop g) := by
  rw [chunks, if_neg (by rw [not_or]; exact ⟨Nat.ne_of_gt hg, h⟩)]

/-- Induction over the blocks of a list. -/
theorem chunks_induction (hg : 0 < g) {P : List α → Prop} (nil : P [])
    (block : ∀ l, l ≠ [] → P (l.drop g) → P l) (l : List α) : P l := by
  induction hlength : l.length using Nat.strong_induction_on generalizing l with
  | _ n ih =>
    by_cases h : l = []
    · rw [h]
      exact nil
    · have hpos := List.length_pos_iff.mpr h
      exact block l h (ih _ (by rw [List.length_drop]; omega) _ rfl)

theorem flatten_chunks (hg : 0 < g) : (chunks g l).flatten = l := by
  induction l using chunks_induction hg with
  | nil => rw [chunks_nil, List.flatten_nil]
  | block l h ih => rw [chunks_of_ne_nil hg h, List.flatten_cons, ih, List.take_append_drop]

end Blocks
