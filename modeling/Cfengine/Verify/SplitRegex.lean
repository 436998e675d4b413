import Cfengine.EnvContext
import Cfengine.Theory.Pieces

/-!
# Splitting and joining

`SplitRegexAsRList` returns the first pieces of its argument, and the two buffers of
`SplitContextExpression` hold joined pieces as long as `Join` finds room for them.
-/

namespace Cfengine
open Pieces

/-- The separators of a regex `[chars]+`. -/
abbrev isSep (chars : CString) (c : Char) : Bool := c ∈ chars

variable {chars s leaf path : CString} {start stop : Nat}

/-! ## `SplitRegexAsRList` -/

variable (chars s) in
/-- What `BlockTextMatch` looks at: the part in front of the first separator, and the run of
separators behind it. -/
theorem blockTextMatch_eq :
    ∃ u run rest, s = u ++ (run ++ rest) ∧ (∀ c ∈ u, isSep chars c = false) ∧
      (∀ c ∈ run, isSep chars c = true) ∧ (run = [] → rest = []) ∧
      blockTextMatch chars s =
        if run = [] then none else some (u.length, u.length + run.length) := by
  have hs : s = s.takeWhile (· ∉ chars) ++ s.dropWhile (· ∉ chars) :=
    List.takeWhile_append_dropWhile.symm
  have hdrop : s.drop (s.takeWhile (· ∉ chars)).length = s.dropWhile (· ∉ chars) := by
    have : (s.takeWhile (· ∉ chars) ++ s.dropWhile (· ∉ chars)).drop
        (s.takeWhile (· ∉ chars)).length = s.dropWhile (· ∉ chars) := List.drop_left' rfl
    rwa [← hs] at this
  refine ⟨s.takeWhile (· ∉ chars), (s.dropWhile (· ∉ chars)).takeWhile (· ∈ chars),
    (s.dropWhile (· ∉ chars)).dropWhile (· ∈ chars), ?_, fun c hc => ?_, fun c hc => ?_, ?_, ?_⟩
  · rw [List.takeWhile_append_dropWhile]
    exact hs
  · simpa using List.all_eq_true.mp List.all_takeWhile c hc
  · simpa using List.all_eq_true.mp List.all_takeWhile c hc
  · intro hrun
    have := List.head?_dropWhile_not (fun c => decide (c ∉ chars)) s
    cases hrest : s.dropWhile (· ∉ chars) with
    | nil => rfl
    | cons c rest =>
      rw [hrest] at hrun this
      have hc : c ∈ chars := by simpa using this
      simp [hc] at hrun
  · rw [blockTextMatch, hdrop]

theorem pieces_append_run {sep : Char → Bool} {run rest : CString} (hrun : run ≠ [])
    (h : ∀ c ∈ run, sep c = true) :
    pieces sep (s ++ (run ++ rest)) = pieces sep s ++ pieces sep rest := by
  obtain ⟨c, run, rfl⟩ := List.exists_cons_of_ne_nil hrun
  rw [List.forall_mem_cons] at h
  rw [List.cons_append, pieces_append_cons h.1]
  congr 1
  have hskip := h.2
  clear h hrun
  induction run with
  | nil => rfl
  | cons d run ih =>
    rw [List.forall_mem_cons] at hskip
    rw [List.cons_append, pieces_cons_sep hskip.1, ih hskip.2]

theorem splitRegexAsRList.loop_eq {string : CString} {fuel room : Nat}
    (hfuel : s.length < fuel) (hlen : s.length < cfMaxVarSize) :
    splitRegexAsRList.loop chars false string fuel room s =
      (pieces (isSep chars) s).take room := by
  induction fuel generalizing s room with
  | zero => omega
  | succ fuel ih =>
    rw [loop]
    by_cases hroom : room = 0
    · rw [if_pos hroom, hroom, List.take_zero]
    rw [if_neg hroom]
    obtain ⟨room, rfl⟩ := Nat.exists_eq_succ_of_ne_zero hroom
    obtain ⟨u, run, rest, rfl, hu, hsep, hrest, hmatch⟩ := blockTextMatch_eq chars s
    rw [hmatch]
    by_cases hrun : run = []
    · obtain rfl := hrest hrun
      subst hrun
      have htake : u.take (cfMaxVarSize - 1) = u := List.take_of_length_le (by simp at hlen; omega)
      by_cases hne : u = []
      · simp [hne]
      · simp [htake, hne, pieces_eq_singleton hne hu]
    · have hpos := List.length_pos_iff.mpr hrun
      have htake : (u ++ (run ++ rest)).take u.length = u := List.take_left' rfl
      have hdrop : (u ++ (run ++ rest)).drop (u.length + run.length) = rest := by
        rw [← List.append_assoc]
        exact List.drop_left' List.length_append
      simp only [List.length_append] at hfuel hlen
      rw [if_neg hrun, pieces_append_run hrun hsep]
      simp only [htake, hdrop]
      rw [ih (by omega) (by omega), ih (by omega) (by omega)]
      by_cases hne : u = []
      · simp [hne]
      · simp [hne, pieces_eq_singleton hne hu]

/-- At most `max` pieces are returned, and no empty ones. -/
theorem splitRegexAsRList_eq {max : Nat} (hlen : s.length < cfMaxVarSize) :
    splitRegexAsRList s chars max false = (pieces (isSep chars) s).take max :=
  splitRegexAsRList.loop_eq (Nat.lt_succ_self _) hlen

/-! ## Joining -/

/-- The space that `Join` uses of the buffers. -/
def joinLimit : Nat := cfMaxVarSize - cfBufferMargin

theorem joinWith_nil {sep : Char} (h : leaf.length ≤ joinLimit) : joinWith sep [] leaf = leaf := by
  have : ¬ ([] : CString).length + leaf.length > cfMaxVarSize - cfBufferMargin := by
    simpa [joinLimit] using h
  simp only [joinWith, join, ne_eq, not_true_eq_false, if_false, if_neg this, List.nil_append]

theorem joinWith_of_ne_nil {sep : Char} (hpath : path ≠ [])
    (h : (path ++ sep :: leaf).length ≤ joinLimit) :
    joinWith sep path leaf = path ++ sep :: leaf := by
  have : ¬ (path ++ [sep]).length + leaf.length > cfMaxVarSize - cfBufferMargin := by
    simp only [joinLimit, List.length_append, List.length_cons, List.length_nil] at h ⊢
    omega
  simp only [joinWith, join, if_pos hpath, if_neg this, List.append_assoc, List.singleton_append]

theorem foldl_joinWith_of_ne_nil {sep : Char} {leaves : List CString} (hpath : path ≠ [])
    (h : ([sep].intercalate (path :: leaves)).length ≤ joinLimit) :
    leaves.foldl (joinWith sep) path = [sep].intercalate (path :: leaves) := by
  induction leaves generalizing path with
  | nil => simp
  | cons leaf leaves ih =>
    have hassoc : [sep].intercalate (path :: leaf :: leaves) =
        [sep].intercalate ((path ++ sep :: leaf) :: leaves) := by
      cases leaves <;> simp
    rw [hassoc] at h ⊢
    have hle : (path ++ sep :: leaf).length ≤ joinLimit := by
      refine Nat.le_trans ?_ h
      cases leaves with
      | nil => simp
      | cons => simp only [List.intercalate_cons_cons, List.length_append]; omega
    rw [List.foldl_cons, joinWith_of_ne_nil hpath hle]
    exact ih (by simp) h

/-- Joined one after the other, the leaves are joined by the separator if there is room. -/
theorem foldl_joinWith {sep : Char} {leaves : List CString} (hne : ∀ leaf ∈ leaves, leaf ≠ [])
    (h : ([sep].intercalate leaves).length ≤ joinLimit) :
    leaves.foldl (joinWith sep) [] = [sep].intercalate leaves := by
  cases leaves with
  | nil => rfl
  | cons leaf leaves =>
    have hle : leaf.length ≤ joinLimit := by
      refine Nat.le_trans ?_ h
      cases leaves with
      | nil => simp
      | cons => simp only [List.intercalate_cons_cons, List.length_append]; omega
    rw [List.foldl_cons, joinWith_nil hle]
    exact foldl_joinWith_of_ne_nil (hne leaf List.mem_cons_self) h

end Cfengine
