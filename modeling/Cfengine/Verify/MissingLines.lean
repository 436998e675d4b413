import Cfengine.Verify.BlockInsertion

/-!
# Missing lines

The lines of a chunk that are not among the lines of a region, and what walks over them leave behind
the region: each is looked for at the next place and inserted there if it is not found.
-/

namespace Cfengine

section
variable {ends : CString → Bool} {inside inside' acc rest below behind : List CString}
  {line stop : CString}

/-- The lines that are not among `region`. -/
def missingLines (region acc : List CString) : List CString :=
  acc.filter fun line => !region.any (· = line)

theorem missingLines_cons_of_mem (h : inside.any (· = line) = true) :
    missingLines inside (line :: acc) = missingLines inside acc :=
  List.filter_cons_of_neg (by simp [h])

theorem missingLines_cons_of_not_mem (h : inside.any (· = line) = false) :
    missingLines inside (line :: acc) = line :: missingLines inside acc :=
  List.filter_cons_of_pos (by simp [h])

theorem mem_missingLines : line ∈ missingLines inside acc ↔ line ∈ acc ∧ line ∉ inside := by
  rw [missingLines, List.mem_filter]
  refine and_congr_right fun _ => ?_
  rw [Bool.not_eq_true', List.any_eq_false]
  simp only [decide_eq_true_eq]
  exact ⟨fun h hmem => h line hmem rfl, fun h x hx heq => h (heq ▸ hx)⟩

theorem mem_inside_of_missingLines_eq_nil (h : missingLines inside acc = []) :
    ∀ line ∈ acc, inside.any (· = line) = true := by
  intro line hline
  have hkept := List.filter_eq_nil_iff.mp h line hline
  simpa using hkept

theorem missingLines_concat (h : line ∉ missingLines inside acc) :
    missingLines (inside ++ [line]) acc = missingLines inside acc := by
  refine List.filter_congr fun x hx => ?_
  rw [List.any_append]
  cases hinside : inside.any (· = x) with
  | true => rfl
  | false =>
    have hmem : x ∈ missingLines inside acc := List.mem_filter.mpr ⟨hx, by simp [hinside]⟩
    have hne : line ≠ x := fun heq => h (heq ▸ hmem)
    simp [hne]

variable (inside') in
theorem missingLines_of_dropWhile
    (hdrop : acc.dropWhile (fun x => inside.any (· = x)) = line :: rest)
    (hsub : ∀ x ∈ inside, x ∈ inside') (hrest : ∀ x ∈ rest, x ∈ inside') :
    missingLines inside' acc = [] ∨ missingLines inside' acc = [line] := by
  induction acc with
  | nil => cases hdrop
  | cons x acc ih =>
    rw [List.dropWhile_cons] at hdrop
    split at hdrop
    · rename_i hx
      have hkept : inside'.any (· = x) = true := by
        simp only [List.any_eq_true, decide_eq_true_eq, exists_eq_right] at hx ⊢
        exact hsub x hx
      rw [missingLines_cons_of_mem hkept]
      exact ih hdrop
    · obtain ⟨rfl, rfl⟩ := List.cons.inj hdrop
      have hnone : missingLines inside' acc = [] :=
        List.eq_nil_iff_forall_not_mem.mpr fun y hy =>
          (mem_missingLines.mp hy).2 (hrest y (mem_missingLines.mp hy).1)
      cases hx : inside'.any (· = x) with
      | true =>
        rw [missingLines_cons_of_mem hx]
        exact .inl hnone
      | false =>
        rw [missingLines_cons_of_not_mem hx, hnone]
        exact .inr rfl

/-! ## Lines behind the region -/

/-- The lines behind an item behind which the lines of `acc` are looked for one by one, and inserted
if they are not there. -/
def closedWalk (inside : List CString) : List CString → List CString → List CString
  | [], behind => behind
  | line :: acc, behind =>
    if inside.any (· = line) then closedWalk inside acc behind
    else line :: closedWalk inside acc (linesBehindFirst line behind)

/-- The lines behind a region at whose end the lines of `acc` are inserted. The region grows with
them until one of them is its end. -/
def openWalk (stop : CString) (below : List CString) : List CString → List CString → List CString
  | _, [] => stop :: below
  | inside, line :: acc =>
    if inside.any (· = line) then openWalk stop below inside acc
    else if line = stop then stop :: closedWalk inside acc below
    else line :: openWalk stop below (inside ++ [line]) acc

theorem missingLines_prefix_closedWalk :
    missingLines inside acc <+: closedWalk inside acc behind := by
  induction acc generalizing behind with
  | nil => exact List.nil_prefix
  | cons line acc ih =>
    rw [closedWalk]
    cases hline : inside.any (· = line) with
    | true =>
      rw [missingLines_cons_of_mem hline, if_pos rfl]
      exact ih
    | false =>
      rw [missingLines_cons_of_not_mem hline, if_neg Bool.false_ne_true, List.cons_prefix_cons]
      exact ⟨rfl, ih⟩

theorem missingLines_prefix_openWalk (h : (missingLines inside acc).Nodup) :
    missingLines inside acc <+: openWalk stop below inside acc := by
  induction acc generalizing inside with
  | nil => exact List.nil_prefix
  | cons line acc ih =>
    rw [openWalk]
    cases hline : inside.any (· = line) with
    | true =>
      rw [missingLines_cons_of_mem hline] at h ⊢
      rw [if_pos rfl]
      exact ih h
    | false =>
      rw [missingLines_cons_of_not_mem hline] at h ⊢
      rw [if_neg Bool.false_ne_true]
      split
      · rename_i heq
        rw [heq, List.cons_prefix_cons]
        exact ⟨rfl, missingLines_prefix_closedWalk⟩
      · obtain ⟨hnotin, hnodup⟩ := List.nodup_cons.mp h
        rw [List.cons_prefix_cons, ← missingLines_concat hnotin]
        exact ⟨rfl, ih (missingLines_concat hnotin ▸ hnodup)⟩

/-! ## Lines that the region gains -/

/-- The missing lines, each once, in front of the first one that ends the region. -/
def admittedLines (ends : CString → Bool) : List CString → List CString → List CString
  | _, [] => []
  | inside, line :: acc =>
    if inside.any (· = line) then admittedLines ends inside acc
    else if ends line then []
    else line :: admittedLines ends (inside ++ [line]) acc

theorem ends_of_mem_admittedLines (h : line ∈ admittedLines ends inside acc) :
    ends line = false := by
  induction acc generalizing inside with
  | nil => cases h
  | cons x acc ih =>
    rw [admittedLines] at h
    split at h
    · exact ih h
    · split at h
      · cases h
      · rename_i hends
        rcases List.mem_cons.mp h with rfl | h
        · exact Bool.eq_false_of_not_eq_true hends
        · exact ih h

variable (inside acc below) in
/-- Behind a run, the region ends behind the lines that it admits. What it misses then stands from
its end on, unless it is to be inserted twice. -/
theorem openWalk_split (hstop : ends stop = true) :
    ∃ stop' below', openWalk stop below inside acc =
        admittedLines ends inside acc ++ stop' :: below' ∧ ends stop' = true ∧
      ((missingLines (inside ++ admittedLines ends inside acc) acc).Nodup →
        missingLines (inside ++ admittedLines ends inside acc) acc <+: stop' :: below') := by
  induction acc generalizing inside with
  | nil => exact ⟨stop, below, rfl, hstop, fun _ => List.nil_prefix⟩
  | cons line acc ih =>
    rw [openWalk, admittedLines]
    cases hline : inside.any (· = line) with
    | true =>
      have hinside : (inside ++ admittedLines ends inside acc).any (· = line) = true := by
        rw [List.any_append, hline, Bool.true_or]
      rw [if_pos rfl, if_pos rfl, missingLines_cons_of_mem hinside]
      exact ih inside
    | false =>
      rw [if_neg Bool.false_ne_true, if_neg Bool.false_ne_true]
      cases hends : ends line with
      | true =>
        rw [if_pos rfl, List.append_nil, missingLines_cons_of_not_mem hline]
        split
        · rename_i heq
          refine ⟨_, _, rfl, hstop, fun _ => ?_⟩
          rw [heq, List.cons_prefix_cons]
          exact ⟨rfl, missingLines_prefix_closedWalk⟩
        · refine ⟨_, _, rfl, hends, fun h => ?_⟩
          obtain ⟨hnotin, hnodup⟩ := List.nodup_cons.mp h
          rw [List.cons_prefix_cons, ← missingLines_concat hnotin]
          exact ⟨rfl, missingLines_prefix_openWalk (missingLines_concat hnotin ▸ hnodup)⟩
      | false =>
        have hother : line ≠ stop := fun heq => by
          rw [heq, hstop] at hends
          cases hends
        have hinside : (inside ++ line :: admittedLines ends (inside ++ [line]) acc).any
            (· = line) = true := by
          simp
        obtain ⟨stop', below', hwalk, hrest⟩ := ih (inside ++ [line])
        rw [← List.append_cons] at hrest
        rw [if_neg hother, if_neg Bool.false_ne_true, missingLines_cons_of_mem hinside]
        exact ⟨stop', below', by rw [hwalk, List.cons_append], hrest⟩

/-- The missing lines, each once. -/
def newLines (inside acc : List CString) : List CString := admittedLines (fun _ => false) inside acc

theorem newLines_cons_of_mem (h : inside.any (· = line) = true) :
    newLines inside (line :: acc) = newLines inside acc := by
  rw [newLines, admittedLines, if_pos h]
  rfl

theorem newLines_cons_of_not_mem (h : inside.any (· = line) = false) :
    newLines inside (line :: acc) = line :: newLines (inside ++ [line]) acc := by
  rw [newLines, admittedLines, h]
  rfl

theorem newLines_congr (h : ∀ x, x ∈ inside ↔ x ∈ inside') :
    newLines inside acc = newLines inside' acc := by
  induction acc generalizing inside inside' with
  | nil => rfl
  | cons line acc ih =>
    have hany : inside.any (· = line) = inside'.any (· = line) := by
      rw [Bool.eq_iff_iff]
      simp [h]
    cases hline : inside.any (· = line) with
    | true =>
      rw [newLines_cons_of_mem hline, newLines_cons_of_mem (hany ▸ hline)]
      exact ih h
    | false =>
      rw [newLines_cons_of_not_mem hline, newLines_cons_of_not_mem (hany ▸ hline)]
      exact congrArg (line :: ·) (ih fun x => by simp [h])

theorem missingLines_eq_nil_of_newLines (h : newLines inside acc = []) :
    missingLines inside acc = [] := by
  induction acc with
  | nil => rfl
  | cons line acc ih =>
    cases hline : inside.any (· = line) with
    | true =>
      rw [newLines_cons_of_mem hline] at h
      rw [missingLines_cons_of_mem hline]
      exact ih h
    | false =>
      rw [newLines_cons_of_not_mem hline] at h
      cases h

theorem mem_newLines : line ∈ newLines inside acc ↔ line ∈ missingLines inside acc := by
  induction acc generalizing inside with
  | nil => exact Iff.rfl
  | cons x acc ih =>
    cases hx : inside.any (· = x) with
    | true =>
      rw [newLines_cons_of_mem hx, missingLines_cons_of_mem hx]
      exact ih
    | false =>
      rw [newLines_cons_of_not_mem hx, missingLines_cons_of_not_mem hx, List.mem_cons,
        List.mem_cons, ih, mem_missingLines, mem_missingLines, List.mem_append, List.mem_singleton]
      tauto

end

end Cfengine
