import Mathlib

/-!
# The occurrences of a pattern

The leftmost occurrence of a list in another (`find?`), the fields between the occurrences that are
found from left to right without overlap, and what comes of replacing all of these. The fields
joined with the pattern are the list again (`intercalate_fields`).
-/

namespace Occurrences

variable {α : Type*} [DecidableEq α] {p t u v r f : List α} {c : α} {i : Nat} {fs : List (List α)}

/-- Where the leftmost occurrence starts. -/
def find? (p : List α) : List α → Option Nat
  | [] => if p = [] then some 0 else none
  | c :: t => if p <+: c :: t then some 0 else (find? p t).map (· + 1)

attribute [grind =] find?

theorem find?_eq_zero (h : p <+: t) : find? p t = some 0 := by
  cases t with
  | nil => rw [find?, if_pos (List.prefix_nil.mp h)]
  | cons c t => rw [find?, if_pos h]

theorem find?_cons (h : ¬ p <+: c :: t) : find? p (c :: t) = (find? p t).map (· + 1) := by
  rw [find?, if_neg h]

/-- The leftmost occurrence, with what is in front of it and behind it. -/
theorem find?_eq_some_iff : find? p t = some i ↔
    ∃ u v, t = u ++ (p ++ v) ∧ u.length = i ∧ ∀ j < i, ¬ p <+: t.drop j := by
  induction t generalizing i with
  | nil =>
    constructor
    · intro h
      rw [find?] at h
      split_ifs at h with hp
      cases h
      exact ⟨[], [], by simp [hp], rfl, fun j hj => absurd hj (Nat.not_lt_zero j)⟩
    · rintro ⟨u, v, heq, rfl, -⟩
      obtain ⟨rfl, hrest⟩ := List.append_eq_nil_iff.mp heq.symm
      rw [(List.append_eq_nil_iff.mp hrest).1, find?, if_pos rfl]
      rfl
  | cons c t ih =>
    by_cases hp : p <+: c :: t
    · rw [find?_eq_zero hp, Option.some.injEq]
      constructor
      · rintro rfl
        obtain ⟨v, hv⟩ := hp
        exact ⟨[], v, hv.symm, rfl, fun j hj => absurd hj (Nat.not_lt_zero j)⟩
      · rintro ⟨u, v, -, -, hnone⟩
        by_contra hi
        exact hnone 0 (Nat.pos_of_ne_zero (Ne.symm hi)) hp
    · rw [find?_cons hp, Option.map_eq_some_iff]
      constructor
      · rintro ⟨j, hj, rfl⟩
        obtain ⟨u, v, heq, hu, hnone⟩ := ih.mp hj
        refine ⟨c :: u, v, congrArg (c :: ·) heq, congrArg (· + 1) hu, fun k hk => ?_⟩
        cases k with
        | zero => exact hp
        | succ k => exact hnone k (Nat.lt_of_succ_lt_succ hk)
      · rintro ⟨u, v, heq, rfl, hnone⟩
        cases u with
        | nil => exact absurd ⟨v, heq.symm⟩ hp
        | cons d u =>
          refine ⟨u.length, ih.mpr ⟨u, v, (List.cons_eq_cons.mp heq).2, rfl, fun k hk => ?_⟩, rfl⟩
          exact hnone (k + 1) (Nat.succ_lt_succ hk)

theorem find?_eq_none_iff : find? p t = none ↔ ¬ p <:+: t := by
  induction t with
  | nil =>
    rw [find?, List.infix_nil]
    split_ifs with hp <;> simp [hp]
  | cons c t ih =>
    rw [List.infix_cons_iff]
    by_cases hp : p <+: c :: t
    · simp [find?_eq_zero hp, hp]
    · rw [find?_cons hp, Option.map_eq_none_iff, ih]
      simp [hp]

/-- What is found is there. -/
theorem exists_of_find? (h : find? p t = some i) : ∃ u v, t = u ++ (p ++ v) ∧ u.length = i := by
  obtain ⟨u, v, heq, hu, -⟩ := find?_eq_some_iff.mp h
  exact ⟨u, v, heq, hu⟩

theorem length_drop_lt (hp : p ≠ []) (h : find? p t = some i) :
    (t.drop (i + p.length)).length < t.length := by
  obtain ⟨u, v, rfl, rfl⟩ := exists_of_find? h
  have hpos := List.length_pos_of_ne_nil hp
  simp only [List.length_drop, List.length_append]
  omega

/-! ## Fields -/

/-- What is between the occurrences. -/
def fields (p t : List α) : List (List α) :=
  if _hp : p = [] then [t]
  else
    match _h : find? p t with
    | none => [t]
    | some i => t.take i :: fields p (t.drop (i + p.length))
termination_by t.length
decreasing_by exact length_drop_lt _hp _h

attribute [grind =] fields

theorem fields_of_none (h : find? p t = none) : fields p t = [t] := by
  rw [fields]
  split_ifs with hp
  · rfl
  · split
    · rfl
    · next hsome => rw [h] at hsome; cases hsome

theorem fields_of_some (hp : p ≠ []) (h : find? p t = some i) :
    fields p t = t.take i :: fields p (t.drop (i + p.length)) := by
  rw [fields, dif_neg hp]
  split
  · next hnone => rw [h] at hnone; cases hnone
  · next j hsome =>
    rw [h] at hsome
    cases hsome
    rfl

/-- The fields by recursion on what follows the leftmost occurrence. -/
theorem fields_induction {motive : List α → Prop} (hp : p ≠ [])
    (none : ∀ t, find? p t = none → motive t)
    (some : ∀ u v, find? p (u ++ (p ++ v)) = some u.length →
      fields p (u ++ (p ++ v)) = u :: fields p v → motive v → motive (u ++ (p ++ v))) (t : List α) :
    motive t := by
  induction hn : t.length using Nat.strong_induction_on generalizing t with
  | _ n ih =>
    cases h : find? p t with
    | none => exact none t h
    | some i =>
      have hlt := length_drop_lt hp h
      have hfields := fields_of_some hp h
      obtain ⟨u, v, rfl, rfl⟩ := exists_of_find? h
      have hdrop : (u ++ (p ++ v)).drop (u.length + p.length) = v := by
        rw [← List.drop_drop, List.drop_left, List.drop_left]
      rw [hdrop] at hlt hfields
      rw [List.take_left] at hfields
      exact some u v h hfields (ih _ (hn ▸ hlt) v rfl)

theorem fields_ne_nil : fields p t ≠ [] := by
  rw [fields]
  split_ifs
  · exact List.cons_ne_nil _ _
  · split <;> exact List.cons_ne_nil _ _

/-- The fields, joined with the pattern. -/
theorem intercalate_fields (hp : p ≠ []) (t : List α) : p.intercalate (fields p t) = t := by
  induction t using fields_induction hp with
  | none t h => rw [fields_of_none h, List.intercalate_singleton]
  | some u v _ hfields ih =>
    rw [hfields]
    obtain ⟨f, fs, hf⟩ := List.exists_cons_of_ne_nil (@fields_ne_nil α _ p v)
    rw [hf] at ih ⊢
    rw [List.intercalate_cons_cons, ih, List.append_assoc]

/-! ## Replacing occurrences -/

/-- The list with `r` for every occurrence of `p`. -/
def replaceAll (p r t : List α) : List α := r.intercalate (fields p t)

/-- The list with `r` for the leftmost occurrence of `p`. -/
def replaceFirst (p r t : List α) : List α :=
  match find? p t with
  | none => t
  | some i => t.take i ++ r ++ t.drop (i + p.length)

/-- The lists from the joined fields to the ones joined with `r`, behind `front`: the occurrences of
`p` are replaced one after the other. -/
def stages (p r front : List α) : List (List α) → List (List α)
  | [] => []
  | [f] => [front ++ f]
  | f :: g :: fs => (front ++ p.intercalate (f :: g :: fs)) :: stages p r
      (front ++ f ++ r) (g :: fs)

attribute [grind =] stages

/-- Replacing the leftmost occurrence again and again goes through the occurrences in order. -/
def InOrder (p r t : List α) : Prop :=
  (stages p r [] (fields p t)).IsChain fun t t' => replaceFirst p r t = t'

theorem replaceFirst_append (h : find? p (u ++ (p ++ v)) = some u.length) :
    replaceFirst p r (u ++ (p ++ v)) = u ++ r ++ v := by
  rw [replaceFirst, h]
  dsimp only
  rw [List.take_left, ← List.drop_drop, List.drop_left, List.drop_left]

omit [DecidableEq α] in
theorem head?_stages (hfs : fs ≠ []) (front : List α) :
    (stages p r front fs).head? = some (front ++ p.intercalate fs) := by
  obtain ⟨f, fs, rfl⟩ := List.exists_cons_of_ne_nil hfs
  cases fs with
  | nil => rw [stages, List.intercalate_singleton, List.head?_cons]
  | cons g fs => rfl

omit [DecidableEq α] in
/-- A list that is joined with something longer is longer. -/
theorem length_intercalate_mono (h : p.length ≤ r.length) (fs : List (List α)) :
    (p.intercalate fs).length ≤ (r.intercalate fs).length := by
  induction fs with
  | nil => exact Nat.le_refl _
  | cons f fs ih =>
    cases fs with
    | nil => rw [List.intercalate_singleton, List.intercalate_singleton]
    | cons g fs =>
      simp only [List.intercalate_cons_cons, List.length_append]
      omega

/-! ### Patterns that do not overlap themselves -/

/-- Nothing that `p` starts with is what it ends with. -/
def NoBorder (p : List α) : Prop := ∀ u, u ≠ [] → u ≠ p → u <+: p → ¬ u <:+ p

/-- Two occurrences of such a pattern are not less than its length apart. -/
theorem NoBorder.find?_append (h : NoBorder p) (hu : ¬ p <:+: u) :
    find? p (u ++ (p ++ v)) = some u.length := by
  refine find?_eq_some_iff.mpr ⟨u, v, rfl, rfl, fun j hj hstarts => ?_⟩
  rw [List.drop_append_of_le_length hj.le] at hstarts
  obtain ⟨w, hw⟩ := hstarts
  rcases List.append_eq_append_iff.mp hw with ⟨x, hx, -⟩ | ⟨x, hx, hrest⟩
  · exact hu (List.IsInfix.trans ⟨[], x, hx.symm⟩ (List.drop_suffix j u).isInfix)
  · have hdrop : 0 < (u.drop j).length := by
      rw [List.length_drop]
      omega
    have hlength := congrArg List.length hx
    rw [List.length_append] at hlength
    refine h x ?_ ?_ ?_ ⟨_, hx.symm⟩
    · rintro rfl
      rw [List.append_nil] at hx
      exact hu (hx ▸ (List.drop_suffix j u).isInfix)
    · rintro rfl
      omega
    · exact List.prefix_of_prefix_length_le ⟨w, hrest.symm⟩ ⟨v, rfl⟩ (by omega)

/-- The occurrences of such a pattern are replaced in order. -/
theorem NoBorder.inOrder (h : NoBorder p) (hnone : ¬ p <:+: replaceAll p r t) :
    InOrder p r t := by
  suffices ∀ fs : List (List α), ∀ front, fs ≠ [] → ¬ p <:+: front ++ r.intercalate fs →
      (stages p r front fs).IsChain fun t t' => replaceFirst p r t = t' from
    this _ [] fields_ne_nil hnone
  intro fs
  induction fs with
  | nil => exact fun front hne => absurd rfl hne
  | cons f fs ih =>
    intro front _ hnone
    cases fs with
    | nil => exact List.isChain_singleton _
    | cons g fs =>
      rw [List.intercalate_cons_cons] at hnone
      have hrest := ih (front ++ f ++ r) (List.cons_ne_nil _ _) (by simpa using hnone)
      have hfound : find? p (front ++ f ++ (p ++ p.intercalate (g :: fs))) =
          some (front ++ f).length :=
        h.find?_append fun hwithin =>
          hnone (hwithin.trans ⟨[], r ++ r.intercalate (g :: fs), by simp⟩)
      rw [stages, List.isChain_cons]
      refine ⟨fun t' ht' => ?_, hrest⟩
      rw [head?_stages (List.cons_ne_nil _ _)] at ht'
      obtain rfl := Option.some.inj ht'
      have hstep := replaceFirst_append (r := r) hfound
      rwa [show front ++ p.intercalate (f :: g :: fs) =
        front ++ f ++ (p ++ p.intercalate (g :: fs)) by simp [List.intercalate_cons_cons]]

end Occurrences
