import Cfengine.Iteration

/-!
# What a list iteration visits

The wheels behind a wheel stand still while it turns (`turn`), and step once when it has come to a
null. `Visits` is the loop as a relation; from the visits of the wheels `R` the visits of
`wheel :: R` are put together turn by turn. For lists without null elements these are all
combinations (`iterationLoop_visits`). In general they are the combinations of the elements that
`reachable` keeps, which are all of them exactly when the nulls are where `NullsTrail` allows them.
-/

namespace Cfengine

/-- The elements at which the wheels are, if there are such and none of them is null. -/
def combination : List Wheel → Option (List Rval)
  | [] => some []
  | wheel :: rest =>
    match wheel.statePtr with
    | [] => none
    | item :: _ => if item.isNullValue then none else (combination rest).map (item :: ·)

attribute [grind =] combination

theorem combination_of_null {wheel : Wheel} {rest : List Wheel} (hs : wheel.statePtr = []) :
    combination (wheel :: rest) = none := by
  simp [combination, hs]

theorem combination_of_cons {wheel : Wheel} {rest : List Wheel} {item : Rval} {next : List Rval}
    (hs : wheel.statePtr = item :: next) : combination (wheel :: rest) =
      if item.isNullValue then none else (combination rest).map (item :: ·) := by
  simp [combination, hs]

/-- The loop runs its body in the contexts `visits` and ends in `last`. -/
inductive Visits : List Wheel → List (List Wheel) → List Wheel → Prop
  | last {lol lol'} : incrementIterationContext lol = some (false, lol') → Visits lol [lol] lol'
  | more {lol lol' visits last} : incrementIterationContext lol = some (true, lol') →
    Visits lol' visits last → Visits lol (lol :: visits) last

theorem Visits.iterationLoop_eq {lol last : List Wheel} {visits : List (List Wheel)}
    (h : Visits lol visits last) {fuel : Nat} (hfuel : visits.length ≤ fuel) :
    iterationLoop fuel lol = some (visits, last) := by
  induction h generalizing fuel with
  | last h =>
    obtain ⟨fuel, rfl⟩ := Nat.exists_eq_succ_of_ne_zero (Nat.ne_of_gt hfuel)
    simp [iterationLoop, h]
  | more h _ ih =>
    rw [List.length_cons] at hfuel
    obtain ⟨fuel, rfl⟩ := Nat.exists_eq_succ_of_ne_zero (by omega : fuel ≠ 0)
    simp [iterationLoop, h, ih (by omega : _ ≤ fuel)]

namespace Wheel

/-- The wheel turned to another node. -/
def setState (wheel : Wheel) (statePtr : List Rval) : Wheel := { wheel with statePtr }

@[simp] theorem statePtr_setState (wheel : Wheel) (s : List Rval) :
    (wheel.setState s).statePtr = s := rfl

@[simp] theorem rval_setState (wheel : Wheel) (s : List Rval) :
    (wheel.setState s).rval = wheel.rval := rfl

@[simp] theorem setState_setState (wheel : Wheel) (s s' : List Rval) :
    (wheel.setState s).setState s' = wheel.setState s' := rfl

theorem setState_self {wheel : Wheel} {s : List Rval} (h : wheel.statePtr = s) :
    wheel.setState s = wheel := by
  subst h
  rfl

/-- A wheel over `elements` between the two sentinels. -/
structure Over (wheel : Wheel) (elements : List Rval) : Prop where
  rval : wheel.rval = .scalar cfNullValue :: (elements ++ [.scalar cfNullValue])
  suffix : wheel.statePtr <:+ elements ++ [.scalar cfNullValue]

def Wf (wheel : Wheel) : Prop := ∃ elements, wheel.Over elements

end Wheel

@[simp] theorem isNullValue_cfNullValue : (Rval.scalar cfNullValue).isNullValue = true := by
  simp [Rval.isNullValue]

variable {wheel : Wheel} {R R' lol lol' last : List Wheel} {visits : List (List Wheel)}
  {x y : Rval} {s t elements start : List Rval} {more : Bool}

/-! ## The equations of a step -/

theorem increment_of_null (hs : wheel.statePtr = []) :
    incrementIterationContext (wheel :: R) = some (false, wheel :: R) := by
  simp [incrementIterationContext, hs]

theorem reset_setState (hrval : wheel.rval = y :: start) :
    (wheel.setState s).reset = some (wheel.setState start) := by
  simp [Wheel.reset, hrval, rlistNext, Wheel.setState]

theorem increment_of_last (hs : wheel.statePtr = [x]) (hrval : wheel.rval = y :: start)
    (hR : incrementIterationContext R = some (more, R')) :
    incrementIterationContext (wheel :: R) =
      some (more, (if more then wheel.setState start else wheel) :: R') := by
  have hreset := reset_setState (s := [x]) hrval
  rw [Wheel.setState_self hs] at hreset
  cases R with
  | nil =>
    obtain ⟨rfl, rfl⟩ : false = more ∧ [] = R' := by simpa [incrementIterationContext] using hR
    simp [incrementIterationContext, hs]
  | cons wheel' R =>
    rw [incrementIterationContext.eq_def]
    cases more <;> simp [hs, hR, hreset]

theorem increment_advance (hs : wheel.statePtr = x :: y :: t)
    (hnull : nullIterators (wheel.setState (y :: t) :: R) = false) :
    incrementIterationContext (wheel :: R) =
      some (!endOfIteration (wheel.setState (y :: t) :: R), wheel.setState (y :: t) :: R) := by
  rw [Wheel.setState] at hnull ⊢
  rw [incrementIterationContext.eq_def]
  simp [hs, hnull]

theorem increment_carry (hs : wheel.statePtr = x :: y :: t) (hrval : wheel.rval = x' :: start)
    (hnull : nullIterators (wheel.setState (y :: t) :: R) = true)
    (hR : incrementIterationContext R = some (more, R')) :
    incrementIterationContext (wheel :: R) =
      if more then some (true, wheel.setState start :: R')
      else some (!endOfIteration (wheel.setState t :: R'), wheel.setState t :: R') := by
  have hreset := reset_setState (s := y :: t) hrval
  rw [Wheel.setState] at hnull hreset
  rw [incrementIterationContext.eq_def]
  cases more <;> simp [hs, hnull, hR, hreset, rlistNext, Wheel.setState]

@[simp] theorem nullIterators_setState :
    nullIterators (wheel.setState (y :: t) :: R) = (y.isNullValue || nullIterators R) := rfl

theorem endOfIteration_cons :
    endOfIteration (wheel :: R) = (decide (wheel.statePtr.length ≤ 1) && endOfIteration R) := rfl

/-! ## What every step does -/

theorem Wheel.Over.setState (h : wheel.Over elements)
    (hs : s <:+ elements ++ [.scalar cfNullValue]) : (wheel.setState s).Over elements :=
  ⟨h.rval, hs⟩

/-- A rest of the padded list that is not its end has another node behind it. -/
theorem ne_nil_of_suffix (hs : x :: s <:+ elements ++ [.scalar cfNullValue])
    (hx : x.isNullValue = false) : s ≠ [] := by
  rintro rfl
  obtain ⟨pre, hpre⟩ := hs
  obtain rfl := (List.append_inj_right' hpre rfl |> List.singleton_inj.mp)
  simp at hx

theorem eq_of_suffix_of_length_le (hs : s <:+ elements ++ [.scalar cfNullValue])
    (hlen : s.length ≤ 1) : s = [] ∨ s = [.scalar cfNullValue] := by
  match s, hlen with
  | [], _ => exact .inl rfl
  | [x], _ =>
    obtain ⟨pre, hpre⟩ := hs
    exact .inr (List.append_inj_right' hpre rfl)

/-- The last wheel is at the sentinel at its end or at `NULL`: no combination is left. -/
def Dead : List Wheel → Prop
  | [] => False
  | [wheel] => wheel.statePtr = [] ∨ wheel.statePtr = [.scalar cfNullValue]
  | _ :: rest => Dead rest

theorem Dead.cons (h : Dead R) : Dead (wheel :: R) := by
  cases R with
  | nil => cases h
  | cons _ _ => exact h

theorem Dead.combination (h : Dead lol) : combination lol = none := by
  induction lol with
  | nil => cases h
  | cons wheel R ih =>
    cases hs : wheel.statePtr with
    | nil => exact combination_of_null hs
    | cons item next =>
      rw [combination_of_cons hs]
      cases R with
      | nil =>
        obtain rfl : item = .scalar cfNullValue := by
          rcases h with h | h <;> rw [hs] at h <;> cases h
          rfl
        rw [isNullValue_cfNullValue, if_pos rfl]
      | cons wheel' R => rw [ih h, Option.map_none, ite_self]

theorem combination_of_nullIterators (h : nullIterators lol = true) : combination lol = none := by
  induction lol with
  | nil => cases h
  | cons wheel R ih =>
    cases hs : wheel.statePtr with
    | nil => exact combination_of_null hs
    | cons item next =>
      rw [← Wheel.setState_self hs, nullIterators_setState, Bool.or_eq_true] at h
      rw [combination_of_cons hs]
      rcases h with h | h
      · rw [if_pos h]
      · rw [ih h, Option.map_none, ite_self]

/-- The turns that are left, as a number with one digit for each wheel. -/
def remaining : List Wheel → Nat
  | [] => 0
  | wheel :: rest => wheel.statePtr.length + wheel.rval.length * remaining rest

/-- The first wheel after a step, when the step of the wheels behind it is known. -/
theorem increment_cons_spec (h : wheel.Over elements)
    (hR : incrementIterationContext R = some (more, R'))
    (hrem : remaining R' + more.toNat ≤ remaining R) :
    ∃ more₁ s R₁, incrementIterationContext (wheel :: R) = some (more₁, wheel.setState s :: R₁) ∧
      s <:+ elements ++ [.scalar cfNullValue] ∧ (R₁ = R ∨ R₁ = R') ∧
      remaining (wheel.setState s :: R₁) + more₁.toNat ≤ remaining (wheel :: R) ∧
      (more = false → wheel.statePtr.length ≤ 1 → s = wheel.statePtr) := by
  have hlen : wheel.rval.length = (elements ++ [Rval.scalar cfNullValue]).length + 1 := by
    rw [h.rval, List.length_cons]
  have hmul : wheel.rval.length * remaining R' + wheel.rval.length * more.toNat ≤
      wheel.rval.length * remaining R := by
    rw [← Nat.mul_add]
    exact Nat.mul_le_mul_left _ hrem
  simp only [remaining, Wheel.statePtr_setState, Wheel.rval_setState]
  match hs : wheel.statePtr with
  | [] =>
    refine ⟨false, [], R, ?_, List.nil_suffix, .inl rfl, by simp, fun _ _ => rfl⟩
    rw [increment_of_null hs, Wheel.setState_self hs]
  | [x] =>
    have hinc := increment_of_last hs h.rval hR
    cases more with
    | true =>
      refine ⟨true, _, R', hinc, List.suffix_refl _, .inr rfl, ?_, nofun⟩
      simp only [Bool.toNat_true] at hmul ⊢
      omega
    | false =>
      refine ⟨false, [x], R', ?_, hs ▸ h.suffix, .inr rfl, ?_, fun _ _ => rfl⟩
      · rw [Wheel.setState_self hs]
        exact hinc
      · simp only [Bool.toNat_false] at hmul ⊢
        omega
  | x :: y :: t =>
    have hsuffix : x :: y :: t <:+ elements ++ [.scalar cfNullValue] := hs ▸ h.suffix
    have hnext := (List.suffix_cons x (y :: t)).trans hsuffix
    have hlong : ¬ (x :: y :: t).length ≤ 1 := by simp
    cases hnull : nullIterators (wheel.setState (y :: t) :: R) with
    | false =>
      refine ⟨_, y :: t, R, increment_advance hs hnull, hnext, .inl rfl, ?_,
        fun _ hle => absurd hle hlong⟩
      have := Bool.toNat_le (!endOfIteration (wheel.setState (y :: t) :: R))
      simp only [List.length_cons]
      omega
    | true =>
      have hinc := increment_carry hs h.rval hnull hR
      cases more with
      | true =>
        refine ⟨true, _, R', hinc, List.suffix_refl _, .inr rfl, ?_, nofun⟩
        simp only [Bool.toNat_true] at hmul ⊢
        omega
      | false =>
        refine ⟨_, t, R', hinc, (List.suffix_cons y t).trans hnext, .inr rfl, ?_,
          fun _ hle => absurd hle hlong⟩
        have := Bool.toNat_le (!endOfIteration (wheel.setState t :: R'))
        simp only [List.length_cons, Bool.toNat_false] at hmul ⊢
        omega

/-- One step reads no `NULL` pointer, keeps the wheels in their lists, takes from the remaining
turns if it goes on, and does not revive a dead context. -/
theorem increment_spec (h : ∀ wheel ∈ lol, wheel.Wf) :
    ∃ more lol', incrementIterationContext lol = some (more, lol') ∧
      (∀ wheel ∈ lol', wheel.Wf) ∧ remaining lol' + more.toNat ≤ remaining lol ∧
      (Dead lol → Dead lol') := by
  induction lol with
  | nil => exact ⟨false, [], rfl, h, Nat.le_refl _, id⟩
  | cons wheel R ih =>
    obtain ⟨⟨elements, hover⟩, hR⟩ := List.forall_mem_cons.mp h
    obtain ⟨more, R', hinc, hR', hrem, hdead⟩ := ih hR
    obtain ⟨more₁, s, R₁, hinc₁, hs, hR₁, hrem₁, hkeep⟩ := increment_cons_spec hover hinc hrem
    refine ⟨more₁, _, hinc₁, List.forall_mem_cons.mpr ⟨⟨elements, hover.setState hs⟩, ?_⟩, hrem₁,
      ?_⟩
    · rcases hR₁ with rfl | rfl
      · exact hR
      · exact hR'
    · cases R with
      | nil =>
        obtain ⟨rfl, rfl⟩ : false = more ∧ [] = R' := by
          simpa [incrementIterationContext] using hinc
        obtain rfl : R₁ = [] := hR₁.elim id id
        intro hdead
        rw [hkeep rfl (by rcases hdead with hs | hs <;> simp [hs])]
        exact hdead
      | cons wheel' R =>
        intro hd
        rcases hR₁ with rfl | rfl
        · exact Dead.cons hd
        · exact Dead.cons (hdead hd)

theorem Visits.dead (hv : Visits lol visits last) (h : ∀ wheel ∈ lol, wheel.Wf) (hd : Dead lol) :
    visits.filterMap combination = [] ∧ Dead last := by
  induction hv with
  | last hinc =>
    obtain ⟨more, lol', hinc', -, -, hdead⟩ := increment_spec h
    obtain ⟨rfl, rfl⟩ : _ ∧ _ := by simpa [hinc] using hinc'
    exact ⟨by simp [hd.combination], hdead hd⟩
  | more hinc _ ih =>
    obtain ⟨more, lol', hinc', hwf, -, hdead⟩ := increment_spec h
    obtain ⟨rfl, rfl⟩ : _ ∧ _ := by simpa [hinc] using hinc'
    obtain ⟨hvisits, hlast⟩ := ih hwf (hdead hd)
    exact ⟨by rw [List.filterMap_cons_none hd.combination, hvisits], hlast⟩

/-- The loop ends. -/
theorem exists_visits (h : ∀ wheel ∈ lol, wheel.Wf) : ∃ visits last, Visits lol visits last := by
  induction hn : remaining lol using Nat.strongRecOn generalizing lol with
  | ind n ih =>
    obtain ⟨more, lol', hinc, hwf, hrem, -⟩ := increment_spec h
    cases more with
    | false => exact ⟨_, _, .last hinc⟩
    | true =>
      obtain ⟨visits, last, hv⟩ := ih _ (by rw [← hn]; exact hrem) hwf rfl
      exact ⟨_, _, .more hinc hv⟩

/-! ## One turn of the first wheel -/

/-- The nodes at which a wheel stops before the wheels behind it step: up to the next null, or
only the first one if one of the wheels behind it is at a null. -/
def turn (blocked : Bool) : List Rval → List (List Rval)
  | x :: y :: t =>
    if y.isNullValue || blocked then [x :: y :: t] else (x :: y :: t) :: turn blocked (y :: t)
  | s => [s]

/-- A turn is visited up to the step of the wheels behind it. -/
theorem visits_turn {Q : List (List Wheel) → List Wheel → Prop}
    (hend : ∀ x y t, x :: y :: t <:+ elements ++ [.scalar cfNullValue] →
      (y.isNullValue || nullIterators R) = true → ∃ visits last,
        Visits (wheel.setState (x :: y :: t) :: R)
          ((wheel.setState (x :: y :: t) :: R) :: visits) last ∧ Q visits last)
    (hs : x :: y :: t <:+ elements ++ [.scalar cfNullValue]) :
    ∃ visits last, Visits (wheel.setState (x :: y :: t) :: R)
        ((turn (nullIterators R) (x :: y :: t)).map (fun s => wheel.setState s :: R) ++ visits)
        last ∧ Q visits last := by
  induction t generalizing x y with
  | nil =>
    have hnext := (List.suffix_cons x [y]).trans hs
    have hy : y.isNullValue = true := by
      by_contra hy
      exact ne_nil_of_suffix hnext (Bool.not_eq_true _ ▸ hy) rfl
    obtain ⟨visits, last, hv, hq⟩ := hend x y [] hs (by rw [hy, Bool.true_or])
    exact ⟨visits, last, by simpa [turn, hy] using hv, hq⟩
  | cons z t ih =>
    have hnext := (List.suffix_cons x (y :: z :: t)).trans hs
    cases hnull : y.isNullValue || nullIterators R with
    | true =>
      obtain ⟨visits, last, hv, hq⟩ := hend x y (z :: t) hs hnull
      refine ⟨visits, last, ?_, hq⟩
      rw [turn, if_pos hnull]
      exact hv
    | false =>
      obtain ⟨visits, last, hv, hq⟩ := ih hnext
      refine ⟨visits, last, ?_, hq⟩
      rw [turn, if_neg (by simp [hnull]), List.map_cons, List.cons_append]
      have hinc := increment_advance (Wheel.statePtr_setState wheel (x :: y :: z :: t)) (R := R)
        (by rw [Wheel.setState_setState, nullIterators_setState, hnull])
      rw [Wheel.setState_setState, endOfIteration_cons] at hinc
      exact .more hinc hv

/-- The elements of a list at which its wheel stops, unless it is the last wheel. -/
def kept (elements : List Rval) : List Rval :=
  (elements.take 1).filter (fun x => !x.isNullValue) ++
    (elements.drop 1).takeWhile (fun x => !x.isNullValue)

theorem kept_cons_of_value (hy : y.isNullValue = false) :
    kept (x :: y :: t) = (if x.isNullValue then [] else [x]) ++ kept (y :: t) := by
  cases hx : x.isNullValue <;> simp [kept, hx, hy]

theorem kept_cons_of_null (hy : y.isNullValue = true) :
    kept (x :: y :: t) = if x.isNullValue then [] else [x] := by
  cases hx : x.isNullValue <;> simp [kept, hx, hy]

theorem kept_padded : kept (x :: (elements ++ [.scalar cfNullValue])) = kept (x :: elements) := by
  have htake : (elements ++ [Rval.scalar cfNullValue]).takeWhile (fun x => !x.isNullValue) =
      elements.takeWhile (fun x => !x.isNullValue) := by
    induction elements with
    | nil => simp
    | cons y elements ih => cases hy : y.isNullValue <;> simp [hy, ih]
  simp [kept, htake]

/-- The combinations that are visited at one node. -/
theorem toList_combination_setState :
    (combination (wheel.setState (x :: s) :: R)).toList =
      (combination R).toList.flatMap fun c => (if x.isNullValue then [] else [x]).map (· :: c) := by
  rw [combination_of_cons (Wheel.statePtr_setState _ _)]
  cases x.isNullValue <;> cases combination R <;> simp

/-- The combinations that are visited during one turn. -/
theorem flatMap_turn : (turn (nullIterators R) (x :: s)).flatMap
      (fun s => (combination (wheel.setState s :: R)).toList) =
    (combination R).toList.flatMap fun c => (kept (x :: s)).map (· :: c) := by
  induction s generalizing x with
  | nil =>
    rw [turn, List.flatMap_singleton, toList_combination_setState]
    · cases hx : x.isNullValue <;> simp [kept, hx]
    · simp
  | cons y t ih =>
    cases hR : nullIterators R with
    | true =>
      rw [turn, if_pos (Bool.or_true _), List.flatMap_singleton, toList_combination_setState,
        combination_of_nullIterators hR]
      rfl
    | false =>
      rw [hR] at ih
      cases hy : y.isNullValue with
      | true =>
        rw [turn, if_pos (by rw [hy, Bool.true_or]), List.flatMap_singleton,
          toList_combination_setState, kept_cons_of_null hy]
      | false =>
        rw [turn, if_neg (by simp [hy]), List.flatMap_cons, ih, toList_combination_setState,
          kept_cons_of_value hy]
        cases combination R <;> simp

theorem filterMap_turn : ((turn (nullIterators R) (x :: s)).map fun s =>
      wheel.setState s :: R).filterMap combination =
    (combination R).toList.flatMap fun c => (kept (x :: s)).map (· :: c) := by
  rw [List.filterMap_eq_flatMap_toList, List.flatMap_map, flatMap_turn]

/-- The visits of a list of wheels, from those of the wheels behind the first one. -/
theorem visits_cons (hv : Visits R visits last) (hwf : ∀ wheel ∈ R, wheel.Wf) (hd : Dead last)
    (hover : wheel.Over (x :: elements)) :
    ∃ visits' last',
      Visits (wheel.setState (x :: (elements ++ [.scalar cfNullValue])) :: R) visits' last' ∧
      Dead last' ∧ visits'.filterMap combination =
        (visits.filterMap combination).flatMap fun c => (kept (x :: elements)).map (· :: c) := by
  obtain ⟨y, t, hstart⟩ := List.exists_cons_of_ne_nil
    (show elements ++ [Rval.scalar cfNullValue] ≠ [] by simp)
  have hfull : x :: y :: t <:+ x :: elements ++ [.scalar cfNullValue] := by
    exact ⟨[], by rw [List.nil_append, List.cons_append, hstart]⟩
  have hkept : kept (x :: y :: t) = kept (x :: elements) := by rw [← hstart, kept_padded]
  rw [hstart]
  induction hv with
  | @last R R' hinc =>
    obtain ⟨more, R'', hinc', hwf', -, -⟩ := increment_spec hwf
    obtain ⟨rfl, rfl⟩ : _ ∧ _ := by simpa [hinc] using hinc'
    -- the wheels behind are dead: what the first wheel still does visits no combination
    obtain ⟨visits, last, hv, hnone, hdead⟩ := visits_turn
      (Q := fun visits last => visits.filterMap combination = [] ∧ Dead last)
      (fun x' y' t' hs hnull => by
        have hcarry :=
        increment_carry (Wheel.statePtr_setState wheel (x' :: y' :: t')) hover.rval hnull hinc
        rw [if_neg Bool.false_ne_true, Wheel.setState_setState] at hcarry
        have ht := ((List.suffix_cons y' t').trans (List.suffix_cons x' _)).trans hs
        have hwf₁ : ∀ wheel₁ ∈ wheel.setState t' :: R', wheel₁.Wf :=
          List.forall_mem_cons.mpr ⟨⟨_, hover.setState ht⟩, hwf'⟩
        cases hend : endOfIteration (wheel.setState t' :: R') with
        | true =>
          rw [hend] at hcarry
          exact ⟨[], _, .last hcarry, rfl, Dead.cons hd⟩
        | false =>
          rw [hend] at hcarry
          obtain ⟨visits, last, hv⟩ := exists_visits hwf₁
          exact ⟨visits, last, .more hcarry hv, hv.dead hwf₁ (Dead.cons hd)⟩) hfull
    refine ⟨_, last, hv, hdead, ?_⟩
    rw [List.filterMap_append, hnone, List.append_nil, filterMap_turn, hkept,
      List.filterMap_eq_flatMap_toList, List.flatMap_singleton]
  | @more R R' visits last hinc hv ih =>
    obtain ⟨more, R'', hinc', hwf', -, -⟩ := increment_spec hwf
    obtain ⟨rfl, rfl⟩ : _ ∧ _ := by simpa [hinc] using hinc'
    obtain ⟨visits₁, last₁, hv₁, hdead, hcomb⟩ := ih hwf' hd
    obtain ⟨_, _, hv', rfl, rfl⟩ := visits_turn
      (Q := fun visits last => visits = visits₁ ∧ last = last₁)
      (fun x' y' t' _ hnull => by
        have hcarry :=
        increment_carry (Wheel.statePtr_setState wheel (x' :: y' :: t')) hover.rval hnull hinc
        rw [if_pos rfl, Wheel.setState_setState, List.cons_append, hstart] at hcarry
        exact ⟨visits₁, last₁, .more hcarry hv₁, rfl, rfl⟩) hfull
    refine ⟨_, _, hv', hdead, ?_⟩
    rw [List.filterMap_append, filterMap_turn, hkept, hcomb]
    cases hR : combination R with
    | none => rw [List.filterMap_cons_none hR]; rfl
    | some c => rw [List.filterMap_cons_some hR, List.flatMap_cons]; simp

/-- The visits of a single wheel. Here a null is skipped, since there is nothing to carry into. -/
theorem visits_single (hover : wheel.Over elements)
    (hs : x :: s <:+ elements ++ [.scalar cfNullValue]) :
    ∃ visits last, Visits [wheel.setState (x :: s)] visits last ∧ Dead last ∧
      visits.filterMap combination = ((x :: s).filter fun x => !x.isNullValue).map ([·]) := by
  induction hn : s.length using Nat.strongRecOn generalizing x s with
  | ind n ih =>
    have hcomb : (combination [wheel.setState (x :: s)]).toList =
        ([x].filter fun x => !x.isNullValue).map ([·]) := by
      rw [toList_combination_setState]
      cases hx : x.isNullValue <;> simp [combination, hx]
    have hsplit : ∀ {visits}, visits.filterMap combination =
          (s.filter fun x => !x.isNullValue).map ([·]) →
        ([wheel.setState (x :: s)] :: visits).filterMap combination =
          ((x :: s).filter fun x => !x.isNullValue).map ([·]) := by
      intro visits hvisits
      rw [List.filterMap_eq_flatMap_toList, List.flatMap_cons, hcomb,
        ← List.filterMap_eq_flatMap_toList, hvisits, ← List.map_append, ← List.filter_append,
        List.singleton_append]
    have hnil : incrementIterationContext [] = some (false, []) := rfl
    cases s with
    | nil =>
      have hinc := increment_of_last (Wheel.statePtr_setState wheel [x]) hover.rval hnil
      rw [if_neg Bool.false_ne_true] at hinc
      refine ⟨_, _, .last hinc, ?_, hsplit rfl⟩
      exact eq_of_suffix_of_length_le hs (Nat.le_refl 1)
    | cons y t =>
      have hy := (List.suffix_cons x (y :: t)).trans hs
      have ht := (List.suffix_cons y t).trans hy
      subst hn
      cases hnull : y.isNullValue with
      | false =>
        have hinc := increment_advance (Wheel.statePtr_setState wheel (x :: y :: t)) (R := [])
          (by rw [Wheel.setState_setState, nullIterators_setState, hnull]; rfl)
        obtain ⟨z, t, rfl⟩ := List.exists_cons_of_ne_nil (ne_nil_of_suffix hy hnull)
        obtain ⟨visits, last, hv, hd, hvisits⟩ := ih _ (Nat.lt_succ_self _) hy rfl
        exact ⟨_, last, .more hinc hv, hd, hsplit hvisits⟩
      | true =>
        have hinc :=
          increment_carry (Wheel.statePtr_setState wheel (x :: y :: t)) (R := []) hover.rval
          (by rw [Wheel.setState_setState, nullIterators_setState, hnull]; rfl) hnil
        rw [if_neg Bool.false_ne_true, Wheel.setState_setState] at hinc
        have hskip : ((y :: t).filter fun x => !x.isNullValue) = t.filter fun x =>
            !x.isNullValue := by
          simp [hnull]
        rw [hskip] at hsplit
        rcases t with _ | ⟨z, _ | ⟨z', t⟩⟩
        · exact ⟨_, _, .last hinc, .inl rfl, hsplit rfl⟩
        · have hz := eq_of_suffix_of_length_le ht (Nat.le_refl 1)
          refine ⟨_, _, .last hinc, hz, hsplit ?_⟩
          obtain rfl : z = .scalar cfNullValue := by simpa using hz
          simp
        · obtain ⟨visits, last, hv, hd, hvisits⟩ := ih (z' :: t).length (by simp) ht rfl
          exact ⟨_, last, .more hinc hv, hd, hsplit hvisits⟩

/-! ## All wheels -/

/-- The elements that are combined with the others. -/
def reachable : List (List Rval) → List (List Rval)
  | [] => []
  | [elements] => [elements.filter fun x => !x.isNullValue]
  | elements :: lists => kept elements :: reachable lists

/-- A wheel of `NewIterationContext`. -/
structure Wheel.AtStart (wheel : Wheel) (elements : List Rval) : Prop where
  rval : wheel.rval = .scalar cfNullValue :: (elements ++ [.scalar cfNullValue])
  statePtr : wheel.statePtr = elements ++ [.scalar cfNullValue]

theorem Wheel.AtStart.over (h : wheel.AtStart elements) : wheel.Over elements :=
  ⟨h.rval, h.statePtr ▸ List.suffix_refl _⟩

theorem wf_of_atStart {lists : List (List Rval)} (h : List.Forall₂ Wheel.AtStart lol lists) :
    ∀ wheel ∈ lol, wheel.Wf := by
  induction h with
  | nil => exact List.forall_mem_nil _
  | cons hw _ ih => exact List.forall_mem_cons.mpr ⟨⟨_, hw.over⟩, ih⟩

/-- The combinations that the loop visits from the start, in this order. -/
theorem visits_of_atStart {lists : List (List Rval)} (h : List.Forall₂ Wheel.AtStart lol lists)
    (hne : ∀ elements ∈ lists, elements ≠ []) :
    ∃ visits last, Visits lol visits last ∧ (lol ≠ [] → Dead last) ∧
      visits.filterMap combination = (reachable lists).sections := by
  induction h with
  | nil => exact ⟨[[]], [], .last rfl, fun h => absurd rfl h, rfl⟩
  | @cons wheel elements R lists hw hR ih =>
    obtain ⟨helements, hlists⟩ := List.forall_mem_cons.mp hne
    obtain ⟨x, elements, rfl⟩ := List.exists_cons_of_ne_nil helements
    have hstate := Wheel.setState_self hw.statePtr
    rw [List.cons_append] at hstate
    rw [← hstate]
    cases hR with
    | nil =>
      obtain ⟨visits, last, hv, hd, hcomb⟩ := visits_single hw.over (List.suffix_refl _)
      refine ⟨visits, last, hv, fun _ => hd, hcomb.trans ?_⟩
      change ((x :: elements ++ [Rval.scalar cfNullValue]).filter _).map _ = _
      rw [List.filter_append]
      simp [reachable, List.sections]
    | @cons wheel' elements' R lists hw' hR =>
      obtain ⟨visits, last, hv, hd, hcomb⟩ := ih hlists
      obtain ⟨visits', last', hv', hd', hcomb'⟩ :=
        visits_cons hv (wf_of_atStart (.cons hw' hR)) (hd nofun) hw.over
      exact ⟨visits', last', hv', fun _ => hd', by rw [hcomb', hcomb]; rfl⟩

end Cfengine
