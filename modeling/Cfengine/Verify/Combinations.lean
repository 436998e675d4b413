import Cfengine.Verify.Iteration

/-!
# The combinations that a promise is expanded for

For lists without null elements the loop visits every combination once, in the order of
`List.sections` (the first list varies fastest). With null elements `ExpandPromiseAndDo` visits the
combinations of the reachable elements, which are all of them if and only if in every list but the
last one, behind its first element, a null is followed by nulls only.
-/

namespace Cfengine

variable {wheel : Wheel} {R R' lol lol' last : List Wheel} {visits : List (List Wheel)}
  {x y : Rval} {s t elements : List Rval} {lists : List (List Rval)} {target : List (List Rval)}

/-! ## The initial state -/

section
variable (getVariable : VarLookup)
  (evaluateFunctionCall : CString → List Rval → Rval) (copyRvalItem : Rval → Rval)

/-- The copy of the value of the variable that the iteration goes over is the list `elements`. -/
def IteratesOver (name : CString) (elements : List Rval) : Prop :=
  ∃ retval dtype, getVariable name = some (retval, dtype) ∧
    copyRvalItem (evaluateElements evaluateFunctionCall retval) = .list elements

end

variable {getVariable : VarLookup}
  {evaluateFunctionCall : CString → List Rval → Rval} {copyRvalItem : Rval → Rval}
  {namelist : List CString}

theorem orthogAppendRlist_spec (start : List Wheel) (item : CfAssoc)
    (hrval : item.rval = .list elements) (hne : elements ≠ []) :
    ∃ wheel, orthogAppendRlist start item = some (start ++ [wheel]) ∧ wheel.AtStart elements := by
  obtain ⟨x, elements, rfl⟩ := List.exists_cons_of_ne_nil hne
  exact ⟨_, by rw [orthogAppendRlist, hrval], ⟨rfl, rfl⟩⟩

/-- A fold that appends one wheel for each name. -/
theorem foldlM_wheels {append : List Wheel → CString → Option (List Wheel)}
    (happend : ∀ start name elements,
      IteratesOver getVariable evaluateFunctionCall copyRvalItem name elements → elements ≠ [] →
      ∃ wheel, append start name = some (start ++ [wheel]) ∧ wheel.AtStart elements)
    (h : List.Forall₂ (IteratesOver getVariable evaluateFunctionCall copyRvalItem) namelist lists)
    (hne : ∀ elements ∈ lists, elements ≠ []) (start : List Wheel) :
    ∃ lol, namelist.foldlM append start = some (start ++ lol) ∧
      List.Forall₂ Wheel.AtStart lol lists := by
  induction h generalizing start with
  | nil => exact ⟨[], by simp, .nil⟩
  | @cons name elements namelist lists hname _ ih =>
    obtain ⟨helements, hlists⟩ := List.forall_mem_cons.mp hne
    obtain ⟨wheel, hwheel, hstart⟩ := happend start name elements hname helements
    obtain ⟨lol, hlol, hall⟩ := ih hlists (start ++ [wheel])
    refine ⟨wheel :: lol, ?_, .cons hstart hall⟩
    simp only [List.foldlM_cons, hwheel, Option.bind_eq_bind, Option.bind_some, hlol,
      List.append_assoc, List.singleton_append]

theorem newIterationContext_spec
    (h : List.Forall₂ (IteratesOver getVariable evaluateFunctionCall copyRvalItem) namelist lists)
    (hne : ∀ elements ∈ lists, elements ≠ []) :
    ∃ lol, newIterationContext getVariable evaluateFunctionCall copyRvalItem namelist = some lol ∧
      List.Forall₂ Wheel.AtStart lol lists := by
  refine foldlM_wheels (fun start name elements hname helements => ?_) h hne []
  obtain ⟨retval, dtype, hget, hcopy⟩ := hname
  rw [hget]
  exact orthogAppendRlist_spec start
    (newAssoc copyRvalItem name (evaluateElements evaluateFunctionCall retval) dtype)
    hcopy helements

/-! ## Lists without null elements -/

/-- Behind a null of the padded list there is nothing. -/
theorem eq_nil_of_suffix (hnull : ∀ x ∈ elements, x.isNullValue = false)
    (hs : y :: t <:+ elements ++ [.scalar cfNullValue]) (hy : y.isNullValue = true) : t = [] := by
  rcases List.suffix_concat_iff.mp hs with hs | ⟨t', ht', hs⟩
  · cases hs
  · cases t' with
    | nil => exact (List.cons.inj ht').2
    | cons z t' =>
      obtain ⟨rfl, -⟩ := List.cons.inj ht'
      rw [hnull y (hs.subset List.mem_cons_self)] at hy
      cases hy

/-- Without nulls, a turn visits every node, and each is a combination. -/
theorem map_turn {c : List Rval} (hR : combination R = some c)
    (hnull : ∀ x ∈ elements, x.isNullValue = false) (hx : x.isNullValue = false) :
    (turn (nullIterators R) (x :: (elements ++ [.scalar cfNullValue]))).map
        (fun s => combination (wheel.setState s :: R)) =
      (x :: elements).map fun a => some (a :: c) := by
  have hblocked : nullIterators R = false := by
    by_contra h
    rw [combination_of_nullIterators (Bool.not_eq_false _ ▸ h)] at hR
    cases hR
  have hhead : ∀ {x s}, x.isNullValue = false →
      combination (wheel.setState (x :: s) :: R) = some (x :: c) := by
    intro x s hx
    rw [combination_of_cons (Wheel.statePtr_setState _ _), hx, hR]
    rfl
  rw [hblocked]
  induction elements generalizing x with
  | nil => simp [turn, hhead hx]
  | cons y elements ih =>
    obtain ⟨hy, hnull⟩ := List.forall_mem_cons.mp hnull
    rw [List.cons_append, turn, if_neg (by simp [hy]), List.map_cons, hhead hx, ih hnull hy]
    rfl

/-- Without nulls, every context that is visited is a combination, and in the end all wheels are
at `NULL`. -/
theorem visits_cons_of_values {combinations : List (List Rval)} (hv : Visits R visits last)
    (hcomb : visits.map combination = combinations.map some)
    (hlast : ∀ wheel ∈ last, wheel.statePtr = [])
    (hnull : ∀ x ∈ elements, x.isNullValue = false) (hx : x.isNullValue = false)
    (hover : wheel.Over (x :: elements)) :
    ∃ visits' last',
      Visits (wheel.setState (x :: (elements ++ [.scalar cfNullValue])) :: R) visits' last' ∧
      visits'.map combination =
        (combinations.flatMap fun c => (x :: elements).map (· :: c)).map some ∧
      ∀ wheel ∈ last', wheel.statePtr = [] := by
  obtain ⟨y, t, hstart⟩ := List.exists_cons_of_ne_nil
    (show elements ++ [Rval.scalar cfNullValue] ≠ [] by simp)
  have hfull : x :: y :: t <:+ x :: elements ++ [.scalar cfNullValue] := by
    exact ⟨[], by rw [List.nil_append, List.cons_append, hstart]⟩
  have hvalues : ∀ z ∈ x :: elements, z.isNullValue = false :=
    List.forall_mem_cons.mpr ⟨hx, hnull⟩
  -- the combinations of one turn, and that the wheels behind do not block it
  have hturn : ∀ {R : List Wheel} {c}, combination R = some c → nullIterators R = false ∧
      ((turn (nullIterators R) (x :: y :: t)).map fun s => wheel.setState s :: R).map combination
        = (x :: elements).map fun a => some (a :: c) := by
    intro R c hR
    refine ⟨?_, ?_⟩
    · by_contra h
      rw [combination_of_nullIterators (Bool.not_eq_false _ ▸ h)] at hR
      cases hR
    · rw [← hstart, ← map_turn hR hnull hx, List.map_map]
      rfl
  rw [hstart]
  induction hv generalizing combinations with
  | @last R R' hinc =>
    obtain ⟨c, rfl, hR⟩ : ∃ c, combinations = [c] ∧ combination R = some c := by
      obtain ⟨c, rfl⟩ :=
        List.length_eq_one_iff.mp (by simpa using (congrArg List.length hcomb).symm)
      exact ⟨c, rfl, by simpa using hcomb⟩
    obtain ⟨hblocked, hcombs⟩ := hturn hR
    obtain ⟨_, _, hv, rfl, rfl⟩ := visits_turn
      (Q := fun visits last => visits = [] ∧ last = wheel.setState [] :: R')
      (fun x' y' t' hs hend => by
        have hcarry :=
        increment_carry (Wheel.statePtr_setState wheel (x' :: y' :: t')) hover.rval hend hinc
        rw [hblocked, Bool.or_false] at hend
        obtain rfl := eq_nil_of_suffix hvalues ((List.suffix_cons x' _).trans hs) hend
        have hdone : endOfIteration (wheel.setState [] :: R') = true := by
          refine List.all_eq_true.mpr (List.forall_mem_cons.mpr ⟨rfl, fun wheel hw => ?_⟩)
          rw [hlast wheel hw]
          rfl
        rw [if_neg Bool.false_ne_true, Wheel.setState_setState, hdone] at hcarry
        exact ⟨_, _, .last hcarry, rfl, rfl⟩) hfull
    refine ⟨_, _, hv, ?_, List.forall_mem_cons.mpr ⟨rfl, hlast⟩⟩
    rw [List.append_nil, hcombs, List.flatMap_singleton, List.map_map]
    rfl
  | @more R R' visits last hinc hv ih =>
    obtain ⟨c, combinations, rfl⟩ := List.exists_cons_of_ne_nil (l := combinations)
      (by rintro rfl; simp at hcomb)
    obtain ⟨hR, hcomb⟩ := List.cons.inj hcomb
    obtain ⟨-, hcombs⟩ := hturn hR
    obtain ⟨visits₁, last₁, hv₁, hcomb₁, hlast₁⟩ := ih hcomb hlast
    obtain ⟨_, _, hv', rfl, rfl⟩ := visits_turn
      (Q := fun visits last => visits = visits₁ ∧ last = last₁)
      (fun x' y' t' _ hend => by
        have hcarry :=
        increment_carry (Wheel.statePtr_setState wheel (x' :: y' :: t')) hover.rval hend hinc
        rw [if_pos rfl, Wheel.setState_setState, List.cons_append, hstart] at hcarry
        exact ⟨visits₁, last₁, .more hcarry hv₁, rfl, rfl⟩) hfull
    refine ⟨_, _, hv', ?_, hlast₁⟩
    rw [List.map_append, hcombs, hcomb₁, List.flatMap_cons, List.map_append, List.map_map]
    rfl

theorem visits_of_values (h : List.Forall₂ Wheel.AtStart lol lists)
    (hne : ∀ elements ∈ lists, elements ≠ [])
    (hnull : ∀ elements ∈ lists, ∀ x ∈ elements, x.isNullValue = false) :
    ∃ visits last, Visits lol visits last ∧
      visits.map combination = lists.sections.map some ∧ ∀ wheel ∈ last, wheel.statePtr = [] := by
  induction h with
  | nil => exact ⟨[[]], [], .last rfl, rfl, List.forall_mem_nil _⟩
  | @cons wheel elements R lists hw _ ih =>
    obtain ⟨helements, hneLists⟩ := List.forall_mem_cons.mp hne
    obtain ⟨hvalues, hnullLists⟩ := List.forall_mem_cons.mp hnull
    obtain ⟨x, elements, rfl⟩ := List.exists_cons_of_ne_nil helements
    obtain ⟨hx, hvalues⟩ := List.forall_mem_cons.mp hvalues
    obtain ⟨visits, last, hv, hcomb, hlast⟩ := ih hneLists hnullLists
    have hstate := Wheel.setState_self hw.statePtr
    rw [List.cons_append] at hstate
    rw [← hstate]
    exact visits_cons_of_values hv hcomb hlast hvalues hx hw.over

/-- **The loop enumerates the Cartesian product.** Over non-empty lists without null elements the
body runs once for each combination, the first list varying fastest; then the increment returns
`false`, with all wheels at `NULL`, and no `NULL` pointer has been read. -/
theorem iterationLoop_visits
    (h : List.Forall₂ (IteratesOver getVariable evaluateFunctionCall copyRvalItem) namelist lists)
    (hne : ∀ elements ∈ lists, elements ≠ [])
    (hnull : ∀ elements ∈ lists, ∀ x ∈ elements, x.isNullValue = false) :
    ∃ lol visits last,
      newIterationContext getVariable evaluateFunctionCall copyRvalItem namelist = some lol ∧
      (∀ fuel ≥ lists.sections.length, iterationLoop fuel lol = some (visits, last)) ∧
      visits.map combination = lists.sections.map some ∧
      ∀ wheel ∈ last, wheel.statePtr = [] := by
  obtain ⟨lol, hlol, hstart⟩ := newIterationContext_spec h hne
  obtain ⟨visits, last, hv, hcomb, hlast⟩ := visits_of_values hstart hne hnull
  refine ⟨lol, visits, last, hlol, fun fuel hfuel => hv.iterationLoop_eq ?_, hcomb, hlast⟩
  have hlen := congrArg List.length hcomb
  rw [List.length_map, List.length_map] at hlen
  rw [hlen]
  exact hfuel

/-- The variables `a` and `b`, two lists. -/
def lookupLists (a b : List CString) (name : CString) : Option (Rval × CfDataType) :=
  if name = "a".toList then some (.list (a.map .scalar), .slist)
  else if name = "b".toList then some (.list (b.map .scalar), .slist)
  else none

theorem iteratesOver_lookupLists (a b : List CString) :
    List.Forall₂ (IteratesOver (lookupLists a b) (fun _ _ => .scalar []) id)
      ["a".toList, "b".toList] [a.map .scalar, b.map .scalar] := by
  have hid : ∀ l : List CString, evaluateElements (fun _ _ => .scalar []) (.list (l.map .scalar)) =
      .list (l.map .scalar) := by
    intro l
    simp [evaluateElements]
  refine .cons ⟨.list (a.map .scalar), .slist, rfl, hid a⟩ (.cons ⟨_, .slist, rfl, hid b⟩ .nil)

theorem iterationLoop_visits_two :
    ∃ lol visits last,
      newIterationContext (lookupLists ["1".toList, "2".toList] ["x".toList, "y".toList])
        (fun _ _ => .scalar []) id ["a".toList, "b".toList] = some lol ∧
      (∀ fuel ≥ 4, iterationLoop fuel lol = some (visits, last)) ∧
      visits.map combination =
        ([["1", "x"], ["2", "x"], ["1", "y"], ["2", "y"]].map fun c =>
          some (c.map fun s => Rval.scalar s.toList)) ∧
      ∀ wheel ∈ last, wheel.statePtr = [] :=
  iterationLoop_visits (iteratesOver_lookupLists _ _) (by simp) (by decide)

/-! ## Lists with null elements -/

/-- The loop would visit the combinations `target` from here. -/
structure Leads (lol : List Wheel) (target : List (List Rval)) : Prop where
  wf : ∀ wheel ∈ lol, wheel.Wf
  visits : ∃ visits last, Visits lol visits last ∧ (lol ≠ [] → Dead last) ∧
    visits.filterMap combination = target

/-- A context that is at a null is no combination, so passing over it loses nothing. -/
theorem Leads.increment (h : Leads lol target) (hnull : nullIterators lol = true) :
    ∃ more lol', incrementIterationContext lol = some (more, lol') ∧ Leads lol' target := by
  have hne : lol ≠ [] := by
    rintro rfl
    cases hnull
  obtain ⟨hwf, visits, last, hv, hdead, rfl⟩ := h
  obtain ⟨more, lol', hinc, hwf', -, -⟩ := increment_spec hwf
  refine ⟨more, lol', hinc, hwf', ?_⟩
  cases hv with
  | last hinc' =>
    obtain ⟨rfl, rfl⟩ : _ ∧ _ := by simpa [hinc] using hinc'
    obtain ⟨visits, last', hv⟩ := exists_visits hwf'
    obtain ⟨hvisits, hlast⟩ := hv.dead hwf' (hdead hne)
    refine ⟨visits, last', hv, fun _ => hlast, ?_⟩
    rw [hvisits, List.filterMap_cons_none (combination_of_nullIterators hnull), List.filterMap_nil]
  | more hinc' hv =>
    obtain ⟨rfl, rfl⟩ : _ ∧ _ := by simpa [hinc] using hinc'
    refine ⟨_, last, hv, fun _ => hdead hne, ?_⟩
    rw [List.filterMap_cons_none (combination_of_nullIterators hnull)]

theorem dead_of_endOfIteration (hwf : ∀ wheel ∈ lol, wheel.Wf) (hne : lol ≠ [])
    (hend : endOfIteration lol = true) : Dead lol := by
  induction lol with
  | nil => exact absurd rfl hne
  | cons wheel R ih =>
    obtain ⟨⟨elements, hover⟩, hwf⟩ := List.forall_mem_cons.mp hwf
    rw [endOfIteration_cons, Bool.and_eq_true, decide_eq_true_iff] at hend
    cases R with
    | nil => exact eq_of_suffix_of_length_le hover.suffix hend.1
    | cons wheel' R => exact ih hwf nofun hend.2

theorem Leads.eq_nil (h : Leads lol target) (hne : lol ≠ []) (hend : endOfIteration lol = true) :
    target = [] := by
  obtain ⟨hwf, visits, last, hv, -, rfl⟩ := h
  exact (hv.dead hwf (dead_of_endOfIteration hwf hne hend)).1

theorem Leads.skipNullIterators (h : Leads lol target) (rounds : Nat) :
    ∃ lol', skipNullIterators lol rounds = some lol' ∧ Leads lol' target := by
  induction rounds generalizing lol with
  | zero => exact ⟨lol, rfl, h⟩
  | succ rounds ih =>
    rw [Cfengine.skipNullIterators]
    cases hnull : nullIterators lol with
    | false => exact ⟨lol, rfl, h⟩
    | true =>
      obtain ⟨more, lol', hinc, h'⟩ := h.increment hnull
      obtain ⟨lol'', hskip, h''⟩ := ih h'
      exact ⟨lol'', by simp [hinc, hskip], h''⟩

/-- Neither the early returns nor the skipping of nulls at the start changes the combinations. -/
theorem Leads.expandPromiseAndDo (h : Leads lol target) :
    ∃ visits n, (∀ fuel ≥ n, expandPromiseAndDo fuel lol = some visits) ∧
      visits.filterMap combination = target := by
  by_cases hend : (!lol.isEmpty && endOfIteration lol) = true
  · refine ⟨[], 0, fun fuel _ => by simp [Cfengine.expandPromiseAndDo, hend], ?_⟩
    rw [Bool.and_eq_true, Bool.not_eq_true', List.isEmpty_eq_false_iff] at hend
    exact (h.eq_nil hend.1 hend.2).symm
  · obtain ⟨lol', hskip, h'⟩ := h.skipNullIterators (cfNullCutoff + 2)
    by_cases hend' : (!lol'.isEmpty && endOfIteration lol') = true
    · refine ⟨[], 0, fun fuel _ => ?_, ?_⟩
      · rw [Cfengine.expandPromiseAndDo, if_neg hend, hskip]
        exact if_pos hend'
      rw [Bool.and_eq_true, Bool.not_eq_true', List.isEmpty_eq_false_iff] at hend'
      exact (h'.eq_nil hend'.1 hend'.2).symm
    · obtain ⟨-, visits, last, hv, -, hcomb⟩ := h'
      refine ⟨visits, visits.length, fun fuel hfuel => ?_, hcomb⟩
      rw [Cfengine.expandPromiseAndDo, if_neg hend, hskip]
      exact (if_neg hend').trans (by rw [hv.iterationLoop_eq hfuel]; rfl)

/-- What `ExpandPromiseAndDo` visits of any lists: the combinations of the reachable elements. -/
theorem expandPromiseAndDo_newIterationContext
    (h : List.Forall₂ (IteratesOver getVariable evaluateFunctionCall copyRvalItem) namelist lists)
    (hne : ∀ elements ∈ lists, elements ≠ []) :
    ∃ lol visits n,
      newIterationContext getVariable evaluateFunctionCall copyRvalItem namelist = some lol ∧
      (∀ fuel ≥ n, expandPromiseAndDo fuel lol = some visits) ∧
      visits.filterMap combination = (reachable lists).sections := by
  obtain ⟨lol, hlol, hstart⟩ := newIterationContext_spec h hne
  have hleads : Leads lol (reachable lists).sections :=
    ⟨wf_of_atStart hstart, visits_of_atStart hstart hne⟩
  obtain ⟨visits, n, hrun, hcomb⟩ := hleads.expandPromiseAndDo
  exact ⟨lol, visits, n, hlol, hrun, hcomb⟩

/-! ## When nothing but nulls is left out -/

/-- The elements that are not null. -/
def nonNull (elements : List Rval) : List Rval := elements.filter fun x => !x.isNullValue

/-- In every list but the last one, behind its first element, a null is followed by nulls only. -/
def NullsTrail (lists : List (List Rval)) : Prop :=
  ∀ elements ∈ lists.dropLast,
    (elements.drop 1).Pairwise fun x y => x.isNullValue = true → y.isNullValue = true

theorem takeWhile_sublist_filter {α : Type*} {p : α → Bool} {l : List α} :
    (l.takeWhile p).Sublist (l.filter p) := by
  induction l with
  | nil => exact List.Sublist.refl _
  | cons x l ih => cases hx : p x <;> simp [hx, ih]

theorem takeWhile_eq_filter_iff {l : List Rval} :
    l.takeWhile (fun x => !x.isNullValue) = l.filter (fun x => !x.isNullValue) ↔
      l.Pairwise fun x y => x.isNullValue = true → y.isNullValue = true := by
  induction l with
  | nil => simp
  | cons x l ih =>
    rw [List.pairwise_cons, ← ih]
    cases hx : x.isNullValue with
    | false => simp [hx]
    | true =>
      have hall : l.filter (fun x => !x.isNullValue) = [] ↔ ∀ y ∈ l, y.isNullValue = true := by
        simp [List.filter_eq_nil_iff]
      rw [List.takeWhile_cons_of_neg (by simp [hx]), List.filter_cons_of_neg (by simp [hx])]
      constructor
      · intro h
        refine ⟨fun y hy _ => hall.mp h.symm y hy, ?_⟩
        rw [← h]
        exact List.sublist_nil.mp (h ▸ takeWhile_sublist_filter)
      · rintro ⟨hl, -⟩
        exact (hall.mpr fun y hy => hl y hy rfl).symm

theorem kept_eq_nonNull_iff : kept elements = nonNull elements ↔
    (elements.drop 1).Pairwise fun x y => x.isNullValue = true → y.isNullValue = true := by
  rw [← takeWhile_eq_filter_iff, kept, nonNull]
  cases elements with
  | nil => simp
  | cons x l => cases hx : x.isNullValue <;> simp [hx]

theorem kept_sublist : (kept elements).Sublist (nonNull elements) := by
  cases elements with
  | nil => exact List.Sublist.refl _
  | cons x l =>
    have := takeWhile_sublist_filter (p := fun x : Rval => !x.isNullValue) (l := l)
    cases hx : x.isNullValue <;> simpa [kept, nonNull, hx] using this

theorem length_sections (lists : List (List Rval)) :
    lists.sections.length = (lists.map List.length).prod := by
  induction lists with
  | nil => rfl
  | cons l lists ih => simp [List.sections, List.length_flatMap, ih, Nat.mul_comm]

theorem length_sections_pos (h : ∀ elements ∈ lists, elements ≠ []) :
    0 < lists.sections.length := by
  rw [length_sections]
  induction lists with
  | nil => exact Nat.one_pos
  | cons l lists ih =>
    obtain ⟨hl, h⟩ := List.forall_mem_cons.mp h
    exact Nat.mul_pos (List.length_pos_of_ne_nil hl) (ih h)

theorem length_sections_reachable_le :
    (reachable lists).sections.length ≤ (lists.map nonNull).sections.length := by
  fun_induction reachable lists with
  | case1 => exact Nat.le_refl _
  | case2 elements => exact Nat.le_refl _
  | case3 elements lists _ ih =>
    rw [length_sections, length_sections] at ih ⊢
    exact Nat.mul_le_mul kept_sublist.length_le ih

/-- If no combination is missing, then no element is. -/
theorem nullsTrail_of_length_sections (hvalue : ∀ elements ∈ lists, nonNull elements ≠ [])
    (hlen : (reachable lists).sections.length = (lists.map nonNull).sections.length) :
    NullsTrail lists := by
  fun_induction reachable lists with
  | case1 => exact List.forall_mem_nil _
  | case2 elements => exact List.forall_mem_nil _
  | case3 elements lists hlists ih =>
    obtain ⟨helements, hvalue⟩ := List.forall_mem_cons.mp hvalue
    have hle : (kept elements).length ≤ (nonNull elements).length := kept_sublist.length_le
    have hle' : (reachable lists).sections.length ≤ (lists.map nonNull).sections.length :=
      length_sections_reachable_le
    have hpos := List.length_pos_of_ne_nil helements
    have hpos' : 0 < (lists.map nonNull).sections.length :=
      length_sections_pos (List.forall_mem_map.mpr hvalue)
    have hmul : (kept elements).length * (reachable lists).sections.length =
        (nonNull elements).length * (lists.map nonNull).sections.length := by
      simpa only [length_sections, List.map_cons, List.prod_cons] using hlen
    have hkept : (kept elements).length = (nonNull elements).length := by
      refine Nat.le_antisymm hle (Nat.not_lt.mp fun hlt => ?_)
      have := Nat.mul_le_mul_left (kept elements).length hle'
      have := Nat.mul_lt_mul_of_pos_right hlt hpos'
      omega
    rw [NullsTrail, List.dropLast_cons_of_ne_nil hlists]
    refine List.forall_mem_cons.mpr ⟨?_, ih hvalue ?_⟩
    · exact kept_eq_nonNull_iff.mp (kept_sublist.eq_of_length hkept)
    · rw [hkept] at hmul
      exact Nat.eq_of_mul_eq_mul_left hpos hmul

theorem reachable_of_nullsTrail (h : NullsTrail lists) : reachable lists = lists.map nonNull := by
  fun_induction reachable lists with
  | case1 => rfl
  | case2 elements => rfl
  | case3 elements lists hlists ih =>
    rw [NullsTrail, List.dropLast_cons_of_ne_nil hlists] at h
    obtain ⟨helements, h⟩ := List.forall_mem_cons.mp h
    rw [ih h, kept_eq_nonNull_iff.mpr helements]
    rfl

/-- The combinations without a null that `ExpandPromiseAndDo` visits are those of the non-null
elements, each once. -/
def VisitsNonNull (getVariable : VarLookup)
    (evaluateFunctionCall : CString → List Rval → Rval) (copyRvalItem : Rval → Rval)
    (namelist : List CString) (lists : List (List Rval)) : Prop :=
  ∃ lol visits n,
    newIterationContext getVariable evaluateFunctionCall copyRvalItem namelist = some lol ∧
    (∀ fuel ≥ n, expandPromiseAndDo fuel lol = some visits) ∧
    (visits.filterMap combination).Perm (lists.map nonNull).sections

theorem VisitsNonNull.length_sections
    (h : List.Forall₂ (IteratesOver getVariable evaluateFunctionCall copyRvalItem) namelist lists)
    (hne : ∀ elements ∈ lists, elements ≠ [])
    (hv : VisitsNonNull getVariable evaluateFunctionCall copyRvalItem namelist lists) :
    (reachable lists).sections.length = (lists.map nonNull).sections.length := by
  obtain ⟨lol, visits, n, hlol, hrun, hcomb⟩ := expandPromiseAndDo_newIterationContext h hne
  obtain ⟨lol', visits', n', hlol', hrun', hperm⟩ := hv
  obtain rfl : lol = lol' := Option.some.inj (hlol.symm.trans hlol')
  obtain rfl : visits = visits' := Option.some.inj <|
    (hrun (max n n') (Nat.le_max_left _ _)).symm.trans (hrun' _ (Nat.le_max_right _ _))
  rw [← hcomb]
  exact hperm.length_eq

/-- **Nulls are only skipped, if they trail.** For lists with a non-null element each, the loop
visits every combination of the non-null elements once, and no other without a null, if and only
if in every list but the last one, behind its first element, a null is followed by nulls only. -/
theorem visitsNonNull_iff
    (h : List.Forall₂ (IteratesOver getVariable evaluateFunctionCall copyRvalItem) namelist lists)
    (hvalue : ∀ elements ∈ lists, nonNull elements ≠ []) :
    VisitsNonNull getVariable evaluateFunctionCall copyRvalItem namelist lists ↔
      NullsTrail lists := by
  have hne : ∀ elements ∈ lists, elements ≠ [] := by
    rintro elements helements rfl
    exact hvalue [] helements rfl
  constructor
  · exact fun hv => nullsTrail_of_length_sections hvalue (hv.length_sections h hne)
  · intro htrail
    obtain ⟨lol, visits, n, hlol, hrun, hcomb⟩ := expandPromiseAndDo_newIterationContext h hne
    refine ⟨lol, visits, n, hlol, hrun, ?_⟩
    rw [hcomb, reachable_of_nullsTrail htrail]

/-- The list `a` of the counterexample has a null between two values. -/
theorem visitsNonNull_iff_two :
    VisitsNonNull
        (lookupLists ["1".toList, cfNullValue, "2".toList] ["x".toList, cfNullValue, "y".toList])
        (fun _ _ => .scalar []) id ["a".toList, "b".toList]
        [["1".toList, cfNullValue, "2".toList].map .scalar,
          ["x".toList, cfNullValue, "y".toList].map .scalar] ↔
      NullsTrail [["1".toList, cfNullValue, "2".toList].map .scalar,
        ["x".toList, cfNullValue, "y".toList].map .scalar] :=
  visitsNonNull_iff (iteratesOver_lookupLists _ _)
    (List.forall_mem_cons.mpr
      ⟨List.cons_ne_nil _ _, List.forall_mem_singleton.mpr (List.cons_ne_nil _ _)⟩)

/-- With the lists `1`, null, `2` and `x`, `y` nothing is visited for `2`. -/
theorem not_visitsNonNull :
    (newIterationContext
          (lookupLists ["1".toList, cfNullValue, "2".toList] ["x".toList, "y".toList])
          (fun _ _ => .scalar []) id ["a".toList, "b".toList]).bind
        (fun lol => (expandPromiseAndDo 4 lol).map (List.filterMap combination)) =
      some [["1", "x"].map fun s => .scalar s.toList, ["1", "y"].map fun s => .scalar s.toList] ∧
    ¬ VisitsNonNull
      (lookupLists ["1".toList, cfNullValue, "2".toList] ["x".toList, "y".toList])
      (fun _ _ => .scalar []) id ["a".toList, "b".toList]
      [["1".toList, cfNullValue, "2".toList].map .scalar,
        ["x".toList, "y".toList].map .scalar] := by
  refine ⟨rfl, fun hv => ?_⟩
  have hlen := hv.length_sections (iteratesOver_lookupLists _ _) (by simp)
  exact absurd hlen (by decide)

end Cfengine
