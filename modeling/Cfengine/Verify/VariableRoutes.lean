import Cfengine.Verify.Scope

/-!
# The routes to a variable

A variable is looked up as `scope.name` from any scope, as `name` from its own scope, or as a name
with references that expand to `name`. The first route reads the name up to a blank, the last one
looks for the name that was not expanded (`routesMeet_iff`).
-/

namespace Cfengine

/-- A variable or an element of an array, in a scope that exists. No reference is in its name. -/
structure VarPlace (vscope : List Scope) where
  scope : CString
  ptr : Scope
  found : getScope vscope scope = some ptr
  scope_ne : scope ≠ []
  scope_plain : ∀ c ∈ scope, c ≠ '.' ∧ c ≠ '[' ∧ c ≠ '$'
  /-- The name of the variable or array. -/
  id : CString
  id_ne : id ≠ []
  id_plain : ∀ c ∈ id, c ≠ '.' ∧ c ≠ '[' ∧ isspace c = false
  /-- The indices of the element. -/
  indices : List CString
  bracket_not_mem : ∀ index ∈ indices, ']' ∉ index
  noReference : isExpandable (id ++ indices.flatMap fun index => '[' :: (index ++ [']'])) = 0

namespace VarPlace

variable {vscope : List Scope} (place : VarPlace vscope)

def name : CString := place.id ++ place.indices.flatMap fun index => '[' :: (index ++ [']'])

/-- `scope.name` -/
def qualifiedName : CString := place.scope ++ '.' :: place.name

/-- A name with references that expand to the name of the variable. -/
def IsExpandedBy (expandScalar : List Scope → CString → Option (CString × Bool))
    (n : CString) : Prop :=
  isExpandable n ≠ 0 ∧ expandScalar vscope n = some (place.name, true)

/-- The routes have the same result. -/
def RoutesMeet (getHash : CString → Fin cfHashTableSize)
    (expandScalar : List Scope → CString → Option (CString × Bool)) : Prop :=
  ∃ result, (∀ t, getVariable getHash expandScalar vscope t place.qualifiedName = some result) ∧
    getVariable getHash expandScalar vscope place.scope place.name = some result ∧
    ∀ n, place.IsExpandedBy expandScalar n →
      getVariable getHash expandScalar vscope place.scope n = some result

end VarPlace

variable {vscope : List Scope} {place : VarPlace vscope} {getHash : CString → Fin cfHashTableSize}
  {expandScalar : List Scope → CString → Option (CString × Bool)} {s t v n : CString}
    {scan : VarScan}

/-! ## Recognising names -/

/-- Nothing is counted in front of the first `$`. -/
theorem scanVars_append (hs : ∀ c ∈ s, c ≠ '$') (hdollar : scan.dollar = false) :
    scanVars ['$'] false scan (s ++ t) = scanVars ['$'] false scan t := by
  induction s with
  | nil => rfl
  | cons c s ih =>
    rw [List.forall_mem_cons] at hs
    have hread : scan.read ['$'] c (s ++ t) = scan := by
      rw [VarScan.read, if_neg (by simpa using hs.1), hdollar]
      simp
    have hcount : scan.count = scan := by simp [VarScan.count, hdollar]
    rw [List.cons_append, scanVars, hread, hcount]
    exact ih hs.2

theorem isQualifiedVariable_append (hs : ∀ c ∈ s, c ≠ '.' ∧ c ≠ '[') :
    isQualifiedVariable (s ++ t) = isQualifiedVariable t := by
  induction s with
  | nil => rfl
  | cons c s ih =>
    rw [List.forall_mem_cons] at hs
    rw [List.cons_append, isQualifiedVariable, ih hs.2]
    simp [hs.1.1, hs.1.2]

namespace VarPlace

theorem isQualifiedVariable_name : isQualifiedVariable place.name = false := by
  rw [name, isQualifiedVariable_append fun c hc =>
    ⟨(place.id_plain c hc).1, (place.id_plain c hc).2.1⟩]
  cases place.indices with
  | nil => rfl
  | cons index indices => rfl

theorem isQualifiedVariable_qualifiedName : isQualifiedVariable place.qualifiedName = true := by
  rw [qualifiedName, isQualifiedVariable_append fun c hc =>
    ⟨(place.scope_plain c hc).1, (place.scope_plain c hc).2.1⟩]
  rfl

theorem isExpandable_qualifiedName : isExpandable place.qualifiedName = 0 := by
  have hscan : scanVars ['$'] false {} place.qualifiedName =
      scanVars ['$'] false {} place.name := by
    rw [qualifiedName, scanVars_append (fun c hc => (place.scope_plain c hc).2.2) rfl]
    rfl
  rw [isExpandable, hscan]
  exact place.noReference

theorem splitQualified_qualifiedName :
    splitQualified place.qualifiedName = (place.scope, place.name.takeWhile (!isspace ·)) := by
  have hdot : ∀ c ∈ place.scope, decide (c ≠ '.') = true :=
    fun c hc => decide_eq_true (place.scope_plain c hc).1
  have htake : place.qualifiedName.takeWhile (· ≠ '.') = place.scope := by
    rw [qualifiedName, List.takeWhile_append_of_pos hdot, List.takeWhile_cons_of_neg (by decide),
      List.append_nil]
  have hdrop : (place.qualifiedName.dropWhile (· ≠ '.')).drop 1 = place.name := by
    rw [qualifiedName, List.dropWhile_append_of_pos hdot, List.dropWhile_cons_of_neg (by decide)]
    rfl
  have hblank : place.name.dropWhile isspace = place.name := by
    obtain ⟨c, id, hid⟩ := List.exists_cons_of_ne_nil place.id_ne
    have hc := (place.id_plain c (hid ▸ List.mem_cons_self)).2.2
    rw [name, hid, List.cons_append, List.dropWhile_cons_of_neg (by simp [hc])]
  rw [splitQualified, htake, hdrop, if_neg place.scope_ne, hblank]

theorem takeWhile_name_ne : place.name.takeWhile (!isspace ·) ≠ [] := by
  obtain ⟨c, id, hid⟩ := List.exists_cons_of_ne_nil place.id_ne
  have hc := (place.id_plain c (hid ▸ List.mem_cons_self)).2.2
  rw [name, hid, List.cons_append, List.takeWhile_cons_of_pos (by simp [hc])]
  exact List.cons_ne_nil _ _

/-- The name is read up to a blank behind the scope. -/
theorem getVariable_qualifiedName : getVariable getHash expandScalar vscope t place.qualifiedName =
    if place.qualifiedName.length ≥ cfMaxVarSize - 1 then none
    else some (lookupIn getHash place.ptr (place.name.takeWhile (!isspace ·))) := by
  rw [getVariable, if_pos place.isExpandable_qualifiedName, getVariable.find,
    place.isQualifiedVariable_qualifiedName, place.splitQualified_qualifiedName]
  dsimp only
  rw [if_pos rfl, place.found]
  dsimp only
  rw [if_neg place.takeWhile_name_ne]

/-- In the scope, what is looked for is the name that was given. -/
theorem find_name (hlen : place.qualifiedName.length < cfMaxVarSize - 1) (n : CString) :
    getVariable.find getHash vscope place.scope n place.name =
      if n.length ≥ cfMaxVarSize then none else some (lookupIn getHash place.ptr n) := by
  rw [qualifiedName, List.length_append, List.length_cons] at hlen
  have hscope : place.scope.take (cfMaxVarSize - 1) = place.scope :=
    List.take_of_length_le (by omega)
  rw [getVariable.find, if_neg (by omega), place.isQualifiedVariable_name,
    if_neg Bool.false_ne_true, hscope, place.found]
  rfl

theorem getVariable_name (hlen : place.qualifiedName.length < cfMaxVarSize - 1) :
    getVariable getHash expandScalar vscope place.scope place.name =
      some (lookupIn getHash place.ptr place.name) := by
  rw [getVariable, if_pos (show isExpandable place.name = 0 from place.noReference),
    place.find_name hlen]
  rw [qualifiedName, List.length_append, List.length_cons] at hlen
  exact if_neg (by omega)

theorem getVariable_of_isExpandedBy (hlen : place.qualifiedName.length < cfMaxVarSize - 1)
    (hn : place.IsExpandedBy expandScalar n) :
    getVariable getHash expandScalar vscope place.scope n =
      if n.length ≥ cfMaxVarSize then none else some (lookupIn getHash place.ptr n) := by
  rw [getVariable, if_neg hn.1, hn.2]
  exact place.find_name hlen n

/-- The routes meet just if the names fit their buffers, and the scope has the same under the name
up to its first blank, and under each name that expands to it, as under the name. -/
theorem routesMeet_iff {vscope : List Scope} (place : VarPlace vscope)
    (getHash : CString → Fin cfHashTableSize)
    (expandScalar : List Scope → CString → Option (CString × Bool)) :
    place.RoutesMeet getHash expandScalar ↔
      place.qualifiedName.length < cfMaxVarSize - 1 ∧
        lookupIn getHash place.ptr (place.name.takeWhile (!isspace ·)) = lookupIn getHash place.ptr
          place.name ∧
        ∀ n, place.IsExpandedBy expandScalar n →
          n.length < cfMaxVarSize ∧
            lookupIn getHash place.ptr n = lookupIn getHash place.ptr place.name := by
  constructor
  · rintro ⟨result, hqualified, hname, hexpanded⟩
    have hlen : place.qualifiedName.length < cfMaxVarSize - 1 := by
      by_contra hlen
      have hnone := hqualified place.scope
      rw [getVariable_qualifiedName, if_pos (Nat.le_of_not_lt hlen)] at hnone
      cases hnone
    have hresult := place.getVariable_name hlen ▸ hname
    cases hresult
    refine ⟨hlen, ?_, fun n hn => ?_⟩
    · have hsome := hqualified place.scope
      rw [getVariable_qualifiedName, if_neg (by omega)] at hsome
      exact Option.some.inj hsome
    · have hsome := hexpanded n hn
      rw [place.getVariable_of_isExpandedBy hlen hn] at hsome
      split at hsome
      · cases hsome
      · exact ⟨by omega, Option.some.inj hsome⟩
  · rintro ⟨hlen, hword, hexpanded⟩
    refine ⟨lookupIn getHash place.ptr place.name, fun t => ?_, place.getVariable_name hlen,
      fun n hn => ?_⟩
    · rw [getVariable_qualifiedName, if_neg (by omega), hword]
    · obtain ⟨hfits, hsame⟩ := hexpanded n hn
      rw [place.getVariable_of_isExpandedBy hlen hn, if_neg (by omega), hsame]

end VarPlace

/-- One scope `main`, with the one variable `lval`. -/
def scopeWith (lval : CString) : Scope where
  scope := "main".toList
  hashtable :=
    .tiny ⟨[{ lval, rval := .scalar "1".toList, dtype := .str }], by simp [tinyLimit], by simp⟩

/-- The element of an array whose index has a blank. -/
def elementWithBlank : VarPlace [scopeWith "a[b c]".toList] where
  scope := "main".toList
  ptr := scopeWith "a[b c]".toList
  found := rfl
  scope_ne := by decide
  scope_plain := by simp
  id := "a".toList
  id_ne := by decide
  id_plain := by simp [isspace]
  indices := ["b c".toList]
  bracket_not_mem := by decide
  noReference := by decide

/-- A variable without indices. -/
def plainVariable : VarPlace [scopeWith "x".toList] where
  scope := "main".toList
  ptr := scopeWith "x".toList
  found := rfl
  scope_ne := by decide
  scope_plain := by simp
  id := "x".toList
  id_ne := by decide
  id_plain := by simp [isspace]
  indices := []
  bracket_not_mem := by decide
  noReference := by decide

/-- The index is cut off at the blank, and `$(y)` is not looked up as `x` where it expands to
that. -/
theorem not_routesMeet : ¬ elementWithBlank.RoutesMeet oatHash (fun _ _ => none) ∧
    ¬ plainVariable.RoutesMeet oatHash
      (fun _ n => if n = "$(y)".toList then some ("x".toList, true) else none) := by
  constructor
  · rintro ⟨result, hqualified, hname, -⟩
    have hmeet := (hqualified []).trans hname.symm
    rw [elementWithBlank.getVariable_qualifiedName, elementWithBlank.getVariable_name (by decide),
      if_neg (by decide), Option.some.injEq] at hmeet
    exact Bool.false_ne_true (congrArg Option.isSome hmeet)
  · rintro ⟨result, -, hname, hexpanded⟩
    have hn : plainVariable.IsExpandedBy
        (fun _ n => if n = "$(y)".toList then some ("x".toList, true) else none) "$(y)".toList := by
      exact ⟨by decide, if_pos rfl⟩
    have hmeet := (hexpanded _ hn).trans hname.symm
    rw [plainVariable.getVariable_of_isExpandedBy (by decide) hn,
      plainVariable.getVariable_name (by decide), if_neg (by decide), Option.some.injEq] at hmeet
    exact Bool.false_ne_true (congrArg Option.isSome hmeet)

end Cfengine
