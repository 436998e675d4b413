import Cfengine.Scope
import Cfengine.Verify.Hashes

/-!
# When an assignment takes effect

`value` is what the scopes hold for a variable. Each assignment is described by what it does to
the hash table of the scope: nothing if the comparison takes the new value for the stored one, a
write to the association that is found, or an insertion. An insertion also changes other variables
exactly if it takes the free bucket that hides one (`Uncovers`).
-/

namespace Cfengine
open Probing KeyedList

variable {getHash : CString → Fin cfHashTableSize} {buckets : Table CfAssoc} {t t' : AssocHashTable}
  {copy : Rval → Rval} {name other : CString} {rval : Rval} {dtype : CfDataType}

/-! ## The huge representation without invariant -/

/-- A lookup finds the first association with the name if there is no free bucket before it. -/
theorem hugeHashLookupElement_eq_some_iff {a : CfAssoc} :
    hugeHashLookupElement getHash buckets name = some a ↔
      ∃ d < cfHashTableSize, buckets (probe cfHashTableSize (getHash name) d) = .entry a ∧
        a.lval = name ∧ ∀ e < d, stopsAt name false
          (buckets (probe cfHashTableSize (getHash name) e)) = false := by
  rw [hugeHashLookupElement, hugeHashLookupElement.loop_eq, Option.bind_eq_some_iff]
  constructor
  · rintro ⟨j, hstop, hj⟩
    obtain ⟨d, hd, rfl, hs, hbefore⟩ := (firstStop_eq_some (getHash name).isLt).mp hstop
    split at hj
    · rename_i b hslot
      cases hj
      rw [hslot] at hs
      exact ⟨d, hd, hslot, (of_decide_eq_true hs).symm, hbefore⟩
    · cases hj
  · rintro ⟨d, hd, hslot, rfl, hbefore⟩
    refine ⟨_, (firstStop_eq_some (getHash a.lval).isLt).mpr ⟨d, hd, rfl, ?_, hbefore⟩, ?_⟩
    · rw [hslot]
      exact decide_eq_true rfl
    · rw [hslot]

/-- A lookup finds something if an association with the name has no free bucket before it. -/
theorem hugeHashLookupElement_ne_none {b : CfAssoc} {d : Nat} (hd : d < cfHashTableSize)
    (hslot : buckets (probe cfHashTableSize (getHash b.lval) d) = .entry b)
    (hpath : ∀ e < d, buckets (probe cfHashTableSize (getHash b.lval) e) ≠ .free) :
    hugeHashLookupElement getHash buckets b.lval ≠ none := by
  have hstops : stopsAt b.lval false (buckets (probe cfHashTableSize (getHash b.lval) d)) =
      true := by
    rw [hslot]
    exact decide_eq_true rfl
  rw [hugeHashLookupElement, hugeHashLookupElement.loop_eq]
  cases hstop : firstStop cfHashTableSize buckets (stopsAt b.lval false) cfHashTableSize
      (getHash b.lval) with
  | none =>
    have := (firstStop_eq_none (getHash b.lval).isLt).mp hstop
      (probe cfHashTableSize (getHash b.lval) d) (probe_lt (by decide))
    rw [hstops] at this
    cases this
  | some j =>
    obtain ⟨d', hd', rfl, hs, hbefore⟩ := (firstStop_eq_some (getHash b.lval).isLt).mp hstop
    have hle : d' ≤ d := by
      by_contra hlt
      rw [hbefore d (by omega)] at hstops
      cases hstops
    rw [Option.bind_some]
    cases hslot' : buckets (probe cfHashTableSize (getHash b.lval) d') with
    | entry a => exact Option.some_ne_none a
    | deleted => rw [hslot'] at hs; cases hs
    | free =>
      rcases Nat.lt_or_eq_of_le hle with hlt | rfl
      · exact absurd hslot' (hpath d' hlt)
      · rw [hslot] at hslot'; cases hslot'

/-- The bucket that an insertion of a new name takes. -/
def takenBucket (getHash : CString → Fin cfHashTableSize) (buckets : Table CfAssoc)
    (name : CString) : Option Nat :=
  firstStop cfHashTableSize buckets (stopsAt name true) cfHashTableSize (getHash name)

/-- An insertion of `name` uncovers another association: one that is not found, although the free
bucket that the insertion takes is the only one before it on its probe path. -/
def AssocHashTable.Uncovers (getHash : CString → Fin cfHashTableSize) (t : AssocHashTable)
    (name : CString) : Prop :=
  match t with
  | .tiny _ => False
  | .huge buckets =>
    ∃ j a d, takenBucket getHash buckets name = some j ∧ d < cfHashTableSize ∧
      buckets (probe cfHashTableSize (getHash a.lval) d) = .entry a ∧ a.lval ≠ name ∧
      hugeHashLookupElement getHash buckets a.lval = none ∧
      ∀ e < d, buckets (probe cfHashTableSize (getHash a.lval) e) = .free →
        probe cfHashTableSize (getHash a.lval) e = j

theorem hugeHashInsertElement_eq_true {buckets' : Table CfAssoc}
    (h : hugeHashInsertElement getHash copy buckets name rval dtype = (true, buckets')) :
    ∃ j, takenBucket getHash buckets name = some j ∧ (∀ a, buckets j ≠ .entry a) ∧
      buckets' = Function.update buckets j (.entry (newAssoc copy name rval dtype)) := by
  rw [hugeHashInsertElement, hugeHashInsertElement.loop_eq] at h
  split at h
  · cases h
  · rename_i j hstop
    refine ⟨j, hstop, ?_⟩
    cases hslot : buckets j <;> rw [hslot] at h <;> cases h
    all_goals exact ⟨fun a => by simp, rfl⟩

theorem hugeHashLookupElement_insert_self {j : Nat} (hj : takenBucket getHash buckets name = some j)
    (hentry : ∀ a, buckets j ≠ .entry a) {a : CfAssoc} (ha : a.lval = name) :
    hugeHashLookupElement getHash (Function.update buckets j (.entry a)) name = some a := by
  obtain ⟨d, hd, rfl, -, hbefore⟩ := (firstStop_eq_some (getHash name).isLt).mp hj
  refine hugeHashLookupElement_eq_some_iff.mpr ⟨d, hd, Function.update_self .., ha, ?_⟩
  intro e he
  have hne : probe cfHashTableSize (getHash name) e ≠ probe cfHashTableSize (getHash name) d :=
    fun heq => absurd (probe_inj (by omega) hd heq) (by omega)
  rw [Function.update_of_ne hne]
  have := hbefore e he
  revert this
  cases buckets (probe cfHashTableSize (getHash name) e) <;> simp [stopsAt]

/-- What is found stays found when a bucket without association is taken by another name. -/
theorem hugeHashLookupElement_insert_of_some {j : Nat} (hentry : ∀ a, buckets j ≠ .entry a)
    {a b : CfAssoc} (ha : a.lval ≠ other)
    (h : hugeHashLookupElement getHash buckets other = some b) :
    hugeHashLookupElement getHash (Function.update buckets j (.entry a)) other = some b := by
  obtain ⟨d, hd, hslot, hb, hbefore⟩ := hugeHashLookupElement_eq_some_iff.mp h
  refine hugeHashLookupElement_eq_some_iff.mpr ⟨d, hd, ?_, hb, fun e he => ?_⟩
  · rw [Function.update_of_ne]
    · exact hslot
    · rintro rfl
      exact hentry b hslot
  · rcases eq_or_ne (probe cfHashTableSize (getHash other) e) j with heq | hne
    · rw [heq, Function.update_self]
      exact decide_eq_false (Ne.symm ha)
    · rw [Function.update_of_ne hne]
      exact hbefore e he

/-- The other lookups are unchanged by an insertion unless it uncovers an association. -/
theorem hugeHashLookupElement_insert_iff {j : Nat} (hj : takenBucket getHash buckets name = some j)
    (hentry : ∀ a, buckets j ≠ .entry a) {a : CfAssoc} (ha : a.lval = name) :
    (∀ other ≠ name, hugeHashLookupElement getHash (Function.update buckets j (.entry a)) other =
        hugeHashLookupElement getHash buckets other) ↔
      ¬ AssocHashTable.Uncovers getHash (.huge buckets) name := by
  constructor
  · rintro h ⟨j', b, d, hj', hd, hslot, hb, hnone, hpath⟩
    obtain rfl := Option.some.inj (hj.symm.trans hj')
    refine hugeHashLookupElement_ne_none hd ?_ (fun e he hfree => ?_) ((h b.lval hb).trans hnone)
    · rw [Function.update_of_ne]
      · exact hslot
      · rintro rfl
        exact hentry b hslot
    · rcases eq_or_ne (probe cfHashTableSize (getHash b.lval) e) j with heq | hne
      · rw [heq, Function.update_self] at hfree
        cases hfree
      · rw [Function.update_of_ne hne] at hfree
        exact hne (hpath e he hfree)
  · intro h other hother
    cases hlookup : hugeHashLookupElement getHash buckets other with
    | some b =>
      exact hugeHashLookupElement_insert_of_some hentry (by rw [ha]; exact hother.symm) hlookup
    | none =>
      by_contra hne
      obtain ⟨b, hb⟩ := Option.ne_none_iff_exists'.mp hne
      obtain ⟨d, hd, hslot, rfl, hbefore⟩ := hugeHashLookupElement_eq_some_iff.mp hb
      have hdj : probe cfHashTableSize (getHash b.lval) d ≠ j := by
        intro heq
        rw [heq, Function.update_self] at hslot
        cases hslot
        exact hother ha
      rw [Function.update_of_ne hdj] at hslot
      refine h ⟨j, b, d, hj, hd, hslot, hother, hlookup, fun e he hfree => ?_⟩
      by_contra hej
      have := hbefore e he
      rw [Function.update_of_ne hej, hfree] at this
      cases this

/-! ## Writing to an association -/

theorem firstStop_congr {stops : Slot CfAssoc → Bool} {buckets' : Table CfAssoc}
    (h : ∀ i, stops (buckets' i) = stops (buckets i)) {k i : Nat} :
    firstStop cfHashTableSize buckets' stops k i = firstStop cfHashTableSize buckets stops k i := by
  induction k generalizing i with
  | zero => rfl
  | succ k ih => rw [firstStop, firstStop, h, ih]

theorem hugeHashAssign.loop_eq {k i : Nat} :
    hugeHashAssign.loop name rval dtype buckets k i =
      match firstStop cfHashTableSize buckets (stopsAt name false) k i with
      | none => buckets
      | some j =>
        match buckets j with
        | .entry a => Function.update buckets j (.entry (a.assign rval dtype))
        | _ => buckets := by
  induction k generalizing i with
  | zero => rfl
  | succ k ih =>
    rw [loop, firstStop]
    cases hslot : buckets i with
    | free => simp [stopsAt, hslot]
    | deleted => simp [stopsAt, ih]
    | entry a =>
      by_cases hname : name = a.lval
      · simp [stopsAt, hname, hslot]
      · simp [stopsAt, hname, ih]

theorem hugeHashLookupElement_assign :
    hugeHashLookupElement getHash
        (hugeHashAssign.loop name rval dtype buckets cfHashTableSize (getHash name)) other =
      if other = name then
        (hugeHashLookupElement getHash buckets other).map (CfAssoc.assign rval dtype)
      else hugeHashLookupElement getHash buckets other := by
  have hassign : hugeHashAssign.loop name rval dtype buckets cfHashTableSize (getHash name) = _ :=
    hugeHashAssign.loop_eq
  cases hstop : firstStop cfHashTableSize buckets (stopsAt name false) cfHashTableSize
      (getHash name) with
  | none =>
    rw [hstop] at hassign
    rw [hassign]
    by_cases hname : other = name
    · subst hname
      simp [hugeHashLookupElement, hugeHashLookupElement.loop_eq, hstop]
    · rw [if_neg hname]
  | some j =>
    rw [hstop] at hassign
    cases hslot : buckets j with
    | free | deleted =>
      simp only [hslot] at hassign
      rw [hassign]
      by_cases hname : other = name
      · subst hname
        simp [hugeHashLookupElement, hugeHashLookupElement.loop_eq, hstop, hslot]
      · rw [if_neg hname]
    | entry a =>
      simp only [hslot] at hassign
      rw [hassign]
      obtain ⟨-, -, -, hs, -⟩ := (firstStop_eq_some (getHash name).isLt).mp hstop
      rw [hslot] at hs
      obtain rfl : name = a.lval := of_decide_eq_true hs
      -- the name in the bucket stays, so every search stops where it did
      have hcongr : ∀ i, stopsAt other false
          (Function.update buckets j (.entry (a.assign rval dtype)) i) =
            stopsAt other false (buckets i) := by
        intro i
        rcases eq_or_ne i j with rfl | hne
        · rw [Function.update_self, hslot]
          rfl
        · rw [Function.update_of_ne hne]
      rw [hugeHashLookupElement, hugeHashLookupElement, hugeHashLookupElement.loop_eq,
        hugeHashLookupElement.loop_eq, firstStop_congr hcongr]
      by_cases hname : other = a.lval
      · subst hname
        simp [hstop, hslot]
      · rw [if_neg hname]
        cases hstop' : firstStop cfHashTableSize buckets (stopsAt other false) cfHashTableSize
            (getHash other) with
        | none => rfl
        | some i =>
          obtain ⟨-, -, -, hs', -⟩ := (firstStop_eq_some (getHash other).isLt).mp hstop'
          have hne : i ≠ j := by
            rintro rfl
            rw [hslot] at hs'
            exact hname (of_decide_eq_true hs')
          rw [Option.bind_some, Option.bind_some, Function.update_of_ne hne]

/-- The lookups after an assignment to the association of `name`. -/
theorem hashLookupElement_hashAssign :
    hashLookupElement getHash (hashAssign getHash t name rval dtype) other =
      if other = name then (hashLookupElement getHash t other).map (CfAssoc.assign rval dtype)
      else hashLookupElement getHash t other := by
  cases t with
  | tiny array =>
    simp only [hashAssign, hashLookupElement, tinyHashLookupElement]
    split
    · rename_i hname
      subst hname
      exact find?_modifyFirst_self fun _ => rfl
    · rename_i hname
      refine find?_modifyFirst_of_ne (fun a ha => ?_) fun _ => rfl
      rw [of_decide_eq_true ha]
      exact decide_eq_false (Ne.symm hname)
  | huge buckets =>
    exact hugeHashLookupElement_assign

/-! ## Inserting a new name -/

theorem hashInsertElement_lookup (hnone : hashLookupElement getHash t name = none)
    (hins : hashInsertElement getHash copy t name rval dtype = (true, t')) :
    hashLookupElement getHash t' name = some (newAssoc copy name rval dtype) ∧
      ((∀ other ≠ name, hashLookupElement getHash t' other = hashLookupElement getHash t other) ↔
        ¬ t.Uncovers getHash name) := by
  cases t with
  | huge buckets =>
    cases hres : hugeHashInsertElement getHash copy buckets name rval dtype with
    | mk ok buckets' =>
      rw [hashInsertElement, hres] at hins
      obtain ⟨rfl, rfl⟩ := Prod.mk.inj hins
      obtain ⟨j, hj, hentry, rfl⟩ := hugeHashInsertElement_eq_true hres
      exact ⟨hugeHashLookupElement_insert_self hj hentry rfl,
        hugeHashLookupElement_insert_iff hj hentry rfl⟩
  | tiny array =>
    have hwf : (AssocHashTable.tiny array).Wf getHash := trivial
    have habsent : ∀ a, (AssocHashTable.tiny array).Stored a → a.lval ≠ name := by
      intro a ha hname
      rw [(hashLookupElement_eq_some hwf).mpr ⟨ha, hname⟩] at hnone
      cases hnone
    obtain ⟨t'', heq, hwf', hstored⟩ := hashInsertElement_of_absent copy rval dtype hwf id habsent
    obtain rfl : t' = t'' := (Prod.mk.inj (hins.symm.trans heq)).2
    refine ⟨(hashLookupElement_eq_some hwf').mpr ⟨(hstored _).mpr (.inl rfl), rfl⟩,
      fun _ => id, fun _ other hother => Option.ext fun a => ?_⟩
    rw [hashLookupElement_eq_some hwf', hashLookupElement_eq_some hwf, hstored]
    refine and_congr_left fun ha => or_iff_right ?_
    rintro rfl
    exact hother ha.symm

/-! ## Scopes -/

/-- The association of a variable. -/
def VarState.assoc (getHash : CString → Fin cfHashTableSize) (s : VarState)
    (scope name : CString) : Option CfAssoc :=
  (getScope s.vscope scope).bind fun cp => hashLookupElement getHash cp.hashtable name

/-- The scope has a hash table in which an insertion of `name` uncovers another association. -/
def VarState.Uncovers (getHash : CString → Fin cfHashTableSize) (s : VarState)
    (scope name : CString) : Prop :=
  ∃ cp, getScope s.vscope scope = some cp ∧ cp.hashtable.Uncovers getHash name

/-- Every other variable of every scope has the same value in both states. -/
def SameOthers (getHash : CString → Fin cfHashTableSize) (s s' : VarState)
    (scope name : CString) : Prop :=
  ∀ scope' name', scopeName scope' ≠ scopeName scope ∨ name' ≠ name →
    s'.assoc getHash scope' name' = s.assoc getHash scope' name'

variable {s s' s₁ s₂ : VarState} {scope scope' : CString} {ptr : Scope}

theorem getScope_setHashtable :
    getScope (s.setHashtable scope t).vscope scope' =
      if scopeName scope' = scopeName scope then
        (getScope s.vscope scope').map fun cp => { cp with hashtable := t }
      else getScope s.vscope scope' := by
  rw [VarState.setHashtable, getScope, getScope]
  split
  · rename_i hname
    rw [hname]
    exact find?_modifyFirst_self fun _ => rfl
  · rename_i hname
    refine find?_modifyFirst_of_ne (fun cp hcp => ?_) fun _ => rfl
    rw [of_decide_eq_true hcp]
    exact decide_eq_false (Ne.symm hname)

theorem assoc_of_getScope (hptr : getScope s.vscope scope = some ptr)
    (hscope : scopeName scope' = scopeName scope) :
    s.assoc getHash scope' name = hashLookupElement getHash ptr.hashtable name := by
  rw [VarState.assoc, getScope, hscope, ← getScope, hptr]
  rfl

theorem assoc_setHashtable (hptr : getScope s.vscope scope = some ptr) :
    (s.setHashtable scope t).assoc getHash scope' name =
      if scopeName scope' = scopeName scope then hashLookupElement getHash t name
      else s.assoc getHash scope' name := by
  rw [VarState.assoc, getScope_setHashtable]
  split
  · rename_i hscope
    rw [getScope, hscope, ← getScope, hptr]
    rfl
  · rfl

/-- A write to one hash table keeps the other variables exactly if it keeps the other names of the
table. -/
theorem sameOthers_setHashtable (hptr : getScope s.vscope scope = some ptr) :
    SameOthers getHash s (s.setHashtable scope t) scope name ↔
      ∀ other ≠ name, hashLookupElement getHash t other =
        hashLookupElement getHash ptr.hashtable other := by
  constructor
  · intro h other hother
    have := h scope other (.inr hother)
    rwa [assoc_setHashtable hptr, if_pos rfl, assoc_of_getScope hptr rfl] at this
  · intro h scope' name' hne
    rw [assoc_setHashtable hptr]
    split
    · rename_i hscope
      rw [assoc_of_getScope hptr hscope]
      exact h name' (hne.resolve_left fun h => h hscope)
    · rfl

/-! ## Assignments -/

section
variable {expandScalar : List Scope → CString → Option (CString × Bool)}
  {mapIteratorsFromRval : VarState → Rval → Rval} {cellText : Rval → CString}

/-- A list replaces only a list, or a function call whose name is a reference. -/
def Replaces : Rval → Rval → Prop
  | .list _, .scalar _ => False
  | .list _, .fncall name _ => isCf3VarString name ≠ 0
  | _, _ => True

theorem Replaces.of_unresolvedVariables {a : CfAssoc} {unresolved : Bool}
    (h : unresolvedVariables cellText a rval = some unresolved) : Replaces rval a.rval := by
  cases rval with
  | scalar item => trivial
  | fncall name args => trivial
  | list l =>
    rw [unresolvedVariables] at h
    cases hstored : a.rval with
    | scalar item => rw [hstored] at h; cases h
    | list l' => trivial
    | fncall name args =>
      rw [hstored] at h
      by_contra hname
      simp [show isCf3VarString name = 0 by simpa [Replaces] using hname] at h

/-- What an assignment does to the association of the variable, when it keeps the others, and what
it can replace. -/
theorem addVariableHash_spec
    (h : addVariableHash getHash expandScalar mapIteratorsFromRval cellText s scope name rval
      dtype =
      some (true, s')) :
    let rval' := s.mappedRval mapIteratorsFromRval rval
    let copy := copyRvalItem (s.contextLookup getHash expandScalar)
    s'.assoc getHash scope name = some (match s.assoc getHash scope name with
      | none => newAssoc copy name rval' dtype
      | some a => if compareVariableValue cellText rval' a then a
        else a.assign (copy rval') dtype) ∧
    (SameOthers getHash s s' scope name ↔
      (s.assoc getHash scope name = none → ¬ s.Uncovers getHash scope name)) ∧
    (∀ a, s.assoc getHash scope name = some a → compareVariableValue cellText rval' a = false →
      Replaces rval' a.rval) := by
  intro rval' copy
  rw [addVariableHash] at h
  split at h
  · cases h
  split at h
  · cases h
  split at h
  · cases h
  cases hptr : getScope s.vscope scope with
  | none => rw [hptr] at h; cases h
  | some ptr =>
    have hassoc' : s.assoc getHash scope name = hashLookupElement getHash ptr.hashtable name :=
      assoc_of_getScope hptr rfl
    simp only [hptr] at h
    cases hassoc : hashLookupElement getHash ptr.hashtable name with
    | some assoc =>
      rw [hassoc] at hassoc'
      simp only [hassoc] at h
      have hpresent : s.assoc getHash scope name = none → ¬ s.Uncovers getHash scope name := by
        rw [hassoc']
        nofun
      cases hcompare : compareVariableValue cellText rval' assoc with
      | true =>
        rw [if_pos hcompare] at h
        cases h
        refine ⟨?_, ⟨fun _ => hpresent, fun _ _ _ _ => rfl⟩, fun a ha hfalse => ?_⟩
        · simp [hassoc', hcompare]
        · rw [hassoc', Option.some_inj] at ha
          rw [← ha, hcompare] at hfalse
          cases hfalse
      | false =>
        rw [if_neg (by rw [hcompare]; exact Bool.false_ne_true)] at h
        obtain ⟨unresolved, hwalk, hres⟩ := Option.map_eq_some_iff.mp h
        cases hres
        refine ⟨?_, ⟨fun _ => hpresent,
          fun _ => (sameOthers_setHashtable hptr).mpr fun other hne => ?_⟩, fun a ha _ => ?_⟩
        · rw [assoc_setHashtable hptr, if_pos rfl, hashLookupElement_hashAssign, if_pos rfl, hassoc]
          simp [hassoc', hcompare, copy, rval']
        · rw [hashLookupElement_hashAssign, if_neg hne]
        · rw [hassoc', Option.some_inj] at ha
          exact ha ▸ Replaces.of_unresolvedVariables hwalk
    | none =>
      rw [hassoc] at hassoc'
      simp only [hassoc] at h
      cases hins : hashInsertElement getHash copy ptr.hashtable name rval' dtype with
      | mk ok t =>
        simp only [copy, rval'] at hins
        rw [hins] at h
        cases ok with
        | false => cases h
        | true =>
          cases h
          obtain ⟨hself, hothers⟩ := hashInsertElement_lookup hassoc hins
          refine ⟨?_, ?_, fun a ha => absurd (hassoc'.symm.trans ha) nofun⟩
          · rw [assoc_setHashtable hptr, if_pos rfl, hself, hassoc']
          · rw [sameOthers_setHashtable hptr, hothers, hassoc', VarState.Uncovers, hptr]
            simp

/-! ## Reading the variable back -/

/-- A `$` that is followed by a bracket occurs. -/
def containsReference : CString → Bool
  | [] => false
  | c :: rest => c = '$' && startsWithBracket rest || containsReference rest

/-- A variable name without scope, and without references in it. -/
structure PlainName (name : CString) : Prop where
  noDot : '.' ∉ name
  noReference : containsReference name = false

theorem PlainName.isExpandable (h : PlainName name) : isExpandable name = 0 := by
  have hscan : ∀ {str : CString}, containsReference str = false → ∀ {scan : VarScan},
      scan.dollar = false → scanVars ['$'] false scan str = some scan := by
    intro str hstr scan hdollar
    induction str with
    | nil => rfl
    | cons c rest ih =>
      rw [containsReference, Bool.or_eq_false_iff] at hstr
      have hread : scan.read ['$'] c rest = scan := by
        rw [VarScan.read]
        split
        · rename_i hc
          have hbracket : startsWithBracket rest = false := by
            simpa [List.mem_singleton.mp hc] using hstr.1
          simp [hbracket]
        · simp [hdollar]
      have hcount : scan.count = scan := by simp [VarScan.count, hdollar]
      rw [scanVars, hread, hcount]
      exact ih hstr.2
  rw [Cfengine.isExpandable, hscan h.noReference rfl]
  rfl

theorem PlainName.isQualifiedVariable (h : PlainName name) : isQualifiedVariable name = false := by
  have hdot := h.noDot
  clear h
  induction name with
  | nil => rfl
  | cons c rest ih =>
    rw [List.mem_cons, not_or] at hdot
    rw [Cfengine.isQualifiedVariable, ih hdot.2]
    simp [Ne.symm hdot.1]

/-- `GetVariable` looks a plain name up in the scope whose name is cut off at the size of
`scopeid`. -/
theorem getVariable_of_plainName (h : PlainName name) :
    getVariable getHash expandScalar s.vscope scope name =
      if name.length ≥ cfMaxVarSize - 1 then none
      else some ((s.assoc getHash (scope.take (cfMaxVarSize - 1)) name).map
        fun a => (a.rval, a.dtype)) := by
  rw [getVariable, if_pos h.isExpandable, getVariable.find, h.isQualifiedVariable]
  split
  · rfl
  · have hlen : ¬ name.length ≥ cfMaxVarSize := by omega
    rw [if_neg Bool.false_ne_true, if_neg hlen, VarState.assoc, Option.map_bind]
    rfl

theorem scopeName_take_ne (h : cfMaxVarSize ≤ scope.length) :
    scopeName (scope.take (cfMaxVarSize - 1)) ≠ scopeName scope := by
  have hprefix : "default:".toList.isPrefixOf (scope.take (cfMaxVarSize - 1)) =
      "default:".toList.isPrefixOf scope := by
    rw [Bool.eq_iff_iff, List.isPrefixOf_iff_prefix, List.isPrefixOf_iff_prefix,
      List.prefix_take_iff]
    exact and_iff_left (by decide)
  intro heq
  have := congrArg List.length heq
  rw [scopeName, scopeName, hprefix] at this
  have hpos : 8 < cfMaxVarSize - 1 := by decide
  split at this <;> simp at this <;> omega

/-- The condition under which an assignment of `w` in the state `s₁` is what `GetVariable` then
returns, and the assignment before it, in the state `s`, leaves the other variables alone. -/
structure TakesEffect (getHash : CString → Fin cfHashTableSize)
    (expandScalar : List Scope → CString → Option (CString × Bool))
    (mapIteratorsFromRval : VarState → Rval → Rval) (cellText : Rval → CString)
    (s s₁ : VarState) (scope name : CString) (w : Rval) (dtype : CfDataType) : Prop where
  /-- The name fits in the buffers of `GetVariable`. -/
  nameFits : name.length < cfMaxVarSize - 1
  /-- If the name is new, its insertion uncovers no other variable. -/
  covered : s.assoc getHash scope name = none → ¬ s.Uncovers getHash scope name
  /-- The stored value is kept and already the same, or it can be replaced and the copy is exact.
  A list that has the text of a stored scalar among its elements does not replace it. -/
  stored : scope.length < cfMaxVarSize → ∀ a, s₁.assoc getHash scope name = some a →
    if compareVariableValue cellText (s₁.mappedRval mapIteratorsFromRval w) a then
      a.rval = w ∧ a.dtype = dtype
    else Replaces (s₁.mappedRval mapIteratorsFromRval w) a.rval ∧
      copyRvalItem (s₁.contextLookup getHash expandScalar)
        (s₁.mappedRval mapIteratorsFromRval w) = w
  /-- Where `GetVariable` cuts the name of the scope off, the other scope has the value. -/
  cutOff : cfMaxVarSize ≤ scope.length →
    (s.assoc getHash (scope.take (cfMaxVarSize - 1)) name).map (fun a => (a.rval, a.dtype)) =
      some (w, dtype)

/-- **When a second assignment takes effect.** -/
theorem addVariableHash_takesEffect_iff {v w : Rval} {dv dw : CfDataType} (hname : PlainName name)
    (h₁ : addVariableHash getHash expandScalar mapIteratorsFromRval cellText s scope name v dv =
      some (true, s₁))
    (h₂ : addVariableHash getHash expandScalar mapIteratorsFromRval cellText s₁ scope name w dw =
      some (true, s₂)) :
    (getVariable getHash expandScalar s₂.vscope scope name = some (some (w, dw)) ∧
        SameOthers getHash s s₂ scope name) ↔
      TakesEffect getHash expandScalar mapIteratorsFromRval cellText s s₁ scope name w dw := by
  obtain ⟨hassoc₁, hothers₁, -⟩ := addVariableHash_spec h₁
  obtain ⟨hassoc₂, hothers₂, hreplaces⟩ := addVariableHash_spec h₂
  obtain ⟨a, ha⟩ : ∃ a, s₁.assoc getHash scope name = some a := ⟨_, hassoc₁⟩
  rw [ha] at hassoc₂ hothers₂
  -- the second assignment leaves the other variables alone
  have hkeep : SameOthers getHash s₁ s₂ scope name := hothers₂.mpr nofun
  have hothers : SameOthers getHash s s₂ scope name ↔
      (s.assoc getHash scope name = none → ¬ s.Uncovers getHash scope name) := by
    rw [← hothers₁]
    exact ⟨fun h scope' name' hne => ((hkeep scope' name' hne).symm.trans (h scope' name' hne)),
      fun h scope' name' hne => ((hkeep scope' name' hne).trans (h scope' name' hne))⟩
  rw [getVariable_of_plainName hname, hothers]
  by_cases hlen : name.length ≥ cfMaxVarSize - 1
  · rw [if_pos hlen]
    exact ⟨fun h => absurd h.1 nofun, fun h => absurd h.nameFits (by omega)⟩
  rw [if_neg hlen, Option.some_inj]
  by_cases hscope : scope.length < cfMaxVarSize
  · have htake : scope.take (cfMaxVarSize - 1) = scope := List.take_of_length_le (by omega)
    rw [htake, hassoc₂]
    constructor
    · rintro ⟨hread, hcovered⟩
      refine ⟨by omega, hcovered, fun _ b hb => ?_, fun h => absurd hscope (by omega)⟩
      obtain rfl := Option.some.inj (ha.symm.trans hb)
      by_cases hcompare : compareVariableValue cellText (s₁.mappedRval mapIteratorsFromRval w) a
      · simpa [hcompare] using hread
      · have hcopy : copyRvalItem (s₁.contextLookup getHash expandScalar)
            (s₁.mappedRval mapIteratorsFromRval w) = w := by
          simpa [hcompare, CfAssoc.assign] using hread
        rw [if_neg hcompare]
        exact ⟨hreplaces a ha (Bool.eq_false_iff.mpr hcompare), hcopy⟩
    · intro h
      refine ⟨?_, h.covered⟩
      have hstored := h.stored hscope a ha
      by_cases hcompare : compareVariableValue cellText (s₁.mappedRval mapIteratorsFromRval w) a
      · simpa [hcompare] using hstored
      · rw [if_neg hcompare] at hstored
        simpa [hcompare, CfAssoc.assign] using hstored.2
  · have hne := scopeName_take_ne (Nat.le_of_not_lt hscope)
    constructor
    · rintro ⟨hread, hcovered⟩
      refine ⟨by omega, hcovered, fun h => absurd h hscope, fun _ => ?_⟩
      rwa [← hothers.mpr hcovered _ _ (.inl hne)]
    · intro h
      refine ⟨?_, h.covered⟩
      rw [hothers.mpr h.covered _ _ (.inl hne)]
      exact h.cutOff (Nat.le_of_not_lt hscope)

/-- One scope `main`, in which no variable or only `x` is set. -/
def mainScope (x : Option (Rval × CfDataType)) : VarState where
  vscope :=
    [{ scope := "main".toList
       hashtable := match x with
        | none => hashInit
        | some (rval, dtype) =>
          .tiny ⟨[{ lval := "x".toList, rval, dtype }], Nat.le_add_left 1 13,
            List.nodup_singleton _⟩ }]
  contextId := "main".toList
  agentIsCommon := false

theorem plainName_x : PlainName "x".toList := ⟨by decide, rfl⟩

theorem addVariableHash_a :
    addVariableHash oatHash (fun _ _ => none) (fun _ rval => rval) (fun _ => []) (mainScope none)
        "main".toList "x".toList (.scalar "a".toList) .str =
      some (true, mainScope (some (.scalar "a".toList, .str))) := rfl

theorem addVariableHash_takesEffect_iff_scalars :
    let w : Rval := .scalar "b".toList
    (getVariable oatHash (fun _ _ => none) (mainScope (some (w, .str))).vscope "main".toList
      "x".toList =
        some (some (w, .str)) ∧
      SameOthers oatHash (mainScope none) (mainScope (some (w, .str))) "main".toList "x".toList) ↔
      TakesEffect oatHash (fun _ _ => none) (fun _ rval => rval) (fun _ => [])
        (mainScope none) (mainScope (some (.scalar "a".toList, .str))) "main".toList "x".toList
        w .str :=
  addVariableHash_takesEffect_iff plainName_x addVariableHash_a rfl

/-- A list is taken for equal to the stored string unless one of its elements is that string: `x`
keeps the value `a` when it is assigned the list of `b`. -/
theorem addVariableHash_list_kept :
    let main := "main".toList
    let x := "x".toList
    let v : Rval := .scalar "a".toList
    let w : Rval := .list [.scalar "b".toList]
    let assign := addVariableHash oatHash (fun _ _ => none) (fun _ rval => rval) (fun _ => [])
    assign (mainScope none) main x v .str = some (true, mainScope (some (v, .str))) ∧
      assign (mainScope (some (v, .str))) main x w .slist =
        some (true, mainScope (some (v, .str))) ∧
      getVariable oatHash (fun _ _ => none) (mainScope (some (v, .str))).vscope main x =
        some (some (v, .str)) ∧ v ≠ w :=
  ⟨rfl, rfl, rfl, nofun⟩

/-- A list with the stored string among its elements is not taken for equal. Before it is stored,
the characters of the string are read as a list. -/
example :
    addVariableHash oatHash (fun _ _ => none) (fun _ rval => rval) (fun _ => [])
        (mainScope (some (.scalar "a".toList, .str))) "main".toList "x".toList
        (.list [.scalar "b".toList, .scalar "a".toList]) .slist = none := rfl

end

end Cfengine
