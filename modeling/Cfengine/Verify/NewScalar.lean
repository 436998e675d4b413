import Cfengine.Verify.Assignments

/-!
# Setting a scalar

`NewScalar` deletes a variable before it inserts it again, and where no bucket is marked as deleted
the insertion takes the bucket that the deletion has set free. So a plain name reads as it was set,
and what is found under another name is found as before, as long as there is room
(`newScalar_spec`).
-/

namespace Cfengine
open Probing KeyedList

variable {getHash : CString → Fin cfHashTableSize} {buckets : Table CfAssoc} {t t' : AssocHashTable}
  {array : AssocArray} {copy : Rval → Rval} {name : CString} {rval : Rval} {dtype : CfDataType}
  {a b : CfAssoc} {j : Nat}

/-! ## Room in a table -/

namespace AssocHashTable

/-- The number of associations. -/
def used : AssocHashTable → Nat
  | .tiny array => array.values.length
  | .huge buckets => buckets.used cfHashTableSize

/-- No bucket is `HASH_ENTRY_DELETED`, which no operation writes. -/
def NoDeleted : AssocHashTable → Prop
  | .tiny _ => True
  | .huge buckets => ∀ i < cfHashTableSize, buckets i ≠ .deleted

end AssocHashTable

open AssocHashTable

theorem used_le : t.used ≤ cfHashTableSize := by
  cases t with
  | tiny array => exact array.size_le.trans (by decide)
  | huge buckets => exact Table.used_le

/-- Names that are found are in as many buckets. -/
theorem length_le_used {names : List CString} (hnodup : names.Nodup)
    (hfound : ∀ name ∈ names, hashLookupElement getHash t name ≠ none) : names.length ≤ t.used := by
  cases t with
  | tiny array =>
    have hsub : names ⊆ array.values.map CfAssoc.lval := fun name hname => by
      obtain ⟨a, ha⟩ := Option.ne_none_iff_exists'.mp (hfound name hname)
      obtain ⟨hmem, hlval⟩ := tinyHashLookupElement_eq_some.mp ha
      exact hlval ▸ List.mem_map_of_mem hmem
    exact (hnodup.subperm hsub).length_le.trans (List.length_map _).le
  | huge buckets =>
    refine Table.length_le_used CfAssoc.lval hnodup fun name hname => ?_
    obtain ⟨a, ha⟩ := Option.ne_none_iff_exists'.mp (hfound name hname)
    obtain ⟨d, _, hslot, hlval, _⟩ := hugeHashLookupElement_eq_some_iff.mp ha
    exact ⟨_, probe_lt (by decide), a, hslot, hlval⟩

theorem used_place_le {k i : Nat} :
    (hashConvertToHuge.place a buckets k i).used cfHashTableSize ≤
      buckets.used cfHashTableSize + 1 := by
  rw [hashConvertToHuge.place_eq]
  split
  · exact Nat.le_succ _
  · exact Table.used_update_le

theorem used_hashConvertToHuge_le :
    (hashConvertToHuge getHash array).used cfHashTableSize ≤ array.values.length := by
  have hfold {values : List CfAssoc} {buckets : Table CfAssoc} :
      (values.foldl (fun buckets a =>
        hashConvertToHuge.place a buckets cfHashTableSize (getHash a.lval)) buckets).used
          cfHashTableSize ≤ buckets.used cfHashTableSize + values.length := by
    induction values generalizing buckets with
    | nil => rw [List.foldl_nil, List.length_nil, Nat.add_zero]
    | cons a values ih =>
      have hplace := @used_place_le buckets a cfHashTableSize (getHash a.lval)
      have hrest := @ih (hashConvertToHuge.place a buckets cfHashTableSize (getHash a.lval))
      rw [List.foldl_cons, List.length_cons]
      omega
  have hvalues := @hfold array.values fun _ => .free
  rwa [Table.used_empty, Nat.zero_add] at hvalues

/-! ## What an assignment does to a table -/

/-- The association is found, what is found under another name still is, and one bucket at most is
taken for it, none if the name was found before. -/
structure SetTo (getHash : CString → Fin cfHashTableSize) (t t' : AssocHashTable) (a : CfAssoc) :
    Prop where
  noDeleted : t'.NoDeleted
  lookup : hashLookupElement getHash t' a.lval = some a
  kept : ∀ other ≠ a.lval, ∀ b, hashLookupElement getHash t other = some b →
    hashLookupElement getHash t' other = some b
  stored : ∀ b, t'.Stored b → b = a ∨ t.Stored b
  used : t'.used ≤ t.used + 1
  used_found : hashLookupElement getHash t a.lval ≠ none → t'.used ≤ t.used

theorem holds_of_update {slot : Slot CfAssoc} (hslot : ∀ a, slot = .entry a → a = b)
    (h : Table.Holds cfHashTableSize (Function.update buckets j slot) a) :
    a = b ∨ buckets.Holds cfHashTableSize a := by
  obtain ⟨i, hi, ha⟩ := h
  rcases eq_or_ne i j with rfl | hne
  · rw [Function.update_self] at ha
    exact .inl (hslot a ha)
  · rw [Function.update_of_ne hne] at ha
    exact .inr ⟨i, hi, ha⟩

theorem noDeleted_update {slot : Slot CfAssoc} (h : ∀ i < cfHashTableSize, buckets i ≠ .deleted)
    (hslot : slot ≠ .deleted) :
    ∀ i < cfHashTableSize, Function.update buckets j slot i ≠ .deleted := by
  intro i hi
  rcases eq_or_ne i j with rfl | hne
  · rwa [Function.update_self]
  · rw [Function.update_of_ne hne]
    exact h i hi

/-- The search for a name that is not found ends at a free bucket, if there is one. -/
theorem takenBucket_of_lookup_none (hdeleted : ∀ i < cfHashTableSize, buckets i ≠ .deleted)
    (hnone : hugeHashLookupElement getHash buckets name = none)
    (hroom : buckets.used cfHashTableSize < cfHashTableSize) :
    ∃ j, takenBucket getHash buckets name = some j ∧ buckets j = .free := by
  obtain ⟨i, hi, hentry⟩ := Table.exists_not_entry hroom
  have hstops : stopsAt name true (buckets i) = true := by
    cases hslot : buckets i with
    | free => rfl
    | deleted => rfl
    | entry a =>
      rw [hslot] at hentry
      cases hentry
  cases hstop : takenBucket getHash buckets name with
  | none =>
    rw [(firstStop_eq_none (getHash name).isLt).mp hstop i hi] at hstops
    cases hstops
  | some j =>
    obtain ⟨d, hd, rfl, hs, hbefore⟩ := (firstStop_eq_some (getHash name).isLt).mp hstop
    refine ⟨_, rfl, ?_⟩
    cases hslot : buckets (probe cfHashTableSize (getHash name) d) with
    | free => rfl
    | deleted => exact absurd hslot (hdeleted _ (probe_lt (by decide)))
    | entry a =>
      rw [hslot] at hs
      have hfound := hugeHashLookupElement_eq_some_iff.mpr
        ⟨d, hd, hslot, (of_decide_eq_true hs).symm, fun e he => by
          have := hbefore e he
          revert this
          cases buckets (probe cfHashTableSize (getHash name) e) <;> simp [stopsAt]⟩
      rw [hnone] at hfound
      cases hfound

section
variable (copy rval dtype)

theorem hugeHashInsertElement_of_free (hj : takenBucket getHash buckets name = some j)
    (hfree : buckets j = .free) :
    hugeHashInsertElement getHash copy buckets name rval dtype =
      (true, Function.update buckets j (.entry (newAssoc copy name rval dtype))) := by
  have hstop : firstStop cfHashTableSize buckets (stopsAt (newAssoc copy name rval dtype).lval true)
      cfHashTableSize (getHash name) = some j := hj
  rw [hugeHashInsertElement, hugeHashInsertElement.loop_eq, hstop]
  simp [hfree]

/-- A new name is inserted in a table with room. -/
theorem exists_insert_huge (hdeleted : ∀ i < cfHashTableSize, buckets i ≠ .deleted)
    (hnone : hugeHashLookupElement getHash buckets name = none)
    (hroom : buckets.used cfHashTableSize < cfHashTableSize) :
    ∃ buckets', hugeHashInsertElement getHash copy buckets name rval dtype = (true, buckets') ∧
      SetTo getHash (.huge buckets) (.huge buckets') (newAssoc copy name rval dtype) := by
  obtain ⟨j, hj, hfree⟩ := takenBucket_of_lookup_none hdeleted hnone hroom
  have hentry : ∀ a, buckets j ≠ .entry a := fun a ha => by
    rw [hfree] at ha
    cases ha
  refine ⟨_, hugeHashInsertElement_of_free copy rval dtype hj hfree,
    noDeleted_update hdeleted (by simp), hugeHashLookupElement_insert_self hj hentry rfl,
      fun other hother b hb => hugeHashLookupElement_insert_of_some hentry hother.symm hb,
    fun b hb => holds_of_update (fun a ha => (Slot.entry.inj ha).symm) hb, Table.used_update_le,
    fun hfound => absurd hnone hfound⟩

theorem exists_insert (hdeleted : t.NoDeleted) (hnone : hashLookupElement getHash t name = none)
    (hroom : t.used < cfHashTableSize) :
    ∃ t', hashInsertElement getHash copy t name rval dtype = (true, t') ∧
      SetTo getHash t t' (newAssoc copy name rval dtype) := by
  cases t with
  | huge buckets =>
    obtain ⟨buckets', heq, hset⟩ := exists_insert_huge copy rval dtype
      hdeleted hnone hroom
    exact ⟨.huge buckets', by rw [hashInsertElement, heq], hset⟩
  | tiny array =>
    have habsent : ∀ a ∈ array.values, a.lval ≠ name := by
      intro a ha hname
      rw [hashLookupElement, tinyHashLookupElement_eq_some.mpr ⟨ha, hname⟩] at hnone
      cases hnone
    rw [hashInsertElement, tinyHashInsertElement]
    split
    · rename_i hsize
      obtain ⟨hwf, -, hholds⟩ := hashConvertToHuge_spec getHash array
      have hused := @used_hashConvertToHuge_le getHash array
      have hfound {other : CString} {b : CfAssoc} :
          hugeHashLookupElement getHash (hashConvertToHuge getHash array) other = some b ↔
            hashLookupElement getHash (.tiny array) other = some b := by
        rw [hugeHashLookupElement_eq_some hwf, hholds]
        exact tinyHashLookupElement_eq_some.symm
      have hnone' : hugeHashLookupElement getHash (hashConvertToHuge getHash array) name = none :=
        Option.eq_none_iff_forall_ne_some.mpr fun b hb => by
          rw [hfound.mp hb] at hnone
          cases hnone
      obtain ⟨buckets', heq, hset⟩ := exists_insert_huge copy rval dtype
        hwf.noDeleted hnone' (hused.trans_lt (hsize ▸ by decide))
      refine ⟨.huge buckets', by rw [heq], hset.noDeleted, hset.lookup,
        fun other hother b hb => hset.kept other hother b (hfound.mpr hb),
        fun b hb => (hset.stored b hb).imp_right (hholds b).mp,
        hset.used.trans (Nat.succ_le_succ hused), fun hfound => absurd hnone hfound⟩
    · rename_i hsize
      refine ⟨_, dif_neg ?_, trivial, ?_, fun other hother b hb => ?_, fun b hb => ?_,
        List.length_append.le, fun hfound => absurd hnone hfound⟩
      · simp only [List.any_eq_true, decide_eq_true_eq, not_exists, not_and]
        exact habsent
      · exact tinyHashLookupElement_eq_some.mpr ⟨List.mem_concat_self, rfl⟩
      · obtain ⟨hmem, hlval⟩ := tinyHashLookupElement_eq_some.mp hb
        exact tinyHashLookupElement_eq_some.mpr ⟨List.mem_append_left _ hmem, hlval⟩
      · exact (List.mem_append.mp hb).symm.imp_left List.mem_singleton.mp

/-! ## A name that is set again -/

/-- The bucket of a name that is found, and what a search for the name passes before it. -/
theorem exists_found_bucket (h : hugeHashLookupElement getHash buckets name = some b) :
    ∃ j, firstStop cfHashTableSize buckets (stopsAt name false) cfHashTableSize (getHash name) =
      some j ∧ buckets j = .entry b ∧ b.lval = name := by
  obtain ⟨d, hd, hslot, hlval, hbefore⟩ := hugeHashLookupElement_eq_some_iff.mp h
  refine ⟨_, (firstStop_eq_some (getHash name).isLt).mpr ⟨d, hd, rfl, ?_, hbefore⟩, hslot, hlval⟩
  rw [hslot]
  exact decide_eq_true hlval.symm

/-- The bucket that a deletion has set free is the one that the insertion of the name takes. -/
theorem takenBucket_update_free (hdeleted : ∀ i < cfHashTableSize, buckets i ≠ .deleted)
    (hstop : firstStop cfHashTableSize buckets (stopsAt name false) cfHashTableSize
      (getHash name) = some j) :
    takenBucket getHash (Function.update buckets j .free) name = some j := by
  obtain ⟨d, hd, rfl, -, hbefore⟩ := (firstStop_eq_some (getHash name).isLt).mp hstop
  refine (firstStop_eq_some (getHash name).isLt).mpr ⟨d, hd, rfl, ?_, fun e he => ?_⟩
  · rw [Function.update_self]
    rfl
  · have hne : probe cfHashTableSize (getHash name) e ≠ probe cfHashTableSize (getHash name) d :=
      fun heq => absurd (probe_inj (by omega) hd heq) (by omega)
    rw [Function.update_of_ne hne]
    have hpassed := hbefore e he
    cases hslot : buckets (probe cfHashTableSize (getHash name) e) with
    | free =>
      rw [hslot] at hpassed
      cases hpassed
    | deleted => exact absurd hslot (hdeleted _ (probe_lt (by decide)))
    | entry a =>
      rw [hslot] at hpassed
      exact hpassed

/-- What is found under other names does not change where an association takes the place of one of
the same name. -/
theorem hugeHashLookupElement_update_entry {other : CString} (hslot : buckets j = .entry b)
    (hlval : a.lval = b.lval) (hother : other ≠ a.lval) {c : CfAssoc}
    (h : hugeHashLookupElement getHash buckets other = some c) :
    hugeHashLookupElement getHash (Function.update buckets j (.entry a)) other = some c := by
  obtain ⟨d, hd, hc, hname, hbefore⟩ := hugeHashLookupElement_eq_some_iff.mp h
  refine hugeHashLookupElement_eq_some_iff.mpr ⟨d, hd, ?_, hname, fun e he => ?_⟩
  · rw [Function.update_of_ne]
    · exact hc
    · intro heq
      rw [heq, hslot] at hc
      cases hc
      exact hother (hname.symm.trans hlval.symm)
  · rcases eq_or_ne (probe cfHashTableSize (getHash other) e) j with heq | hne
    · rw [heq, Function.update_self]
      exact decide_eq_false hother
    · rw [Function.update_of_ne hne]
      exact hbefore e he

theorem exists_replace_huge (hdeleted : ∀ i < cfHashTableSize, buckets i ≠ .deleted)
    (hfound : hugeHashLookupElement getHash buckets name = some b) :
    ∃ buckets', hugeHashInsertElement getHash copy (hugeHashDeleteElement getHash buckets name).2
        name rval dtype = (true, buckets') ∧
      SetTo getHash (.huge buckets) (.huge buckets') (newAssoc copy name rval dtype) := by
  obtain ⟨j, hstop, hslot, hlval⟩ := exists_found_bucket hfound
  have hdelete : (hugeHashDeleteElement getHash buckets name).2 =
      Function.update buckets j .free := by
    rw [hugeHashDeleteElement, hugeHashDeleteElement.loop_eq, hstop]
    simp [hslot]
  have htaken := takenBucket_update_free hdeleted hstop
  have hinsert := hugeHashInsertElement_of_free copy rval dtype
    htaken (Function.update_self ..)
  rw [Function.update_idem] at hinsert
  rw [hdelete]
  refine ⟨_, hinsert, noDeleted_update hdeleted (by simp), ?_,
    fun other hother c hc => hugeHashLookupElement_update_entry hslot hlval.symm hother hc,
    fun c hc => holds_of_update (fun a ha => (Slot.entry.inj ha).symm) hc,
    Table.used_update_le, fun _ => (Table.used_update_entry hslot).le⟩
  have hentry : ∀ a, Function.update buckets j .free j ≠ .entry a := fun a ha => by
    rw [Function.update_self] at ha
    cases ha
  have hself := hugeHashLookupElement_insert_self htaken hentry
    (show (newAssoc copy name rval dtype).lval = name from rfl)
  rwa [Function.update_idem] at hself

theorem exists_replace (hdeleted : t.NoDeleted)
    (hfound : hashLookupElement getHash t name = some b) :
    ∃ t', hashInsertElement getHash copy (hashDeleteElement getHash t name).2 name rval dtype =
        (true, t') ∧
      SetTo getHash t t' (newAssoc copy name rval dtype) := by
  cases t with
  | huge buckets =>
    obtain ⟨buckets', heq, hset⟩ := exists_replace_huge copy rval dtype
      hdeleted hfound
    exact ⟨.huge buckets', by rw [hashDeleteElement, hashInsertElement, heq], hset⟩
  | tiny array =>
    obtain ⟨hmem, hlval⟩ := tinyHashLookupElement_eq_some.mp hfound
    subst hlval
    obtain ⟨array', hdelete, hleft⟩ := tinyHashDeleteElement_of_mem hmem
    have hshorter : array'.values.length + 1 ≤ array.values.length := by
      have hnodup : (b.lval :: array'.values.map CfAssoc.lval).Nodup := by
        refine List.nodup_cons.mpr ⟨fun hmem' => ?_, array'.nodup⟩
        obtain ⟨c, hc, hname⟩ := List.mem_map.mp hmem'
        exact ((hleft c).mp hc).2 hname
      have hsub : b.lval :: array'.values.map CfAssoc.lval ⊆ array.values.map CfAssoc.lval := by
        refine List.cons_subset.mpr ⟨List.mem_map_of_mem hmem, fun name hname => ?_⟩
        obtain ⟨c, hc, rfl⟩ := List.mem_map.mp hname
        exact List.mem_map_of_mem ((hleft c).mp hc).1
      simpa using (hnodup.subperm hsub).length_le
    have hroom : array'.values.length < cfHashTableSize :=
      Nat.lt_of_lt_of_le (Nat.lt_of_succ_le hshorter) (array.size_le.trans (by decide))
    have hnone : hashLookupElement getHash (.tiny array') b.lval = none := by
      have h := @hashLookupElement_delete getHash (.tiny array) b.lval
      rwa [hashDeleteElement, hdelete] at h
    obtain ⟨t', hinsert, hset⟩ := exists_insert copy rval dtype
      (show (tiny array').NoDeleted from trivial) hnone hroom
    refine ⟨t', by rw [hashDeleteElement, hdelete]; exact hinsert, hset.noDeleted, hset.lookup,
      fun other hother c hc => hset.kept other hother c ?_,
      fun c hc => (hset.stored c hc).imp_right fun hc => ((hleft c).mp hc).1,
      hset.used.trans (hshorter.trans (Nat.le_succ _)), fun _ => hset.used.trans hshorter⟩
    obtain ⟨hc, hname⟩ := tinyHashLookupElement_eq_some.mp hc
    exact tinyHashLookupElement_eq_some.mpr ⟨(hleft c).mpr ⟨hc, hname ▸ hother⟩, hname⟩

end

/-! ## `NewScalar` -/

section
variable {expandScalar : List Scope → CString → Option (CString × Bool)}
  {mapIteratorsFromRval : VarState → Rval → Rval} {cellText : Rval → CString} {s : VarState}
  {scope item : CString} {ptr : Scope}

/-- A plain name in a scope, as `GetVariable` reads them. -/
structure ReadableName (scope name : CString) : Prop where
  plain : PlainName name
  nameFits : name.length < cfMaxVarSize - 1
  scopeFits : scope.length < cfMaxVarSize

theorem ReadableName.getVariable (h : ReadableName scope name) :
    getVariable getHash expandScalar s.vscope scope name =
      some ((s.assoc getHash scope name).map CfAssoc.value) := by
  rw [getVariable_of_plainName h.plain, if_neg (by have := h.nameFits; omega),
    List.take_of_length_le (by have := h.scopeFits; omega)]
  rfl

/-- A state in which the syntax checker does not look at values. -/
def VarState.Unchecked (s : VarState) : Prop :=
  s.agentIsCommon = false ∨ s.contextId = "this".toList

theorem VarState.Unchecked.mappedRval (h : s.Unchecked) :
    s.mappedRval mapIteratorsFromRval rval = rval := by
  rw [VarState.mappedRval, if_neg]
  rcases h with h | h <;> simp [h]

/-- The table of a scope has the associations with a type, and no bucket that is marked. -/
structure SoundTable (t : AssocHashTable) : Prop where
  noDeleted : t.NoDeleted
  typed : ∀ a, t.Stored a → a.dtype ≠ .notype

theorem stored_of_lookup (h : hashLookupElement getHash t name = some a) :
    t.Stored a ∧ a.lval = name := by
  cases t with
  | tiny array => exact tinyHashLookupElement_eq_some.mp h
  | huge buckets =>
    obtain ⟨d, _, hslot, hlval, _⟩ := hugeHashLookupElement_eq_some_iff.mp h
    exact ⟨⟨_, probe_lt (by decide), hslot⟩, hlval⟩

/-- A name that is not found is inserted. -/
theorem addVariableHash_of_absent (hlength : ¬ name.length > cfMaxVarSize)
    (hunchecked : s.Unchecked)
    (hptr : getScope s.vscope scope = some ptr)
    (hnone : hashLookupElement getHash ptr.hashtable name = none)
    (hitself : stringContainsVar name item = false)
    (hinsert : hashInsertElement getHash (copyRvalItem (s.contextLookup getHash expandScalar))
      ptr.hashtable name (.scalar item) dtype = (true, t')) :
    addVariableHash getHash expandScalar mapIteratorsFromRval cellText s scope name (.scalar item)
      dtype = some (true, s.setHashtable scope t') := by
  rw [addVariableHash, if_neg (show ¬ isNullItem (.scalar item) = true from Bool.false_ne_true),
    if_neg hlength, if_neg (by simp [containsVar, hitself]), hptr]
  simp only [hunchecked.mappedRval, hnone]
  rw [hinsert]

/-- `NewScalar` sets the variable, if the value does not refer to it and there is room. -/
theorem newScalar_spec (hread : ReadableName scope name) (hunchecked : s.Unchecked)
    (hptr : getScope s.vscope scope = some ptr) (hsound : SoundTable ptr.hashtable)
    (hitself : stringContainsVar name item = false)
    (hroom : hashLookupElement getHash ptr.hashtable name = none →
      ptr.hashtable.used < cfHashTableSize) (hdtype : dtype ≠ .notype) :
    ∃ s' ptr', newScalar getHash expandScalar mapIteratorsFromRval cellText s scope name item
        dtype = some s' ∧ getScope s'.vscope scope = some ptr' ∧ s'.Unchecked ∧
      SoundTable ptr'.hashtable ∧
      SetTo getHash ptr.hashtable ptr'.hashtable ⟨name, .scalar item, dtype⟩ := by
  have hassoc : s.assoc getHash scope name = hashLookupElement getHash ptr.hashtable name :=
    assoc_of_getScope hptr rfl
  have hlength : ¬ name.length > cfMaxVarSize := by
    have := hread.nameFits
    omega
  -- the deletion leaves a state `s₁` from which the name is inserted
  have hset (s₁ : VarState) (ptr₁ : Scope)
      (hdelete : deleteFound getHash expandScalar s scope name = some s₁)
        (hunchecked₁ : s₁.Unchecked)
      (hptr₁ : getScope s₁.vscope scope = some ptr₁)
      (hnone : hashLookupElement getHash ptr₁.hashtable name = none)
      (hinsert : ∀ copy : Rval → Rval, ∃ t', hashInsertElement getHash copy ptr₁.hashtable name
          (.scalar item) dtype = (true, t') ∧
        SetTo getHash ptr.hashtable t' (newAssoc copy name (.scalar item) dtype)) :
      ∃ s' ptr', newScalar getHash expandScalar mapIteratorsFromRval cellText s scope name item
          dtype = some s' ∧ getScope s'.vscope scope = some ptr' ∧ s'.Unchecked ∧
        SoundTable ptr'.hashtable ∧
        SetTo getHash ptr.hashtable ptr'.hashtable ⟨name, .scalar item, dtype⟩ := by
    obtain ⟨t', hinsert, hset⟩ := hinsert (copyRvalItem (s₁.contextLookup getHash expandScalar))
    refine ⟨s₁.setHashtable scope t', { ptr₁ with hashtable := t' }, ?_, ?_, hunchecked₁, ?_, hset⟩
    · rw [newScalar, hptr]
      dsimp only
      rw [hdelete]
      exact congrArg (Option.bind · _)
        (addVariableHash_of_absent hlength hunchecked₁ hptr₁ hnone hitself hinsert)
    · rw [getScope_setHashtable, if_pos rfl, hptr₁]
      rfl
    · refine ⟨hset.noDeleted, fun a ha => ?_⟩
      rcases hset.stored a ha with rfl | ha
      · exact hdtype
      · exact hsound.typed a ha
  cases hfound : hashLookupElement getHash ptr.hashtable name with
  | none =>
    refine hset s ptr ?_ hunchecked hptr hfound fun copy =>
      exists_insert copy _ dtype hsound.noDeleted hfound (hroom hfound)
    rw [deleteFound, hread.getVariable, hassoc, hfound]
    rfl
  | some a =>
    have htype := hsound.typed a (stored_of_lookup hfound).1
    refine hset (deleteScalar getHash s scope name)
      { ptr with hashtable := (hashDeleteElement getHash ptr.hashtable name).2 }
      ?_ ?_ ?_ (hashLookupElement_delete _ _) fun copy =>
        exists_replace copy _ dtype hsound.noDeleted hfound
    · rw [deleteFound, hread.getVariable, hassoc, hfound]
      simp [CfAssoc.value, htype]
    · rw [deleteScalar, hptr]
      exact hunchecked
    · rw [deleteScalar, hptr]
      dsimp only
      rw [getScope_setHashtable, if_pos rfl, hptr]
      rfl

end

end Cfengine
