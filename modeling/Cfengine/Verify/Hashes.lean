import Cfengine.Hashes
import Cfengine.Theory.KeyedList

/-!
# The variable store is a finite map

`Stored t a` says that the association `a` is in the table, in either representation, and `Wf t`
is the invariant under which the searches of `hashes.c` see exactly the stored associations: in the
huge representation, no name is stored twice and no association has a `NULL` bucket before it on
its probe path. Lookup, insertion and iteration keep to this invariant. Deletion does not: it
sets the bucket to `NULL` instead of `HASH_ENTRY_DELETED`, and so cuts off every association whose
probe path passes the bucket. `DeletesSafely` is the condition that there is none, and
`hashTable_isMap_iff` says that a run behaves as a finite map throughout exactly when each of its
deletions meets it.
-/

namespace Cfengine
open Probing

/-- The value that a lookup returns, with its type. -/
def CfAssoc.value (a : CfAssoc) : Rval × CfDataType := (a.rval, a.dtype)

namespace AssocHashTable

/-- The association is in the table. -/
def Stored : AssocHashTable → CfAssoc → Prop
  | .tiny array, a => a ∈ array.values
  | .huge buckets, a => buckets.Holds cfHashTableSize a

/-- Every bucket is taken. -/
def Full : AssocHashTable → Prop
  | .tiny _ => False
  | .huge buckets => ∀ i < cfHashTableSize, ∃ a, buckets i = .entry a

variable (getHash : CString → Fin cfHashTableSize)

/-- The searches for `getHash` see what is stored. -/
def Wf : AssocHashTable → Prop
  | .tiny _ => True
  | .huge buckets => buckets.Wf cfHashTableSize (fun name => getHash name) CfAssoc.lval

/-- Deleting `name` cuts no other association off its hash bucket: the bucket of `name` lies on
the probe path of no other association. -/
def DeletesSafely (t : AssocHashTable) (name : CString) : Prop :=
  match t with
  | .tiny _ => True
  | .huge buckets =>
    ∀ i a j b, i < cfHashTableSize → buckets i = .entry a → a.lval = name →
      j < cfHashTableSize → buckets j = .entry b →
        ¬ Before cfHashTableSize (getHash b.lval) i j

end AssocHashTable

open AssocHashTable

section
variable {getHash : CString → Fin cfHashTableSize} {buckets : Table CfAssoc} {t : AssocHashTable}

theorem getHash_lt (name : CString) : (fun name => (getHash name : Nat)) name < cfHashTableSize :=
  (getHash name).isLt

theorem AssocHashTable.Wf.unique (h : t.Wf getHash) {a b : CfAssoc} (ha : t.Stored a)
    (hb : t.Stored b) (hname : a.lval = b.lval) : a = b := by
  cases t with
  | tiny array => exact List.inj_on_of_nodup_map array.nodup ha hb hname
  | huge buckets =>
    obtain ⟨i, hi, ha⟩ := ha
    obtain ⟨j, hj, hb⟩ := hb
    cases Table.Wf.unique h hi hj ha hb hname
    exact Slot.entry.inj (ha.symm.trans hb)

/-! ## The loops of the huge representation as searches -/

/-- The buckets at which the search for `element` stops; `deleted` says whether it also stops at
deleted ones. -/
def stopsAt (element : CString) (deleted : Bool) : Slot CfAssoc → Bool
  | .free => true
  | .deleted => deleted
  | .entry a => element = a.lval

attribute [grind =] stopsAt

theorem hugeHashLookupElement.loop_eq {element : CString} {k i : Nat} :
    hugeHashLookupElement.loop element buckets k i =
      (firstStop cfHashTableSize buckets (stopsAt element false) k i).bind fun j =>
        match buckets j with
        | .entry a => some a
        | _ => none := by
  induction k generalizing i with
  | zero => rfl
  | succ k ih =>
    rw [loop, firstStop]
    cases hslot : buckets i with
    | free => simp [stopsAt, hslot]
    | deleted => simp [stopsAt, ih]
    | entry a =>
      by_cases hname : element = a.lval
      · simp [stopsAt, hname, hslot]
      · simp [stopsAt, hname, ih]

theorem hugeHashInsertElement.loop_eq {assoc : CfAssoc} {k i : Nat} :
    hugeHashInsertElement.loop assoc buckets k i =
      match firstStop cfHashTableSize buckets (stopsAt assoc.lval true) k i with
      | none => (false, buckets)
      | some j =>
        match buckets j with
        | .entry _ => (false, buckets)
        | _ => (true, Function.update buckets j (.entry assoc)) := by
  induction k generalizing i with
  | zero => rfl
  | succ k ih =>
    rw [loop, firstStop]
    cases hslot : buckets i with
    | free | deleted => simp [stopsAt, hslot]
    | entry a =>
      by_cases hname : assoc.lval = a.lval
      · simp [stopsAt, hname, hslot]
      · simp [stopsAt, hname, ih]

theorem hugeHashDeleteElement.loop_eq {element : CString} {k i : Nat} :
    hugeHashDeleteElement.loop element buckets k i =
      match firstStop cfHashTableSize buckets (stopsAt element false) k i with
      | none => (false, buckets)
      | some j =>
        match buckets j with
        | .entry _ => (true, Function.update buckets j .free)
        | _ => (false, buckets) := by
  induction k generalizing i with
  | zero => rfl
  | succ k ih =>
    rw [loop, firstStop]
    cases hslot : buckets i with
    | free => simp [stopsAt, hslot]
    | deleted => simp [stopsAt, ih]
    | entry a =>
      by_cases hname : element = a.lval
      · simp [stopsAt, hname, hslot]
      · simp [stopsAt, hname, ih]

theorem hashConvertToHuge.place_eq {assoc : CfAssoc} {k i : Nat} :
    hashConvertToHuge.place assoc buckets k i =
      match firstStop cfHashTableSize buckets Slot.isFree k i with
      | none => buckets
      | some j => Function.update buckets j (.entry assoc) := by
  induction k generalizing i with
  | zero => rfl
  | succ k ih =>
    rw [place, firstStop]
    cases hslot : buckets i with
    | free => simp [Slot.isFree]
    | deleted | entry => simp [Slot.isFree, ih]

/-! ## The huge representation -/

abbrev HugeWf (getHash : CString → Fin cfHashTableSize) (buckets : Table CfAssoc) : Prop :=
  buckets.Wf cfHashTableSize (fun name => getHash name) CfAssoc.lval

theorem hugeHashLookupElement_eq_some (h : HugeWf getHash buckets) {name : CString} {a : CfAssoc} :
    hugeHashLookupElement getHash buckets name = some a ↔
      buckets.Holds cfHashTableSize a ∧ a.lval = name := by
  rw [hugeHashLookupElement, hugeHashLookupElement.loop_eq, Option.bind_eq_some_iff]
  constructor
  · rintro ⟨j, hstop, hj⟩
    obtain ⟨d, hd, rfl, hstops, -⟩ := (firstStop_eq_some (getHash name).isLt).mp hstop
    split at hj
    · rename_i b hslot
      cases hj
      rw [hslot] at hstops
      exact ⟨⟨_, probe_lt (by omega), hslot⟩, (of_decide_eq_true hstops).symm⟩
    · cases hj
  · rintro ⟨⟨j, hj, hslot⟩, rfl⟩
    refine ⟨j, ?_, by rw [hslot]⟩
    exact h.firstStop_of_entry getHash_lt (fun b => by simp [stopsAt, eq_comm]) hj hslot

variable {copyRvalItem : Rval → Rval} {name : CString} {rval : Rval} {dtype : CfDataType}

theorem hugeHashInsertElement_of_holds (h : HugeWf getHash buckets) {a : CfAssoc}
    (ha : buckets.Holds cfHashTableSize a) :
    hugeHashInsertElement getHash copyRvalItem buckets a.lval rval dtype = (false, buckets) := by
  obtain ⟨j, hj, hslot⟩ := ha
  have hstops : ∀ b, stopsAt a.lval true (.entry b) = true ↔ b.lval = a.lval := fun b => by
    simp [stopsAt, eq_comm]
  have := h.firstStop_of_entry getHash_lt hstops hj hslot
  rw [hugeHashInsertElement, hugeHashInsertElement.loop_eq, newAssoc, this]
  simp [hslot]

/-- The search for an absent name stops at a `NULL` bucket of a table that is not full. -/
theorem HugeWf.firstStop_of_absent (h : HugeWf getHash buckets)
    (habsent : ∀ a, buckets.Holds cfHashTableSize a → a.lval ≠ name)
    (hfull : ∃ i < cfHashTableSize, ∀ a, buckets i ≠ .entry a) (stops : Slot CfAssoc → Bool)
    (hfree : stops .free = true)
    (hentry : ∀ a : CfAssoc, a.lval ≠ name → stops (.entry a) = false) :
    ∃ j < cfHashTableSize, firstStop cfHashTableSize buckets stops cfHashTableSize (getHash name)
        = some j ∧ buckets j = .free ∧ Reaches cfHashTableSize buckets (getHash name) j := by
  have hslots : ∀ i < cfHashTableSize, stops (buckets i) = true → buckets i = .free := by
    intro i hi hs
    cases hslot : buckets i with
    | free => rfl
    | deleted => exact absurd hslot (h.noDeleted i hi)
    | entry a =>
      rw [hslot, hentry a (habsent a ⟨i, hi, hslot⟩)] at hs
      cases hs
  cases hstop : firstStop cfHashTableSize buckets stops cfHashTableSize (getHash name) with
  | none =>
    obtain ⟨i, hi, hslot⟩ := hfull
    have hs := (firstStop_eq_none (getHash name).isLt).mp hstop i hi
    cases hb : buckets i with
    | free => rw [hb, hfree] at hs; cases hs
    | deleted => exact absurd hb (h.noDeleted i hi)
    | entry a => exact absurd hb (hslot a)
  | some j =>
    obtain ⟨d, hd, rfl, hs, hbefore⟩ := (firstStop_eq_some (getHash name).isLt).mp hstop
    have hlt : probe cfHashTableSize (getHash name) d < cfHashTableSize := probe_lt (by omega)
    refine ⟨_, hlt, rfl, hslots _ hlt hs, d, hd, rfl, fun e he hslot => ?_⟩
    have := hbefore e he
    rw [hslot, hfree] at this
    cases this

theorem hugeHashInsertElement_of_absent (h : HugeWf getHash buckets)
    (habsent : ∀ a, buckets.Holds cfHashTableSize a → a.lval ≠ name)
    (hfull : ∃ i < cfHashTableSize, ∀ a, buckets i ≠ .entry a) :
    ∃ buckets', hugeHashInsertElement getHash copyRvalItem buckets name rval dtype =
        (true, buckets') ∧
      HugeWf getHash buckets' ∧ ∀ b, buckets'.Holds cfHashTableSize b ↔
        b = newAssoc copyRvalItem name rval dtype ∨ buckets.Holds cfHashTableSize b := by
  obtain ⟨j, hj, hstop, hslot, hreach⟩ := h.firstStop_of_absent habsent hfull
    (stopsAt name true) rfl (fun a ha => by simp [stopsAt, Ne.symm ha])
  refine ⟨Function.update buckets j (.entry (newAssoc copyRvalItem name rval dtype)),
    ?_, ?_, fun b => ?_⟩
  · rw [hugeHashInsertElement, hugeHashInsertElement.loop_eq, newAssoc, hstop]
    simp [hslot]
  · exact h.place habsent hj hslot hreach
  · exact Table.holds_update_entry hj hslot

theorem hugeHashDeleteElement_of_holds (h : HugeWf getHash buckets) {a : CfAssoc} {i : Nat}
    (hi : i < cfHashTableSize) (hslot : buckets i = .entry a) :
    hugeHashDeleteElement getHash buckets a.lval = (true, Function.update buckets i .free) := by
  have hstops : ∀ b, stopsAt a.lval false (.entry b) = true ↔ b.lval = a.lval := fun b => by
    simp [stopsAt, eq_comm]
  have := h.firstStop_of_entry getHash_lt hstops hi hslot
  rw [hugeHashDeleteElement, hugeHashDeleteElement.loop_eq, this]
  simp [hslot]

theorem hugeHashDeleteElement_of_absent
    (habsent : ∀ a, buckets.Holds cfHashTableSize a → a.lval ≠ name) :
    hugeHashDeleteElement getHash buckets name = (false, buckets) := by
  rw [hugeHashDeleteElement, hugeHashDeleteElement.loop_eq]
  split
  · rfl
  · rename_i j hstop
    obtain ⟨d, hd, rfl, hs, -⟩ := (firstStop_eq_some (getHash name).isLt).mp hstop
    split
    · rename_i a hslot
      rw [hslot] at hs
      exact absurd (of_decide_eq_true hs).symm (habsent a ⟨_, probe_lt (by omega), hslot⟩)
    · rfl

/-! ## The conversion -/

theorem hashConvertToHuge.place_of_absent (h : HugeWf getHash buckets) {assoc : CfAssoc}
    (habsent : ∀ a, buckets.Holds cfHashTableSize a → a.lval ≠ assoc.lval)
    (hfull : ∃ i < cfHashTableSize, ∀ a, buckets i ≠ .entry a) :
    ∃ j < cfHashTableSize, place assoc buckets cfHashTableSize (getHash assoc.lval) =
        Function.update buckets j (.entry assoc) ∧
      HugeWf getHash (Function.update buckets j (.entry assoc)) ∧
      ∀ b, Table.Holds cfHashTableSize (Function.update buckets j (.entry assoc)) b ↔
        b = assoc ∨ buckets.Holds cfHashTableSize b := by
  obtain ⟨j, hj, hstop, hslot, hreach⟩ :=
    h.firstStop_of_absent habsent hfull Slot.isFree rfl (fun _ _ => rfl)
  refine ⟨j, hj, ?_, h.place habsent hj hslot hreach, fun b => Table.holds_update_entry hj hslot⟩
  rw [place_eq, hstop]

/-- Placing associations with new names one by one; `taken` covers the buckets in use. -/
theorem hashConvertToHuge.foldl_place {values : List CfAssoc} {taken : Finset Nat}
    (h : HugeWf getHash buckets) (htaken : ∀ i ∉ taken, buckets i = .free)
    (hcard : taken.card + values.length < cfHashTableSize)
    (hnodup : (values.map CfAssoc.lval).Nodup)
    (hnew : ∀ a ∈ values, ∀ b, buckets.Holds cfHashTableSize b → b.lval ≠ a.lval) :
    let buckets' := values.foldl (fun buckets assoc =>
      place assoc buckets cfHashTableSize (getHash assoc.lval)) buckets
    HugeWf getHash buckets' ∧ (∃ i < cfHashTableSize, ∀ a, buckets' i ≠ .entry a) ∧
      ∀ b, buckets'.Holds cfHashTableSize b ↔ b ∈ values ∨ buckets.Holds cfHashTableSize b := by
  have hfree : ∃ i < cfHashTableSize, ∀ a, buckets i ≠ .entry a := by
    obtain ⟨i, hi, hmem⟩ : ∃ i ∈ Finset.range cfHashTableSize, i ∉ taken :=
      Finset.exists_mem_notMem_of_card_lt_card (by rw [Finset.card_range]; omega)
    exact ⟨i, Finset.mem_range.mp hi, fun a => by rw [htaken i hmem]; nofun⟩
  induction values generalizing buckets taken with
  | nil => exact ⟨h, hfree, fun b => by simp⟩
  | cons assoc values ih =>
    rw [List.map_cons, List.nodup_cons] at hnodup
    obtain ⟨j, hj, heq, hwf, hholds⟩ := place_of_absent h (hnew assoc (by simp)) hfree
    have hlen : (insert j taken).card ≤ taken.card + 1 := Finset.card_insert_le _ _
    rw [List.length_cons] at hcard
    have htaken' : ∀ i ∉ insert j taken,
        Function.update buckets j (.entry assoc) i = .free := by
      intro i hi
      rw [Finset.mem_insert, not_or] at hi
      rw [Function.update_of_ne hi.1]
      exact htaken i hi.2
    have hnew' : ∀ a ∈ values, ∀ b,
        Table.Holds cfHashTableSize (Function.update buckets j (.entry assoc)) b →
          b.lval ≠ a.lval := by
      intro a ha b hb
      rcases (hholds b).mp hb with rfl | hb
      · exact fun hname => hnodup.1 (hname ▸ List.mem_map_of_mem ha)
      · exact hnew a (List.mem_cons_of_mem _ ha) b hb
    have hfree' : ∃ i < cfHashTableSize,
        ∀ a, Function.update buckets j (.entry assoc) i ≠ .entry a := by
      obtain ⟨i, hi, hmem⟩ : ∃ i ∈ Finset.range cfHashTableSize, i ∉ insert j taken :=
        Finset.exists_mem_notMem_of_card_lt_card (by rw [Finset.card_range]; omega)
      exact ⟨i, Finset.mem_range.mp hi, fun a => by rw [htaken' i hmem]; nofun⟩
    simp only [List.foldl_cons, heq]
    obtain ⟨hwf', hfull', hholds'⟩ := ih hwf htaken' (by omega) hnodup.2 hnew' hfree'
    refine ⟨hwf', hfull', fun b => ?_⟩
    rw [hholds', hholds, List.mem_cons]
    tauto

variable (getHash) in
theorem hashConvertToHuge_spec (array : AssocArray) :
    HugeWf getHash (hashConvertToHuge getHash array) ∧
      (∃ i < cfHashTableSize, ∀ a, hashConvertToHuge getHash array i ≠ .entry a) ∧
      ∀ b, (hashConvertToHuge getHash array).Holds cfHashTableSize b ↔ b ∈ array.values := by
  have hsize := array.size_le
  have hnone : ∀ b : CfAssoc, ¬ Table.Holds cfHashTableSize (fun _ => .free) b := by
    rintro b ⟨_, _, hb⟩
    cases hb
  have hempty : HugeWf getHash (fun _ => .free) := Table.Wf.empty
  have hcard : (∅ : Finset Nat).card + array.values.length < cfHashTableSize := by
    simp only [Finset.card_empty, tinyLimit, cfHashTableSize] at *
    omega
  obtain ⟨hwf, hfull, hholds⟩ := hashConvertToHuge.foldl_place hempty (fun _ _ => rfl) hcard
    array.nodup (fun _ _ b hb => absurd hb (hnone b))
  exact ⟨hwf, hfull, fun b => by rw [hashConvertToHuge, hholds]; simp [hnone b]⟩

/-! ## The tiny representation -/

theorem isEquiv_eq : KeyedList.IsEquiv fun x y : CString => decide (x = y) :=
  ⟨by simp, by simp [eq_comm], fun h₁ h₂ => by simp_all⟩

theorem distinct_iff_nodup {values : List CfAssoc} :
    KeyedList.Distinct (fun x y : CString => decide (x = y)) CfAssoc.lval values ↔
      (values.map CfAssoc.lval).Nodup := by
  rw [KeyedList.distinct_iff_map]
  simp only [decide_eq_false_iff_not, List.Nodup, ne_eq]

theorem tinyHashLookupElement_eq_some {array : AssocArray} {a : CfAssoc} :
    tinyHashLookupElement array name = some a ↔ a ∈ array.values ∧ a.lval = name :=
  ((distinct_iff_nodup.mpr array.nodup).find?_eq_some isEquiv_eq).trans
    (and_congr_right fun _ => decide_eq_true_iff)

theorem tinyHashDeleteElement_of_absent {array : AssocArray}
    (habsent : ∀ a ∈ array.values, a.lval ≠ name) :
    tinyHashDeleteElement array name = (false, array) :=
  if_neg (by simpa using habsent)

theorem tinyHashDeleteElement_of_mem {array : AssocArray} {a : CfAssoc} (ha : a ∈ array.values) :
    ∃ array', tinyHashDeleteElement array a.lval = (true, array') ∧
      ∀ b, b ∈ array'.values ↔ b ∈ array.values ∧ b.lval ≠ a.lval := by
  have hd := distinct_iff_nodup.mpr array.nodup
  refine ⟨_, if_pos (List.any_eq_true.mpr ⟨a, ha, by simp⟩), fun b => ?_⟩
  exact (hd.mem_eraseP isEquiv_eq).trans (and_congr_right fun _ => decide_eq_false_iff_not)

/-! ## The operations on either representation -/

theorem hashLookupElement_eq_some (h : t.Wf getHash) {name : CString} {a : CfAssoc} :
    hashLookupElement getHash t name = some a ↔ t.Stored a ∧ a.lval = name := by
  cases t with
  | tiny array => exact tinyHashLookupElement_eq_some
  | huge buckets => exact hugeHashLookupElement_eq_some h

variable (copyRvalItem rval dtype) in
theorem hashInsertElement_of_present (h : t.Wf getHash) {a : CfAssoc} (ha : t.Stored a)
    (hname : a.lval = name) :
    ∃ t', hashInsertElement getHash copyRvalItem t name rval dtype = (false, t') ∧
      t'.Wf getHash ∧ ∀ b, t'.Stored b ↔ t.Stored b := by
  subst hname
  cases t with
  | huge buckets =>
    refine ⟨.huge buckets, ?_, h, fun _ => Iff.rfl⟩
    rw [hashInsertElement, hugeHashInsertElement_of_holds h ha]
  | tiny array =>
    rw [hashInsertElement, tinyHashInsertElement]
    split
    · obtain ⟨hwf, -, hholds⟩ := hashConvertToHuge_spec getHash array
      refine ⟨.huge (hashConvertToHuge getHash array), ?_, hwf, hholds⟩
      rw [hugeHashInsertElement_of_holds hwf ((hholds a).mpr ha)]
    · refine ⟨.tiny array, dif_pos ?_, trivial, fun _ => Iff.rfl⟩
      exact List.any_eq_true.mpr ⟨a, ha, by simp⟩

variable (copyRvalItem rval dtype) in
theorem hashInsertElement_of_absent (h : t.Wf getHash) (hfull : ¬ t.Full)
    (habsent : ∀ a, t.Stored a → a.lval ≠ name) :
    ∃ t', hashInsertElement getHash copyRvalItem t name rval dtype = (true, t') ∧
      t'.Wf getHash ∧
      ∀ b, t'.Stored b ↔ b = newAssoc copyRvalItem name rval dtype ∨ t.Stored b := by
  cases t with
  | huge buckets =>
    have hslot : ∃ i < cfHashTableSize, ∀ a, buckets i ≠ .entry a := by
      simpa [Full] using hfull
    obtain ⟨buckets', heq, hwf, hholds⟩ := hugeHashInsertElement_of_absent h habsent hslot
    refine ⟨.huge buckets', ?_, hwf, hholds⟩
    rw [hashInsertElement, heq]
  | tiny array =>
    rw [hashInsertElement, tinyHashInsertElement]
    split
    · obtain ⟨hwf, hslot, hholds⟩ := hashConvertToHuge_spec getHash array
      obtain ⟨buckets', heq, hwf', hholds'⟩ := hugeHashInsertElement_of_absent hwf
        (fun a ha => habsent a ((hholds a).mp ha)) hslot
      refine ⟨.huge buckets', ?_, hwf', fun b => (hholds' b).trans (or_congr_right (hholds b))⟩
      rw [heq]
    · refine ⟨_, dif_neg ?_, trivial, fun b => ?_⟩
      · simp only [List.any_eq_true, decide_eq_true_eq, not_exists, not_and]
        exact habsent
      · change b ∈ array.values ++ [_] ↔ _
        rw [List.mem_append, List.mem_singleton, or_comm]
        rfl

theorem hashDeleteElement_of_present (h : t.Wf getHash) {a : CfAssoc} (ha : t.Stored a)
    (hname : a.lval = name) :
    ∃ t', hashDeleteElement getHash t name = (true, t') ∧
      (t.DeletesSafely getHash name → t'.Wf getHash) ∧
      ∀ b, t'.Stored b ↔ t.Stored b ∧ b.lval ≠ name := by
  subst hname
  cases t with
  | huge buckets =>
    obtain ⟨i, hi, hslot⟩ := ha
    refine ⟨.huge (Function.update buckets i .free), ?_, fun hsafe => ?_, fun b => ?_⟩
    · rw [hashDeleteElement, hugeHashDeleteElement_of_holds h hi hslot]
    · exact (h.free_iff hi hslot).mpr fun hj hb => hsafe i a _ _ hi hslot rfl hj hb
    · exact h.holds_update_free hi hslot
  | tiny array =>
    obtain ⟨array', heq, hmem⟩ := tinyHashDeleteElement_of_mem ha
    exact ⟨.tiny array', by rw [hashDeleteElement, heq], fun _ => trivial, hmem⟩

theorem hashDeleteElement_of_absent (habsent : ∀ a, t.Stored a → a.lval ≠ name) :
    hashDeleteElement getHash t name = (false, t) := by
  cases t with
  | huge buckets => rw [hashDeleteElement, hugeHashDeleteElement_of_absent habsent]
  | tiny array => rw [hashDeleteElement, tinyHashDeleteElement_of_absent habsent]

end

end Cfengine
