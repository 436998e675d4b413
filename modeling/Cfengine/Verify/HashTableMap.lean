import Cfengine.Theory.Runs
import Cfengine.Verify.Hashes

/-!
# Runs of the variable store

The operations on one table as a machine (`hashStep`), the finite map that they are meant to
implement (`VarMap.step`), and the comparison of the two along whole runs. `IsMap t m` says that
everything a caller can observe of the table `t` is what the map `m` prescribes.
-/

namespace Cfengine
open Probing AssocHashTable

/-- The operations on one table. Each insertion has its own `CopyRvalItem`, whose result depends
on the variables in scope at that time. -/
inductive HashOp where
  | insert (copyRvalItem : Rval → Rval) (element : CString) (rval : Rval) (dtype : CfDataType)
  | delete (element : CString)
  | lookup (element : CString)

def hashStep (getHash : CString → Fin cfHashTableSize) (t : AssocHashTable) :
    HashOp → AssocHashTable
  | .insert copyRvalItem element rval dtype =>
    (hashInsertElement getHash copyRvalItem t element rval dtype).2
  | .delete element => (hashDeleteElement getHash t element).2
  | .lookup _ => t

/-- The abstract variable store. -/
abbrev VarMap := CString → Option (Rval × CfDataType)

/-- The abstract meaning of the operations: an insertion succeeds only for a new name, and a
deletion forgets the name. -/
def VarMap.step (m : VarMap) : HashOp → VarMap
  | .insert copyRvalItem element rval dtype =>
    if m element = none then Function.update m element (some (copyRvalItem rval, dtype)) else m
  | .delete element => Function.update m element none
  | .lookup _ => m

/-- The map after the operations `ops` on an empty store. -/
def VarMap.after (ops : List HashOp) : VarMap := Runs.run VarMap.step (fun _ => none) ops

/-- The table after the operations `ops` on a table from `HashInit`. -/
def AssocHashTable.after (getHash : CString → Fin cfHashTableSize) (ops : List HashOp) :
    AssocHashTable := Runs.run (hashStep getHash) hashInit ops

/-- The table behaves as the map `m`: lookups return the value of the name, an insertion fails
exactly for a present name, a deletion succeeds exactly for a present name, and an iteration
yields each present name once, with its value. -/
structure AssocHashTable.IsMap (getHash : CString → Fin cfHashTableSize) (t : AssocHashTable)
    (m : VarMap) : Prop where
  lookup : ∀ name, (hashLookupElement getHash t name).map CfAssoc.value = m name
  insert : ∀ copyRvalItem name rval dtype,
    (hashInsertElement getHash copyRvalItem t name rval dtype).1 = false ↔ m name ≠ none
  delete : ∀ name, (hashDeleteElement getHash t name).1 = true ↔ m name ≠ none
  iterate : ∃ l, (hashIteratorInit t).Yields l ∧ (l.map CfAssoc.lval).Nodup ∧
    ∀ name v, m name = some v ↔ ∃ a ∈ l, a.lval = name ∧ a.value = v

/-- The map holds exactly what is stored in the table. -/
def AssocHashTable.Represents (t : AssocHashTable) (m : VarMap) : Prop :=
  ∀ name v, m name = some v ↔ ∃ a, t.Stored a ∧ a.lval = name ∧ a.value = v

variable {getHash : CString → Fin cfHashTableSize} {t : AssocHashTable} {m : VarMap}

/-! ## Iteration -/

/-- The associations in the `k` buckets from `pos` on. -/
def entriesFrom (buckets : Table CfAssoc) : Nat → Nat → List CfAssoc
  | 0, _ => []
  | k + 1, pos =>
    match buckets pos with
    | .entry a => a :: entriesFrom buckets k (pos + 1)
    | _ => entriesFrom buckets k (pos + 1)

attribute [grind =] entriesFrom

theorem mem_entriesFrom {buckets : Table CfAssoc} {k pos : Nat} {a : CfAssoc} :
    a ∈ entriesFrom buckets k pos ↔ ∃ j, pos ≤ j ∧ j < pos + k ∧ buckets j = .entry a := by
  induction k generalizing pos with
  | zero => simp [entriesFrom]; omega
  | succ k ih =>
    have hsplit : (∃ j, pos ≤ j ∧ j < pos + (k + 1) ∧ buckets j = .entry a) ↔
        buckets pos = .entry a ∨ ∃ j, pos + 1 ≤ j ∧ j < pos + 1 + k ∧ buckets j = .entry a := by
      constructor
      · rintro ⟨j, h1, h2, hj⟩
        rcases Nat.eq_or_lt_of_le h1 with rfl | h1
        · exact .inl hj
        · exact .inr ⟨j, h1, by omega, hj⟩
      · rintro (hj | ⟨j, h1, h2, hj⟩)
        · exact ⟨pos, by omega, by omega, hj⟩
        · exact ⟨j, by omega, by omega, hj⟩
    rw [hsplit, entriesFrom]
    cases hslot : buckets pos with
    | free | deleted => simp [ih]
    | entry b => simp [ih, eq_comm]

theorem HugeWf.nodup_entriesFrom {buckets : Table CfAssoc} (h : HugeWf getHash buckets)
    {k pos : Nat} (hk : pos + k ≤ cfHashTableSize) :
    ((entriesFrom buckets k pos).map CfAssoc.lval).Nodup := by
  induction k generalizing pos with
  | zero => exact List.nodup_nil
  | succ k ih =>
    have hrest : ((entriesFrom buckets k (pos + 1)).map CfAssoc.lval).Nodup := ih (by omega)
    rw [entriesFrom]
    cases hslot : buckets pos with
    | free | deleted => exact hrest
    | entry a =>
      refine List.nodup_cons.mpr ⟨fun hin => ?_, hrest⟩
      obtain ⟨b, hb, hname⟩ := List.mem_map.mp hin
      obtain ⟨j, h1, h2, hj⟩ := mem_entriesFrom.mp hb
      have := h.unique (by omega) (by omega) hj hslot hname
      omega

theorem hashIteratorNext_skip {buckets : Table CfAssoc} {pos : Nat} (hpos : pos < cfHashTableSize)
    (hslot : ∀ a, buckets pos ≠ .entry a) :
    hashIteratorNext ⟨.huge buckets, pos⟩ = hashIteratorNext ⟨.huge buckets, pos + 1⟩ := by
  have hk : cfHashTableSize - pos = cfHashTableSize - (pos + 1) + 1 := by omega
  have hskip : hugeHashIteratorNext.skip buckets (cfHashTableSize - pos) pos =
      hugeHashIteratorNext.skip buckets (cfHashTableSize - (pos + 1)) (pos + 1) := by
    rw [hk, hugeHashIteratorNext.skip]
    cases hb : buckets pos with
    | free | deleted => rfl
    | entry a => exact absurd hb (hslot a)
  simp only [hashIteratorNext, hugeHashIteratorNext, hskip]

/-- Two iterators with the same next step yield the same associations. -/
theorem HashIterator.Yields.congr {i i' : HashIterator} {l : List CfAssoc} (h : i.Yields l)
    (heq : hashIteratorNext i' = hashIteratorNext i) : i'.Yields l := by
  cases h with
  | done h => exact .done (heq.trans h)
  | next h hl => exact .next (heq.trans h) hl

theorem yields_huge {buckets : Table CfAssoc} {k pos : Nat} (hk : pos + k = cfHashTableSize) :
    HashIterator.Yields ⟨.huge buckets, pos⟩ (entriesFrom buckets k pos) := by
  induction k generalizing pos with
  | zero =>
    obtain rfl : pos = cfHashTableSize := hk
    have hnext : hashIteratorNext ⟨.huge buckets, cfHashTableSize⟩ =
        (none, ⟨.huge buckets, cfHashTableSize⟩) := by
      simp [hashIteratorNext, hugeHashIteratorNext, hugeHashIteratorNext.skip]
    exact .done hnext
  | succ k ih =>
    have hpos : pos < cfHashTableSize := by omega
    have hrest : HashIterator.Yields ⟨.huge buckets, pos + 1⟩ _ := ih (by omega)
    rw [entriesFrom]
    cases hslot : buckets pos with
    | free | deleted =>
      exact hrest.congr (hashIteratorNext_skip hpos (by rw [hslot]; nofun))
    | entry a =>
      refine .next ?_ hrest
      have hskip : hugeHashIteratorNext.skip buckets (cfHashTableSize - pos) pos = pos := by
        rw [show cfHashTableSize - pos = k + 1 by omega, hugeHashIteratorNext.skip, hslot]
      simp [hashIteratorNext, hugeHashIteratorNext, hskip, hslot, Nat.ne_of_lt hpos]

theorem yields_tiny {array : AssocArray} {k pos : Nat} (hk : pos + k = array.values.length) :
    HashIterator.Yields ⟨.tiny array, pos⟩ (array.values.drop pos) := by
  induction k generalizing pos with
  | zero =>
    obtain rfl : pos = array.values.length := hk
    rw [List.drop_length]
    have hnext : hashIteratorNext ⟨.tiny array, array.values.length⟩ =
        (none, ⟨.tiny array, array.values.length⟩) := by
      simp [hashIteratorNext, tinyHashIteratorNext]
    exact .done hnext
  | succ k ih =>
    have hpos : pos < array.values.length := by omega
    rw [List.drop_eq_getElem_cons hpos]
    have hrest : HashIterator.Yields ⟨.tiny array, pos + 1⟩ _ := ih (by omega)
    refine .next ?_ hrest
    simp [hashIteratorNext, tinyHashIteratorNext, hpos]

/-- An iteration over a well-formed table yields the stored associations, each once. -/
theorem AssocHashTable.Wf.iterate (h : t.Wf getHash) :
    ∃ l, (hashIteratorInit t).Yields l ∧ (l.map CfAssoc.lval).Nodup ∧ ∀ a, a ∈ l ↔ t.Stored a := by
  cases t with
  | tiny array =>
    have hl : HashIterator.Yields ⟨.tiny array, 0⟩ (array.values.drop 0) :=
      yields_tiny (Nat.zero_add _)
    rw [List.drop_zero] at hl
    exact ⟨array.values, hl, array.nodup, fun _ => Iff.rfl⟩
  | huge buckets =>
    refine ⟨_, yields_huge (Nat.zero_add _), HugeWf.nodup_entriesFrom h (by omega), fun a => ?_⟩
    rw [mem_entriesFrom]
    simp [Stored, Table.Holds]

/-! ## One state -/

theorem AssocHashTable.Represents.ne_none (hm : t.Represents m) {name : CString} :
    m name ≠ none ↔ ∃ a, t.Stored a ∧ a.lval = name := by
  rw [Option.ne_none_iff_exists']
  constructor
  · rintro ⟨v, hv⟩
    obtain ⟨a, ha, hname, -⟩ := (hm name v).mp hv
    exact ⟨a, ha, hname⟩
  · rintro ⟨a, ha, hname⟩
    exact ⟨a.value, (hm name _).mpr ⟨a, ha, hname, rfl⟩⟩

theorem AssocHashTable.Represents.eq_none (hm : t.Represents m) {name : CString}
    (h : ¬ ∃ a, t.Stored a ∧ a.lval = name) : m name = none := by
  by_contra hne
  exact h (hm.ne_none.mp hne)

theorem AssocHashTable.Wf.isMap (h : t.Wf getHash) (hm : t.Represents m) (hfull : ¬ t.Full) :
    t.IsMap getHash m where
  lookup name := by
    refine Option.ext fun v => ?_
    rw [hm, Option.map_eq_some_iff]
    simp only [hashLookupElement_eq_some h, and_assoc]
  insert copyRvalItem name rval dtype := by
    rw [hm.ne_none]
    constructor
    · intro hfalse
      by_contra habsent
      obtain ⟨t', heq, -⟩ := hashInsertElement_of_absent copyRvalItem rval dtype h hfull
        fun a ha hname => habsent ⟨a, ha, hname⟩
      rw [heq] at hfalse
      cases hfalse
    · rintro ⟨a, ha, hname⟩
      obtain ⟨t', heq, -⟩ := hashInsertElement_of_present copyRvalItem rval dtype h ha hname
      rw [heq]
  delete name := by
    rw [hm.ne_none]
    constructor
    · intro htrue
      by_contra habsent
      rw [hashDeleteElement_of_absent fun a ha hname => habsent ⟨a, ha, hname⟩] at htrue
      cases htrue
    · rintro ⟨a, ha, hname⟩
      obtain ⟨t', heq, -⟩ := hashDeleteElement_of_present h ha hname
      rw [heq]
  iterate := by
    obtain ⟨l, hl, hnodup, hmem⟩ := h.iterate
    exact ⟨l, hl, hnodup, fun name v => by simp only [hm name v, hmem]⟩

/-! ## One step -/

theorem AssocHashTable.Represents.insert (hm : t.Represents m) {t' : AssocHashTable} {a : CfAssoc}
    (habsent : ∀ b, t.Stored b → b.lval ≠ a.lval)
    (hstored : ∀ b, t'.Stored b ↔ b = a ∨ t.Stored b) :
    t'.Represents (Function.update m a.lval (some a.value)) := by
  intro name v
  by_cases hname : name = a.lval
  · subst hname
    simp only [Function.update_self, Option.some.injEq, hstored]
    constructor
    · rintro rfl
      exact ⟨a, .inl rfl, rfl, rfl⟩
    · rintro ⟨b, rfl | hb, hname, hv⟩
      · exact hv
      · exact absurd hname (habsent b hb)
  · simp only [Function.update_of_ne hname, hm name v, hstored]
    constructor
    · rintro ⟨b, hb, h⟩
      exact ⟨b, .inr hb, h⟩
    · rintro ⟨b, rfl | hb, hbname, hv⟩
      · exact absurd hbname.symm hname
      · exact ⟨b, hb, hbname, hv⟩

theorem AssocHashTable.Represents.delete (hm : t.Represents m) {t' : AssocHashTable}
    {name : CString} (hstored : ∀ b, t'.Stored b ↔ t.Stored b ∧ b.lval ≠ name) :
    t'.Represents (Function.update m name none) := by
  intro name' v
  by_cases hname : name' = name
  · subst hname
    simp only [Function.update_self, hstored]
    constructor
    · nofun
    · rintro ⟨b, ⟨-, hne⟩, hb, -⟩
      exact absurd hb hne
  · simp only [Function.update_of_ne hname, hm name' v, hstored]
    constructor
    · rintro ⟨b, hb, rfl, hv⟩
      exact ⟨b, ⟨hb, hname⟩, rfl, hv⟩
    · rintro ⟨b, ⟨hb, -⟩, h⟩
      exact ⟨b, hb, h⟩

/-- The condition on one step of a run: a deletion cuts off no other association. -/
def SafeStep (getHash : CString → Fin cfHashTableSize) (t : AssocHashTable) (op : HashOp) : Prop :=
  ∀ name, op = .delete name → t.DeletesSafely getHash name

/-- The table after a step represents the map after the step, whether or not the searches still
see everything. -/
theorem AssocHashTable.Represents.step (h : t.Wf getHash) (hm : t.Represents m) (hfull : ¬ t.Full)
    (op : HashOp) :
    (hashStep getHash t op).Represents (m.step op) ∧
      (SafeStep getHash t op → (hashStep getHash t op).Wf getHash) := by
  cases op with
  | lookup name => exact ⟨hm, fun _ => h⟩
  | insert copyRvalItem name rval dtype =>
    by_cases hpresent : ∃ a, t.Stored a ∧ a.lval = name
    · obtain ⟨a, ha, hname⟩ := hpresent
      obtain ⟨t', heq, hwf, hstored⟩ :=
        hashInsertElement_of_present copyRvalItem rval dtype h ha hname
      have hne := hm.ne_none.mpr ⟨a, ha, hname⟩
      simp only [hashStep, VarMap.step, heq, if_neg hne]
      exact ⟨fun name v => by simp only [hm name v, hstored], fun _ => hwf⟩
    · have habsent : ∀ a, t.Stored a → a.lval ≠ name := fun a ha hname => hpresent ⟨a, ha, hname⟩
      obtain ⟨t', heq, hwf, hstored⟩ :=
        hashInsertElement_of_absent copyRvalItem rval dtype h hfull habsent
      simp only [hashStep, VarMap.step, heq, if_pos (hm.eq_none hpresent)]
      exact ⟨hm.insert (a := newAssoc copyRvalItem name rval dtype) habsent hstored, fun _ => hwf⟩
  | delete name =>
    by_cases hpresent : ∃ a, t.Stored a ∧ a.lval = name
    · obtain ⟨a, ha, hname⟩ := hpresent
      obtain ⟨t', heq, hwf, hstored⟩ := hashDeleteElement_of_present h ha hname
      simp only [hashStep, VarMap.step, heq]
      exact ⟨hm.delete hstored, fun hsafe => hwf (hsafe name rfl)⟩
    · have habsent : ∀ a, t.Stored a → a.lval ≠ name := fun a ha hname => hpresent ⟨a, ha, hname⟩
      simp only [hashStep, VarMap.step, hashDeleteElement_of_absent habsent]
      refine ⟨?_, fun _ => h⟩
      rw [Function.update_eq_self_iff.mpr (hm.eq_none hpresent).symm]
      exact hm

/-- What a lookup in the huge representation returns is reached from its hash bucket. -/
theorem hugeHashLookupElement_reaches {buckets : Table CfAssoc} {name : CString} {a : CfAssoc}
    (h : hugeHashLookupElement getHash buckets name = some a) :
    ∃ j < cfHashTableSize, buckets j = .entry a ∧ a.lval = name ∧
      Reaches cfHashTableSize buckets (getHash name) j := by
  rw [hugeHashLookupElement, hugeHashLookupElement.loop_eq, Option.bind_eq_some_iff] at h
  obtain ⟨j, hstop, hj⟩ := h
  obtain ⟨d, hd, rfl, hs, hbefore⟩ := (firstStop_eq_some (getHash name).isLt).mp hstop
  split at hj
  · rename_i b hslot
    cases hj
    rw [hslot] at hs
    refine ⟨_, probe_lt (by omega), hslot, (of_decide_eq_true hs).symm, d, hd, rfl, ?_⟩
    intro e he hfree
    have := hbefore e he
    rw [hfree] at this
    cases this
  · cases hj

/-- If the table after a deletion still behaves as the map, the deletion cut nothing off. -/
theorem AssocHashTable.IsMap.deletesSafely {name : CString} (h : t.Wf getHash)
    (hm : (hashStep getHash t (.delete name)).Represents m)
    (hmap : (hashStep getHash t (.delete name)).IsMap getHash m) :
    t.DeletesSafely getHash name := by
  cases t with
  | tiny array => trivial
  | huge buckets =>
    intro i a j b hi ha hname hj hb hbefore
    subst hname
    have hdel := hugeHashDeleteElement_of_holds h hi ha
    simp only [hashStep, hashDeleteElement, hdel] at hm hmap
    have hji : j ≠ i := by
      rintro rfl
      obtain ⟨d, hd, hjd, e, he, hie⟩ := hbefore
      have := probe_inj hd (by omega) (hjd.symm.trans hie)
      omega
    -- `b` is still stored, so the map has it and the lookup must reach its bucket
    have hb' : Function.update buckets i .free j = .entry b := by rwa [Function.update_of_ne hji]
    have hlookup := hmap.lookup b.lval
    rw [(hm b.lval b.value).mpr ⟨b, ⟨j, hj, hb'⟩, rfl, rfl⟩, Option.map_eq_some_iff] at hlookup
    obtain ⟨c, hc, -⟩ := hlookup
    obtain ⟨j', hj', hslot, hcname, d', hd', hjd', hpath⟩ := hugeHashLookupElement_reaches hc
    have hj'i : j' ≠ i := by rintro rfl; simp at hslot
    rw [Function.update_of_ne hj'i] at hslot
    obtain rfl := Table.Wf.unique h hj' hj hslot hb hcname
    obtain ⟨d, hd, hjd, e, he, hie⟩ := hbefore
    have := probe_inj hd' hd (hjd'.symm.trans hjd)
    subst this
    exact hpath e he (by rw [← hie, Function.update_self])

/-! ## Runs -/

theorem AssocHashTable.wf_hashInit : hashInit.Wf getHash := trivial

theorem AssocHashTable.represents_hashInit : hashInit.Represents fun _ => none :=
  fun _ _ => ⟨nofun, fun ⟨_, ha, _⟩ => absurd ha List.not_mem_nil⟩

/-- Along a run that behaves as the map throughout, the searches see everything. -/
theorem AssocHashTable.wf_after {ops : List HashOp}
    (hfull : ∀ pre, pre <+: ops → ¬ (AssocHashTable.after getHash pre).Full)
    (hsafe : ∀ pre name, pre ++ [.delete name] <+: ops →
      (AssocHashTable.after getHash pre).Wf getHash →
      (AssocHashTable.after getHash pre).Represents (VarMap.after pre) →
      (AssocHashTable.after getHash pre).DeletesSafely getHash name) :
    (AssocHashTable.after getHash ops).Wf getHash ∧
      (AssocHashTable.after getHash ops).Represents (VarMap.after ops) := by
  induction ops using List.reverseRecOn with
  | nil => exact ⟨wf_hashInit, represents_hashInit⟩
  | append_singleton ops op ih =>
    have hpre : ops <+: ops ++ [op] := List.prefix_append _ _
    obtain ⟨hwf, hm⟩ := ih (fun pre h => hfull pre (h.trans hpre))
      (fun pre name h => hsafe pre name (h.trans hpre))
    obtain ⟨hm', hwf'⟩ := hm.step hwf (hfull ops hpre) op
    simp only [AssocHashTable.after, VarMap.after, Runs.run_concat]
    refine ⟨hwf' ?_, hm'⟩
    rintro name rfl
    exact hsafe ops name (List.prefix_refl _) hwf hm

/-- **The variable store is a finite map as long as deletions are safe, and only then.** A run
from `HashInit` on a table that is never full behaves as the finite map after each of its
operations if and only if no deletion of the run removes an association whose bucket lies on the
probe path of another one. -/
theorem hashTable_isMap_iff (getHash : CString → Fin cfHashTableSize) (ops : List HashOp)
    (hfull : ∀ pre, pre <+: ops → ¬ (AssocHashTable.after getHash pre).Full) :
    (∀ pre, pre <+: ops →
        (AssocHashTable.after getHash pre).IsMap getHash (VarMap.after pre)) ↔
      ∀ pre name, pre ++ [.delete name] <+: ops →
        (AssocHashTable.after getHash pre).DeletesSafely getHash name := by
  constructor
  · intro hmap
    have key : ∀ pre name, pre ++ [.delete name] <+: ops →
        (AssocHashTable.after getHash pre).Wf getHash →
        (AssocHashTable.after getHash pre).Represents (VarMap.after pre) →
        (AssocHashTable.after getHash pre).DeletesSafely getHash name := by
      intro pre name hpre hwf hm
      have hle : pre <+: ops := (List.prefix_append _ _).trans hpre
      have hm' := (hm.step hwf (hfull pre hle) (.delete name)).1
      have := hmap _ hpre
      simp only [AssocHashTable.after, VarMap.after, Runs.run_concat] at this
      exact this.deletesSafely hwf hm'
    intro pre name hpre
    have hle : pre <+: ops := (List.prefix_append _ _).trans hpre
    obtain ⟨hwf, hm⟩ := AssocHashTable.wf_after (fun p h => hfull p (h.trans hle))
      fun p name h => key p name (h.trans hle)
    exact key pre name hpre hwf hm
  · intro hsafe pre hpre
    obtain ⟨hwf, hm⟩ := AssocHashTable.wf_after (fun p h => hfull p (h.trans hpre))
      fun p name h _ _ => hsafe p name (h.trans hpre)
    exact hwf.isMap hm (hfull pre hpre)

/-! ## A deletion that cuts off another name -/

/-- Fifteen names, so that the table is converted, of which `date` and `arch` have the same hash
value; then `date` is deleted. -/
def collidingRun : List HashOp :=
  ["date", "arch", "host", "port", "user", "group", "path", "mode", "owner", "server", "client",
    "file", "name", "size", "time"].map
      (fun name => .insert id name.toList (.scalar name.toList) .str) ++
    [.delete "date".toList]

/-- The first bucket is free, if there are buckets. -/
def AssocHashTable.firstFree : AssocHashTable → Bool
  | .tiny _ => true
  | .huge buckets => (buckets 0).isFree

theorem AssocHashTable.not_full_of_firstFree (h : t.firstFree = true) : ¬ t.Full := by
  cases t with
  | tiny array => exact id
  | huge buckets =>
    intro hfull
    obtain ⟨a, ha⟩ := hfull 0 (by decide)
    simp [firstFree, ha, Slot.isFree] at h

theorem collidingRun_not_full {pre : List HashOp} (h : pre <+: collidingRun) :
    ¬ (AssocHashTable.after oatHash pre).Full := by
  have hfirst : ∀ n < 17,
      (AssocHashTable.after oatHash (collidingRun.take n)).firstFree = true := by
    decide +kernel
  rw [List.prefix_iff_eq_take.mp h]
  exact AssocHashTable.not_full_of_firstFree (hfirst _ (Nat.lt_succ_of_le h.length_le))

theorem hashTable_isMap_iff_collidingRun :
    (∀ pre, pre <+: collidingRun →
        (AssocHashTable.after oatHash pre).IsMap oatHash (VarMap.after pre)) ↔
      ∀ pre name, pre ++ [.delete name] <+: collidingRun →
        (AssocHashTable.after oatHash pre).DeletesSafely oatHash name :=
  hashTable_isMap_iff oatHash collidingRun fun _ => collidingRun_not_full

/-- After `collidingRun` the name `arch` is lost: the map still has it, the lookup fails. -/
theorem hashLookupElement_lost :
    (∀ pre, pre <+: collidingRun → ¬ (AssocHashTable.after oatHash pre).Full) ∧
      hashLookupElement oatHash (AssocHashTable.after oatHash collidingRun) "arch".toList = none ∧
      VarMap.after collidingRun "arch".toList = some (.scalar "arch".toList, .str) ∧
      ¬ (AssocHashTable.after oatHash collidingRun).IsMap oatHash (VarMap.after collidingRun) := by
  have hlookup : hashLookupElement oatHash (AssocHashTable.after oatHash collidingRun)
      "arch".toList = none := by
    rw [← Option.isNone_iff_eq_none]
    decide +kernel
  have hmap : VarMap.after collidingRun "arch".toList = some (.scalar "arch".toList, .str) := rfl
  refine ⟨fun _ => collidingRun_not_full, hlookup, hmap, fun h => ?_⟩
  have := h.lookup "arch".toList
  rw [hlookup, hmap] at this
  cases this

end Cfengine
