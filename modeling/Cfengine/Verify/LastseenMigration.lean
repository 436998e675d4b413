import Cfengine.LastseenMigration
import Cfengine.Theory.Runs

/-!
# The migration loses no entry

An entry is deleted only behind its records. But the result of `DBCursorDeleteEntry` is not looked
at where an entry has the wrong size or malformed quality data, so an attempt can succeed and leave
the entry behind (`attempts_sound_iff`).
-/

namespace Cfengine
open Runs

/-! ## What can fail -/

/-- `DBCursorDeleteEntry` fails where its result is not looked at. -/
def unnoticedFailure (value : List Char) (o : EntryOutcomes) : Bool :=
  (!saneSize value || (o.hostkey && o.address && malformedQuality value)) && !o.delete

/-- An operation fails, and the code notices. -/
def noticedFailure (value : List Char) (o : EntryOutcomes) : Bool :=
  saneSize value &&
    (!o.hostkey || !o.address || (!malformedQuality value && (!o.quality || !o.delete)))

/-- The entry that the cursor comes to is a version 0 entry that meets `p`. -/
def Visit.meets (p : List Char → EntryOutcomes → Bool) (db : DBHandle) (v : Visit) : Bool :=
  isVersion0Key v.key && (db v.key).any fun value => p value v.outcomes

/-! ## Keys -/

/-- The key of a version 1 record. -/
def isRecordKey (key : List Char) : Bool := key.head?.any fun c => c = 'k' || c = 'a' || c = 'q'

/-- The key of the version. -/
def versionKey : List Char := "version".toList ++ ['\x00']

section
variable {key key' value : List Char} {c : Char} {tag name : CString}

theorem head?_taggedKey : (taggedKey (c :: tag) name ++ ['\x00']).head? = some c := by
  rw [taggedKey, cfBufSize, List.cons_append, List.take_succ_cons]
  rfl

theorem isRecordKey_taggedKey (hc : c = 'k' ∨ c = 'a' ∨ c = 'q') :
    isRecordKey (taggedKey (c :: tag) name ++ ['\x00']) = true := by
  rw [isRecordKey, head?_taggedKey]
  rcases hc with rfl | rfl | rfl
  · rfl
  · rfl
  · rfl

theorem isRecordKey_hostkeyKey : isRecordKey (hostkeyKey key ++ ['\x00']) = true :=
  isRecordKey_taggedKey (.inl rfl)

theorem isRecordKey_addressKey : isRecordKey (addressKey value ++ ['\x00']) = true :=
  isRecordKey_taggedKey (.inr (.inl rfl))

theorem isRecordKey_qualityKey : isRecordKey (qualityKey key ++ ['\x00']) = true :=
  isRecordKey_taggedKey (.inr (.inr rfl))

theorem taggedKey_ne {c' : Char} {tag' name' : CString} (hne : c ≠ c') :
    taggedKey (c :: tag) name ++ ['\x00'] ≠ taggedKey (c' :: tag') name' ++ ['\x00'] := by
  intro h
  have hhead : (taggedKey (c :: tag) name ++ ['\x00']).head? = some c := head?_taggedKey
  rw [h, head?_taggedKey] at hhead
  exact hne (Option.some.inj hhead).symm

theorem hostkeyKey_ne_addressKey : hostkeyKey key ++ ['\x00'] ≠ addressKey value ++ ['\x00'] :=
  taggedKey_ne (by decide)

theorem hostkeyKey_ne_qualityKey : hostkeyKey key ++ ['\x00'] ≠ qualityKey key ++ ['\x00'] :=
  taggedKey_ne (by decide)

theorem addressKey_ne_qualityKey : addressKey value ++ ['\x00'] ≠ qualityKey key ++ ['\x00'] :=
  taggedKey_ne (by decide)

theorem isRecordKey_of_version0 (h : isVersion0Key key = true) : isRecordKey key = false := by
  cases key with
  | nil => cases h
  | cons c key =>
    have hc : c = '+' ∨ c = '-' := by simpa [isVersion0Key] using h
    rcases hc with rfl | rfl
    · rfl
    · rfl

end

/-! ## One entry -/

/-- The records of an entry are there. -/
structure Migrated (db : DBHandle) (key value : List Char) : Prop where
  hostkey : db (hostkeyKey key ++ ['\x00']) = some (oldAddress value ++ ['\x00'])
  address : db (addressKey value ++ ['\x00']) = some (oldHostkey key ++ ['\x00'])
  quality : malformedQuality value = true ∨
    db (qualityKey key ++ ['\x00']) = some (newQuality value).toBytes

theorem write_db_self {s : MigrationState} {name : CString} {src : List Char} :
    (s.write name src true).db (name ++ ['\x00']) = some src :=
  Function.update_self ..

theorem write_db_of_ne {s : MigrationState} {name : CString} {key src : List Char}
    (hne : key ≠ name ++ ['\x00']) : (s.write name src true).db key = s.db key :=
  Function.update_of_ne hne ..

/-- Records were written, and nothing else happened. -/
structure Wrote (s s' : MigrationState) : Prop where
  errors : s'.errors = s.errors
  returned : (∀ r ∈ s'.returned, r = true) ↔ ∀ r ∈ s.returned, r = true
  kept : ∀ key, isRecordKey key = false → s'.db key = s.db key

/-- What an entry does to the flag, to the results and to the keys that no record has. -/
structure EntryStep (s s' : MigrationState) (key value : List Char) (unnoticed noticed : Bool) :
    Prop where
  errors : s'.errors = (s.errors || noticed)
  returned : (∀ r ∈ s'.returned, r = true) ↔
    (∀ r ∈ s.returned, r = true) ∧ unnoticed = false ∧ noticed = false
  kept : ∀ key', isRecordKey key' = false → key' ≠ key → s'.db key' = s.db key'
  deleted : s'.db key = if unnoticed || noticed then s.db key else none
  migrated : unnoticed = false → noticed = false → saneSize value = true → Migrated s'.db key value

theorem forall_returned_concat {results : List Bool} {ok : Bool} :
    (∀ r ∈ results ++ [ok], r = true) ↔ (∀ r ∈ results, r = true) ∧ ok = true := by
  simp only [List.forall_mem_append, List.forall_mem_singleton]

namespace Wrote
variable {s s' : MigrationState} {key value src : List Char} {name : CString}

theorem refl : Wrote s s := ⟨rfl, .rfl, fun _ _ => rfl⟩

theorem db_write (hname : isRecordKey (name ++ ['\x00']) = true) (hkey : isRecordKey key = false) :
    writeDB s.db name src key = s.db key := by
  refine Function.update_of_ne ?_ _ _
  intro heq
  rw [heq, hname] at hkey
  cases hkey

theorem write (h : Wrote s s') (hname : isRecordKey (name ++ ['\x00']) = true) :
    Wrote s (s'.write name src true) where
  errors := h.errors
  returned := by
    rw [MigrationState.write, forall_returned_concat, h.returned, and_iff_left rfl]
  kept := by
    intro key hkey
    exact (db_write hname hkey).trans (h.kept key hkey)

theorem fail_write (h : Wrote s s') (hkey : isRecordKey key = false) :
    EntryStep s (s'.write name src false).fail key value false true where
  errors := (Bool.or_true _).symm
  returned := by
    rw [MigrationState.fail, MigrationState.write, forall_returned_concat]
    exact iff_of_false (fun hr => nomatch hr.2) (fun hr => nomatch hr.2.2)
  kept := fun key' hkey' _ => h.kept key' hkey'
  deleted := h.kept key hkey
  migrated := nofun

theorem fail_delete (h : Wrote s s') (hkey : isRecordKey key = false) :
    EntryStep s (s'.deleteEntry key false).fail key value false true where
  errors := (Bool.or_true _).symm
  returned := by
    rw [MigrationState.fail, MigrationState.deleteEntry, forall_returned_concat]
    exact iff_of_false (fun hr => nomatch hr.2) (fun hr => nomatch hr.2.2)
  kept := fun key' hkey' _ => h.kept key' hkey'
  deleted := h.kept key hkey
  migrated := nofun

theorem delete (h : Wrote s s') (hkey : isRecordKey key = false) {ok : Bool}
    (hmigrated : saneSize value = true → Migrated s'.db key value) :
    EntryStep s (s'.deleteEntry key ok) key value (!ok) false where
  errors := by rw [Bool.or_false]; exact h.errors
  returned := by
    rw [MigrationState.deleteEntry, forall_returned_concat, h.returned, Bool.not_eq_false',
      and_iff_left rfl]
  kept := by
    intro key' hkey' hne
    rw [← h.kept key' hkey']
    cases ok with
    | false => rfl
    | true => exact Function.update_of_ne hne _ _
  deleted := by
    cases ok with
    | false => exact h.kept key hkey
    | true => exact Function.update_self _ _ _
  migrated := by
    intro hok _ hsane
    rw [Bool.not_eq_false'] at hok
    have hne {name : CString} (hname : isRecordKey (name ++ ['\x00']) = true) :
        name ++ ['\x00'] ≠ key := by
      intro heq
      rw [← heq, hname] at hkey
      cases hkey
    rw [MigrationState.deleteEntry, hok]
    obtain ⟨hhostkey, haddress, hquality⟩ := hmigrated hsane
    exact ⟨(Function.update_of_ne (hne isRecordKey_hostkeyKey) _ _).trans hhostkey,
      (Function.update_of_ne (hne isRecordKey_addressKey) _ _).trans haddress,
      hquality.imp_right (Function.update_of_ne (hne isRecordKey_qualityKey) _ _).trans⟩

end Wrote

section
variable {s : MigrationState} {key value : List Char} {o : EntryOutcomes}

theorem migrateEntry_of_not_version0 (hkey : isVersion0Key key = false) :
    migrateEntry s key value o = s := by
  rw [migrateEntry, hkey]
  split
  · rfl
  · rfl

theorem migrated_malformed (hquality : malformedQuality value = true) :
    Migrated ((s.write (hostkeyKey key) (oldAddress value ++ ['\x00']) true).write
      (addressKey value)
      (oldHostkey key ++ ['\x00']) true).db key value where
  hostkey := by rw [write_db_of_ne hostkeyKey_ne_addressKey, write_db_self]
  address := write_db_self
  quality := .inl hquality

theorem migrated_written :
    Migrated (((s.write (hostkeyKey key) (oldAddress value ++ ['\x00']) true).write
      (addressKey value) (oldHostkey key ++ ['\x00']) true).write (qualityKey key)
      (newQuality value).toBytes true).db key value where
  hostkey := by
    rw [write_db_of_ne hostkeyKey_ne_qualityKey, write_db_of_ne hostkeyKey_ne_addressKey,
      write_db_self]
  address := by rw [write_db_of_ne addressKey_ne_qualityKey, write_db_self]
  quality := .inr write_db_self

theorem migrateEntry_step (hkey : isVersion0Key key = true) :
    EntryStep s (migrateEntry s key value o) key value (unnoticedFailure value o)
      (noticedFailure value o) := by
  have hlength : key.length ≠ 0 := by
    intro h
    rw [List.length_eq_zero_iff.mp h] at hkey
    cases hkey
  have hrecord := isRecordKey_of_version0 hkey
  rw [migrateEntry, if_neg hlength, hkey, unnoticedFailure, noticedFailure]
  cases hsane : saneSize value with
  | false => exact Wrote.refl.delete hrecord fun h => nomatch hsane.symm.trans h
  | true =>
    have hwrite₁ : Wrote s (s.write (hostkeyKey key) (oldAddress value ++ ['\x00']) true) :=
      Wrote.refl.write isRecordKey_hostkeyKey
    cases hhostkey : o.hostkey with
    | false => exact Wrote.refl.fail_write hrecord
    | true =>
      cases haddress : o.address with
      | false => exact hwrite₁.fail_write hrecord
      | true =>
        have hwrite₂ : Wrote s ((s.write (hostkeyKey key) (oldAddress value ++ ['\x00']) true).write
            (addressKey value) (oldHostkey key ++ ['\x00']) true) :=
          hwrite₁.write isRecordKey_addressKey
        cases hquality : malformedQuality value with
        | true => exact hwrite₂.delete hrecord fun _ => migrated_malformed hquality
        | false =>
          cases hwritten : o.quality with
          | false => exact hwrite₂.fail_write hrecord
          | true =>
            have hwrite₃ : Wrote s (((s.write (hostkeyKey key) (oldAddress value ++ ['\x00'])
                true).write (addressKey value) (oldHostkey key ++ ['\x00']) true).write
                (qualityKey key) (newQuality value).toBytes true) :=
              hwrite₂.write isRecordKey_qualityKey
            cases hdelete : o.delete with
            | false => exact hwrite₃.fail_delete hrecord
            | true => exact hwrite₃.delete hrecord fun _ => migrated_written

end

/-! ## The loop -/

/-- The cursor comes to every version 0 entry, and only once. -/
structure Scans (db : DBHandle) (visits : List Visit) : Prop where
  covers : ∀ key, isVersion0Key key = true → db key ≠ none → ∃ v ∈ visits, v.key = key
  once : visits.Pairwise fun v w => isVersion0Key v.key = true → v.key ≠ w.key

/-- What the loop does, by what the entries were before it. -/
structure LoopSpec (s s' : MigrationState) (visits : List Visit) : Prop where
  errors : s'.errors = (s.errors || visits.any (Visit.meets noticedFailure s.db))
  returned : (∀ r ∈ s'.returned, r = true) ↔ (∀ r ∈ s.returned, r = true) ∧
    ∀ v ∈ visits, v.meets unnoticedFailure s.db = false ∧ v.meets noticedFailure s.db = false
  absent : ∀ key, isRecordKey key = false → s.db key = none → s'.db key = none
  kept : ∀ key, isRecordKey key = false →
    (isVersion0Key key = true → ∀ v ∈ visits, v.key ≠ key) → s'.db key = s.db key
  gone : ∀ v ∈ visits, isVersion0Key v.key = true → v.meets unnoticedFailure s.db = false →
    v.meets noticedFailure s.db = false → s'.db v.key = none

section
variable {s : MigrationState} {v : Visit} {visits : List Visit}

theorem meets_congr {p : List Char → EntryOutcomes → Bool} {db db' : DBHandle}
    (h : isVersion0Key v.key = true → db v.key = db' v.key) : v.meets p db = v.meets p db' := by
  rw [Visit.meets, Visit.meets]
  cases hkey : isVersion0Key v.key with
  | false => rfl
  | true => rw [h hkey]

theorem meets_of_none {p : List Char → EntryOutcomes → Bool} {db : DBHandle}
    (h : db v.key = none) : v.meets p db = false := by
  rw [Visit.meets, h, Option.any_none, Bool.and_false]

theorem meets_of_some {p : List Char → EntryOutcomes → Bool} {db : DBHandle} {value : List Char}
    (hkey : isVersion0Key v.key = true) (h : db v.key = some value) :
    v.meets p db = p value v.outcomes := by
  rw [Visit.meets, hkey, h, Option.any_some, Bool.true_and]

theorem migrateVisit_spec : LoopSpec s (migrateVisit s v) [v] := by
  rw [migrateVisit]
  split
  · rename_i hnone
    exact ⟨by simp [meets_of_none hnone], by simp [meets_of_none hnone], fun _ _ h => h,
      fun _ _ _ => rfl, by simp [hnone]⟩
  · rename_i value hvalue
    cases hkey : isVersion0Key v.key with
    | false =>
      have hmeets {p} : v.meets p s.db = false := by rw [Visit.meets, hkey, Bool.false_and]
      rw [migrateEntry_of_not_version0 hkey]
      exact ⟨by simp [hmeets], by simp [hmeets], fun _ _ h => h, fun _ _ _ => rfl,
        by simp [hkey]⟩
    | true =>
      have hmeets {p} : v.meets p s.db = p value v.outcomes := meets_of_some hkey hvalue
      have hstep : EntryStep s (migrateEntry s v.key value v.outcomes) v.key value
          (unnoticedFailure value v.outcomes) (noticedFailure value v.outcomes) :=
        migrateEntry_step hkey
      refine ⟨by simp [hmeets, hstep.errors], ?_, ?_, ?_, ?_⟩
      · rw [hstep.returned, List.forall_mem_singleton, hmeets, hmeets]
      · intro key hrecord hnone
        have hne : key ≠ v.key := by
          intro heq
          rw [heq, hvalue] at hnone
          cases hnone
        rw [hstep.kept key hrecord hne, hnone]
      · intro key hrecord hne
        refine hstep.kept key hrecord fun heq => ?_
        rw [heq] at hne
        exact hne hkey v List.mem_cons_self rfl
      · intro w hw _ hunnoticed hnoticed
        cases List.mem_singleton.mp hw
        rw [hmeets] at hunnoticed hnoticed
        rw [hstep.deleted, hunnoticed, hnoticed]
        rfl

theorem migrateEntries_spec
    (honce : visits.Pairwise fun v w => isVersion0Key v.key = true → v.key ≠ w.key) :
    LoopSpec s (migrateEntries s visits) visits := by
  induction visits generalizing s with
  | nil =>
    exact ⟨by simp [migrateEntries], by simp [migrateEntries], fun _ _ h => h, fun _ _ _ => rfl,
      nofun⟩
  | cons v visits ih =>
    obtain ⟨hv, honce⟩ := List.pairwise_cons.mp honce
    have hfirst : LoopSpec s (migrateVisit s v) [v] := migrateVisit_spec
    have hrest : LoopSpec (migrateVisit s v) (migrateEntries s (v :: visits)) visits := ih honce
    -- The first round leaves the entries of the others.
    have hmeets : ∀ p, ∀ w ∈ visits, w.meets p (migrateVisit s v).db = w.meets p s.db := by
      intro p w hw
      refine meets_congr fun hkey => hfirst.kept w.key (isRecordKey_of_version0 hkey) ?_
      intro _ u hu
      cases List.mem_singleton.mp hu
      intro heq
      exact hv w hw (heq ▸ hkey) heq
    refine ⟨?_, ?_, ?_, ?_, ?_⟩
    · have hany : visits.any (Visit.meets noticedFailure (migrateVisit s v).db) =
          visits.any (Visit.meets noticedFailure s.db) := by
        rw [Bool.eq_iff_iff, List.any_eq_true, List.any_eq_true]
        exact exists_congr fun w => and_congr_right fun hw => by rw [hmeets _ w hw]
      rw [hrest.errors, hfirst.errors, hany, List.any_cons, List.any_cons, List.any_nil,
        Bool.or_false, Bool.or_assoc]
    · rw [hrest.returned, hfirst.returned, List.forall_mem_singleton, List.forall_mem_cons,
        and_assoc]
      refine and_congr_right fun _ => and_congr_right fun _ => forall₂_congr fun w hw => ?_
      rw [hmeets _ w hw, hmeets _ w hw]
    · exact fun key hrecord hnone => hrest.absent key hrecord (hfirst.absent key hrecord hnone)
    · intro key hrecord hne
      rw [hrest.kept key hrecord fun hkey w hw => hne hkey w (List.mem_cons_of_mem _ hw)]
      exact hfirst.kept key hrecord fun hkey w hw => hne hkey w (List.mem_cons.mpr
        (.inl (List.mem_singleton.mp hw)))
    · intro w hw hkey hunnoticed hnoticed
      rcases List.mem_cons.mp hw with rfl | hw
      · have hgone := hfirst.gone w List.mem_cons_self hkey hunnoticed hnoticed
        exact hrest.absent w.key (isRecordKey_of_version0 hkey) hgone
      · rw [← hmeets _ w hw] at hunnoticed hnoticed
        exact hrest.gone w hw hkey hunnoticed hnoticed

end

/-! ## Attempts -/

/-- What one attempt should do. -/
structure AttemptSound (db : DBHandle) (a : Attempt) : Prop where
  /-- An entry goes only if its value has the wrong size, or behind its records. -/
  deletes : ∀ before v after key value, a.visits = before ++ v :: after →
    isVersion0Key key = true → (migrateEntries ⟨db, false, []⟩ before).db key = some value →
    (migrateEntries ⟨db, false, []⟩ (before ++ [v])).db key = none →
    saneSize value = false ∨ Migrated (migrateEntries ⟨db, false, []⟩ (before ++ [v])).db key value
  /-- An attempt succeeds only if no operation fails. -/
  returns : (lastseenMigrationVersion0 db a).errors = false →
    ∀ r ∈ (lastseenMigrationVersion0 db a).returned, r = true
  /-- The version is written only if the attempt succeeds. -/
  version : (lastseenMigrationVersion0 db a).db versionKey ≠ db versionKey →
    (lastseenMigrationVersion0 db a).errors = false
  /-- A success leaves no entry behind. -/
  leaves : (lastseenMigrationVersion0 db a).errors = false →
    ∀ key, isVersion0Key key = true → (lastseenMigrationVersion0 db a).db key = none

/-- If an operation of the attempt fails that the code does not look at, then so does one that it
looks at. -/
def FailuresNoticed (db : DBHandle) (a : Attempt) : Prop :=
  (∃ v ∈ a.visits, v.meets unnoticedFailure db = true) →
    a.newCursor = false ∨ a.deleteCursor = false ∨ a.version = false ∨
      ∃ v ∈ a.visits, v.meets noticedFailure db = true

section
variable {db : DBHandle} {a : Attempt}

theorem isRecordKey_versionKey : isRecordKey versionKey = false := rfl

theorem isVersion0Key_versionKey : isVersion0Key versionKey = false := rfl

/-- An entry goes only where it is visited. -/
theorem sane_or_migrated_of_deleted {s : MigrationState} {v : Visit} {key value : List Char}
    (hkey : isVersion0Key key = true) (hbefore : s.db key = some value)
    (hbehind : (migrateVisit s v).db key = none) :
    saneSize value = false ∨ Migrated (migrateVisit s v).db key value := by
  have hrecord := isRecordKey_of_version0 hkey
  by_cases hne : v.key = key
  · subst hne
    rw [migrateVisit, hbefore] at hbehind ⊢
    have hstep : EntryStep s (migrateEntry s v.key value v.outcomes) v.key value
        (unnoticedFailure value v.outcomes) (noticedFailure value v.outcomes) :=
      migrateEntry_step hkey
    have hdeleted := hbehind.symm.trans hstep.deleted
    split at hdeleted
    · rw [hbefore] at hdeleted
      cases hdeleted
    · rename_i hfailed
      rw [Bool.not_eq_true, Bool.or_eq_false_iff] at hfailed
      cases hsane : saneSize value with
      | false => exact .inl rfl
      | true => exact .inr (hstep.migrated hfailed.1 hfailed.2 hsane)
  · have hspec : LoopSpec s (migrateVisit s v) [v] := migrateVisit_spec
    have hkept := hspec.kept key hrecord fun _ w hw => by rwa [List.mem_singleton.mp hw]
    rw [hkept, hbefore] at hbehind
    cases hbehind

/-- The state behind the loop of an attempt. -/
abbrev loopOf (db : DBHandle) (a : Attempt) : MigrationState :=
  migrateEntries ⟨db, false, []⟩ a.visits

theorem succeeds_iff : (lastseenMigrationVersion0 db a).errors = false ↔
    a.newCursor = true ∧ (loopOf db a).errors = false ∧ a.deleteCursor = true ∧
      a.version = true := by
  rw [lastseenMigrationVersion0]
  cases a.newCursor with
  | false => simp
  | true =>
    cases hloop : (loopOf db a).errors with
    | true => cases hdelete : a.deleteCursor <;> simp [MigrationState.fail, hloop]
    | false =>
      cases hdelete : a.deleteCursor with
      | false => simp [MigrationState.fail]
      | true => cases hversion : a.version <;>
          simp [MigrationState.fail, MigrationState.write, hloop]

theorem of_succeeds (h : (lastseenMigrationVersion0 db a).errors = false) :
    lastseenMigrationVersion0 db a =
      { db := writeDB (loopOf db a).db "version".toList ['1', '\x00']
        errors := false
        returned := (loopOf db a).returned ++ [true] ++ [true] } := by
  obtain ⟨hnew, hloop, hdelete, hversion⟩ := succeeds_iff.mp h
  rw [lastseenMigrationVersion0]
  simp [hnew, hloop, hdelete, hversion, MigrationState.write]

theorem db_of_fails {key : List Char} (hloop : (loopOf db a).db key = db key)
    (h : (lastseenMigrationVersion0 db a).errors = true) :
    (lastseenMigrationVersion0 db a).db key = db key := by
  rw [lastseenMigrationVersion0] at h ⊢
  cases hnew : a.newCursor with
  | false => rfl
  | true =>
    rw [hnew] at h
    cases hdelete : a.deleteCursor with
    | false => simpa [MigrationState.fail] using hloop
    | true =>
      rw [hdelete] at h
      cases herrors : (loopOf db a).errors with
      | true => simpa [herrors] using hloop
      | false =>
        cases hversion : a.version with
        | false => simpa [herrors, MigrationState.fail, MigrationState.write] using hloop
        | true => simp [herrors, hversion, MigrationState.write] at h

theorem version_of_fails (hscans : Scans db a.visits)
    (h : (lastseenMigrationVersion0 db a).errors = true) :
    (lastseenMigrationVersion0 db a).db versionKey = db versionKey := by
  have hspec : LoopSpec ⟨db, false, []⟩ (loopOf db a) a.visits := migrateEntries_spec hscans.once
  exact db_of_fails (hspec.kept versionKey isRecordKey_versionKey nofun) h

theorem ne_versionKey {key : List Char} (hkey : isVersion0Key key = true) : key ≠ versionKey := by
  intro heq
  rw [heq, isVersion0Key_versionKey] at hkey
  cases hkey

theorem loopOf_errors (hscans : Scans db a.visits) : (loopOf db a).errors = false ↔
    ∀ v ∈ a.visits, v.meets noticedFailure db = false := by
  have hspec : LoopSpec ⟨db, false, []⟩ (loopOf db a) a.visits := migrateEntries_spec hscans.once
  rw [hspec.errors, Bool.false_or, List.any_eq_false]
  simp only [Bool.not_eq_true]

/-- One attempt does what it should if and only if the code looks at a failure of it, if there is
one. -/
theorem attemptSound_iff (hscans : Scans db a.visits) :
    AttemptSound db a ↔ FailuresNoticed db a := by
  have hspec : LoopSpec ⟨db, false, []⟩ (loopOf db a) a.visits := migrateEntries_spec hscans.once
  have herrors := loopOf_errors hscans
  constructor
  · intro hsound ⟨v, hv, hunnoticed⟩
    by_contra hnot
    simp only [not_or, Bool.not_eq_false, not_exists, not_and, Bool.not_eq_true] at hnot
    obtain ⟨hnew, hdelete, hversion, hnoticed⟩ := hnot
    have hsucceeds := succeeds_iff.mpr ⟨hnew, herrors.mpr hnoticed, hdelete, hversion⟩
    have hreturned := hsound.returns hsucceeds
    rw [of_succeeds hsucceeds, forall_returned_concat, forall_returned_concat] at hreturned
    have hnone := ((hspec.returned.mp hreturned.1.1).2 v hv).1
    exact Bool.false_ne_true (hnone.symm.trans hunnoticed)
  · intro hnoticed
    have hfails : (lastseenMigrationVersion0 db a).errors = false →
        ∀ v ∈ a.visits, v.meets unnoticedFailure db = false ∧
          v.meets noticedFailure db = false := by
      intro hsucceeds v hv
      obtain ⟨hnew, hloop, hdelete, hversion⟩ := succeeds_iff.mp hsucceeds
      have hnone := herrors.mp hloop
      refine ⟨?_, hnone v hv⟩
      by_contra hunnoticed
      rw [Bool.not_eq_false] at hunnoticed
      rcases hnoticed ⟨v, hv, hunnoticed⟩ with h | h | h | ⟨w, hw, h⟩
      · exact Bool.false_ne_true (h.symm.trans hnew)
      · exact Bool.false_ne_true (h.symm.trans hdelete)
      · exact Bool.false_ne_true (h.symm.trans hversion)
      · exact Bool.false_ne_true ((hnone w hw).symm.trans h)
    refine ⟨?_, ?_, ?_, ?_⟩
    · intro before v after key value _ hkey hbefore hbehind
      rw [migrateEntries, List.foldl_append] at hbehind ⊢
      exact sane_or_migrated_of_deleted hkey hbefore hbehind
    · intro hsucceeds
      rw [of_succeeds hsucceeds, forall_returned_concat, forall_returned_concat]
      exact ⟨⟨hspec.returned.mpr ⟨nofun, hfails hsucceeds⟩, rfl⟩, rfl⟩
    · intro hversion
      by_contra hfailed
      exact hversion (version_of_fails hscans (Bool.eq_true_of_not_eq_false hfailed))
    · intro hsucceeds key hkey
      have hrecord := isRecordKey_of_version0 hkey
      rw [of_succeeds hsucceeds]
      refine (Function.update_of_ne (ne_versionKey hkey) _ _).trans ?_
      by_cases hnone : db key = none
      · exact hspec.absent key hrecord hnone
      · obtain ⟨v, hv, rfl⟩ := hscans.covers key hkey hnone
        obtain ⟨hunnoticed, hnoticed⟩ := hfails hsucceeds v hv
        exact hspec.gone v hv hkey hunnoticed hnoticed

/-- No operation on the entry fails. -/
theorem not_meets_of_ok {v : Visit} (h : v.outcomes = ⟨true, true, true, true⟩) :
    v.meets noticedFailure db = false ∧ v.meets unnoticedFailure db = false := by
  rw [Visit.meets, Visit.meets, h]
  cases db v.key with
  | none => simp
  | some value => simp [noticedFailure, unnoticedFailure]

/-! ## Runs of attempts -/

variable {attempts : List Attempt}

/-- The database behind an attempt. -/
def migrationStep (db : DBHandle) (a : Attempt) : DBHandle := (lastseenMigrationVersion0 db a).db

/-- An attempt makes no entries: the next one may come to the same keys. -/
theorem Scans.step {b : Attempt} (hscans : Scans db a.visits)
    (hkeys : b.visits.map Visit.key = a.visits.map Visit.key) :
    Scans (migrationStep db a) b.visits where
  covers := by
    intro key hkey
    rw [not_imp_comm]
    intro hvisits
    have hvisits : ∀ v ∈ a.visits, v.key ≠ key := by
      intro v hv heq
      have hmem := List.mem_map_of_mem (f := Visit.key) hv
      rw [← hkeys, heq] at hmem
      exact hvisits (List.mem_map.mp hmem)
    have hnone : db key = none := by
      by_contra hpresent
      obtain ⟨v, hv, heq⟩ := hscans.covers key hkey hpresent
      exact hvisits v hv heq
    have hspec : LoopSpec ⟨db, false, []⟩ (loopOf db a) a.visits := migrateEntries_spec hscans.once
    have hloop : (loopOf db a).db key = db key :=
      hspec.kept key (isRecordKey_of_version0 hkey) fun _ => hvisits
    cases herrors : (lastseenMigrationVersion0 db a).errors with
    | true => exact (db_of_fails hloop herrors).trans hnone
    | false =>
      rw [migrationStep, of_succeeds herrors]
      exact (Function.update_of_ne (ne_versionKey hkey) _ _).trans (hloop.trans hnone)
  once := by
    have honce := hscans.once
    rw [← List.pairwise_map (R := fun k k' => isVersion0Key k = true → k ≠ k')] at honce ⊢
    rwa [hkeys]

/-- **The migration loses nothing**, over any attempts, if and only if in each of them the code
looks at a failure, if there is one. -/
theorem attempts_sound_iff
    (hscans : Along migrationStep (fun db a => Scans db a.visits) db attempts) :
    (∀ before a, before ++ [a] <+: attempts → AttemptSound (run migrationStep db before) a) ↔
      Along migrationStep FailuresNoticed db attempts :=
  forall₃_congr fun before a hbefore => attemptSound_iff (hscans before a hbefore)

end

/-- The key of an entry for incoming connections. -/
def oldEntryKey : List Char := "-SHA-1".toList ++ ['\x00']

/-- A database with one entry, of the wrong size. -/
def wrongSizedDB : DBHandle := Function.update (fun _ => none) oldEntryKey (some ['x'])

/-- An attempt in which only the deletion of the entry may fail. -/
def deletingAttempt (delete : Bool) : Attempt where
  newCursor := true
  visits := [⟨oldEntryKey, ⟨true, true, true, delete⟩⟩]
  deleteCursor := true
  version := true

/-- The key of an entry for outgoing connections. -/
def otherEntryKey : List Char := "+SHA-2".toList ++ ['\x00']

/-- An address, and a quality of zeros. -/
def zeroEntry (address : CString) : List Char :=
  address ++ List.replicate (qpoint0Offset + QPoint0.size - address.length) '\x00'

theorem saneSize_zeroEntry {address : CString} (h : address.length ≤ qpoint0Offset) :
    saneSize (zeroEntry address) = true := by
  apply decide_eq_true
  rw [zeroEntry, List.length_append, List.length_replicate]
  exact Nat.add_sub_cancel' (h.trans (Nat.le_add_right _ _))

/-- A database with an entry of the wrong size and one of the right size. -/
def twoEntriesDB : DBHandle :=
  Function.update wrongSizedDB otherEntryKey (some (zeroEntry "10.0.0.1".toList))

/-- An attempt in which the deletion of the first entry and the second write of the other one may
fail. -/
def migratingAttempt (ok : Bool) : Attempt where
  newCursor := true
  visits := [⟨oldEntryKey, ⟨true, true, true, ok⟩⟩, ⟨otherEntryKey, ⟨true, ok, true, true⟩⟩]
  deleteCursor := true
  version := true

theorem scans_twoEntriesDB : Scans twoEntriesDB (migratingAttempt false).visits where
  covers := by
    intro key _
    rw [not_imp_comm]
    intro hvisits
    have hfirst : key ≠ oldEntryKey := fun heq => hvisits ⟨_, List.mem_cons_self, heq.symm⟩
    have hsecond : key ≠ otherEntryKey := fun heq =>
      hvisits ⟨_, List.mem_cons_of_mem _ List.mem_cons_self, heq.symm⟩
    exact (Function.update_of_ne hsecond _ _).trans (Function.update_of_ne hfirst _ _)
  once := by
    refine List.pairwise_pair.mpr fun _ => ?_
    exact fun heq => absurd heq (by decide)

/-- The code looks at the second failure. -/
theorem exists_noticed_twoEntriesDB :
    ∃ v ∈ (migratingAttempt false).visits, v.meets noticedFailure twoEntriesDB = true := by
  refine ⟨_, List.mem_cons_of_mem _ List.mem_cons_self, ?_⟩
  have hentry : twoEntriesDB otherEntryKey = some (zeroEntry "10.0.0.1".toList) :=
    Function.update_self _ _ _
  have hsane : saneSize (zeroEntry "10.0.0.1".toList) = true := saneSize_zeroEntry (by decide)
  rw [Visit.meets, hentry, Option.any_some, noticedFailure, hsane]
  rfl

theorem outcomes_migratingAttempt :
    ∀ v ∈ (migratingAttempt true).visits, v.outcomes = ⟨true, true, true, true⟩ :=
  List.forall_mem_cons.mpr ⟨rfl, List.forall_mem_singleton.mpr rfl⟩

/-- An attempt fails, as the other entry is not migrated either, and the next one makes up for
it. -/
theorem attempts_sound_migrating :
    (∀ before a, before ++ [a] <+: [migratingAttempt false, migratingAttempt true] →
      AttemptSound (run migrationStep twoEntriesDB before) a) ∧
    (lastseenMigrationVersion0 twoEntriesDB (migratingAttempt false)).errors = true ∧
    (lastseenMigrationVersion0 (migrationStep twoEntriesDB (migratingAttempt false))
      (migratingAttempt true)).errors = false := by
  have hscans : Scans (migrationStep twoEntriesDB (migratingAttempt false))
      (migratingAttempt true).visits := scans_twoEntriesDB.step rfl
  obtain ⟨w, hw, hnoticed⟩ := exists_noticed_twoEntriesDB
  refine ⟨?_, ?_, ?_⟩
  · have hruns : Along migrationStep (fun db a => Scans db a.visits) twoEntriesDB
        (([] ++ [migratingAttempt false]) ++ [migratingAttempt true]) :=
      along_concat.mpr ⟨along_concat.mpr ⟨Along.nil, scans_twoEntriesDB⟩, hscans⟩
    refine (attempts_sound_iff hruns).mpr
      (along_concat.mpr ⟨along_concat.mpr ⟨Along.nil, ?_⟩, ?_⟩)
    · exact fun _ => .inr (.inr (.inr ⟨w, hw, hnoticed⟩))
    · intro ⟨v, hv, hunnoticed⟩
      rw [(not_meets_of_ok (outcomes_migratingAttempt v hv)).2] at hunnoticed
      cases hunnoticed
  · by_contra hsucceeds
    rw [Bool.not_eq_true, succeeds_iff, loopOf_errors scans_twoEntriesDB] at hsucceeds
    rw [hsucceeds.2.1 w hw] at hnoticed
    cases hnoticed
  · refine succeeds_iff.mpr ⟨rfl, (loopOf_errors hscans).mpr ?_, rfl, rfl⟩
    exact fun v hv => (not_meets_of_ok (outcomes_migratingAttempt v hv)).1

/-- An attempt that succeeds although the deletion of an entry fails, and leaves the entry. -/
theorem attempt_unnoticed :
    let s := lastseenMigrationVersion0 wrongSizedDB (deletingAttempt false)
    s.errors = false ∧ s.returned = [false, true, true] ∧ s.db oldEntryKey = some ['x'] ∧
      s.db versionKey = some ['1', '\x00'] ∧
      ¬ AttemptSound wrongSizedDB (deletingAttempt false) := by
  intro s
  have herrors : s.errors = false := by decide
  have hleft : s.db oldEntryKey = some ['x'] := by decide
  refine ⟨herrors, by decide, hleft, by decide, fun hsound => ?_⟩
  have hgone := hsound.leaves herrors oldEntryKey rfl
  rw [hleft] at hgone
  cases hgone

end Cfengine
