import Cfengine.FilesHashes
import Cfengine.Theory.Runs

/-!
# The database of digests keeps records of files

A record is for a file and a type of digest, and `FileHashChanged` finds it by an index key.
`PurgeHashes` with a path deletes the key that is the path itself, which no record has, so the
record of a file that disappears stays (`run_records_iff`).
-/

namespace Cfengine
open Runs

/-- The digests on record. -/
abbrev Records := FileName × CfHashes → Option (List Char)

/-- What a call should do to the records. The first digest of a file is recorded, and a purge
removes the records of the files that it examines and that do not exist. -/
def Records.step (records : Records) : ChecksumOp → Records
  | .changed filename digest type update =>
    match records (filename, type) with
    | none => Function.update records (filename, type) (some digest)
    | some dbdigest =>
      if digestsDiffer type digest dbdigest && update then
        Function.update records (filename, type) (some digest)
      else records
  | .purge path cfstat => fun entry =>
    if path.all (· = entry.1) && !cfstat entry.1.val then none else records entry

/-- A file has changed if there is another digest on record. -/
def Records.result (records : Records) : ChecksumOp → Option Bool
  | .changed filename digest type _ =>
    some ((records (filename, type)).any (digestsDiffer type digest))
  | .purge _ _ => none

/-- The records that the database holds. -/
def recordsOf (dbp : ChecksumDB) : Records := fun (name, type) => readHash dbp type name.val

variable {dbp : ChecksumDB} {records : Records} {op : ChecksumOp} {ops : List ChecksumOp}
  {name : FileName} {type type' : CfHashes}

/-! ## Keys -/

theorem length_typeField :
    (((fileHashName type).take cfIndexFieldLen).rightpad cfIndexOffset '\x00').length =
      cfIndexOffset := by
  cases type <;> rfl

theorem typeField_inj
    (h : ((fileHashName type).take cfIndexFieldLen).rightpad cfIndexOffset '\x00' =
      ((fileHashName type').take cfIndexFieldLen).rightpad cfIndexOffset '\x00') : type =
        type' := by
  cases type <;> cases type' <;> first | rfl | exact absurd h (by decide)

theorem newIndexKey_inj {name name' : CString}
    (h : newIndexKey type name = newIndexKey type' name') :
    type = type' ∧ name = name' := by
  rw [newIndexKey, newIndexKey, List.append_assoc, List.append_assoc] at h
  obtain ⟨htype, hname⟩ := List.append_inj h (length_typeField.trans length_typeField.symm)
  exact ⟨typeField_inj htype, (List.append_inj' hname rfl).1⟩

/-- The key of a record has a NUL in front of the name of the file. -/
theorem newIndexKey_ne {path : FileName} {name : CString} :
    newIndexKey type name ≠ path.val ++ ['\x00'] := by
  intro h
  have hpath := (List.append_inj' h rfl).1
  apply path.property
  rw [← hpath]
  have hlen : ((fileHashName type).take cfIndexFieldLen).length ≤ cfIndexFieldLen :=
    List.length_take_le _ _
  apply List.mem_append_left
  apply List.mem_append_right
  exact List.mem_replicate.mpr ⟨Nat.sub_ne_zero_of_lt (Nat.lt_succ_of_le hlen), rfl⟩

/-- What the walk through the database takes for the name of the file. -/
theorem takeWhile_drop_newIndexKey :
    ((newIndexKey type name.val).drop cfIndexOffset).takeWhile (· ≠ '\x00') = name.val := by
  rw [newIndexKey, List.append_assoc, List.drop_left' length_typeField,
    List.takeWhile_append_of_pos]
  · exact List.append_nil name.val
  · intro c hc
    exact decide_eq_true fun heq => name.property (heq ▸ hc)

/-! ## Calls -/

theorem recordsOf_writeHash {digest : List Char} :
    recordsOf (writeHash dbp type name.val digest) =
      Function.update (recordsOf dbp) (name, type) (some digest) := by
  funext ⟨name', type'⟩
  by_cases heq : (name', type') = (name, type)
  · obtain ⟨rfl, rfl⟩ := Prod.mk.inj heq
    rw [Function.update_self, recordsOf, readHash, writeHash, Function.update_self]
  · have hkey : newIndexKey type' name'.val ≠ newIndexKey type name.val := by
      intro hkey
      obtain ⟨rfl, hname⟩ := newIndexKey_inj hkey
      exact heq (by rw [Subtype.ext hname])
    rw [Function.update_of_ne heq, recordsOf, readHash, writeHash, Function.update_of_ne hkey]
    rfl

theorem recordsOf_fileHashChanged {digest : List Char} {update : Bool} :
    recordsOf (fileHashChanged dbp name.val digest type update).2 =
      Records.step (recordsOf dbp) (.changed name digest type update) := by
  rw [fileHashChanged, Records.step]
  have hread : recordsOf dbp (name, type) = readHash dbp type name.val := rfl
  rw [hread]
  cases readHash dbp type name.val with
  | none => exact recordsOf_writeHash
  | some dbdigest =>
    simp only
    cases digestsDiffer type digest dbdigest with
    | false => rfl
    | true =>
      cases update with
      | false => rfl
      | true =>
        have hidem : writeHash (deleteHash dbp type name.val) type name.val digest =
            writeHash dbp type name.val digest := Function.update_idem _ _ _
        simp only [if_true, Bool.and_self, hidem]
        exact recordsOf_writeHash

theorem result_recordsOf : op.result dbp = Records.result (recordsOf dbp) op := by
  cases op with
  | purge path cfstat => rfl
  | changed name digest type update =>
    have hread : recordsOf dbp (name, type) = readHash dbp type name.val := rfl
    rw [ChecksumOp.result, Records.result, fileHashChanged, hread]
    cases readHash dbp type name.val with
    | none => rfl
    | some dbdigest =>
      simp only [Option.any_some]
      split
      · rename_i hdiffer
        rw [hdiffer]
      · rename_i hsame
        rw [Bool.eq_false_of_not_eq_true hsame]

/-- A purge with a path leaves all records. -/
theorem recordsOf_deleteDB {path : FileName} :
    recordsOf (deleteDB dbp path.val) = recordsOf dbp := by
  funext ⟨name, type⟩
  rw [recordsOf, readHash, deleteDB, Function.update_of_ne newIndexKey_ne]
  rfl

theorem recordsOf_purgeHashes_none {cfstat : CString → Bool} :
    recordsOf (purgeHashes dbp none true cfstat) =
      Records.step (recordsOf dbp) (.purge none cfstat) := by
  funext ⟨name, type⟩
  rw [recordsOf, readHash, purgeHashes]
  simp only [takeWhile_drop_newIndexKey, Bool.and_true]
  rfl

/-- A purge with the path of a file that does not exist and is on record. -/
def PurgesRecord (dbp : ChecksumDB) : ChecksumOp → Prop
  | .purge (some path) cfstat => cfstat path.val = false ∧ ∃ type, recordsOf dbp (path, type) ≠ none
  | _ => False

/-- One call does to the records what it should, except that a purge with a path does nothing. -/
theorem recordsOf_step_iff :
    recordsOf (op.step dbp) = Records.step (recordsOf dbp) op ↔ ¬ PurgesRecord dbp op := by
  cases op with
  | changed name digest type update => exact iff_of_true recordsOf_fileHashChanged not_false
  | purge path cfstat =>
    cases path with
    | none => exact iff_of_true recordsOf_purgeHashes_none not_false
    | some path =>
      have hnothing : recordsOf ((ChecksumOp.purge (some path) cfstat).step dbp) =
          recordsOf dbp := by
        rw [ChecksumOp.step, Option.map_some, purgeHashes]
        split
        · rfl
        · exact recordsOf_deleteDB
      rw [hnothing, Records.step]
      constructor
      · intro h hpurges
        obtain ⟨hmissing, type, hrecord⟩ := hpurges
        apply hrecord
        rw [h]
        simp [hmissing]
      · intro hno
        funext key
        obtain ⟨name, type⟩ := key
        dsimp only
        split
        · rename_i hpurged
          rw [Bool.and_eq_true, Option.all_some, decide_eq_true_eq, Bool.not_eq_true'] at hpurged
          obtain ⟨rfl, hmissing⟩ := hpurged
          by_contra hrecord
          exact hno ⟨hmissing, type, hrecord⟩
        · rfl

/-- `FileHashChanged` sees every change and the records are those of the files, exactly if no purge
has the path of a file that does not exist and is on record. -/
theorem run_records_iff :
    ((∀ pre, pre <+: ops → recordsOf (run ChecksumOp.step (fun _ => none) pre) =
          run Records.step (fun _ => none) pre) ∧
        ∀ pre op, pre ++ [op] <+: ops → op.result (run ChecksumOp.step (fun _ => none) pre) =
          Records.result (run Records.step (fun _ => none) pre) op) ↔
      Along ChecksumOp.step (fun dbp op => ¬ PurgesRecord dbp op) (fun _ => none) ops := by
  have hresult (h : ∀ pre, pre <+: ops → recordsOf (run ChecksumOp.step (fun _ => none) pre) =
        run Records.step (fun _ => none) pre) (pre : List ChecksumOp) (op : ChecksumOp)
      (hpre : pre ++ [op] <+: ops) : op.result (run ChecksumOp.step (fun _ => none) pre) =
        Records.result (run Records.step (fun _ => none) pre) op := by
    rw [result_recordsOf, h pre ((List.prefix_append pre [op]).trans hpre)]
  rw [and_iff_left_of_imp hresult]
  apply simulation_iff_along (R := fun dbp records => recordsOf dbp = records) rfl
  intro pre op hrecords
  rw [← hrecords]
  exact recordsOf_step_iff

/-- A file that disappears, is purged and comes back with other contents. -/
def reappearingFile : List ChecksumOp :=
  let name : FileName := ⟨"/etc/motd".toList, by decide⟩
  [.changed name (List.replicate 16 'a') .md5 true, .purge (some name) fun _ => false]

/-- It is reported as changed. -/
theorem run_records_reappearing :
    let name : FileName := ⟨"/etc/motd".toList, by decide⟩
    let back := ChecksumOp.changed name (List.replicate 16 'b') .md5 true
    let result := back.result (run ChecksumOp.step (fun _ => none) reappearingFile)
    let expected := Records.result (run Records.step (fun _ => none) reappearingFile) back
    result = some true ∧ expected = some false ∧
      ¬ ∀ pre op, pre ++ [op] <+: reappearingFile ++ [back] →
        op.result (run ChecksumOp.step (fun _ => none) pre) =
          Records.result (run Records.step (fun _ => none) pre) op := by
  intro name back result expected
  have hresult : result = some true := by decide
  have hexpected : expected = some false := by decide
  refine ⟨hresult, hexpected, ?_⟩
  intro h
  have heq : result = expected := h reappearingFile back (List.prefix_refl _)
  rw [hresult, hexpected] at heq
  cases heq

end Cfengine
