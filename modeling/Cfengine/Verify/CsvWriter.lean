import Cfengine.CsvWriter
import Cfengine.Theory.Csv

/-!
# What is read of comma-separated values

A table is written field by field. By the grammar, the text has that table and no other
(`table_csvText_iff`).
-/

namespace Cfengine

/-- The characters that mean something to the writer. -/
def csvMarks : Csv.Marks Char where
  quote := '"'
  comma := ','
  cr := '\r'
  lf := '\n'
  distinct := by decide

/-- A field for each of the strings. -/
def writeRecord (csvw : CsvWriter) (record : List CString) : CsvWriter :=
  record.foldl csvWriterField csvw

/-- The records, with `CsvWriterNewRecord` between them. -/
def writeRecords (csvw : CsvWriter) : List (List CString) → CsvWriter
  | [] => csvw
  | [record] => writeRecord csvw record
  | record :: records => writeRecords (csvWriterNewRecord (writeRecord csvw record)) records

/-- The text that is written for a table. -/
def csvText (table : List (List CString)) : CString :=
  csvWriterClose (writeRecords (csvWriterOpen []) table)

variable {csvw : CsvWriter} {w s str text : CString} {record : List CString}
  {table table' : List (List CString)}

theorem writeCsvEscapedString_loop_eq (w s : CString) :
    writeCsvEscapedString.loop w s = w ++ csvMarks.doubled s := by
  induction s generalizing w with
  | nil => exact (List.append_nil w).symm
  | cons c s ih =>
    rw [writeCsvEscapedString.loop, ih, Csv.doubled_cons]
    split_ifs with hc hc' hc'
    · rw [hc, List.append_assoc, List.append_assoc]
      rfl
    · exact absurd hc hc'
    · exact absurd hc' hc
    · rw [List.append_assoc]

/-- A field is written behind its comma as the grammar has it. -/
theorem exists_field_csvWriterField (csvw : CsvWriter) (str : CString) :
    ∃ text, Csv.Field csvMarks text str ∧
      csvWriterField csvw str =
        ⟨(if csvw.beginningOfLine then csvw.w else csvw.w ++ [',']) ++ text, false⟩ := by
  rw [csvWriterField]
  split_ifs with hmarks hline hline
  · refine ⟨_, .quoted str, ?_⟩
    rw [writeCsvEscapedString, writeCsvEscapedString_loop_eq, List.append_assoc, List.append_assoc]
    rfl
  · refine ⟨_, .quoted str, ?_⟩
    rw [writeCsvEscapedString, writeCsvEscapedString_loop_eq, List.append_assoc _ ['"'],
      List.append_assoc]
    rfl
  all_goals
    refine ⟨str, .plain fun c hc hmark => hmarks ?_, rfl⟩
    exact List.any_eq_true.mpr ⟨c, hc, List.contains_iff_mem.mpr hmark⟩

/-- A record is written as the grammar has it. -/
theorem exists_record_writeRecord (csvw : CsvWriter) (hne : record ≠ []) :
    ∃ text, Csv.Record csvMarks text record ∧
      writeRecord csvw record =
        ⟨(if csvw.beginningOfLine then csvw.w else csvw.w ++ [',']) ++ text, false⟩ := by
  induction record generalizing csvw with
  | nil => exact absurd rfl hne
  | cons str record ih =>
    obtain ⟨text, hfield, hwritten⟩ := exists_field_csvWriterField csvw str
    rw [writeRecord, List.foldl_cons, hwritten]
    rcases eq_or_ne record [] with rfl | hrecord
    · exact ⟨text, .single hfield, rfl⟩
    · obtain ⟨rest, hrest, hrecord'⟩ := ih ⟨_, false⟩ hrecord
      rw [writeRecord] at hrecord'
      refine ⟨text ++ ',' :: rest, .cons hfield hrest, ?_⟩
      rw [hrecord', if_neg Bool.false_ne_true, List.append_assoc, List.append_assoc]
      rfl

/-- A table is written as the grammar has it, each record with its line break. -/
theorem exists_table_writeRecords (w : CString) (hne : ∀ record ∈ table, record ≠ []) :
    ∃ text, Csv.Table csvMarks text table ∧
      csvWriterClose (writeRecords ⟨w, true⟩ table) = w ++ text := by
  induction table generalizing w with
  | nil => exact ⟨[], .nil, (List.append_nil w).symm⟩
  | cons record table ih =>
    obtain ⟨hrecord, htable⟩ := List.forall_mem_cons.mp hne
    obtain ⟨text, htext, hwritten⟩ := exists_record_writeRecord ⟨w, true⟩ hrecord
    rw [if_pos rfl] at hwritten
    cases table with
    | nil =>
      refine ⟨text ++ ['\r', '\n'], .cons htext .nil, ?_⟩
      rw [writeRecords, hwritten, csvWriterClose, if_neg Bool.false_ne_true, List.append_assoc]
    | cons next table =>
      obtain ⟨rest, hrest, hclosed⟩ := ih (w ++ text ++ ['\r', '\n']) htable
      refine ⟨text ++ '\r' :: '\n' :: rest, .cons htext hrest, ?_⟩
      rw [writeRecords, hwritten, csvWriterNewRecord, hclosed, List.append_assoc, List.append_assoc]
      · rfl
      · exact fun h => by cases h

theorem table_csvText (hne : ∀ record ∈ table, record ≠ []) :
    Csv.Table csvMarks (csvText table) table := by
  obtain ⟨text, htext, hwritten⟩ := exists_table_writeRecords [] hne
  rw [csvText, csvWriterOpen, hwritten]
  exact htext

/-- The grammar has the table, and nothing else, for the text, and different tables have different
texts. -/
theorem table_csvText_iff (hne : ∀ record ∈ table, record ≠ []) :
    (∀ table', Csv.Table csvMarks (csvText table) table' ↔ table' = table) ∧
      ∀ table', (∀ record ∈ table', record ≠ []) → csvText table' = csvText table →
        table' = table := by
  have htable := table_csvText hne
  refine ⟨fun table' => ⟨fun h => h.unique htable, ?_⟩, fun table' hne' heq => ?_⟩
  · rintro rfl
    exact htable
  · have htable' := table_csvText hne'
    rw [heq] at htable'
    exact htable'.unique htable

/-- Two records, with an empty field, a quote, a comma and a line break in them. -/
theorem table_csvText_two :
    (∀ table', Csv.Table csvMarks (csvText [[[], ['a', '"']], [[',', '\n']]]) table' ↔
        table' = [[[], ['a', '"']], [[',', '\n']]]) ∧
      ∀ table', (∀ record ∈ table', record ≠ []) →
        csvText table' = csvText [[[], ['a', '"']], [[',', '\n']]] →
          table' = [[[], ['a', '"']], [[',', '\n']]] :=
  table_csvText_iff (by decide)

end Cfengine
