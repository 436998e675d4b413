import Mathlib

/-!
# Comma-separated values

The grammar of RFC 4180 over any characters: a record is one or more fields between commas, a field
is plain or in quotes, and a quote in quotes is doubled. Plain text is what is none of the four
marks. A line break at the end of the text ends the last record; read so, no text has two tables
(`Table.unique`).
-/

namespace Csv

/-- The characters that mean something. -/
structure Marks (α : Type*) where
  quote : α
  comma : α
  cr : α
  lf : α
  distinct : [quote, comma, cr, lf].Nodup

section
variable {α : Type*} [DecidableEq α] (marks : Marks α)

namespace Marks

/-- The four marks. -/
def all : List α := [marks.quote, marks.comma, marks.cr, marks.lf]

/-- The text between the quotes: each quote is doubled. -/
def doubled (value : List α) : List α :=
  value.flatMap fun c => if c = marks.quote then [marks.quote, marks.quote] else [c]

end Marks

/-- The text of a field. -/
inductive Field : List α → List α → Prop
  | plain {value : List α} : (∀ c ∈ value, c ∉ marks.all) → Field value value
  | quoted (value : List α) : Field (marks.quote :: marks.doubled value ++ [marks.quote]) value

/-- The text of a record. -/
inductive Record : List α → List (List α) → Prop
  | single {text value : List α} : Field marks text value → Record text [value]
  | cons {text value rest : List α} {values : List (List α)} : Field marks text value →
    Record rest values → Record (text ++ marks.comma :: rest) (value :: values)

/-- The text of a table. Only the last record may go without a line break, if it has any text. -/
inductive Table : List α → List (List (List α)) → Prop
  | nil : Table [] []
  | last {text : List α} {record : List (List α)} : Record marks text record → text ≠ [] →
    Table text [record]
  | cons {text rest : List α} {record : List (List α)} {table : List (List (List α))} :
    Record marks text record → Table rest table →
    Table (text ++ marks.cr :: marks.lf :: rest) (record :: table)

/-! ## Reading a field -/

/-- The value between quotes, and what is behind the closing one. -/
def readQuoted : List α → Option (List α × List α)
  | [] => none
  | [c] => if c = marks.quote then some ([], []) else none
  | c :: c' :: s =>
    if c = marks.quote then
      if c' = marks.quote then (readQuoted s).map fun read => (marks.quote :: read.1, read.2)
      else some ([], c' :: s)
    else (readQuoted (c' :: s)).map fun read => (c :: read.1, read.2)

/-- The value of the field that a text starts with, and what is behind it. -/
def readField : List α → Option (List α × List α)
  | [] => some ([], [])
  | c :: s =>
    if c = marks.quote then readQuoted marks s
    else some ((c :: s).takeWhile (· ∉ marks.all), (c :: s).dropWhile (· ∉ marks.all))

/-- What follows a field. -/
def FieldEnd (rest : List α) : Prop := ∀ c ∈ rest.head?, c ∈ marks.all ∧ c ≠ marks.quote

/-- What follows a record. -/
def RecordEnd (rest : List α) : Prop := rest = [] ∨ ∃ next, rest = marks.cr :: marks.lf :: next

variable {marks} {text text' value value' rest rest' : List α} {values values' : List (List α)}
  {table table' : List (List (List α))}

omit [DecidableEq α] in
theorem Marks.quote_ne (marks : Marks α) :
    marks.comma ≠ marks.quote ∧ marks.cr ≠ marks.quote ∧ marks.cr ≠ marks.comma := by
  have h := marks.distinct
  simp only [List.nodup_cons, List.mem_cons, not_or] at h
  exact ⟨Ne.symm h.1.1, Ne.symm h.1.2.1, Ne.symm h.2.1.1⟩

omit [DecidableEq α] in
theorem RecordEnd.fieldEnd (h : RecordEnd marks rest) : FieldEnd marks rest := by
  rcases h with rfl | ⟨next, rfl⟩
  · exact fun c hc => by cases hc
  · rintro c hc
    cases hc
    exact ⟨List.mem_cons_of_mem _ (List.mem_cons_of_mem _ List.mem_cons_self), marks.quote_ne.2.1⟩

omit [DecidableEq α] in
theorem fieldEnd_comma : FieldEnd marks (marks.comma :: rest) := by
  rintro c hc
  cases hc
  exact ⟨List.mem_cons_of_mem _ List.mem_cons_self, marks.quote_ne.1⟩

theorem doubled_cons {c : α} :
    marks.doubled (c :: value) =
      (if c = marks.quote then [marks.quote, marks.quote] else [c]) ++ marks.doubled value :=
  List.flatMap_cons

theorem readQuoted_doubled (hend : FieldEnd marks rest) :
    readQuoted marks (marks.doubled value ++ marks.quote :: rest) = some (value, rest) := by
  induction value with
  | nil =>
    cases rest with
    | nil => exact if_pos rfl
    | cons c rest =>
      change readQuoted marks (marks.quote :: c :: rest) = _
      rw [readQuoted, if_pos rfl, if_neg (hend c rfl).2]
  | cons c value ih =>
    rw [doubled_cons]
    split_ifs with hc
    · change readQuoted marks (marks.quote :: marks.quote :: (marks.doubled value ++ _)) = _
      rw [readQuoted, if_pos rfl, if_pos rfl, ih, hc]
      rfl
    · change readQuoted marks (c :: (marks.doubled value ++ _)) = _
      obtain ⟨c', s, hs⟩ := List.exists_cons_of_ne_nil
        (List.append_ne_nil_of_right_ne_nil (marks.doubled value)
          (List.cons_ne_nil marks.quote rest))
      rw [hs, readQuoted, if_neg hc, ← hs, ih]
      rfl

/-- A field is read from its text. -/
theorem Field.readField_eq (h : Field marks text value) (hend : FieldEnd marks rest) :
    readField marks (text ++ rest) = some (value, rest) := by
  cases h with
  | quoted =>
    rw [List.append_assoc, List.cons_append, readField, if_pos rfl]
    exact readQuoted_doubled hend
  | plain hplain =>
    have hvalue : ∀ c ∈ text, decide (c ∉ marks.all) = true :=
      fun c hc => decide_eq_true (hplain c hc)
    have hrest : rest.takeWhile (· ∉ marks.all) = [] ∧ rest.dropWhile (· ∉ marks.all) = rest := by
      cases rest with
      | nil => exact ⟨rfl, rfl⟩
      | cons c rest =>
        have hc : ¬ decide (c ∉ marks.all) = true := fun hc => of_decide_eq_true hc (hend c rfl).1
        exact ⟨List.takeWhile_cons_of_neg hc, List.dropWhile_cons_of_neg hc⟩
    have hread : ((text ++ rest).takeWhile (· ∉ marks.all),
      (text ++ rest).dropWhile (· ∉ marks.all)) =
        (text, rest) := by
      rw [List.takeWhile_append_of_pos hvalue, List.dropWhile_append_of_pos hvalue, hrest.1,
        hrest.2, List.append_nil]
    rw [← hread]
    cases hs : text ++ rest with
    | nil => rfl
    | cons c s =>
      have hc : c ≠ marks.quote := by
        rintro rfl
        cases text with
        | nil => exact (hend _ (congrArg List.head? hs)).2 rfl
        | cons d text =>
          cases hs
          exact hplain _ List.mem_cons_self List.mem_cons_self
      rw [readField, if_neg hc]

/-- A text starts with at most one field. -/
theorem Field.unique (h : Field marks text value) (h' : Field marks text' value')
    (hend : FieldEnd marks rest) (hend' : FieldEnd marks rest')
    (heq : text ++ rest = text' ++ rest') :
    value = value' ∧ rest = rest' := by
  have hread := h.readField_eq hend
  rw [heq, h'.readField_eq hend', Option.some.injEq, Prod.mk.injEq] at hread
  exact ⟨hread.1.symm, hread.2.symm⟩

/-- A text starts with at most one record. -/
theorem Record.unique (h : Record marks text values) (h' : Record marks text' values')
    (hend : RecordEnd marks rest) (hend' : RecordEnd marks rest')
    (heq : text ++ rest = text' ++ rest') :
    values = values' ∧ rest = rest' := by
  have hcomma : ∀ {s next}, RecordEnd marks s → s ≠ marks.comma :: next := by
    rintro s next (rfl | ⟨t, rfl⟩) hs
    · cases hs
    · exact marks.quote_ne.2.2 (List.cons_eq_cons.mp hs).1
  induction h generalizing text' values' with
  | single hfield =>
    cases h' with
    | single hfield' =>
      obtain ⟨rfl, rfl⟩ := hfield.unique hfield' hend.fieldEnd hend'.fieldEnd heq
      exact ⟨rfl, rfl⟩
    | cons hfield' hrecord' =>
      rw [List.append_assoc, List.cons_append] at heq
      obtain ⟨-, hrest⟩ := hfield.unique hfield' hend.fieldEnd fieldEnd_comma heq
      exact absurd hrest (hcomma hend)
  | cons hfield hrecord ih =>
    rw [List.append_assoc, List.cons_append] at heq
    cases h' with
    | single hfield' =>
      obtain ⟨-, hrest⟩ := hfield.unique hfield' fieldEnd_comma hend'.fieldEnd heq
      exact absurd hrest.symm (hcomma hend')
    | cons hfield' hrecord' =>
      rw [List.append_assoc, List.cons_append] at heq
      obtain ⟨rfl, hrest⟩ := hfield.unique hfield' fieldEnd_comma fieldEnd_comma heq
      obtain ⟨rfl, rfl⟩ := ih hrecord' (List.cons_eq_cons.mp hrest).2
      exact ⟨rfl, rfl⟩

/-- A text has at most one table. -/
theorem Table.unique (h : Table marks text table) (h' : Table marks text table') :
    table = table' := by
  have hlineEnd : ∀ next, RecordEnd marks (marks.cr :: marks.lf :: next) :=
    fun next => .inr ⟨next, rfl⟩
  induction h generalizing table' with
  | nil =>
    generalize htext : ([] : List α) = text at h'
    cases h' with
    | nil => rfl
    | last _ hne => exact absurd htext.symm hne
    | cons => exact absurd htext.symm (List.append_ne_nil_of_right_ne_nil _ (List.cons_ne_nil _ _))
  | @last text record hrecord hne =>
    generalize htext : text = text' at h'
    cases h' with
    | nil => exact absurd htext hne
    | last hrecord' _ =>
      have heq : text ++ [] = text' ++ [] := by rw [htext]
      rw [(hrecord.unique hrecord' (.inl rfl) (.inl rfl) heq).1]
    | cons hrecord' _ =>
      rw [← List.append_nil text] at htext
      cases (hrecord.unique hrecord' (.inl rfl) (hlineEnd _) htext).2
  | @cons text rest record table hrecord _ ih =>
    generalize htext : text ++ marks.cr :: marks.lf :: rest = text' at h'
    cases h' with
    | nil => exact absurd htext (List.append_ne_nil_of_right_ne_nil _ (List.cons_ne_nil _ _))
    | last hrecord' _ =>
      rw [← List.append_nil text'] at htext
      cases (hrecord.unique hrecord' (hlineEnd _) (.inl rfl) htext).2
    | cons hrecord' htable' =>
      obtain ⟨rfl, hrest⟩ := hrecord.unique hrecord' (hlineEnd _) (hlineEnd _) htext
      obtain rfl := (List.cons_eq_cons.mp (List.cons_eq_cons.mp hrest).2).2
      rw [ih htable']

end

end Csv
