import Cfengine.Verify.JsonGrammar

/-!
# Printing and parsing JSON

`JsonParse` reads back what `JsonElementPrint` prints, if no text in the element has a character
that is escaped or left out (`jsonParse_print`). The runs of the two loops are chained as
`ArraySteps` and `ObjectSteps`, for any number of steps that is enough for the text. The literals
are matched at the start of any line, and no line that is printed starts with one (`Calm`).
-/

namespace Cfengine
open JsonNumberState (IsRest)

variable {pcre : CString → CString → Bool} {s t v w text text' : CString} {c d : Char}
  {child object object' array array' : JsonElement} {children acc : List JsonElement}

/-! ## What can be printed -/

/-- No character of the text is escaped or left out. -/
def PlainText (s : CString) : Prop := ∀ c ∈ s, isJsonUnescaped c = false

/-- The text of a primitive. -/
def IsPrimitiveText : JsonPrimitiveType → CString → Prop
  | .string, value => PlainText value
  | .bool, value => value = jsonTrue ∨ value = jsonFalse
  | .null, value => value = jsonNull
  | type, value => IsLooseNumber value ∧ numberPrimitive value = .primitive none type value

/-- The members of an object have names, and the elements of an array have none. -/
def NameFits : JsonContainerType → Option CString → Prop
  | .object, some name => PlainText name
  | .array, none => True
  | _, _ => False

mutual

/-- What may stand in a container of this type. -/
def Printable (type : JsonContainerType) : JsonElement → Prop
  | .primitive name primitiveType value => NameFits type name ∧ IsPrimitiveText primitiveType value
  | .container name containerType children => NameFits type name ∧
      AllPrintable containerType children

def AllPrintable (type : JsonContainerType) : List JsonElement → Prop
  | [] => True
  | child :: rest => Printable type child ∧ AllPrintable type rest

end

def IsJsonLiteral (w : CString) : Prop := w = jsonTrue ∨ w = jsonFalse ∨ w = jsonNull

/-- `StringMatch` with `PCRE_MULTILINE`: the literals are found at the start of each line. -/
def MatchesLines (pcre : CString → CString → Bool) : Prop :=
  ∀ literal, IsJsonLiteral literal → ∀ text,
    pcre ('^' :: literal) text ↔ literal <+: text ∨ '\n' :: literal <:+: text

/-! ## Lines -/

/-- A line starts with its indentation or with a closing bracket. -/
def LineStarts (t : CString) : Prop := ∀ c ∈ t.head?, c = ' ' ∨ c = ']' ∨ c = '}'

/-- Each line behind the first one starts so. -/
def Calm : CString → Prop
  | [] => True
  | c :: t => (c = '\n' → LineStarts t) ∧ Calm t

theorem Calm.append (hs : '\n' ∉ s) (ht : Calm t) : Calm (s ++ t) := by
  induction s with
  | nil => exact ht
  | cons c s ih =>
    obtain ⟨hc, hs⟩ := not_or.mp (mt List.mem_cons.mpr hs)
    exact ⟨fun h => absurd h.symm hc, ih hs⟩

theorem Calm.of_append (h : Calm (s ++ t)) : Calm t := by
  induction s with
  | nil => exact h
  | cons c s ih => exact ih h.2

theorem Calm.not_infix (h : Calm t) (hc : c ≠ ' ' ∧ c ≠ ']' ∧ c ≠ '}') :
    ¬ '\n' :: c :: s <:+: t := by
  rintro ⟨before, after, rfl⟩
  rw [List.append_assoc] at h
  obtain hspace | hbracket | hbrace := h.of_append.1 rfl c rfl
  · exact hc.1 hspace
  · exact hc.2.1 hbracket
  · exact hc.2.2 hbrace

theorem PlainText.not_mem_newline (h : PlainText s) : '\n' ∉ s :=
  fun hmem => absurd (h _ hmem) (by decide)

theorem newline_not_mem_printIndent (num : Nat) : '\n' ∉ printIndent num := fun h =>
  absurd (List.eq_of_mem_replicate h) (by decide)

theorem lineStarts_printIndent (num : Nat) : LineStarts (printIndent (num + 1) ++ t) := by
  rintro c ⟨⟩
  exact .inl rfl

/-! ## The values -/

theorem escapeJsonString_eq (h : PlainText v) : escapeJsonString v = v := by
  induction v with
  | nil => rfl
  | cons c v ih =>
    have hc := h c List.mem_cons_self
    have hescape : escapeJsonChar c = [c] := by
      simp only [isJsonUnescaped, Bool.or_eq_false_iff, decide_eq_false_iff_not] at hc
      simp [escapeJsonChar, hc]
    rw [escapeJsonString, List.flatMap_cons, hescape]
    exact congrArg (c :: ·) (ih fun d hd => h d (List.mem_cons_of_mem _ hd))

theorem jsonParseAsString_loop_eq (h : PlainText v) (hd : d ≠ '\\') :
    jsonParseAsString.loop d w (v ++ '"' :: t) = some (w ++ v, '"' :: t) := by
  induction v generalizing d w with
  | nil => simp [jsonParseAsString.loop, hd]
  | cons c v ih =>
    have hc := h c List.mem_cons_self
    simp only [isJsonUnescaped, Bool.or_eq_false_iff, decide_eq_false_iff_not] at hc
    obtain ⟨⟨⟨⟨⟨⟨hquote, hbackslash⟩, -⟩, -⟩, -⟩, -⟩, -⟩ := hc
    rw [List.cons_append, jsonParseAsString.loop]
    simp only [hquote, hbackslash, decide_false, Bool.false_and, Bool.false_eq_true, if_false]
    rw [ih (fun e he => h e (List.mem_cons_of_mem _ he)) hbackslash, List.append_assoc,
      List.singleton_append]

theorem jsonParseAsString_eq (h : PlainText v) :
    jsonParseAsString ('"' :: (v ++ '"' :: t)) = some (v, '"' :: t) :=
  jsonParseAsString_loop_eq h (by decide)

/-- A character that begins a number or a literal. -/
def BeginsPrimitive (c : Char) : Prop := c = '-' ∨ isNumeralDigit c ∨ c = 't' ∨ c = 'f' ∨ c = 'n'

theorem isJsonSeparator_digit (hd : isNumeralDigit d) : isJsonSeparator d = false := by
  obtain ⟨hlower, hupper⟩ : '0' ≤ d ∧ d ≤ '9' := by
    rw [isNumeralDigit, Bool.or_eq_true, decide_eq_true_eq, isJsonDigit, Bool.and_eq_true,
      decide_eq_true_eq, decide_eq_true_eq] at hd
    rcases hd with rfl | ⟨hlower, hupper⟩
    · decide
    · exact ⟨le_trans (by decide) hlower, hupper⟩
  refine Bool.eq_false_iff.mpr fun h => ?_
  simp only [isJsonSeparator, isJsonWhitespace, Bool.or_eq_true, decide_eq_true_eq] at h
  rcases h with (((((rfl | rfl) | rfl) | rfl) | rfl) | rfl) | rfl <;>
    revert hlower hupper <;> decide

theorem Accepts.isJsonSeparator {p : Point} {e : Bool} (h : Accepts p e w) :
    ∀ c ∈ w, isJsonSeparator c = false := by
  induction h with
  | done => exact nofun
  | zero _ ih | dot _ _ ih | minus _ ih => exact List.forall_mem_cons.mpr ⟨by decide, ih⟩
  | digit _ _ hd _ ih => exact List.forall_mem_cons.mpr ⟨isJsonSeparator_digit hd, ih⟩
  | letter _ hc _ ih =>
    refine List.forall_mem_cons.mpr ⟨?_, ih⟩
    obtain rfl | rfl := eq_e_or_eq_E hc <;> decide
  | sign hc _ ih =>
    refine List.forall_mem_cons.mpr ⟨?_, ih⟩
    obtain rfl | rfl := hc <;> decide

theorem Accepts.beginsPrimitive (h : Accepts .start false w) :
    ∃ c s, w = c :: s ∧ (c = '-' ∨ isNumeralDigit c) := by
  cases h with
  | done hp => cases hp
  | zero => exact ⟨_, _, rfl, .inr (by decide)⟩
  | digit _ _ hd => exact ⟨_, _, rfl, .inr hd⟩
  | dot hp => cases hp
  | letter hp => cases hp
  | minus => exact ⟨_, _, rfl, .inl rfl⟩

theorem jsonParsePrimitive_number (hw : IsLooseNumber w) (ht : IsRest t) :
    ∃ c s d, w = c :: s ∧ BeginsPrimitive c ∧
      jsonParsePrimitive pcre c (w ++ t) = .ok (some (numberPrimitive w, d :: t)) := by
  have haccepts := accepts_iff.mpr hw
  obtain ⟨c, s, rfl, hc⟩ := haccepts.beginsPrimitive
  obtain ⟨d, hd⟩ : ∃ d, (c :: s).getLast? = some d :=
    ⟨_, List.getLast?_eq_some_getLast (List.cons_ne_nil c s)⟩
  refine ⟨c, s, d, rfl, hc.imp_right .inl, ?_⟩
  have hnumber : (decide (c = '-') || decide (c = '0') || isJsonDigit c) = true := by
    rcases hc with rfl | hc
    · rfl
    · rw [isNumeralDigit] at hc
      rw [Bool.or_assoc, hc, Bool.or_true]
  rw [jsonParsePrimitive, if_pos hnumber,
    (jsonParseAsNumber_iff haccepts.isJsonSeparator ht).mpr ⟨haccepts, d, hd, rfl⟩]
  rfl

/-- A literal is found only where the pointer is. -/
theorem stringMatch_literal (hpcre : MatchesLines pcre) (hv : IsJsonLiteral v)
    (hw : IsJsonLiteral w) (hcalm : Calm (v ++ t)) :
    stringMatch pcre ('^' :: w) (v ++ t) ↔ w = v := by
  have hlines : ¬ '\n' :: w <:+: v ++ t := by
    rcases hw with rfl | rfl | rfl <;> exact hcalm.not_infix (by decide)
  have hne : ¬ '^' :: w = v ++ t := by
    rcases hv with rfl | rfl | rfl <;> simp [jsonTrue, jsonFalse, jsonNull]
  rw [stringMatch, Bool.or_eq_true, decide_eq_true_eq, or_iff_right hne, hpcre w hw,
    or_iff_left hlines]
  rcases hv with rfl | rfl | rfl <;> rcases hw with rfl | rfl | rfl <;>
    simp [jsonTrue, jsonFalse, jsonNull]

theorem jsonParseLiteral_eq {element : JsonElement} (ht : IsRest t) :
    jsonParseLiteral w element (w ++ t) = .ok (some (element, (w ++ t).drop (w.length - 1))) := by
  have hnext : jsonCharAt (w ++ t) w.length = .ok t.head? := by
    rw [jsonCharAt, if_pos (by rw [List.length_append]; exact Nat.le_add_right _ _),
      List.getElem?_append_right (Nat.le_refl _), Nat.sub_self, List.head?_eq_getElem?]
  have hall : t.head?.all isJsonSeparator := by
    cases t with
    | nil => rfl
    | cons c t => exact ht c rfl
  rw [jsonParseLiteral, hnext]
  exact if_pos hall

theorem jsonParsePrimitive_literal (hpcre : MatchesLines pcre) (ht : IsRest t)
    (h : w = jsonTrue ∧ child = jsonBoolCreate true ∨ w = jsonFalse ∧ child = jsonBoolCreate false ∨
      w = jsonNull ∧ child = jsonNullCreate) (hcalm : Calm (w ++ t)) :
    ∃ c s d, w = c :: s ∧ BeginsPrimitive c ∧
      jsonParsePrimitive pcre c (w ++ t) = .ok (some (child, d :: t)) := by
  have htrue : IsJsonLiteral jsonTrue := .inl rfl
  have hfalse : IsJsonLiteral jsonFalse := .inr (.inl rfl)
  have hnull : IsJsonLiteral jsonNull := .inr (.inr rfl)
  rcases h with ⟨rfl, rfl⟩ | ⟨rfl, rfl⟩ | ⟨rfl, rfl⟩
  · refine ⟨'t', _, 'e', rfl, .inr (.inr (.inl rfl)), ?_⟩
    rw [jsonParsePrimitive, if_neg (by decide), jsonParseAsBoolean,
      if_pos ((stringMatch_literal hpcre htrue htrue hcalm).mpr rfl), jsonParseLiteral_eq ht]
    rfl
  · refine ⟨'f', _, 'e', rfl, .inr (.inr (.inr (.inl rfl))), ?_⟩
    rw [jsonParsePrimitive, if_neg (by decide), jsonParseAsBoolean,
      if_neg (mt (stringMatch_literal hpcre hfalse htrue hcalm).mp (by decide)),
      if_pos ((stringMatch_literal hpcre hfalse hfalse hcalm).mpr rfl), jsonParseLiteral_eq ht]
    rfl
  · refine ⟨'n', _, 'l', rfl, .inr (.inr (.inr (.inr rfl))), ?_⟩
    have hbool : jsonParseAsBoolean pcre (jsonNull ++ t) = .ok none := by
      rw [jsonParseAsBoolean,
        if_neg (mt (stringMatch_literal hpcre hnull htrue hcalm).mp (by decide)),
          if_neg (mt (stringMatch_literal hpcre hnull hfalse hcalm).mp (by decide))]
    have hparse : jsonParseAsNull pcre (jsonNull ++ t) = .ok (some (jsonNullCreate, 'l' :: t)) := by
      rw [jsonParseAsNull, if_pos ((stringMatch_literal hpcre hnull hnull hcalm).mpr rfl),
        jsonParseLiteral_eq ht]
      rfl
    rw [jsonParsePrimitive, if_neg (by decide), hbool]
    exact hparse

/-! ## The loops -/

section
variable {σ : Type*} {loop : Nat → σ → CString → JsonParsed} {x x' x'' : σ} {text'' : CString}

/-- Enough steps for the first text come to the second one with enough steps for it. -/
def LeadsTo (loop : Nat → σ → CString → JsonParsed) (x : σ) (text : CString) (x' : σ)
    (text' : CString) : Prop :=
  ∀ fuel, text.length ≤ fuel → ∃ fuel', text'.length ≤ fuel' ∧
    loop fuel x text = loop fuel' x' text'

theorem LeadsTo.refl : LeadsTo loop x text x text := fun fuel hfuel => ⟨fuel, hfuel, rfl⟩

theorem LeadsTo.trans (h : LeadsTo loop x text x' text') (h' : LeadsTo loop x' text' x'' text'') :
    LeadsTo loop x text x'' text'' := by
  intro fuel hfuel
  obtain ⟨fuel', hfuel', hloop⟩ := h fuel hfuel
  obtain ⟨fuel'', hfuel'', hloop'⟩ := h' fuel' hfuel'
  exact ⟨fuel'', hfuel'', hloop.trans hloop'⟩

theorem leadsTo_of_step (hlen : text'.length < text.length)
    (h : ∀ fuel, text.length ≤ fuel + 1 → loop (fuel + 1) x text = loop fuel x' text') :
    LeadsTo loop x text x' text' := by
  intro fuel hfuel
  obtain ⟨fuel, rfl⟩ := Nat.exists_eq_add_one_of_ne_zero (by omega : fuel ≠ 0)
  exact ⟨fuel, by omega, h fuel hfuel⟩

theorem leadsTo_printIndent (h : ∀ t, LeadsTo loop x (' ' :: t) x t) (num : Nat) :
    LeadsTo loop x (printIndent num ++ t) x t := by
  rw [printIndent]
  induction num * 2 with
  | zero => exact .refl
  | succ n ih => exact (h _).trans ih

theorem leadsTo_printSeparator (hcomma : ∀ t, LeadsTo loop x (',' :: t) x t)
    (hnewline : ∀ t, LeadsTo loop x ('\n' :: t) x t) {rest : List JsonElement} :
    LeadsTo loop x (printSeparator rest ++ t) x t := by
  rw [printSeparator]
  split
  · exact hnewline t
  · exact (hcomma _).trans (hnewline t)

end

/-- Steps of the loop of `JsonParseAsArray`. -/
abbrev ArraySteps (pcre : CString → CString → Bool) := LeadsTo (jsonParseAsArray.loop pcre)

/-- Steps of the loop of `JsonParseAsObject`, which has the object and the name of a member. -/
abbrev ObjectSteps (pcre : CString → CString → Bool) :=
  LeadsTo fun fuel (x : JsonElement × Option CString) => jsonParseAsObject.loop pcre fuel x.1 x.2

theorem arraySteps_whitespace (hc : isJsonWhitespace c) : ArraySteps pcre array (c :: t) array t :=
  leadsTo_of_step (Nat.lt_succ_self _) fun _ _ => by rw [jsonParseAsArray.loop, if_pos hc]

theorem objectSteps_whitespace {name : Option CString} (hc : isJsonWhitespace c) :
    ObjectSteps pcre (object, name) (c :: t) (object, name) t :=
  leadsTo_of_step (Nat.lt_succ_self _) fun _ _ => by
    rw [jsonParseAsObject.loop.eq_def]
    exact if_pos hc

theorem arraySteps_comma : ArraySteps pcre array (',' :: t) array t :=
  leadsTo_of_step (Nat.lt_succ_self _) fun _ _ => rfl

theorem objectSteps_comma : ObjectSteps pcre (object, none) (',' :: t) (object, none) t :=
  leadsTo_of_step (Nat.lt_succ_self _) fun _ _ => rfl

/-- The name of a member, up to its value. -/
theorem objectSteps_printPropertyName {name : CString} {level : Nat} (hname : PlainText name) :
    ObjectSteps pcre (object, none) (printPropertyName (some name) level ++ t)
      (object, some name) t := by
  have hread : ObjectSteps pcre (object, none) ('"' :: (name ++ '"' :: ':' :: ' ' :: t))
    (object, some name)
      (':' :: ' ' :: t) := by
    refine leadsTo_of_step (by simp; omega) fun fuel _ => ?_
    rw [jsonParseAsObject.loop]
    simp only [jsonParseAsString_eq hname]
    rfl
  have hcolon : ObjectSteps pcre (object, some name) (':' :: ' ' :: t) (object, some name)
      (' ' :: t) :=
    leadsTo_of_step (Nat.lt_succ_self _) fun _ _ => rfl
  have htext : printPropertyName (some name) level ++ t =
      printIndent (level + 1) ++ '"' :: (name ++ '"' :: ':' :: ' ' :: t) := by
        simp [printPropertyName]
  rw [htext]
  exact (leadsTo_printIndent (fun _ => objectSteps_whitespace rfl) _).trans
    (hread.trans (hcolon.trans (objectSteps_whitespace rfl)))

/-! ## Values in the loops -/

variable (pcre) in
/-- An array is read behind its opening bracket, up to the closing one. -/
def ArrayCloses (s : CString) (children : List JsonElement) (t : CString) : Prop :=
  ∀ fuel, s.length ≤ fuel →
    jsonParseAsArray.loop pcre fuel jsonArrayCreate s =
      .ok (some (.container none .array children, ']' :: t))

variable (pcre) in
def ObjectCloses (s : CString) (children : List JsonElement) (t : CString) : Prop :=
  ∀ fuel, s.length ≤ fuel →
    jsonParseAsObject.loop pcre fuel jsonObjectCreate none s =
      .ok (some (.container none .object children, '}' :: t))

/-- A value without its name, as both loops read it. -/
inductive ValueRead (pcre : CString → CString → Bool) : CString → JsonElement → CString → Prop where
  | string {v t : CString} : PlainText v →
      ValueRead pcre ('"' :: (v ++ '"' :: t)) (.primitive none .string v) t
  | primitive {c d : Char} {s t w : CString} {type : JsonPrimitiveType} : BeginsPrimitive c →
      t.length ≤ s.length →
    jsonParsePrimitive pcre c (c :: s) = .ok (some (.primitive none type w, d :: t)) →
    ValueRead pcre (c :: s) (.primitive none type w) t
  | array {s t : CString} {children : List JsonElement} : t.length ≤ s.length →
      ArrayCloses pcre s children t →
    ValueRead pcre ('[' :: s) (.container none .array children) t
  | object {s t : CString} {children : List JsonElement} : t.length ≤ s.length →
      ObjectCloses pcre s children t →
    ValueRead pcre ('\x7b' :: s) (.container none .object children) t

theorem BeginsPrimitive.separate (hc : BeginsPrimitive c) :
    isJsonSeparator c = false ∧ c ≠ '"' ∧ c ≠ '[' ∧
    c ≠ '\x7b' ∧ c ≠ ':' := by
  rcases hc with rfl | hd | rfl | rfl | rfl
  · decide
  · refine ⟨isJsonSeparator_digit hd, ?_, ?_, ?_, ?_⟩ <;> rintro rfl <;> exact absurd hd (by decide)
  · decide
  · decide
  · decide

theorem ValueRead.arraySteps (h : ValueRead pcre s child t) :
    ArraySteps pcre (.container none .array acc) s (.container none .array (acc ++ [child])) t := by
  cases h with
  | string hv =>
    refine leadsTo_of_step (by simp; omega) fun fuel _ => ?_
    rw [jsonParseAsArray.loop]
    simp only [jsonParseAsString_eq hv]
    simp only [jsonArrayAppendString, jsonStringCreate, escapeJsonString_eq hv]
    rfl
  | primitive hc hlen hparse =>
    obtain ⟨hseparator, hquote, hbracket, hbrace, -⟩ := hc.separate
    simp only [isJsonSeparator, Bool.or_eq_false_iff, decide_eq_false_iff_not] at hseparator
    obtain ⟨⟨⟨hspace, hcomma⟩, hclose⟩, -⟩ := hseparator
    refine leadsTo_of_step (by simp; omega) fun fuel _ => ?_
    rw [jsonParseAsArray.loop]
    simp only [hspace, hquote, hbracket, hbrace, hcomma, hclose, Bool.false_eq_true, if_false,
      hparse]
    rfl
  | array hlen hcloses =>
    refine leadsTo_of_step (by simp; omega) fun fuel hfuel => ?_
    have hchild := hcloses fuel (Nat.le_of_succ_le_succ hfuel)
    rw [jsonParseAsArray.loop]
    simp only [hchild]
    rfl
  | object hlen hcloses =>
    refine leadsTo_of_step (by simp; omega) fun fuel hfuel => ?_
    have hchild := hcloses fuel (Nat.le_of_succ_le_succ hfuel)
    rw [jsonParseAsArray.loop]
    simp only [hchild]
    rfl

/-- The element with this name. -/
theorem ValueRead.objectSteps (h : ValueRead pcre s child t) (acc : List JsonElement)
    (name : CString) :
    ObjectSteps pcre (.container none .object acc, some name) s
      (.container none .object (acc ++ [child.setPropertyName name]), none) t := by
  cases h with
  | string hv =>
    refine leadsTo_of_step (by simp; omega) fun fuel _ => ?_
    rw [jsonParseAsObject.loop]
    simp only [jsonParseAsString_eq hv]
    simp only [jsonObjectAppendString, escapeJsonString_eq hv]
    rfl
  | primitive hc hlen hparse =>
    obtain ⟨hseparator, hquote, hbracket, hbrace, hcolon⟩ := hc.separate
    simp only [isJsonSeparator, Bool.or_eq_false_iff, decide_eq_false_iff_not] at hseparator
    obtain ⟨⟨⟨hspace, hcomma⟩, -⟩, hclose⟩ := hseparator
    refine leadsTo_of_step (by simp; omega) fun fuel _ => ?_
    rw [jsonParseAsObject.loop]
    simp only [hspace, hquote, hcolon, hbracket, hbrace, hcomma, hclose, Bool.false_eq_true,
      if_false, decide_false, Bool.or_self, hparse]
    rfl
  | array hlen hcloses =>
    refine leadsTo_of_step (by simp; omega) fun fuel hfuel => ?_
    have hchild := hcloses fuel (Nat.le_of_succ_le_succ hfuel)
    rw [jsonParseAsObject.loop]
    simp only [hchild]
    rfl
  | object hlen hcloses =>
    refine leadsTo_of_step (by simp; omega) fun fuel hfuel => ?_
    have hchild := hcloses fuel (Nat.le_of_succ_le_succ hfuel)
    rw [jsonParseAsObject.loop]
    simp only [hchild]
    rfl

theorem arrayCloses_of
    (h : ArraySteps pcre jsonArrayCreate s (.container none .array children) (']' :: t)) :
    ArrayCloses pcre s children t := by
  intro fuel hfuel
  obtain ⟨fuel', hfuel', hloop⟩ := h fuel hfuel
  obtain ⟨fuel', rfl⟩ := Nat.exists_eq_add_one_of_ne_zero (by simp at hfuel'; omega : fuel' ≠ 0)
  rw [hloop]
  rfl

theorem objectCloses_of
    (h : ObjectSteps pcre (jsonObjectCreate, none) s (.container none .object children, none)
      ('}' :: t)) :
    ObjectCloses pcre s children t := by
  intro fuel hfuel
  obtain ⟨fuel', hfuel', hloop⟩ := h fuel hfuel
  obtain ⟨fuel', rfl⟩ := Nat.exists_eq_add_one_of_ne_zero (by simp at hfuel'; omega : fuel' ≠ 0)
  exact hloop.trans rfl

/-! ## The printed text is calm -/

theorem lineStarts_arrayLoop {level : Nat} (ht : LineStarts t) :
    LineStarts (jsonArrayPrint.loop children level ++ t) := by
  cases children with
  | nil => exact ht
  | cons child rest =>
    rw [jsonArrayPrint.loop, List.append_assoc, List.append_assoc, List.append_assoc]
    exact lineStarts_printIndent level

theorem lineStarts_objectLoop {level : Nat} (ht : LineStarts t) :
    LineStarts (jsonObjectPrint.loop children level ++ t) := by
  cases children with
  | nil => exact ht
  | cons child rest =>
    simp only [jsonObjectPrint.loop, printPropertyName, List.append_assoc]
    exact lineStarts_printIndent level

theorem lineStarts_closing {level : Nat} (hc : c = ']' ∨ c = '}') :
    LineStarts (printIndent level ++ c :: t) := by
  cases level with
  | zero =>
    rintro d ⟨⟩
    exact .inr hc
  | succ level => exact lineStarts_printIndent level

theorem calm_closing {level : Nat} (hc : c = ']' ∨ c = '}') (ht : Calm t) :
    Calm (printIndent level ++ c :: t) := by
  refine Calm.append (newline_not_mem_printIndent level) ⟨fun h => ?_, ht⟩
  rcases hc with rfl | rfl <;> exact absurd h (by decide)

theorem calm_printSeparator {rest : List JsonElement} (hstart : LineStarts t) (ht : Calm t) :
    Calm (printSeparator rest ++ t) := by
  rw [printSeparator]
  split
  · exact ⟨fun _ => hstart, ht⟩
  · exact ⟨fun h => absurd h (by decide), fun _ => hstart, ht⟩

theorem isRest_printSeparator {rest : List JsonElement} : IsRest (printSeparator rest ++ t) := by
  rw [printSeparator]
  split <;> (rintro c ⟨⟩; rfl)

theorem IsPrimitiveText.not_mem_newline {type : JsonPrimitiveType} (h : IsPrimitiveText type v) :
    '\n' ∉ v := by
  have hnumber : IsLooseNumber v → '\n' ∉ v := fun hv hmem =>
    absurd ((accepts_iff.mpr hv).isJsonSeparator _ hmem) (by decide)
  cases type with
  | string => exact PlainText.not_mem_newline h
  | integer | real => exact hnumber h.1
  | bool => rcases h with rfl | rfl <;> decide
  | null =>
    cases h
    decide

theorem Printable.exists_name (h : Printable .object child) :
    ∃ name, child.propertyName = some name ∧ PlainText name := by
  have hfits : NameFits .object child.propertyName := by
    cases child <;> exact h.1
  cases hname : child.propertyName with
  | none =>
    rw [hname] at hfits
    exact hfits.elim
  | some name =>
    rw [hname] at hfits
    exact ⟨name, rfl, hfits⟩

mutual

theorem calm_jsonChildPrint {type : JsonContainerType} :
    ∀ (child : JsonElement) (level : Nat) (t : CString),
    Printable type child → Calm t → Calm (jsonChildPrint child level ++ t)
  | .primitive name primitiveType value, level, t, h, ht => by
    have hvalue : '\n' ∉ value := h.2.not_mem_newline
    have hprint : '\n' ∉ jsonPrimitivePrint primitiveType value 0 := by
      cases primitiveType <;> simpa [jsonPrimitivePrint, printIndent] using hvalue
    exact Calm.append hprint ht
  | .container name .array children, level, t, h, ht => by
    rw [jsonChildPrint, jsonArrayPrint]
    split
    · exact Calm.append (by decide) ht
    · have hclose : Calm (printIndent level ++ ']' :: t) := calm_closing (.inl rfl) ht
      have hloop := calm_arrayLoop children level _ h.2 (lineStarts_closing (.inl rfl)) hclose
      simp only [List.append_assoc, List.cons_append, List.nil_append]
      exact ⟨fun hc => absurd hc (by decide), fun _ =>
        lineStarts_arrayLoop (lineStarts_closing (.inl rfl)), hloop⟩
  | .container name .object children, level, t, h, ht => by
    rw [jsonChildPrint, jsonObjectPrint]
    have hclose : Calm (printIndent level ++ '}' :: t) := calm_closing (.inr rfl) ht
    have hloop := calm_objectLoop children level _ h.2 (lineStarts_closing (.inr rfl)) hclose
    simp only [List.append_assoc, List.cons_append, List.nil_append]
    exact ⟨fun hc => absurd hc (by decide), fun _ =>
      lineStarts_objectLoop (lineStarts_closing (.inr rfl)), hloop⟩

theorem calm_arrayLoop : ∀ (children : List JsonElement) (level : Nat) (t : CString),
    AllPrintable .array children → LineStarts t → Calm t →
      Calm (jsonArrayPrint.loop children level ++ t)
  | [], _, _, _, _, ht => ht
  | child :: rest, level, t, h, hstart, ht => by
    rw [jsonArrayPrint.loop, List.append_assoc, List.append_assoc, List.append_assoc]
    exact Calm.append (newline_not_mem_printIndent _) (calm_jsonChildPrint child _ _ h.1
      (calm_printSeparator (lineStarts_arrayLoop hstart)
        (calm_arrayLoop rest level t h.2 hstart ht)))

theorem calm_objectLoop : ∀ (children : List JsonElement) (level : Nat) (t : CString),
    AllPrintable .object children → LineStarts t → Calm t →
      Calm (jsonObjectPrint.loop children level ++ t)
  | [], _, _, _, _, ht => ht
  | child :: rest, level, t, h, hstart, ht => by
    rw [jsonObjectPrint.loop, List.append_assoc, List.append_assoc, List.append_assoc]
    refine Calm.append ?_ (calm_jsonChildPrint child _ _ h.1
      (calm_printSeparator (lineStarts_objectLoop hstart)
        (calm_objectLoop rest level t h.2 hstart ht)))
    obtain ⟨name, hname, hplain⟩ := h.1.exists_name
    have hnewline := hplain.not_mem_newline
    have hindent := newline_not_mem_printIndent (level + 1)
    simp [printPropertyName, hname, hnewline, hindent]

end

/-! ## The round trip -/

/-- The value of a member. -/
def JsonElement.unnamed : JsonElement → JsonElement
  | .container _ type children => .container none type children
  | .primitive _ type value => .primitive none type value

theorem Printable.unnamed_eq (h : Printable .array child) : child.unnamed = child := by
  cases child with
  | primitive name | container name =>
    cases name with
    | none => rfl
    | some name => exact h.1.elim

theorem setPropertyName_unnamed {name : CString} (h : child.propertyName = some name) :
    child.unnamed.setPropertyName name = child := by
  cases child <;> (cases h; rfl)

theorem valueRead_primitive (hpcre : MatchesLines pcre) {type : JsonPrimitiveType}
    (hv : IsPrimitiveText type v) (ht : IsRest t) (hcalm : Calm t) :
    ValueRead pcre (jsonPrimitivePrint type v 0 ++ t) (.primitive none type v) t := by
  have hliteral : Calm (v ++ t) := Calm.append hv.not_mem_newline hcalm
  have hread : (∃ c s d, v = c :: s ∧ BeginsPrimitive c ∧
      jsonParsePrimitive pcre c (v ++ t) = .ok (some (.primitive none type v, d :: t))) →
      ValueRead pcre (v ++ t) (.primitive none type v) t := by
    rintro ⟨c, s, d, hcons, hc, hparse⟩
    rw [hcons] at hparse ⊢
    exact .primitive hc (by simp) hparse
  cases type with
  | string =>
    have htext : jsonPrimitivePrint .string v 0 ++ t = '"' :: (v ++ '"' :: t) := by
      simp [jsonPrimitivePrint, printIndent]
    rw [htext]
    exact .string hv
  | integer | real =>
    have hnumber := @jsonParsePrimitive_number pcre _ _ hv.1 ht
    rw [hv.2] at hnumber
    exact hread hnumber
  | bool =>
    rcases hv with rfl | rfl
    · exact hread (jsonParsePrimitive_literal hpcre ht (.inl ⟨rfl, rfl⟩) hliteral)
    · exact hread (jsonParsePrimitive_literal hpcre ht (.inr (.inl ⟨rfl, rfl⟩)) hliteral)
  | null =>
    cases hv
    exact hread (jsonParsePrimitive_literal hpcre ht (.inr (.inr ⟨rfl, rfl⟩)) hliteral)

mutual

theorem valueRead_jsonChildPrint (hpcre : MatchesLines pcre) {type : JsonContainerType} :
    ∀ (child : JsonElement) (level : Nat) (t : CString), Printable type child → IsRest t → Calm t →
      ValueRead pcre (jsonChildPrint child level ++ t) child.unnamed t
  | .primitive name primitiveType value, level, t, h, hrest, ht =>
    valueRead_primitive hpcre h.2 hrest ht
  | .container name .array children, level, t, h, hrest, ht => by
    rw [jsonChildPrint, jsonArrayPrint]
    split
    · rename_i hnil
      cases List.isEmpty_iff.mp hnil
      exact .array (by simp) (arrayCloses_of .refl)
    · have hloop := arraySteps_arrayLoop hpcre children level (printIndent level ++ ']' :: t) [] h.2
        (calm_closing (.inl rfl) ht) (lineStarts_closing (.inl rfl))
      have hsteps := hloop.trans (leadsTo_printIndent (fun _ => arraySteps_whitespace rfl) level)
      simp only [List.append_assoc, List.cons_append, List.nil_append]
      refine .array (by simp; omega) (arrayCloses_of ?_)
      exact (arraySteps_whitespace rfl).trans hsteps
  | .container name .object children, level, t, h, hrest, ht => by
    rw [jsonChildPrint, jsonObjectPrint]
    have hloop := objectSteps_objectLoop hpcre children level (printIndent level ++ '}' :: t) [] h.2
      (calm_closing (.inr rfl) ht) (lineStarts_closing (.inr rfl))
    have hsteps := hloop.trans (leadsTo_printIndent (fun _ => objectSteps_whitespace rfl) level)
    simp only [List.append_assoc, List.cons_append, List.nil_append]
    refine .object (by simp; omega) (objectCloses_of ?_)
    exact (objectSteps_whitespace rfl).trans hsteps

theorem arraySteps_arrayLoop (hpcre : MatchesLines pcre) :
    ∀ (children : List JsonElement) (level : Nat) (t : CString) (acc : List JsonElement),
      AllPrintable .array children → Calm t → LineStarts t →
      ArraySteps pcre (.container none .array acc) (jsonArrayPrint.loop children level ++ t)
        (.container none .array (acc ++ children)) t
  | [], level, t, acc, _, _, _ => by
    rw [List.append_nil]
    exact .refl
  | child :: rest, level, t, acc, h, ht, hstart => by
    have hcalm : Calm (printSeparator rest ++ (jsonArrayPrint.loop rest level ++ t)) :=
      calm_printSeparator (lineStarts_arrayLoop hstart) (calm_arrayLoop rest level t h.2 hstart ht)
    have hvalue :=
      valueRead_jsonChildPrint hpcre child (level + 1) _ h.1 isRest_printSeparator hcalm
    have hrest := arraySteps_arrayLoop hpcre rest level t (acc ++ [child]) h.2 ht hstart
    rw [h.1.unnamed_eq] at hvalue
    rw [List.append_assoc] at hrest
    rw [jsonArrayPrint.loop, List.append_assoc, List.append_assoc, List.append_assoc]
    exact (leadsTo_printIndent (fun _ => arraySteps_whitespace rfl) _).trans
      (hvalue.arraySteps.trans
      ((leadsTo_printSeparator (fun _ => arraySteps_comma) fun _ => arraySteps_whitespace rfl).trans
        hrest))

theorem objectSteps_objectLoop (hpcre : MatchesLines pcre) :
    ∀ (children : List JsonElement) (level : Nat) (t : CString) (acc : List JsonElement),
      AllPrintable .object children → Calm t → LineStarts t →
      ObjectSteps pcre (.container none .object acc, none)
        (jsonObjectPrint.loop children level ++ t)
        (.container none .object (acc ++ children), none) t
  | [], level, t, acc, _, _, _ => by
    rw [List.append_nil]
    exact .refl
  | child :: rest, level, t, acc, h, ht, hstart => by
    obtain ⟨name, hname, hplain⟩ := h.1.exists_name
    have hcalm : Calm (printSeparator rest ++ (jsonObjectPrint.loop rest level ++ t)) :=
      calm_printSeparator (lineStarts_objectLoop hstart)
        (calm_objectLoop rest level t h.2 hstart ht)
    have hvalue :=
      valueRead_jsonChildPrint hpcre child (level + 1) _ h.1 isRest_printSeparator hcalm
    have hmember := hvalue.objectSteps acc name
    have hrest := objectSteps_objectLoop hpcre rest level t (acc ++ [child]) h.2 ht hstart
    rw [setPropertyName_unnamed hname] at hmember
    rw [List.append_assoc] at hrest
    rw [jsonObjectPrint.loop, hname, List.append_assoc, List.append_assoc, List.append_assoc]
    exact (objectSteps_printPropertyName hplain).trans (hmember.trans
      ((leadsTo_printSeparator (fun _ => objectSteps_comma) fun _ =>
        objectSteps_whitespace rfl).trans hrest))

end

/-! ## Integers -/

theorem toDigits_of_pos {n : Nat} (h : 0 < n) :
    ∃ d ds, isJsonDigit d ∧ (∀ c ∈ ds, isNumeralDigit c) ∧ Nat.toDigits 10 n = d :: ds := by
  induction n using Nat.strong_induction_on with
  | _ n ih =>
    by_cases hlt : n < 10
    · refine ⟨n.digitChar, [], ?_, nofun, Nat.toDigits_of_lt_base hlt⟩
      interval_cases n <;> rfl
    · obtain ⟨d, ds, hd, hds, heq⟩ := ih (n / 10) (by omega) (by omega)
      have hlast : isNumeralDigit (n % 10).digitChar := by
        have := Nat.mod_lt n (by decide : 10 > 0)
        interval_cases n % 10 <;> rfl
      rw [Nat.toDigits_of_base_le (by decide) (Nat.le_of_not_lt hlt), heq]
      refine ⟨d, ds ++ [(n % 10).digitChar], hd, fun c hc => ?_, rfl⟩
      obtain hc | hc := List.mem_append.mp hc
      · exact hds c hc
      · exact List.mem_singleton.mp hc ▸ hlast

theorem isIntegerPart_toDigits (n : Nat) : IsIntegerPart (Nat.toDigits 10 n) := by
  cases n with
  | zero => exact .inl rfl
  | succ n => exact .inr (toDigits_of_pos (Nat.succ_pos n))

theorem isPrimitiveText_integer {sign int : CString} (hsign : IsSign sign)
    (hint : IsIntegerPart int) :
    IsPrimitiveText .integer (sign ++ int) := by
  have hdigits := hint.digits
  have hdot : '.' ∉ sign ++ int := by
    rw [List.mem_append, not_or]
    exact ⟨by rcases hsign with rfl | rfl <;> decide, dot_not_mem_digits hdigits.2⟩
  refine ⟨⟨sign, int, [], [], hsign, hdigits, fun _ => hint, .nil, .inl rfl, by simp⟩, ?_⟩
  rw [numberPrimitive, List.contains_eq_mem, decide_eq_false hdot]
  rfl

/-- What `JsonIntegerCreate` stores can be read back. -/
theorem isPrimitiveText_decimal (n : Int) : IsPrimitiveText .integer (Numerals.decimal n) := by
  cases n with
  | ofNat n => exact isPrimitiveText_integer (.inl rfl) (isIntegerPart_toDigits n)
  | negSucc n => exact isPrimitiveText_integer (.inr rfl) (isIntegerPart_toDigits (n + 1))

/-- The buffer of `JsonIntegerCreate` does not cut an integer off. -/
theorem printable_jsonIntegerCreate (value : Int32) :
    Printable .array (jsonIntegerCreate value) := by
  have hlen : (Numerals.decimal value.toInt).length ≤ 31 := by
    have hlower := value.le_toInt
    have hupper := value.toInt_lt
    exact (Numerals.length_decimal_le (k := 10) (by omega) (by omega)).trans (by decide)
  rw [jsonIntegerCreate, List.take_of_length_le hlen]
  exact ⟨trivial, isPrimitiveText_decimal _⟩

/-! ## The whole text -/

/-- The bracket that ends a container. -/
def closingBracket : JsonContainerType → Char
  | .array => ']'
  | .object => '}'

theorem ValueRead.jsonParse {type : JsonContainerType}
    (h : ValueRead pcre s (.container none type children) []) :
    jsonParse pcre s = .ok (some (.container none type children, [closingBracket type])) := by
  cases h with
  | array _ hcloses => exact hcloses _ (Nat.le_succ _)
  | object _ hcloses => exact hcloses _ (Nat.le_succ _)

/-- `JsonParse` reads what `JsonElementPrint` prints, and stops at the closing bracket. -/
theorem jsonParse_print (hpcre : MatchesLines pcre) {type : JsonContainerType}
    (h : AllPrintable type children) :
    jsonParse pcre (jsonElementPrint (.container none type children) 0) =
      .ok (some (.container none type children, [closingBracket type])) := by
  have hprintable : Printable .array (.container none type children) := ⟨trivial, h⟩
  have hread :=
    valueRead_jsonChildPrint hpcre (.container none type children) 0 [] hprintable nofun trivial
  rw [List.append_nil] at hread
  exact hread.jsonParse

/-- An object with an array of a string, a negative number, `false` and an empty object. -/
theorem jsonParse_print_nested :
    let pcre : CString → CString → Bool := fun pattern text =>
      decide (pattern.tail <+: text ∨ '\n' :: pattern.tail <:+: text)
    let children : List JsonElement :=
      [.container (some ['k']) .array [.primitive none .string ['a', ':', 'b'],
      .primitive none .integer ['-', '1', '2'], .primitive none .bool jsonFalse,
      .container none .object []]]
    jsonParse pcre (jsonElementPrint (.container none .object children) 0) =
      .ok (some (.container none .object children, ['}'])) := by
  intro pcre children
  have hpcre : MatchesLines pcre := fun literal _ text => decide_eq_true_iff
  have hstring : PlainText ['a', ':', 'b'] := by simp [PlainText, isJsonUnescaped]
  have hname : PlainText ['k'] := by simp [PlainText, isJsonUnescaped]
  have hnumber : IsPrimitiveText .integer (['-'] ++ ['1', '2']) :=
    isPrimitiveText_integer (.inr rfl)
      (.inr ⟨'1', ['2'], rfl, List.forall_mem_singleton.mpr rfl, rfl⟩)
  have h : AllPrintable .object children :=
    ⟨⟨hname, ⟨trivial, hstring⟩, ⟨trivial, hnumber⟩, ⟨trivial, .inr rfl⟩, ⟨trivial, trivial⟩,
      trivial⟩, trivial⟩
  exact jsonParse_print hpcre h

/-- No two printable elements are printed alike. -/
theorem jsonElementPrint_injective {type type' : JsonContainerType} {children' : List JsonElement}
    (h : AllPrintable type children) (h' : AllPrintable type' children')
    (heq : jsonElementPrint (.container none type children) 0 =
      jsonElementPrint (.container none type' children') 0) :
    type = type' ∧ children = children' := by
  classical
  let pcre : CString → CString → Bool := fun pattern text =>
    decide (pattern.tail <+: text ∨ '\n' :: pattern.tail <:+: text)
  have hpcre : MatchesLines pcre := fun literal _ text => decide_eq_true_iff
  have hparse := jsonParse_print hpcre h
  rw [heq, jsonParse_print hpcre h'] at hparse
  injection hparse with hparse
  injection hparse with hparse
  injection hparse with helement
  injection helement with _ htype hchildren
  exact ⟨htype.symm, hchildren.symm⟩

end Cfengine
