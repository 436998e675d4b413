import Cfengine.JsonPrimitives
import Cfengine.Verify.AddrLib
import Cfengine.Verify.JsonGrammar

/-!
# Reading the numbers of a parsed text

Every number in what `JsonParse` returns is a loose number, whose type is told by a dot
(`jsonParse_numbers`). `JsonPrimitiveGetAsInteger` and `JsonPrimitiveGetAsReal` read all of it
exactly if it has no late dot, and no exponent without a dot (`jsonParse_readable_iff`).
-/

namespace Cfengine

variable {w ds sign int frac exp rest s str : CString} {c d letter : Char} {base : Nat}

/-- The letter of an exponent is there. -/
def HasExponent (w : CString) : Prop := ∃ c ∈ w, isExponentLetter c

/-! ## The readers on loose numbers -/

theorem isNumeralDigit_iff : isNumeralDigit c ↔ '0' ≤ c ∧ c ≤ '9' := by
  rw [isNumeralDigit, isJsonDigit, Bool.or_eq_true, Bool.and_eq_true, decide_eq_true_eq,
    decide_eq_true_eq, decide_eq_true_eq]
  constructor
  · rintro (rfl | ⟨hone, hnine⟩)
    · decide
    · exact ⟨Char.le_trans (by decide) hone, hnine⟩
  · rintro ⟨hzero, hnine⟩
    refine (Nat.eq_or_lt_of_le (show '0'.toNat ≤ c.toNat from hzero)).imp (fun h => ?_) fun h =>
      ⟨h, hnine⟩
    exact (Char.toNat_inj.mp h).symm

theorem isDigit_iff : Numerals.isDigit 10 c ↔ isNumeralDigit c := by
  rw [isNumeralDigit_iff, Numerals.isDigit, Numerals.digit?]
  split_ifs with hdigit hlower hupper
  · have hnine : c.toNat ≤ 57 := hdigit.2
    refine iff_of_true ?_ hdigit
    change decide (c.toNat - 48 < 10) = true
    rw [decide_eq_true_eq]
    omega
  · refine iff_of_false ?_ hdigit
    change ¬ decide (c.toNat - 97 + 10 < 10) = true
    rw [decide_eq_true_eq]
    omega
  · refine iff_of_false ?_ hdigit
    change ¬ decide (c.toNat - 65 + 10 < 10) = true
    rw [decide_eq_true_eq]
    omega
  · exact iff_of_false Bool.false_ne_true hdigit

/-- The digits of a number as a numeral. -/
def Digits.numeral (h : Digits ds) : Numerals.Numeral 10 :=
  ⟨ds, h.1, fun d hd => isDigit_iff.mpr (h.2 d hd)⟩

/-- What follows a number's digits. -/
theorem takeWhile_digits (hds : Digits ds) (hrest : ∀ c ∈ rest.head?, ¬ isNumeralDigit c) :
    (ds ++ rest).takeWhile (Numerals.isDigit 10) = ds :=
  hds.numeral.takeWhile_append fun c hc =>
    eq_false_of_ne_true fun hd => hrest c hc (isDigit_iff.mp hd)

/-- The sign of a number is read. -/
theorem scanSign_number (hsign : IsSign sign) (hds : Digits ds) :
    (scanSign ((sign ++ (ds ++ rest)).dropWhile isspace)).2 = ds ++ rest := by
  obtain rfl | rfl := hsign
  · obtain ⟨d, ds, rfl⟩ := List.exists_cons_of_ne_nil hds.1
    have hd := isDigit_iff.mpr (hds.2 d List.mem_cons_self)
    have hspace : ¬ isspace d = true := by rw [isspace_of_isDigit hd]; exact Bool.false_ne_true
    rw [List.nil_append, List.cons_append, List.dropWhile_cons_of_neg hspace,
      scanSign_of_isDigit (by decide) hd]
  · rfl

theorem strtol_number (hsign : IsSign sign) (hds : Digits ds)
    (hrest : ∀ c ∈ rest.head?, ¬ isNumeralDigit c) : (strtol (sign ++ (ds ++ rest))).2 = rest := by
  rw [strtol, scanLong, scanInteger]
  dsimp only
  rw [scanSign_number hsign hds, skipHexPrefix_ten, takeWhile_digits hds hrest, if_neg hds.1,
    List.drop_left]
  rfl

/-! ## `strtod` on loose numbers -/

theorem toLower_digit (hd : isNumeralDigit d) : d.toLower = d := by
  have hle : ¬ 'A' ≤ d := fun h => absurd (Char.le_trans h (isNumeralDigit_iff.mp hd).2) (by decide)
  rw [Char.toLower]
  exact dif_neg fun h => hle h.1

theorem skipWord_digits {first : Char} {word : CString} (hds : Digits ds)
    (hfirst : isNumeralDigit first = false) : skipWord (first :: word) (ds ++ rest) = none := by
  obtain ⟨d, ds, rfl⟩ := List.exists_cons_of_ne_nil hds.1
  have hd := hds.2 d List.mem_cons_self
  refine if_neg fun h => ?_
  rw [List.length_cons, List.cons_append, List.take_succ_cons, List.map_cons, toLower_digit hd] at h
  rw [← (List.cons_eq_cons.mp h).1, hd] at hfirst
  cases hfirst

theorem scanNonFinite_digits (hds : Digits ds) : scanNonFinite (ds ++ rest) = none := by
  have hskip : ∀ word first (rest' : CString), word = first :: rest' →
    isNumeralDigit first = false →
      skipWord word (ds ++ rest) = none := by
    rintro _ first rest' rfl hfirst
    exact skipWord_digits hds hfirst
  rw [scanNonFinite, hskip "infinity".toList 'i' _ rfl rfl, hskip "inf".toList 'i' _ rfl rfl,
    hskip "nan".toList 'n' _ rfl rfl]
  rfl

/-- A loose number has no `x`. -/
theorem scanHexadecimal_digits (hds : Digits ds)
    (hrest : ∀ c ∈ rest.head?, c = '.' ∨ isExponentLetter c) :
    scanHexadecimal (ds ++ rest) = none := by
  obtain ⟨d, ds, rfl⟩ := List.exists_cons_of_ne_nil hds.1
  obtain ⟨hd, hds⟩ := List.forall_mem_cons.mp hds.2
  have hnot : ∀ x ∈ (ds ++ rest).head?, ¬ (x = 'x' ∨ x = 'X') := by
    intro x hx hhex
    have hx : isNumeralDigit x ∨ x = '.' ∨ isExponentLetter x := by
      cases ds with
      | nil => exact .inr (hrest x hx)
      | cons d ds =>
        cases hx
        exact .inl (hds _ List.mem_cons_self)
    rcases hhex with rfl | rfl <;> exact absurd hx (by decide)
  rw [List.cons_append, scanHexadecimal.eq_def]
  split
  · next x rest' heq =>
    obtain ⟨-, htail⟩ := List.cons_eq_cons.mp heq
    rw [htail] at hnot
    exact if_neg (hnot x rfl)
  · rfl

theorem scanMantissa_digits (hds : Digits ds) (hrest : ∀ c ∈ rest.head?, ¬ isNumeralDigit c)
    (hdot : rest.head? ≠ some '.') : scanMantissa 10 (ds ++ rest) = some rest := by
  rw [scanMantissa, takeWhile_digits hds hrest]
  dsimp only
  rw [List.drop_left]
  split
  · exact absurd rfl hdot
  · exact if_neg hds.1

theorem scanMantissa_fraction {int : CString} (hint : Digits int) (hds : Digits ds)
    (hrest : ∀ c ∈ rest.head?, ¬ isNumeralDigit c) :
    scanMantissa 10 (int ++ '.' :: (ds ++ rest)) = some rest := by
  have hdot : ∀ c ∈ ('.' :: (ds ++ rest)).head?, ¬ isNumeralDigit c := by
    rintro c ⟨⟩
    exact Bool.false_ne_true
  rw [scanMantissa, takeWhile_digits hint hdot]
  dsimp only
  rw [List.drop_left]
  change (if int = [] ∧ (ds ++ rest).takeWhile (Numerals.isDigit 10) = [] then none
    else some ((ds ++ rest).drop ((ds ++ rest).takeWhile (Numerals.isDigit 10)).length)) = some rest
  rw [takeWhile_digits hds hrest, List.drop_left, if_neg fun h => hint.1 h.1]

theorem skipExponent_letter (hletter : isExponentLetter letter) (hsign : IsExponentSign sign)
    (hds : Digits ds) (hrest : ∀ c ∈ rest.head?, ¬ isNumeralDigit c) :
    skipExponent 'e' 'E' (letter :: (sign ++ (ds ++ rest))) = rest := by
  have hscan : (scanSign (sign ++ (ds ++ rest))).2 = ds ++ rest := by
    obtain rfl | rfl | rfl := hsign
    · obtain ⟨d, ds, rfl⟩ := List.exists_cons_of_ne_nil hds.1
      rw [List.nil_append, List.cons_append,
        scanSign_of_isDigit (by decide) (isDigit_iff.mpr (hds.2 d List.mem_cons_self))]
    · rfl
    · rfl
  rw [skipExponent]
  dsimp only
  rw [hscan, takeWhile_digits hds hrest, List.drop_left, if_pos ⟨eq_e_or_eq_E hletter, hds.1⟩]

theorem skipExponent_dot : skipExponent 'e' 'E' ('.' :: rest) = '.' :: rest := by
  rw [skipExponent]
  exact if_neg fun h => absurd h.1 (by decide)

/-- What may follow the digits of a loose number. -/
theorem head_fractions (hfrac : IsFractions frac) (hexp : IsLooseExponent exp) :
    ∀ c ∈ (frac ++ exp).head?, c = '.' ∨ isExponentLetter c := by
  intro c hc
  cases hfrac with
  | nil =>
    obtain rfl | ⟨letter, sign, ds, frac, hletter, hsign, hds, hfrac, rfl⟩ := hexp
    · cases hc
    · cases hc
      exact .inr hletter
  | cons =>
    cases hc
    exact .inl rfl

theorem not_isNumeralDigit_of_head (h : c = '.' ∨ isExponentLetter c) : ¬ isNumeralDigit c := by
  rcases h with rfl | h
  · exact Bool.false_ne_true
  · exact not_isNumeralDigit h

/-- Of what follows the first fraction, an exponent without fractions is read to its end. -/
theorem skipExponent_eq_nil_iff (hfrac : IsFractions frac) (hexp : IsLooseExponent exp) :
    skipExponent 'e' 'E' (frac ++ exp) = [] ↔ frac = [] ∧ IsExponent exp := by
  cases hfrac with
  | cons =>
    rw [List.cons_append, skipExponent_dot]
    exact iff_of_false (List.cons_ne_nil _ _) fun h => absurd h.1 (List.cons_ne_nil _ _)
  | nil =>
    rw [List.nil_append, and_iff_right rfl, hexp.isExponent_iff]
    obtain rfl | ⟨letter, sign, ds, frac, hletter, hsign, hds, hfrac, rfl⟩ := hexp
    · exact iff_of_true rfl List.not_mem_nil
    · have hrest : ∀ c ∈ frac.head?, ¬ isNumeralDigit c := fun c hc =>
        not_isNumeralDigit_of_head (head_fractions hfrac (.inl rfl) c (by rwa [List.append_nil]))
      rw [List.append_assoc, skipExponent_letter hletter hsign hds hrest]
      constructor
      · rintro rfl
        exact IsExponent.dot_not_mem
          (.inr ⟨letter, sign, ds, hletter, hsign, hds, by rw [List.append_nil]⟩)
      · exact fun hdot => hfrac.eq_nil fun h => hdot (by simp [h])

/-- `strtod` reads a loose number to its end exactly if it has no late dot. -/
theorem strtodEnd_eq_nil_iff (h : IsLooseNumber w) : strtodEnd w = [] ↔ ¬ HasLateDot w := by
  obtain ⟨sign, int, frac, exp, hsign, hint, -, hfrac, hexp, rfl⟩ := h
  have hhead := head_fractions hfrac hexp
  have hdigit : ∀ c ∈ (frac ++ exp).head?, ¬ isNumeralDigit c := fun c hc =>
    not_isNumeralDigit_of_head (hhead c hc)
  rw [hasLateDot_iff hsign hint hfrac hexp, not_not, List.append_assoc, List.append_assoc,
    strtodEnd]
  dsimp only
  rw [scanSign_number hsign hint, scanNonFinite_digits hint, scanHexadecimal_digits hint hhead]
  cases hfrac with
  | nil =>
    rw [List.nil_append] at hdigit
    have hdot : exp.head? ≠ some '.' := by
      obtain rfl | ⟨letter, _, _, _, hletter, _, _, _, rfl⟩ := hexp
      · exact (Option.some_ne_none _).symm
      · rintro ⟨⟩
        cases hletter
    rw [List.nil_append, scanMantissa_digits hint hdigit hdot]
    have hskip := skipExponent_eq_nil_iff .nil hexp
    rw [List.nil_append, and_iff_right rfl] at hskip
    exact hskip.trans (and_iff_right (.inl rfl)).symm
  | @cons ds frac hds hfrac =>
    have hrest : ∀ c ∈ (frac ++ exp).head?, ¬ isNumeralDigit c := fun c hc =>
      not_isNumeralDigit_of_head (head_fractions hfrac hexp c hc)
    rw [List.cons_append, List.append_assoc, scanMantissa_fraction hint hds hrest,
      isFraction_cons_iff hds hfrac]
    refine (skipExponent_eq_nil_iff hfrac hexp).trans (and_congr_left' ?_)
    refine ⟨?_, hfrac.eq_nil⟩
    rintro rfl
    exact List.not_mem_nil

/-! ## The getters -/

/-- The number is read, and no assertion fails. -/
def Readable (name : Option CString) (type : JsonPrimitiveType) (value : CString) : Prop :=
  (type = .integer → ∃ n, jsonPrimitiveGetAsInteger (.primitive name type value) = .ok n) ∧
    (type = .real → ∃ x, jsonPrimitiveGetAsReal (.primitive name type value) = .ok x)

/-- The type that `JsonParseAsNumber` gives to a text. -/
def numberType (value : CString) : JsonPrimitiveType :=
  if value.contains '.' then .real else .integer

theorem getAsInteger_ok_iff {name : Option CString} :
    (∃ n, jsonPrimitiveGetAsInteger (.primitive name .integer w) = .ok n) ↔ (strtol w).2 = [] := by
  have hget : jsonPrimitiveGetAsInteger (.primitive name .integer w) =
      if (strtol w).2.isEmpty then .ok (strtol w).1 else .error .assertion := by
    change stringToLong w = _
    rw [stringToLong]
    dsimp only [jsonAssert]
    cases (strtol w).2.isEmpty <;> rfl
  rw [hget, ← List.isEmpty_iff]
  cases (strtol w).2.isEmpty <;> simp

theorem getAsReal_ok_iff {name : Option CString} :
    (∃ x, jsonPrimitiveGetAsReal (.primitive name .real w) = .ok x) ↔ strtodEnd w = [] := by
  have hget : jsonPrimitiveGetAsReal (.primitive name .real w) =
      if (strtodEnd w).isEmpty then .ok (w.take (w.length - (strtodEnd w).length))
      else .error .assertion := by
    change stringToDouble w = _
    rw [stringToDouble]
    dsimp only [jsonAssert]
    cases (strtodEnd w).isEmpty <;> rfl
  rw [hget, ← List.isEmpty_iff]
  cases (strtodEnd w).isEmpty <;> simp

/-- An exponent is found by its letter. -/
theorem hasExponent_iff (hsign : IsSign sign) (hint : Digits int) (hexp : IsLooseExponent exp) :
    HasExponent (sign ++ (int ++ exp)) ↔ exp ≠ [] := by
  constructor
  · rintro ⟨c, hc, hletter⟩ rfl
    rw [List.append_nil] at hc
    rcases List.mem_append.mp hc with hc | hc
    · obtain rfl | rfl := hsign
      · cases hc
      · rw [List.mem_singleton.mp hc] at hletter
        cases hletter
    · exact not_isNumeralDigit hletter (hint.2 c hc)
  · intro hne
    obtain rfl | ⟨letter, _, _, _, hletter, _, _, _, rfl⟩ := hexp
    · exact absurd rfl hne
    · exact ⟨letter, by simp, hletter⟩

theorem getAsInteger_iff {name : Option CString} (h : IsLooseNumber w) (hdot : '.' ∉ w) :
    (∃ n, jsonPrimitiveGetAsInteger (.primitive name .integer w) = .ok n) ↔ ¬ HasExponent w := by
  obtain ⟨sign, int, frac, exp, hsign, hint, -, hfrac, hexp, rfl⟩ := h
  obtain rfl : frac = [] := hfrac.eq_nil fun h => hdot (by simp [h])
  have hrest : ∀ c ∈ exp.head?, ¬ isNumeralDigit c := fun c hc =>
    not_isNumeralDigit_of_head (head_fractions .nil hexp c hc)
  rw [getAsInteger_ok_iff, List.append_nil, List.append_assoc, strtol_number hsign hint hrest,
    hasExponent_iff hsign hint hexp, not_not]

/-- Without a dot there is none that is late. -/
theorem HasLateDot.mem (h : HasLateDot w) : '.' ∈ w :=
  (List.dropWhile_suffix _).mem (List.mem_of_mem_tail h)

/-- A number is read to its end exactly if it has no late dot, and no exponent without a dot. -/
theorem readable_iff {name : Option CString} (h : IsLooseNumber w) :
    Readable name (numberType w) w ↔ ¬ HasLateDot w ∧ (HasExponent w → '.' ∈ w) := by
  rw [Readable, numberType]
  by_cases hdot : '.' ∈ w
  · rw [if_pos (List.contains_iff_mem.mpr hdot), getAsReal_ok_iff, strtodEnd_eq_nil_iff h]
    simp [hdot]
  · rw [if_neg (mt List.contains_iff_mem.mp hdot), getAsInteger_iff h hdot]
    have hlate : ¬ HasLateDot w := mt HasLateDot.mem hdot
    simp [hdot, hlate]

/-! ## What the parser makes -/

/-- The element itself, or one in it. -/
inductive Within (e : JsonElement) : JsonElement → Prop where
  | refl : Within e e
  | child {name type children c} : c ∈ children → Within e c →
      Within e (.container name type children)

/-- Every number in an element is a loose one, and its type is told by a dot. -/
def Numbers (element : JsonElement) : Prop :=
  ∀ name type value, Within (.primitive name type value) element → type = .integer ∨ type = .real →
    IsLooseNumber value ∧ type = numberType value

theorem numbers_primitive {name : Option CString} {type : JsonPrimitiveType} {value : CString} :
    Numbers (.primitive name type value) ↔
      (type = .integer ∨ type = .real → IsLooseNumber value ∧ type = numberType value) := by
  constructor
  · exact fun h => h name type value .refl
  · intro h name type value hwithin
    cases hwithin
    exact h

theorem numbers_container {name : Option CString} {type : JsonContainerType}
    {children : List JsonElement} :
    Numbers (.container name type children) ↔ ∀ c ∈ children, Numbers c := by
  constructor
  · exact fun h c hc name type value hwithin => h name type value (.child hc hwithin)
  · intro h name type value hwithin
    cases hwithin with
    | child hc hwithin => exact h _ hc name type value hwithin

theorem Numbers.sequenceAppend {element child : JsonElement} (h : Numbers element)
    (hchild : Numbers child) : Numbers (element.sequenceAppend child) := by
  cases element with
  | primitive => exact h
  | container =>
    rw [JsonElement.sequenceAppend, numbers_container, List.forall_mem_append]
    exact ⟨numbers_container.mp h, List.forall_mem_singleton.mpr hchild⟩

theorem Numbers.setPropertyName {element : JsonElement} {name : CString} (h : Numbers element) :
    Numbers (element.setPropertyName name) := by
  cases element with
  | primitive => exact numbers_primitive.mpr (numbers_primitive.mp h)
  | container => exact numbers_container.mpr (numbers_container.mp h)

section
variable {pcre : CString → CString → Bool} {element child array object : JsonElement}
  {key : CString}
  {type : JsonContainerType} {data cursor : CString} {fuel : Nat}

theorem bind_eq_ok {ε α β : Type} {x : Except ε α} {f : α → Except ε β} {b : β} :
    (x >>= f) = .ok b ↔ ∃ a, x = .ok a ∧ f a = .ok b := by
  cases x with
  | error => exact iff_of_false (fun h => by cases h) fun ⟨_, h, _⟩ => by cases h
  | ok a => exact ⟨fun h => ⟨a, rfl, h⟩, fun ⟨_, h, hf⟩ => by cases h; exact hf⟩

theorem numbers_jsonArrayAppendPrimitive (h : jsonArrayAppendPrimitive array child = .ok element)
    (harray : Numbers array) (hchild : Numbers child) : Numbers element := by
  rw [jsonArrayAppendPrimitive] at h
  obtain ⟨_, _, h⟩ := bind_eq_ok.mp h
  obtain ⟨_, _, h⟩ := bind_eq_ok.mp h
  cases h
  exact harray.sequenceAppend hchild

theorem numbers_jsonArrayAppendContainer
    (h : jsonArrayAppendContainer type array child = .ok element) (harray : Numbers array)
    (hchild : Numbers child) : Numbers element := by
  rw [jsonArrayAppendContainer] at h
  obtain ⟨_, _, h⟩ := bind_eq_ok.mp h
  obtain ⟨_, _, h⟩ := bind_eq_ok.mp h
  cases h
  exact harray.sequenceAppend hchild

theorem numbers_jsonArrayAppendString {value : Option CString}
    (h : jsonArrayAppendString array value = .ok element) (harray : Numbers array) :
    Numbers element := by
  rw [jsonArrayAppendString] at h
  obtain ⟨_, _, h⟩ := bind_eq_ok.mp h
  obtain ⟨child, hchild, h⟩ := bind_eq_ok.mp h
  cases value with
  | none => cases hchild
  | some value =>
    cases hchild
    exact numbers_jsonArrayAppendPrimitive h harray (numbers_primitive.mpr fun h => by simp at h)

theorem numbers_jsonObjectAppendPrimitive
    (h : jsonObjectAppendPrimitive object key child = .ok element) (hobject : Numbers object)
    (hchild : Numbers child) : Numbers element := by
  rw [jsonObjectAppendPrimitive] at h
  obtain ⟨_, _, h⟩ := bind_eq_ok.mp h
  obtain ⟨_, _, h⟩ := bind_eq_ok.mp h
  cases h
  exact hobject.sequenceAppend hchild.setPropertyName

theorem numbers_jsonObjectAppendContainer
    (h : jsonObjectAppendContainer type object key child = .ok element) (hobject : Numbers object)
    (hchild : Numbers child) : Numbers element := by
  rw [jsonObjectAppendContainer] at h
  obtain ⟨_, _, h⟩ := bind_eq_ok.mp h
  obtain ⟨_, _, h⟩ := bind_eq_ok.mp h
  cases h
  exact hobject.sequenceAppend hchild.setPropertyName

theorem numbers_jsonObjectAppendString {value : CString}
    (h : jsonObjectAppendString object key value = .ok element) (hobject : Numbers object) :
    Numbers element := by
  rw [jsonObjectAppendString] at h
  obtain ⟨_, _, h⟩ := bind_eq_ok.mp h
  exact numbers_jsonObjectAppendPrimitive h hobject (numbers_primitive.mpr fun h => by simp at h)

theorem eq_of_jsonParseLiteral {literal : CString}
    (h : jsonParseLiteral literal element data = .ok (some (child, cursor))) : child = element := by
  rw [jsonParseLiteral] at h
  obtain ⟨next, _, h⟩ := bind_eq_ok.mp h
  split_ifs at h
  · cases h
    rfl
  · cases h

theorem numbers_jsonParseAsBoolean (h : jsonParseAsBoolean pcre data = .ok (some (child, cursor))) :
    Numbers child := by
  rw [jsonParseAsBoolean] at h
  split_ifs at h
  · rw [eq_of_jsonParseLiteral h]
    exact numbers_primitive.mpr fun h => by simp at h
  · rw [eq_of_jsonParseLiteral h]
    exact numbers_primitive.mpr fun h => by simp at h
  · cases h

theorem numbers_jsonParseAsNull (h : jsonParseAsNull pcre data = .ok (some (child, cursor))) :
    Numbers child := by
  rw [jsonParseAsNull] at h
  split_ifs at h
  · rw [eq_of_jsonParseLiteral h]
    exact numbers_primitive.mpr fun h => by simp at h
  · cases h

theorem numbers_jsonParsePrimitive {ch : Char}
    (h : jsonParsePrimitive pcre ch data = .ok (some (child, cursor))) : Numbers child := by
  rw [jsonParsePrimitive] at h
  split_ifs at h with hnumber
  · have hparsed : jsonParseAsNumber data = some (child, cursor) := by
      cases hp : jsonParseAsNumber data <;> rw [hp] at h <;> cases h
      rfl
    obtain ⟨hloose, rfl, -⟩ := jsonParseAsNumber_eq_some_iff.mp hparsed
    exact numbers_primitive.mpr fun _ => ⟨hloose, rfl⟩
  · obtain ⟨result, hresult, h⟩ := bind_eq_ok.mp h
    cases result with
    | none => exact numbers_jsonParseAsNull h
    | some result =>
      cases h
      exact numbers_jsonParseAsBoolean hresult

variable (pcre) in
/-- Both loops, with so many steps, make numbers only. -/
structure LoopNumbers (fuel : Nat) : Prop where
  array : ∀ {array data element cursor}, Numbers array →
    jsonParseAsArray.loop pcre fuel array data = .ok (some (element, cursor)) → Numbers element
  object : ∀ {object name data element cursor}, Numbers object →
    jsonParseAsObject.loop pcre fuel object name data = .ok (some (element, cursor)) →
      Numbers element

theorem numbers_jsonArrayCreate : Numbers jsonArrayCreate :=
  numbers_container.mpr (List.forall_mem_nil _)

theorem numbers_jsonObjectCreate : Numbers jsonObjectCreate :=
  numbers_container.mpr (List.forall_mem_nil _)

/-- A character of an array. -/
theorem LoopNumbers.arrayStep (ih : LoopNumbers pcre fuel) (harray : Numbers array) {ch : Char}
    (h : jsonParseAsArray.loop pcre (fuel + 1) array (ch :: data) = .ok (some (element, cursor))) :
    Numbers element := by
  rw [jsonParseAsArray.loop] at h
  split_ifs at h
  · exact ih.array harray h
  · cases hstring : jsonParseAsString (ch :: data) with
    | none =>
      rw [hstring] at h
      obtain ⟨array, happend, h⟩ := bind_eq_ok.mp h
      obtain ⟨data, _, h⟩ := bind_eq_ok.mp h
      exact ih.array (numbers_jsonArrayAppendString happend harray) h
    | some value =>
      rw [hstring] at h
      obtain ⟨array, happend, h⟩ := bind_eq_ok.mp h
      obtain ⟨data, _, h⟩ := bind_eq_ok.mp h
      exact ih.array (numbers_jsonArrayAppendString happend harray) h
  · obtain ⟨result, hchild, h⟩ := bind_eq_ok.mp h
    cases result with
    | none => cases h
    | some result =>
      obtain ⟨array, happend, h⟩ := bind_eq_ok.mp h
      obtain ⟨data, _, h⟩ := bind_eq_ok.mp h
      exact ih.array (numbers_jsonArrayAppendContainer happend harray
        (ih.array numbers_jsonArrayCreate hchild)) h
  · obtain ⟨result, hchild, h⟩ := bind_eq_ok.mp h
    cases result with
    | none => cases h
    | some result =>
      obtain ⟨array, happend, h⟩ := bind_eq_ok.mp h
      obtain ⟨data, _, h⟩ := bind_eq_ok.mp h
      exact ih.array (numbers_jsonArrayAppendContainer happend harray
        (ih.object numbers_jsonObjectCreate hchild)) h
  · exact ih.array harray h
  · cases h
    exact harray
  · obtain ⟨result, hchild, h⟩ := bind_eq_ok.mp h
    cases result with
    | none => cases h
    | some result =>
      obtain ⟨array, happend, h⟩ := bind_eq_ok.mp h
      obtain ⟨data, _, h⟩ := bind_eq_ok.mp h
      exact ih.array (numbers_jsonArrayAppendPrimitive happend harray
        (numbers_jsonParsePrimitive hchild)) h

/-- A character of an object. -/
theorem LoopNumbers.objectStep (ih : LoopNumbers pcre fuel) (hobject : Numbers object) {ch : Char}
    {name : Option CString}
    (h : jsonParseAsObject.loop pcre (fuel + 1) object name (ch :: data) =
      .ok (some (element, cursor))) : Numbers element := by
  rw [jsonParseAsObject.loop.eq_def] at h
  cases name with
  | none =>
    dsimp only at h
    split_ifs at h
    · exact ih.object hobject h
    · cases hstring : jsonParseAsString (ch :: data) with
      | none =>
        rw [hstring] at h
        cases h
      | some value =>
        rw [hstring] at h
        obtain ⟨data, _, h⟩ := bind_eq_ok.mp h
        exact ih.object hobject h
    · exact ih.object hobject h
    · cases h
      exact hobject
    · cases h
  | some name =>
    dsimp only at h
    split_ifs at h
    · exact ih.object hobject h
    · cases hstring : jsonParseAsString (ch :: data) with
      | none =>
        rw [hstring] at h
        cases h
      | some value =>
        rw [hstring] at h
        obtain ⟨object, happend, h⟩ := bind_eq_ok.mp h
        obtain ⟨data, _, h⟩ := bind_eq_ok.mp h
        exact ih.object (numbers_jsonObjectAppendString happend hobject) h
    · exact ih.object hobject h
    · obtain ⟨result, hchild, h⟩ := bind_eq_ok.mp h
      cases result with
      | none => cases h
      | some result =>
        obtain ⟨object, happend, h⟩ := bind_eq_ok.mp h
        obtain ⟨data, _, h⟩ := bind_eq_ok.mp h
        exact ih.object (numbers_jsonObjectAppendContainer happend hobject
          (ih.array numbers_jsonArrayCreate hchild)) h
    · obtain ⟨result, hchild, h⟩ := bind_eq_ok.mp h
      cases result with
      | none => cases h
      | some result =>
        obtain ⟨object, happend, h⟩ := bind_eq_ok.mp h
        obtain ⟨data, _, h⟩ := bind_eq_ok.mp h
        exact ih.object (numbers_jsonObjectAppendContainer happend hobject
          (ih.object numbers_jsonObjectCreate hchild)) h
    · cases h
    · obtain ⟨result, hchild, h⟩ := bind_eq_ok.mp h
      cases result with
      | none => cases h
      | some result =>
        obtain ⟨object, happend, h⟩ := bind_eq_ok.mp h
        obtain ⟨data, _, h⟩ := bind_eq_ok.mp h
        exact ih.object (numbers_jsonObjectAppendPrimitive happend hobject
          (numbers_jsonParsePrimitive hchild)) h

theorem loopNumbers (fuel : Nat) : LoopNumbers pcre fuel := by
  induction fuel with
  | zero =>
    constructor
    · intro array data element cursor harray h
      cases h
    · intro object name data element cursor hobject h
      cases h
  | succ fuel ih =>
    constructor
    · intro array data element cursor harray h
      cases data with
      | nil => cases h
      | cons => exact ih.arrayStep harray h
    · intro object name data element cursor hobject h
      cases data with
      | nil => cases h
      | cons => exact ih.objectStep hobject h

/-- Every number in what `JsonParse` returns. -/
theorem jsonParse_numbers (h : jsonParse pcre data = .ok (some (element, cursor))) :
    Numbers element := by
  induction data with
  | nil => cases h
  | cons ch data ih =>
    rw [jsonParse] at h
    split_ifs at h with hobject harray
    · rw [jsonParseAsObject, if_pos hobject] at h
      exact (loopNumbers _).object numbers_jsonObjectCreate h
    · rw [jsonParseAsArray, if_pos harray] at h
      exact (loopNumbers _).array numbers_jsonArrayCreate h
    · exact ih h
    · cases h

end

/-- A number in a parsed text is read to its end exactly if it has no dot behind another dot or
behind the exponent, and no exponent without a dot. -/
theorem jsonParse_readable_iff {pcre : CString → CString → Bool} {text cursor value : CString}
    {element : JsonElement} {name : Option CString} {type : JsonPrimitiveType}
    (h : jsonParse pcre text = .ok (some (element, cursor)))
    (hwithin : Within (.primitive name type value) element)
    (hnumber : type = .integer ∨ type = .real) :
    Readable name type value ↔ ¬ HasLateDot value ∧ (HasExponent value → '.' ∈ value) := by
  obtain ⟨hloose, rfl⟩ := jsonParse_numbers h name type value hwithin hnumber
  exact readable_iff hloose

/-- `[1]` -/
theorem jsonParse_readable_one : Readable none .integer ['1'] ↔
    ¬ HasLateDot ['1'] ∧ (HasExponent ['1'] → '.' ∈ ['1']) :=
  @jsonParse_readable_iff (fun _ _ => false) ['[', '1', ']'] [']'] ['1']
    (.container none .array [.primitive none .integer ['1']]) none .integer rfl
    (.child List.mem_cons_self .refl) (.inl rfl)

/-- `[1e5]` -/
theorem jsonParse_not_readable : ∃ element cursor,
    jsonParse (fun _ _ => false) ['[', '1', 'e', '5', ']'] = .ok (some (element, cursor)) ∧
      Within (.primitive none .integer ['1', 'e', '5']) element ∧
      jsonPrimitiveGetAsInteger (.primitive none .integer ['1', 'e', '5']) = .error .assertion :=
  ⟨.container none .array [.primitive none .integer ['1', 'e', '5']], [']'], rfl,
    .child List.mem_cons_self .refl, rfl⟩

end Cfengine
