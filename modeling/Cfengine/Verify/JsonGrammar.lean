import Cfengine.Verify.JsonNumbers

/-!
# The grammar of JSON numbers

What `JsonParseAsNumber` accepts are loose numbers (`accepts_iff`): the numbers of the grammar
(`IsJsonNumber`), and those with a zero in front of other digits behind a minus sign, with a dot
behind another dot, or with a dot behind the letter of the exponent (`isJsonNumber_iff`). So it
follows the grammar but for these (`jsonParseAsNumber_followsGrammar_iff`).
-/

namespace Cfengine

/-- One digit or more. -/
def Digits (ds : CString) : Prop := ds ≠ [] ∧ ∀ c ∈ ds, isNumeralDigit c

def IsSign (sign : CString) : Prop := sign = [] ∨ sign = ['-']

/-- `0`, or digits of which the first is not zero. -/
def IsIntegerPart (int : CString) : Prop :=
  int = ['0'] ∨ ∃ d ds, isJsonDigit d ∧ (∀ c ∈ ds, isNumeralDigit c) ∧ int = d :: ds

def IsFraction (frac : CString) : Prop := frac = [] ∨ ∃ ds, Digits ds ∧ frac = '.' :: ds

/-- No sign, or one of the two. -/
def IsExponentSign (sign : CString) : Prop := sign = [] ∨ sign = ['+'] ∨ sign = ['-']

def IsExponent (exp : CString) : Prop :=
  exp = [] ∨ ∃ letter sign ds, isExponentLetter letter ∧ IsExponentSign sign ∧ Digits ds ∧
    exp = letter :: (sign ++ ds)

/-- The numbers of JSON. -/
def IsJsonNumber (w : CString) : Prop :=
  ∃ sign int frac exp, IsSign sign ∧ IsIntegerPart int ∧ IsFraction frac ∧ IsExponent exp ∧
    w = sign ++ int ++ frac ++ exp

/-! ## Loose numbers -/

/-- Any number of fractions. -/
inductive IsFractions : CString → Prop where
  | nil : IsFractions []
  | cons {ds w} : Digits ds → IsFractions w → IsFractions ('.' :: (ds ++ w))

/-- An exponent that may go on with fractions. -/
def IsLooseExponent (exp : CString) : Prop :=
  exp = [] ∨ ∃ letter sign ds frac, isExponentLetter letter ∧ IsExponentSign sign ∧ Digits ds ∧
    IsFractions frac ∧ exp = letter :: (sign ++ ds ++ frac)

/-- A number with any number of fractions, and behind a minus sign with any digits. -/
def IsLooseNumber (w : CString) : Prop :=
  ∃ sign int frac exp, IsSign sign ∧ Digits int ∧ (sign = [] → IsIntegerPart int) ∧
    IsFractions frac ∧ IsLooseExponent exp ∧ w = sign ++ int ++ frac ++ exp

/-- A zero in front of another digit, behind a minus sign. -/
def NegativeLeadingZero (w : CString) : Prop :=
  ∃ c w', isNumeralDigit c ∧ w = '-' :: '0' :: c :: w'

/-- A dot behind another dot or behind the letter of the exponent. -/
def HasLateDot (w : CString) : Prop :=
  '.' ∈ (w.dropWhile fun c => !(c = '.' || isExponentLetter c)).tail

variable {p : Point} {e : Bool} {w ds sign int frac exp : CString} {c d : Char}

theorem IsFraction.isFractions (h : IsFraction frac) : IsFractions frac := by
  obtain rfl | ⟨ds, hds, rfl⟩ := h
  · exact .nil
  · rw [← List.append_nil ds]
    exact .cons hds .nil

theorem IsExponent.isLooseExponent (h : IsExponent exp) : IsLooseExponent exp := by
  obtain rfl | ⟨letter, sign, ds, hletter, hsign, hds, rfl⟩ := h
  · exact .inl rfl
  · exact .inr ⟨letter, sign, ds, [], hletter, hsign, hds, .nil, by rw [List.append_nil]⟩

theorem IsIntegerPart.digits (h : IsIntegerPart int) : Digits int := by
  obtain rfl | ⟨d, ds, hd, hds, rfl⟩ := h
  · exact ⟨List.cons_ne_nil _ _, List.forall_mem_singleton.mpr rfl⟩
  · exact ⟨List.cons_ne_nil _ _,
      List.forall_mem_cons.mpr ⟨by rw [isNumeralDigit, hd, Bool.or_true], hds⟩⟩

theorem IsJsonNumber.isLooseNumber (h : IsJsonNumber w) : IsLooseNumber w := by
  obtain ⟨sign, int, frac, exp, hsign, hint, hfrac, hexp, rfl⟩ := h
  exact ⟨sign, int, frac, exp, hsign, hint.digits, fun _ => hint, hfrac.isFractions,
    hexp.isLooseExponent, rfl⟩

/-! ## Loose numbers are what the automaton accepts -/

theorem Accepts.digits (hds : ∀ c ∈ ds, isNumeralDigit c) (h : Accepts .digit e w) :
    Accepts .digit e (ds ++ w) := by
  induction ds with
  | nil => exact h
  | cons d ds ih =>
    obtain ⟨hd, hds⟩ := List.forall_mem_cons.mp hds
    exact .digit Point.noConfusion Point.noConfusion hd (ih hds)

/-- Digits may stand everywhere but at the start and behind a zero there. -/
theorem Accepts.digits_append (hds : Digits ds) (hstart : p ≠ .start) (hzero : p ≠ .zero)
    (h : Accepts .digit e w) : Accepts p e (ds ++ w) := by
  obtain ⟨d, ds, rfl⟩ := List.exists_cons_of_ne_nil hds.1
  obtain ⟨hd, hds⟩ := List.forall_mem_cons.mp hds.2
  exact .digit (fun hp => absurd hp hstart) hzero hd (h.digits hds)

theorem IsFractions.accepts (h : IsFractions frac) (hp : p.behindDigit)
    (hw : ∀ p : Point, p.behindDigit → Accepts p e w) : Accepts p e (frac ++ w) := by
  induction h generalizing p with
  | nil => exact hw p hp
  | cons hds _ ih =>
    rw [List.cons_append, List.append_assoc]
    exact .dot hp (.digits_append hds Point.noConfusion Point.noConfusion (ih rfl))

theorem IsLooseExponent.accepts (h : IsLooseExponent exp) (hp : p.behindDigit) :
    Accepts p false exp := by
  obtain rfl | ⟨letter, sign, ds, frac, hletter, hsign, hds, hfrac, rfl⟩ := h
  · exact .done hp
  · have hrest : ∀ p, p ≠ .start → p ≠ .zero → Accepts p true (ds ++ frac) :=
        fun p hstart hzero => by
      rw [← List.append_nil frac]
      exact .digits_append hds hstart hzero (hfrac.accepts rfl fun p hp => .done hp)
    refine .letter hp hletter ?_
    rw [List.append_assoc]
    obtain rfl | rfl | rfl := hsign
    · exact hrest .letter Point.noConfusion Point.noConfusion
    · exact .sign (.inl rfl) (hrest .sign Point.noConfusion Point.noConfusion)
    · exact .sign (.inr rfl) (hrest .sign Point.noConfusion Point.noConfusion)

theorem IsLooseNumber.accepts (h : IsLooseNumber w) : Accepts .start false w := by
  obtain ⟨sign, int, frac, exp, hsign, hdigits, hpart, hfrac, hexp, rfl⟩ := h
  have hrest : ∀ p : Point, p.behindDigit → Accepts p false (frac ++ exp) := fun p hp =>
    hfrac.accepts hp fun p hp => hexp.accepts hp
  rw [List.append_assoc, List.append_assoc]
  obtain rfl | rfl := hsign
  · obtain rfl | ⟨d, ds, hd, hds, rfl⟩ := hpart rfl
    · exact .zero (hrest .zero rfl)
    · have hzero : d ≠ '0' := by
        rintro rfl
        cases hd
      exact .digit (fun _ => hzero) Point.noConfusion (hdigits.2 d List.mem_cons_self)
        ((hrest .digit rfl).digits hds)
  · change Accepts .start false ('-' :: (int ++ (frac ++ exp)))
    exact .minus (.digits_append hdigits Point.noConfusion Point.noConfusion (hrest .digit rfl))

/-- What is accepted behind the start: a sign if it follows the letter of an exponent, digits,
fractions and an exponent if there was none. -/
structure NumberTail (p : Point) (e : Bool) (w sign ds frac exp : CString) : Prop where
  isSign : IsExponentSign sign
  behindLetter : sign ≠ [] → p = .letter
  isDigits : ∀ c ∈ ds, isNumeralDigit c
  ne_nil : p.behindDigit = false → ds ≠ []
  zero : p = .zero → ds = []
  fractions : IsFractions frac
  exponent : IsLooseExponent exp
  once : e = true → exp = []
  text : w = sign ++ ds ++ frac ++ exp

namespace NumberTail

theorem sign_eq_nil (h : NumberTail p e w sign ds frac exp) (hp : p ≠ .letter) : sign = [] := by
  by_contra hne
  exact hp (h.behindLetter hne)

theorem digit (h : NumberTail .digit e w sign ds frac exp) (hzero : p ≠ .zero)
    (hd : isNumeralDigit d) : NumberTail p e (d :: w) [] (d :: ds) frac exp where
  isSign := .inl rfl
  behindLetter := fun h => absurd rfl h
  isDigits := List.forall_mem_cons.mpr ⟨hd, h.isDigits⟩
  ne_nil := fun _ => List.cons_ne_nil _ _
  zero := fun hp => absurd hp hzero
  fractions := h.fractions
  exponent := h.exponent
  once := h.once
  text := by
    rw [h.text, h.sign_eq_nil Point.noConfusion]
    rfl

theorem dot (h : NumberTail .dot e w sign ds frac exp) (hp : p.behindDigit) :
    NumberTail p e ('.' :: w) [] [] ('.' :: (ds ++ frac)) exp where
  isSign := .inl rfl
  behindLetter := fun h => absurd rfl h
  isDigits := List.forall_mem_nil _
  ne_nil := fun h => by
    rw [h] at hp
    cases hp
  zero := fun _ => rfl
  fractions := .cons ⟨h.ne_nil rfl, h.isDigits⟩ h.fractions
  exponent := h.exponent
  once := h.once
  text := by
    rw [h.text, h.sign_eq_nil Point.noConfusion]
    rfl

theorem letter (h : NumberTail .letter true w sign ds frac exp) (hp : p.behindDigit)
    (hc : isExponentLetter c) :
    NumberTail p false (c :: w) [] [] [] (c :: (sign ++ ds ++ frac)) where
  isSign := .inl rfl
  behindLetter := fun h => absurd rfl h
  isDigits := List.forall_mem_nil _
  ne_nil := fun h => by
    rw [h] at hp
    cases hp
  zero := fun _ => rfl
  fractions := .nil
  exponent := .inr ⟨c, sign, ds, frac, hc, h.isSign, ⟨h.ne_nil rfl, h.isDigits⟩, h.fractions, rfl⟩
  once := fun h => absurd h Bool.false_ne_true
  text := by
    rw [h.text, h.once rfl, List.append_nil]
    rfl

theorem signed (h : NumberTail .sign true w sign ds frac exp) (hc : c = '+' ∨ c = '-') :
    NumberTail .letter true (c :: w) [c] ds frac exp where
  isSign := .inr (hc.imp (congrArg (fun c => [c])) (congrArg (fun c => [c])))
  behindLetter := fun _ => rfl
  isDigits := h.isDigits
  ne_nil := fun _ => h.ne_nil rfl
  zero := fun h => Point.noConfusion h
  fractions := h.fractions
  exponent := h.exponent
  once := h.once
  text := by
    rw [h.text, h.sign_eq_nil Point.noConfusion]
    rfl

theorem done (hp : p.behindDigit) : NumberTail p e [] [] [] [] [] where
  isSign := .inl rfl
  behindLetter := fun h => absurd rfl h
  isDigits := List.forall_mem_nil _
  ne_nil := fun h => by
    rw [h] at hp
    cases hp
  zero := fun _ => rfl
  fractions := .nil
  exponent := .inl rfl
  once := fun _ => rfl
  text := rfl

end NumberTail

theorem Accepts.exists_tail (h : Accepts p e w) (hp : p ≠ .start) :
    ∃ sign ds frac exp, NumberTail p e w sign ds frac exp := by
  induction h with
  | done hbehind => exact ⟨[], [], [], [], .done hbehind⟩
  | digit _ hzero hd _ ih =>
    obtain ⟨sign, ds, frac, exp, htail⟩ := ih Point.noConfusion
    exact ⟨_, _, _, _, htail.digit hzero hd⟩
  | dot hbehind _ ih =>
    obtain ⟨sign, ds, frac, exp, htail⟩ := ih Point.noConfusion
    exact ⟨_, _, _, _, htail.dot hbehind⟩
  | letter hbehind hc _ ih =>
    obtain ⟨sign, ds, frac, exp, htail⟩ := ih Point.noConfusion
    exact ⟨_, _, _, _, htail.letter hbehind hc⟩
  | sign hc _ ih =>
    obtain ⟨sign, ds, frac, exp, htail⟩ := ih Point.noConfusion
    exact ⟨_, _, _, _, htail.signed hc⟩
  | zero | minus => exact absurd rfl hp

theorem isJsonDigit_of_ne (hd : isNumeralDigit d) (hzero : d ≠ '0') : isJsonDigit d := by
  rw [isNumeralDigit, decide_eq_false hzero, Bool.false_or] at hd
  exact hd

theorem Accepts.isLooseNumber (h : Accepts .start false w) : IsLooseNumber w := by
  cases h with
  | done hp => cases hp
  | dot hp => cases hp
  | letter hp => cases hp
  | zero h =>
    obtain ⟨sign, ds, frac, exp, htail⟩ := h.exists_tail Point.noConfusion
    refine ⟨[], ['0'], frac, exp, .inl rfl, IsIntegerPart.digits (.inl rfl), fun _ => .inl rfl,
      htail.fractions, htail.exponent, ?_⟩
    rw [htail.text, htail.sign_eq_nil Point.noConfusion, htail.zero rfl]
    rfl
  | digit hzero _ hd h =>
    obtain ⟨sign, ds, frac, exp, htail⟩ := h.exists_tail Point.noConfusion
    refine ⟨[], _ :: ds, frac, exp, .inl rfl,
      ⟨List.cons_ne_nil _ _, List.forall_mem_cons.mpr ⟨hd, htail.isDigits⟩⟩,
      fun _ => .inr ⟨_, ds, isJsonDigit_of_ne hd (hzero rfl), htail.isDigits, rfl⟩,
      htail.fractions, htail.exponent, ?_⟩
    rw [htail.text, htail.sign_eq_nil Point.noConfusion]
    rfl
  | minus h =>
    obtain ⟨sign, ds, frac, exp, htail⟩ := h.exists_tail Point.noConfusion
    refine ⟨['-'], ds, frac, exp, .inr rfl, ⟨htail.ne_nil rfl, htail.isDigits⟩,
      fun h => absurd h (List.cons_ne_nil _ _), htail.fractions, htail.exponent, ?_⟩
    rw [htail.text, htail.sign_eq_nil Point.noConfusion]
    rfl

theorem accepts_iff : Accepts .start false w ↔ IsLooseNumber w :=
  ⟨Accepts.isLooseNumber, IsLooseNumber.accepts⟩

theorem Accepts.ne_nil (h : Accepts p e w) (hp : p.behindDigit = false) : w ≠ [] := by
  rintro rfl
  rw [accepts_nil_iff, hp] at h
  cases h

/-! ## Loose numbers that are not numbers -/

theorem hasLateDot_cons (hc : c = '.' ∨ isExponentLetter c) : HasLateDot (c :: w) ↔ '.' ∈ w := by
  have hstop : (!(decide (c = '.') || isExponentLetter c)) = false := by
    rcases hc with rfl | hc
    · rfl
    · rw [hc, Bool.or_true, Bool.not_true]
  rw [HasLateDot, List.dropWhile_cons, hstop, if_neg Bool.false_ne_true, List.tail_cons]

theorem hasLateDot_cons_skip (hdot : c ≠ '.') (hletter : isExponentLetter c = false) :
    HasLateDot (c :: w) ↔ HasLateDot w := by
  have hskip : (!(decide (c = '.') || isExponentLetter c)) = true := by simp [hdot, hletter]
  rw [HasLateDot, List.dropWhile_cons, if_pos hskip, HasLateDot]

theorem hasLateDot_append_digits (hds : ∀ c ∈ ds, isNumeralDigit c) :
    HasLateDot (ds ++ w) ↔ HasLateDot w := by
  induction ds with
  | nil => rfl
  | cons d ds ih =>
    obtain ⟨hd, hds⟩ := List.forall_mem_cons.mp hds
    have hdot : d ≠ '.' := by
      rintro rfl
      cases hd
    rw [List.cons_append, ← ih hds]
    exact hasLateDot_cons_skip hdot (eq_false_of_ne_true fun h => not_isNumeralDigit h hd)

theorem IsSign.hasLateDot_append (h : IsSign sign) : HasLateDot (sign ++ w) ↔ HasLateDot w := by
  obtain rfl | rfl := h
  · rfl
  · exact hasLateDot_cons_skip (by decide) rfl

theorem dot_not_mem_digits (hds : ∀ c ∈ ds, isNumeralDigit c) : '.' ∉ ds := fun h => by
  cases hds '.' h

theorem IsFractions.eq_nil (h : IsFractions frac) (hdot : '.' ∉ frac) : frac = [] := by
  cases h with
  | nil => rfl
  | cons => exact absurd List.mem_cons_self hdot

theorem IsExponent.dot_not_mem (h : IsExponent exp) : '.' ∉ exp := by
  obtain rfl | ⟨letter, sign, ds, hletter, hsign, hds, rfl⟩ := h
  · exact List.not_mem_nil
  · have hne : '.' ≠ letter := by
      rintro rfl
      cases hletter
    have hnot := dot_not_mem_digits hds.2
    obtain rfl | rfl | rfl := hsign <;> simp [hne, hnot]

/-- An exponent without a dot has no fractions. -/
theorem IsLooseExponent.isExponent_iff (h : IsLooseExponent exp) : IsExponent exp ↔ '.' ∉ exp := by
  refine ⟨IsExponent.dot_not_mem, fun hdot => ?_⟩
  obtain rfl | ⟨letter, sign, ds, frac, hletter, hsign, hds, hfrac, rfl⟩ := h
  · exact .inl rfl
  · have hnot : '.' ∉ frac := fun h => hdot (by simp [h])
    rw [hfrac.eq_nil hnot, List.append_nil]
    exact .inr ⟨letter, sign, ds, hletter, hsign, hds, rfl⟩

theorem IsLooseExponent.hasLateDot_iff (h : IsLooseExponent exp) : HasLateDot exp ↔ '.' ∈ exp := by
  obtain rfl | ⟨letter, sign, ds, frac, hletter, hsign, hds, hfrac, rfl⟩ := h
  · exact iff_of_false List.not_mem_nil List.not_mem_nil
  · have hne : '.' ≠ letter := by
      rintro rfl
      cases hletter
    rw [hasLateDot_cons (.inr hletter), List.mem_cons, or_iff_right hne]

theorem isFraction_cons_iff (hds : Digits ds) (hfrac : IsFractions frac) :
    IsFraction ('.' :: (ds ++ frac)) ↔ '.' ∉ frac := by
  constructor
  · rintro (h | ⟨ds', hds', heq⟩) hmem
    · cases h
    · obtain ⟨-, rfl⟩ := List.cons_eq_cons.mp heq
      exact dot_not_mem_digits hds'.2 (List.mem_append_right _ hmem)
  · intro hdot
    rw [hfrac.eq_nil hdot, List.append_nil]
    exact .inr ⟨ds, hds, rfl⟩

/-- Behind the digits of a number: a late dot is in a second fraction, or behind the exponent. -/
theorem hasLateDot_iff (hsign : IsSign sign) (hint : Digits int) (hfrac : IsFractions frac)
    (hexp : IsLooseExponent exp) :
    HasLateDot (sign ++ int ++ frac ++ exp) ↔ ¬ (IsFraction frac ∧ IsExponent exp) := by
  rw [List.append_assoc, List.append_assoc, hsign.hasLateDot_append,
    hasLateDot_append_digits hint.2, hexp.isExponent_iff]
  cases hfrac with
  | nil =>
    have hnil : IsFraction [] := .inl rfl
    rw [List.nil_append, hexp.hasLateDot_iff, and_iff_right hnil, not_not]
  | @cons ds frac hds hfrac =>
    have hnot := dot_not_mem_digits hds.2
    rw [isFraction_cons_iff hds hfrac, List.cons_append, hasLateDot_cons (.inl rfl),
      List.mem_append, List.mem_append, or_iff_right hnot, ← not_or, not_not]

/-- Behind the digits of a number there is no digit. -/
theorem not_isNumeralDigit_head (hfrac : IsFraction frac) (hexp : IsExponent exp)
    (hd : isNumeralDigit d) :
    frac ++ exp ≠ d :: w := by
  intro heq
  obtain rfl | ⟨ds, hds, rfl⟩ := hfrac
  · obtain rfl | ⟨letter, sign, ds, hletter, hsign, hds, rfl⟩ := hexp
    · cases heq
    · obtain ⟨rfl, -⟩ := List.cons_eq_cons.mp heq
      exact not_isNumeralDigit hletter hd
  · obtain ⟨rfl, -⟩ := List.cons_eq_cons.mp heq
    cases hd

theorem IsJsonNumber.not_negativeLeadingZero (h : IsJsonNumber w) : ¬ NegativeLeadingZero w := by
  obtain ⟨sign, int, frac, exp, hsign, hint, hfrac, hexp, rfl⟩ := h
  rintro ⟨c, w, hc, heq⟩
  rw [List.append_assoc, List.append_assoc] at heq
  obtain rfl | rfl := hsign
  · obtain rfl | ⟨d, ds, hd, hds, rfl⟩ := hint
    · cases heq
    · obtain ⟨rfl, -⟩ := List.cons_eq_cons.mp heq
      cases hd
  · obtain ⟨-, heq⟩ := List.cons_eq_cons.mp heq
    obtain rfl | ⟨d, ds, hd, hds, rfl⟩ := hint
    · exact not_isNumeralDigit_head hfrac hexp hc (List.cons_eq_cons.mp heq).2
    · obtain ⟨rfl, -⟩ := List.cons_eq_cons.mp heq
      cases hd

/-- The digits of a loose number are those of a number but behind a minus sign. -/
theorem isIntegerPart_of_not_negativeLeadingZero (hint : Digits int) (hsign : IsSign sign)
    (hpart : sign = [] → IsIntegerPart int) (hzero : ¬ NegativeLeadingZero (sign ++ int ++ w)) :
    IsIntegerPart int := by
  obtain rfl | rfl := hsign
  · exact hpart rfl
  · obtain ⟨d, ds, rfl⟩ := List.exists_cons_of_ne_nil hint.1
    obtain ⟨hd, hds⟩ := List.forall_mem_cons.mp hint.2
    by_cases hdzero : d = '0'
    · subst hdzero
      cases ds with
      | nil => exact .inl rfl
      | cons c ds => exact absurd ⟨c, _, hds c List.mem_cons_self, rfl⟩ hzero
    · exact .inr ⟨d, ds, isJsonDigit_of_ne hd hdzero, hds, rfl⟩

/-- The numbers of the grammar among the loose ones. -/
theorem isJsonNumber_iff :
    IsJsonNumber w ↔ IsLooseNumber w ∧ ¬ (NegativeLeadingZero w ∨ HasLateDot w) := by
  constructor
  · intro h
    refine ⟨h.isLooseNumber, not_or.mpr ⟨h.not_negativeLeadingZero, ?_⟩⟩
    obtain ⟨sign, int, frac, exp, hsign, hint, hfrac, hexp, rfl⟩ := h
    rw [hasLateDot_iff hsign hint.digits hfrac.isFractions hexp.isLooseExponent, not_not]
    exact ⟨hfrac, hexp⟩
  · rintro ⟨⟨sign, int, frac, exp, hsign, hint, hpart, hfrac, hexp, rfl⟩, hnot⟩
    obtain ⟨hzero, hlate⟩ := not_or.mp hnot
    rw [hasLateDot_iff hsign hint hfrac hexp, not_not] at hlate
    rw [List.append_assoc] at hzero
    exact ⟨sign, int, frac, exp, hsign,
      isIntegerPart_of_not_negativeLeadingZero hint hsign hpart hzero, hlate.1, hlate.2, rfl⟩

/-! ## The parser -/

/-- The text up to the next separator. -/
def numberText (data : CString) : CString := data.takeWhile fun c => !isJsonSeparator c

/-- `JsonParseAsNumber` succeeds exactly on a number of the grammar, the primitive has its text, and
the cursor is on its last character. -/
structure FollowsGrammar (data : CString) : Prop where
  succeeds : (jsonParseAsNumber data).isSome ↔ IsJsonNumber (numberText data)
  value : ∀ element cursor, jsonParseAsNumber data = some (element, cursor) →
    ∃ type, element = .primitive none type (numberText data)
  cursor : ∀ element cursor, jsonParseAsNumber data = some (element, cursor) →
    cursor = data.drop ((numberText data).length - 1)

/-- `JsonParseAsNumber` accepts the loose numbers. -/
theorem jsonParseAsNumber_eq_some_iff {data cursor : CString} {element : JsonElement} :
    jsonParseAsNumber data = some (element, cursor) ↔ IsLooseNumber (numberText data) ∧
      element = numberPrimitive (numberText data) ∧
      cursor = data.drop ((numberText data).length - 1) := by
  have hw : ∀ c ∈ numberText data, isJsonSeparator c = false := fun c hc => by
    simpa using List.mem_takeWhile_imp hc
  have hrest : JsonNumberState.IsRest (data.dropWhile fun c => !isJsonSeparator c) := fun c hc => by
    have hnot := List.head?_dropWhile_not (fun c => !isJsonSeparator c) data
    rw [hc] at hnot
    simpa using hnot
  have hdata : numberText data ++ data.dropWhile (fun c => !isJsonSeparator c) = data :=
    List.takeWhile_append_dropWhile
  have hcursor : ∀ c, (numberText data).getLast? = some c →
      data.drop ((numberText data).length - 1) = c :: data.dropWhile fun c =>
        !isJsonSeparator c := by
    intro c hc
    obtain ⟨w, hconcat⟩ := List.getLast?_eq_some_iff.mp hc
    rw [hconcat, List.append_assoc] at hdata
    rw [hconcat, List.length_append, List.length_singleton, Nat.add_sub_cancel]
    nth_rewrite 1 [← hdata]
    exact List.drop_left
  have hiff := @jsonParseAsNumber_iff _ _ hw hrest (element, cursor)
  rw [hdata] at hiff
  rw [hiff, accepts_iff]
  refine and_congr_right fun hloose => ?_
  constructor
  · rintro ⟨c, hc, heq⟩
    obtain ⟨rfl, rfl⟩ := Prod.mk.inj heq
    exact ⟨rfl, (hcursor c hc).symm⟩
  · rintro ⟨rfl, rfl⟩
    have hne : numberText data ≠ [] := fun hnil =>
      hloose.accepts.ne_nil rfl hnil
    exact ⟨_, List.getLast?_eq_some_getLast hne,
      by rw [hcursor _ (List.getLast?_eq_some_getLast hne)]⟩

/-- `JsonParseAsNumber` follows the grammar but for loose numbers with a zero in front of another
digit behind the minus sign, or a late dot. -/
theorem jsonParseAsNumber_followsGrammar_iff (data : CString) :
    FollowsGrammar data ↔ ¬ (IsLooseNumber (numberText data) ∧
      (NegativeLeadingZero (numberText data) ∨ HasLateDot (numberText data))) := by
  have hsome : (jsonParseAsNumber data).isSome ↔ IsLooseNumber (numberText data) := by
    rw [Option.isSome_iff_exists]
    constructor
    · rintro ⟨⟨element, cursor⟩, h⟩
      exact (jsonParseAsNumber_eq_some_iff.mp h).1
    · exact fun h => ⟨_, jsonParseAsNumber_eq_some_iff.mpr ⟨h, rfl, rfl⟩⟩
  have hsucceeds : ((jsonParseAsNumber data).isSome ↔ IsJsonNumber (numberText data)) ↔
      ¬ (IsLooseNumber (numberText data) ∧
        (NegativeLeadingZero (numberText data) ∨ HasLateDot (numberText data))) := by
    rw [hsome, isJsonNumber_iff]
    tauto
  rw [← hsucceeds]
  refine ⟨fun h => h.succeeds, fun h => ⟨h, fun element cursor hparsed => ?_,
    fun element cursor hparsed => (jsonParseAsNumber_eq_some_iff.mp hparsed).2.2⟩⟩
  rw [(jsonParseAsNumber_eq_some_iff.mp hparsed).2.1]
  exact ⟨_, rfl⟩

/-- `-01` -/
theorem jsonParseAsNumber_negativeZero : ¬ FollowsGrammar ['-', '0', '1'] := fun h => by
  have hnumber : IsJsonNumber ['-', '0', '1'] := h.succeeds.mp rfl
  exact hnumber.not_negativeLeadingZero ⟨'1', [], rfl, rfl⟩

end Cfengine
