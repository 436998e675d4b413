import Cfengine.Json

/-!
# The automaton of a JSON number

`JsonParseAsNumber` with its flags is a finite automaton: one character is one step of it
(`accepts_cons_iff`), and a text up to a separator is parsed exactly if the automaton accepts it
(`jsonParseAsNumber_iff`).
-/

namespace Cfengine

/-- A digit, zero included. -/
def isNumeralDigit (c : Char) : Bool := c = '0' || isJsonDigit c

/-- `e` or `E` -/
def isExponentLetter (c : Char) : Bool := c = 'e' || c = 'E'

/-- What stands in front of a place in a number. -/
inductive Point where
  /-- Nothing. -/
  | start
  /-- A zero that is the first character. -/
  | zero
  | digit | dot | letter | sign
deriving DecidableEq

/-- A number may end here, or go on with a dot or an exponent. -/
def Point.behindDigit (p : Point) : Bool := p = .zero || p = .digit

/-- What `JsonParseAsNumber` accepts behind a point, and whether there was an exponent. -/
inductive Accepts : Point → Bool → CString → Prop where
  | done {p e} : p.behindDigit → Accepts p e []
  | zero {w} : Accepts .zero false w → Accepts .start false ('0' :: w)
  | digit {p e d w} : (p = .start → d ≠ '0') → p ≠ .zero → isNumeralDigit d → Accepts .digit e w →
      Accepts p e (d :: w)
  | dot {p e w} : p.behindDigit → Accepts .dot e w → Accepts p e ('.' :: w)
  | letter {p c w} : p.behindDigit → isExponentLetter c → Accepts .letter true w →
      Accepts p false (c :: w)
  | minus {w} : Accepts .sign false w → Accepts .start false ('-' :: w)
  | sign {c w} : c = '+' ∨ c = '-' → Accepts .sign true w → Accepts .letter true (c :: w)

theorem eq_e_or_eq_E {c : Char} (hc : isExponentLetter c) : c = 'e' ∨ c = 'E' := by
  rw [isExponentLetter, Bool.or_eq_true, decide_eq_true_eq, decide_eq_true_eq] at hc
  exact hc

theorem not_isNumeralDigit {c : Char} (hc : isExponentLetter c) : ¬ isNumeralDigit c := by
  rcases eq_e_or_eq_E hc with rfl | rfl <;> exact Bool.false_ne_true

variable {p : Point} {e : Bool} {w ds rest : CString} {c d : Char} {s s' : JsonNumberState}

namespace JsonNumberState

/-- There was nothing but a zero, so no digit may follow. -/
def locked (s : JsonNumberState) : Bool := s.zeroStarted && !s.seenDot && !s.seenExponent

/-- Where a state of `JsonParseAsNumber` is in a number. -/
def point (s : JsonNumberState) : Point :=
  match s.prevChar with
  | none => .start
  | some c =>
    if isNumeralDigit c then if s.locked then .zero else .digit
    else if isExponentLetter c then .letter
    else if c = '.' then .dot
    else .sign

/-- A zero locks where it is the first character, and the letter of an exponent is remembered. -/
structure Consistent (s : JsonNumberState) : Prop where
  start : s.prevChar = none → s.zeroStarted = false ∧ s.seenDot = false ∧ s.seenExponent = false
  zero : s.locked → s.point = .zero
  letter : s.point = .letter → s.seenExponent

theorem point_behindDigit : s.point.behindDigit = s.behindDigit := by
  rw [point, behindDigit, Point.behindDigit]
  cases s.prevChar with
  | none => rfl
  | some c =>
    change _ = isNumeralDigit c
    dsimp only
    split
    · split <;> simp_all
    · split
      · simp_all
      · split <;> simp_all

/-- The state behind a character. -/
def push (s : JsonNumberState) (c : Char) : JsonNumberState :=
  ⟨s.zeroStarted || (c = '0' && s.prevChar.isNone), s.seenDot || c = '.',
    s.seenExponent || isExponentLetter c, some c, s.writer ++ [c]⟩

theorem read_digit (hd : isNumeralDigit d) :
    s.read d = if s.locked then none else some (s.push d) := by
  rw [isNumeralDigit] at hd
  by_cases hzero : d = '0'
  · subst hzero
    simp [read, push, locked, isExponentLetter]
  · have hdigit : isJsonDigit d := by simpa [hzero] using hd
    have hne : d ≠ '-' ∧ d ≠ '+' ∧ d ≠ '.' ∧ d ≠ 'e' ∧ d ≠ 'E' := by
      refine ⟨?_, ?_, ?_, ?_, ?_⟩ <;> rintro rfl <;> exact absurd hdigit (by decide)
    simp [read, push, locked, isExponentLetter, hzero, hdigit, hne]

theorem read_dot : s.read '.' = if s.behindDigit then some (s.push '.') else none := by
  simp [read, push, isExponentLetter]
  cases s.behindDigit <;> rfl

theorem read_letter (hc : isExponentLetter c) :
    s.read c = if !s.seenExponent && s.behindDigit then some (s.push c) else none := by
  rcases eq_e_or_eq_E hc with rfl | rfl
  · simp [read, push, isExponentLetter]
    cases s.seenExponent <;> cases s.behindDigit <;> rfl
  · simp [read, push, isExponentLetter]
    cases s.seenExponent <;> cases s.behindDigit <;> rfl

theorem read_minus :
    s.read '-' = if s.prevChar = none ∨ s.behindExponent then some (s.push '-') else none := by
  simp [read, push, isExponentLetter]
  cases s.prevChar <;> cases s.behindExponent <;> simp

theorem read_plus : s.read '+' = if s.behindExponent then some (s.push '+') else none := by
  simp [read, push, isExponentLetter]
  cases s.behindExponent <;> rfl

theorem read_other (hd : isNumeralDigit c = false) (hdot : c ≠ '.')
    (hletter : isExponentLetter c = false) (hminus : c ≠ '-') (hplus : c ≠ '+') :
    s.read c = none := by
  have hzero : c ≠ '0' := by
    rintro rfl
    cases hd
  have hdigit : isJsonDigit c = false := by simpa [isNumeralDigit, hzero] using hd
  have hne : c ≠ 'e' ∧ c ≠ 'E' := by simpa [isExponentLetter] using hletter
  simp [read, hzero, hdot, hne, hminus, hplus, hdigit]

/-! Where a character leads to. -/

theorem locked_push : (s.push c).locked =
    ((s.zeroStarted || (c = '0' && s.prevChar.isNone)) && !(s.seenDot || c = '.') &&
      !(s.seenExponent || isExponentLetter c)) := rfl

theorem point_push_digit (hd : isNumeralDigit d) :
    (s.push d).point = if (s.push d).locked then .zero else .digit := by
  rw [point]
  exact if_pos hd

theorem point_push_dot : (s.push '.').point = .dot := rfl

theorem point_push_letter (hc : isExponentLetter c) : (s.push c).point = .letter := by
  rcases eq_e_or_eq_E hc with rfl | rfl <;> rfl

theorem point_push_sign (hc : c = '+' ∨ c = '-') : (s.push c).point = .sign := by
  rcases hc with rfl | rfl <;> rfl

theorem point_eq_start : s.point = .start ↔ s.prevChar = none := by
  rw [point]
  cases s.prevChar with
  | none => exact iff_of_true rfl rfl
  | some c =>
    refine iff_of_false ?_ (Option.some_ne_none c)
    dsimp only
    split_ifs <;> exact not_false

theorem locked_of_point_eq_zero (h : s.point = .zero) : s.locked := by
  rw [point] at h
  cases hprev : s.prevChar with
  | none =>
    rw [hprev] at h
    cases h
  | some c =>
    rw [hprev] at h
    dsimp only at h
    split_ifs at h with hd hlocked
    exact hlocked

theorem point_eq_letter : s.point = .letter ↔ s.behindExponent := by
  rw [point, behindExponent]
  cases s.prevChar with
  | none => exact iff_of_false Point.noConfusion Bool.false_ne_true
  | some c =>
    change _ ↔ isExponentLetter c
    dsimp only
    split_ifs with hd hlocked hletter hdot
    · exact iff_of_false not_false fun hletter => absurd hd (not_isNumeralDigit hletter)
    · exact iff_of_false not_false fun hletter => absurd hd (not_isNumeralDigit hletter)
    · exact iff_of_true rfl hletter
    · exact iff_of_false not_false hletter
    · exact iff_of_false not_false hletter

theorem Consistent.locked_push_digit (h : s.Consistent) (hlocked : s.locked = false)
    (hd : isNumeralDigit d) : (s.push d).locked ↔ s.point = .start ∧ d = '0' := by
  have hdot : d ≠ '.' := by
    rintro rfl
    cases hd
  have hletter : isExponentLetter d = false := eq_false_of_ne_true fun h => not_isNumeralDigit h hd
  rw [locked] at hlocked
  rw [locked_push, point_eq_start, hletter, decide_eq_false hdot, Bool.or_false, Bool.or_false]
  cases hprev : s.prevChar with
  | none =>
    obtain ⟨hzero, hseen, hexponent⟩ := h.start hprev
    simp [hzero, hseen, hexponent]
  | some c => simpa using hlocked

/-! ## The state follows the automaton -/

theorem consistent_push_digit (hd : isNumeralDigit d) : (s.push d).Consistent where
  start := fun hprev => absurd hprev (Option.some_ne_none _)
  zero := fun hlocked => by rw [point_push_digit hd, if_pos hlocked]
  letter := fun hletter => by
    rw [point_push_digit hd] at hletter
    split_ifs at hletter

theorem consistent_push_dot : (s.push '.').Consistent where
  start := fun hprev => absurd hprev (Option.some_ne_none _)
  zero := fun hlocked => by
    rw [locked_push] at hlocked
    simp at hlocked
  letter := fun hletter => Point.noConfusion hletter

theorem consistent_push_letter (hc : isExponentLetter c) : (s.push c).Consistent where
  start := fun hprev => absurd hprev (Option.some_ne_none _)
  zero := fun hlocked => by
    rw [locked_push, hc] at hlocked
    simp at hlocked
  letter := fun _ => by
    rw [push, hc, Bool.or_true]

theorem Consistent.push_sign (h : s.Consistent) (hc : c = '+' ∨ c = '-')
    (hbehind : s.prevChar = none ∨ s.behindExponent) : (s.push c).Consistent where
  start := fun hprev => absurd hprev (Option.some_ne_none _)
  zero := fun hlocked => by
    rw [locked_push] at hlocked
    rcases hbehind with hprev | hletter
    · obtain ⟨hzero, -, -⟩ := h.start hprev
      rw [hzero] at hlocked
      rcases hc with rfl | rfl <;> simp at hlocked
    · rw [h.letter (point_eq_letter.mpr hletter), Bool.true_or, Bool.not_true,
        Bool.and_false] at hlocked
      cases hlocked
  letter := fun hletter => by
    rw [point_push_sign hc] at hletter
    cases hletter

end JsonNumberState

/-! What is accepted by its first character. -/

theorem accepts_nil_iff : Accepts p e [] ↔ p.behindDigit := by
  constructor
  · intro h
    cases h with
    | done hp => exact hp
  · exact .done

theorem accepts_digit_iff (hd : isNumeralDigit d) : Accepts p e (d :: w) ↔
    (p = .start ∧ e = false ∧ d = '0' ∧ Accepts .zero false w) ∨
      ((p = .start → d ≠ '0') ∧ p ≠ .zero ∧ Accepts .digit e w) := by
  constructor
  · intro h
    cases h with
    | zero h => exact .inl ⟨rfl, rfl, rfl, h⟩
    | digit hstart hzero _ h => exact .inr ⟨hstart, hzero, h⟩
    | letter _ hc _ => exact absurd hd (not_isNumeralDigit hc)
    | sign hc _ => rcases hc with rfl | rfl <;> cases hd
    | dot | minus => cases hd
  · rintro (⟨rfl, rfl, rfl, h⟩ | ⟨hstart, hzero, h⟩)
    · exact .zero h
    · exact .digit hstart hzero hd h

theorem accepts_dot_iff : Accepts p e ('.' :: w) ↔ p.behindDigit ∧ Accepts .dot e w := by
  constructor
  · intro h
    cases h with
    | dot hp h => exact ⟨hp, h⟩
    | digit _ _ hd _ | letter _ hd _ => cases hd
    | sign hc _ => rcases hc with hc | hc <;> exact absurd hc (by decide)
  · exact fun ⟨hp, h⟩ => .dot hp h

theorem accepts_letter_iff (hc : isExponentLetter c) :
    Accepts p e (c :: w) ↔ e = false ∧ p.behindDigit ∧ Accepts .letter true w := by
  constructor
  · intro h
    cases h with
    | letter hp _ h => exact ⟨rfl, hp, h⟩
    | digit _ _ hd _ => exact absurd hd (not_isNumeralDigit hc)
    | sign hs _ => rcases hs with rfl | rfl <;> cases hc
    | zero | dot | minus => cases hc
  · rintro ⟨rfl, hp, h⟩
    exact .letter hp hc h

theorem accepts_sign_iff (hc : c = '+' ∨ c = '-') : Accepts p e (c :: w) ↔
    (p = .start ∧ e = false ∧ c = '-' ∧ Accepts .sign false w) ∨
      (p = .letter ∧ e = true ∧ Accepts .sign true w) := by
  constructor
  · intro h
    cases h with
    | minus h => exact .inl ⟨rfl, rfl, rfl, h⟩
    | sign _ h => exact .inr ⟨rfl, rfl, h⟩
    | digit _ _ hd _ | letter _ hd _ => rcases hc with rfl | rfl <;> cases hd
    | zero | dot => rcases hc with hc | hc <;> exact absurd hc (by decide)
  · rintro (⟨rfl, rfl, rfl, h⟩ | ⟨rfl, rfl, h⟩)
    · exact .minus h
    · exact .sign hc h

theorem not_accepts_other (hd : isNumeralDigit c = false) (hdot : c ≠ '.')
    (hletter : isExponentLetter c = false) (hminus : c ≠ '-') (hplus : c ≠ '+') :
    ¬ Accepts p e (c :: w) := by
  intro h
  cases h with
  | digit _ _ h _ =>
    rw [hd] at h
    cases h
  | letter _ h _ =>
    rw [hletter] at h
    cases h
  | sign h _ => exact h.elim hplus hminus
  | zero => cases hd
  | dot => exact hdot rfl
  | minus => exact hminus rfl

namespace JsonNumberState.Consistent

/-- A digit is one step of the automaton. -/
theorem accepts_digit (h : s.Consistent) (hd : isNumeralDigit d) :
    Accepts s.point s.seenExponent (d :: w) ↔
      s.read d = some (s.push d) ∧ Accepts (s.push d).point (s.push d).seenExponent w := by
  have hletter : isExponentLetter d = false := eq_false_of_ne_true fun h => not_isNumeralDigit h hd
  have hexponent : (s.push d).seenExponent = s.seenExponent := by
    rw [push, hletter, Bool.or_false]
  rw [accepts_digit_iff hd, read_digit hd, point_push_digit hd, hexponent]
  cases hlocked : s.locked with
  | true =>
    rw [h.zero hlocked]
    simp
  | false =>
    have hpush := h.locked_push_digit hlocked hd
    have hpoint : s.point ≠ .zero := fun hp => by
      rw [locked_of_point_eq_zero hp] at hlocked
      cases hlocked
    have hread : (if false then none else some (s.push d)) = some (s.push d) := rfl
    by_cases hzero : s.point = .start ∧ d = '0'
    · have hseen := (h.start (point_eq_start.mp hzero.1)).2.2
      rw [if_pos (hpush.mpr hzero), hseen]
      simp [hzero]
    · rw [if_neg (mt hpush.mp hzero)]
      simp only [not_and] at hzero
      simp only [Bool.false_eq_true, if_false, true_and]
      constructor
      · rintro (⟨hp, -, hd, -⟩ | ⟨-, -, haccepts⟩)
        · exact absurd hd (hzero hp)
        · exact haccepts
      · exact fun haccepts => .inr ⟨hzero, hpoint, haccepts⟩

theorem accepts_dot : Accepts s.point s.seenExponent ('.' :: w) ↔
    s.read '.' = some (s.push '.') ∧ Accepts (s.push '.').point (s.push '.').seenExponent w := by
  have hexponent : (s.push '.').seenExponent = s.seenExponent := Bool.or_false _
  rw [accepts_dot_iff, read_dot, point_push_dot, point_behindDigit, hexponent]
  cases s.behindDigit <;> simp

theorem accepts_letter (hc : isExponentLetter c) : Accepts s.point s.seenExponent (c :: w) ↔
    s.read c = some (s.push c) ∧ Accepts (s.push c).point (s.push c).seenExponent w := by
  have hexponent : (s.push c).seenExponent = true := by
    rw [push, hc, Bool.or_true]
  rw [accepts_letter_iff hc, read_letter hc, point_push_letter hc, point_behindDigit, hexponent]
  cases s.seenExponent <;> cases s.behindDigit <;> simp

theorem accepts_sign (h : s.Consistent) (hc : c = '+' ∨ c = '-') :
    Accepts s.point s.seenExponent (c :: w) ↔
      s.read c = some (s.push c) ∧ Accepts (s.push c).point (s.push c).seenExponent w := by
  have hexponent : (s.push c).seenExponent = s.seenExponent := by
    rcases hc with rfl | rfl <;> exact Bool.or_false _
  have hstart : s.prevChar = none → s.seenExponent = false := fun hp => (h.start hp).2.2
  have hletter : s.behindExponent → s.seenExponent := fun hs => h.letter (point_eq_letter.mpr hs)
  rw [accepts_sign_iff hc, point_push_sign hc, hexponent, point_eq_start, point_eq_letter]
  rcases hc with rfl | rfl
  · rw [read_plus]
    cases hbehind : s.behindExponent with
    | false => simp
    | true =>
      rw [hletter hbehind]
      simp
  · rw [read_minus]
    cases hprev : s.prevChar with
    | none =>
      have hbehind : s.behindExponent = false := by
        rw [behindExponent, hprev]
        rfl
      rw [hstart hprev]
      simp [hbehind]
    | some c =>
      cases hbehind : s.behindExponent with
      | false => simp
      | true =>
        rw [hletter hbehind]
        simp

/-- A character is one step of the automaton. -/
theorem accepts_cons_iff (h : s.Consistent) : Accepts s.point s.seenExponent (c :: w) ↔
    s.read c = some (s.push c) ∧ Accepts (s.push c).point (s.push c).seenExponent w := by
  by_cases hd : isNumeralDigit c
  · exact h.accepts_digit hd
  by_cases hdot : c = '.'
  · rw [hdot]
    exact accepts_dot
  by_cases hletter : isExponentLetter c
  · exact accepts_letter hletter
  by_cases hsign : c = '+' ∨ c = '-'
  · exact h.accepts_sign hsign
  rw [not_or] at hsign
  have hd := eq_false_of_ne_true hd
  have hletter := eq_false_of_ne_true hletter
  refine iff_of_false (not_accepts_other hd hdot hletter hsign.2 hsign.1) fun h => ?_
  rw [read_other hd hdot hletter hsign.2 hsign.1] at h
  cases h.1

/-- The state stays consistent. -/
theorem read (h : s.Consistent) (hread : s.read c = some s') : s' = s.push c ∧ s'.Consistent := by
  by_cases hd : isNumeralDigit c
  · rw [read_digit hd] at hread
    split_ifs at hread
    cases hread
    exact ⟨rfl, consistent_push_digit hd⟩
  by_cases hdot : c = '.'
  · rw [hdot, read_dot] at hread
    split_ifs at hread
    cases hread
    exact ⟨hdot ▸ rfl, consistent_push_dot⟩
  by_cases hletter : isExponentLetter c
  · rw [read_letter hletter] at hread
    split_ifs at hread
    cases hread
    exact ⟨rfl, consistent_push_letter hletter⟩
  by_cases hplus : c = '+'
  · rw [hplus, read_plus] at hread
    split_ifs at hread with hbehind
    cases hread
    exact ⟨hplus ▸ rfl, h.push_sign (.inl rfl) (.inr hbehind)⟩
  by_cases hminus : c = '-'
  · rw [hminus, read_minus] at hread
    split_ifs at hread with hbehind
    cases hread
    exact ⟨hminus ▸ rfl, h.push_sign (.inr rfl) hbehind⟩
  rw [read_other (eq_false_of_ne_true hd) hdot (eq_false_of_ne_true hletter) hminus hplus] at hread
  cases hread

end JsonNumberState.Consistent

namespace JsonNumberState

/-! ## The loop -/

/-- The text is over, or goes on with a separator. -/
def IsRest (rest : CString) : Prop := ∀ c ∈ rest.head?, isJsonSeparator c

theorem loop_rest (hrest : IsRest rest) : jsonParseAsNumber.loop s rest = some (s, rest) := by
  cases rest with
  | nil => rfl
  | cons c rest => rw [jsonParseAsNumber.loop, if_pos (hrest c rfl)]

theorem loop_cons (hc : isJsonSeparator c = false) :
    jsonParseAsNumber.loop s (c :: w) = (s.read c).bind fun s => jsonParseAsNumber.loop s w := by
  rw [jsonParseAsNumber.loop, hc, if_neg Bool.false_ne_true]
  cases s.read c <;> rfl

/-- The automaton accepts exactly if the loop reaches the end of the number behind a digit. -/
theorem Consistent.accepts_iff (h : s.Consistent) (hw : ∀ c ∈ w, isJsonSeparator c = false)
    (hrest : IsRest rest) : Accepts s.point s.seenExponent w ↔
      jsonParseAsNumber.loop s (w ++ rest) = some (w.foldl push s, rest) ∧
        (w.foldl push s).behindDigit := by
  induction w generalizing s with
  | nil =>
    rw [List.nil_append, loop_rest hrest, ← point_behindDigit, List.foldl_nil]
    exact accepts_nil_iff.trans (and_iff_right rfl).symm
  | cons c w ih =>
    rw [h.accepts_cons_iff, List.cons_append, loop_cons (hw c List.mem_cons_self), List.foldl_cons]
    cases hread : s.read c with
    | none => simp
    | some s' =>
      obtain ⟨rfl, hconsistent⟩ := h.read hread
      rw [Option.bind_some, ih hconsistent fun c hc => hw c (List.mem_cons_of_mem _ hc)]
      exact and_iff_right rfl

/-- The loop stops nowhere else. -/
theorem Consistent.loop_eq (h : s.Consistent) (hw : ∀ c ∈ w, isJsonSeparator c = false)
    (hrest : IsRest rest) {result : JsonNumberState × CString}
    (hloop : jsonParseAsNumber.loop s (w ++ rest) = some result) :
    result = (w.foldl push s, rest) := by
  induction w generalizing s with
  | nil =>
    rw [List.nil_append, loop_rest hrest] at hloop
    exact (Option.some.inj hloop).symm
  | cons c w ih =>
    rw [List.cons_append, loop_cons (hw c List.mem_cons_self)] at hloop
    cases hread : s.read c with
    | none =>
      rw [hread] at hloop
      cases hloop
    | some s' =>
      obtain ⟨rfl, hconsistent⟩ := h.read hread
      rw [hread] at hloop
      exact ih hconsistent (fun c hc => hw c (List.mem_cons_of_mem _ hc)) hloop

theorem foldl_push_writer : (w.foldl push s).writer = s.writer ++ w := by
  induction w generalizing s with
  | nil => exact (List.append_nil _).symm
  | cons c w ih =>
    rw [List.foldl_cons, ih, push, List.append_assoc]
    rfl

theorem foldl_push_seenDot : (w.foldl push s).seenDot = (s.seenDot || w.contains '.') := by
  induction w generalizing s with
  | nil => simp
  | cons c w ih =>
    rw [List.foldl_cons, ih, push, Bool.or_assoc]
    simp [eq_comm]

theorem foldl_push_prevChar (hw : w ≠ []) : (w.foldl push s).prevChar = w.getLast? := by
  obtain ⟨w, c, rfl⟩ := List.eq_nil_or_concat' w |>.resolve_left hw
  rw [List.foldl_append, List.getLast?_concat]
  rfl

end JsonNumberState

open JsonNumberState

/-- The primitive of a number text. -/
def numberPrimitive (w : CString) : JsonElement :=
  jsonElementCreatePrimitive (if w.contains '.' then .real else .integer) w

/-- `JsonParseAsNumber` is the automaton. -/
theorem jsonParseAsNumber_iff (hw : ∀ c ∈ w, isJsonSeparator c = false) (hrest : IsRest rest)
    {result : JsonElement × CString} : jsonParseAsNumber (w ++ rest) = some result ↔
      Accepts .start false w ∧ ∃ c, w.getLast? = some c ∧
        result = (numberPrimitive w, c :: rest) := by
  have hconsistent : JsonNumberState.Consistent ⟨false, false, false, none, []⟩ :=
    ⟨fun _ => ⟨rfl, rfl, rfl⟩, fun h => absurd h Bool.false_ne_true, fun h => Point.noConfusion h⟩
  have haccepts := hconsistent.accepts_iff hw hrest
  change Accepts .start false w ↔ _ at haccepts
  rw [haccepts, jsonParseAsNumber]
  cases hloop : jsonParseAsNumber.loop ⟨false, false, false, none, []⟩ (w ++ rest) with
  | none => simp
  | some reached =>
    obtain rfl := hconsistent.loop_eq hw hrest hloop
    by_cases hnil : w = []
    · subst hnil
      simp [JsonNumberState.behindDigit]
    · obtain ⟨c, hc⟩ : ∃ c, w.getLast? = some c := ⟨_, List.getLast?_eq_some_getLast hnil⟩
      dsimp only
      rw [foldl_push_prevChar hnil, foldl_push_writer, foldl_push_seenDot, hc]
      cases (w.foldl push _).behindDigit with
      | false => simp
      | true =>
        constructor
        · intro hresult
          exact ⟨⟨rfl, rfl⟩, c, rfl, (Option.some.inj hresult).symm⟩
        · rintro ⟨-, _, hlast, rfl⟩
          rw [← Option.some.inj hlast]
          rfl

end Cfengine
