import Cfengine.Variables

/-!
# Recognising references

`RefText` is the reference grammar: identifier characters and properly nested `$(..)` and `${..}`.
The extractors cut such text at its brackets whatever their kinds. The scan of `IsCf3VarString`
remembers only the last bracket it saw open, and therefore sees a reference only if the last
bracket opened inside it is of its own kind.
-/

namespace Cfengine

/-- The characters of variable names. -/
def isIdentChar (c : Char) : Bool := c.isAlphanum || c ∈ ['_', '.', ':', '-', '[', ']']

abbrev IdentChar := {c : Char // isIdentChar c = true}

/-- Text with references. -/
inductive RefText where
  | nil
  | chr (c : IdentChar) (rest : RefText)
  | ref (bracket : Bracket) (name rest : RefText)
deriving DecidableEq

namespace RefText

def text : RefText → CString
  | nil => []
  | chr c rest => c.1 :: rest.text
  | ref b name rest => '$' :: b.opening :: (name.text ++ b.closing :: rest.text)

def hasRef : RefText → Bool
  | nil => false
  | chr _ rest => rest.hasRef
  | ref .. => true

/-- The last bracket that the text opens. -/
def lastOpened : RefText → Option Bracket
  | nil => none
  | chr _ rest => rest.lastOpened
  | ref b name rest => (rest.lastOpened <|> name.lastOpened) <|> some b

/-- In some top-level reference the last bracket opened is of the kind of the reference. -/
def recognised : RefText → Bool
  | nil => false
  | chr _ rest => rest.recognised
  | ref b name rest => name.lastOpened.getD b = b || rest.recognised

end RefText

/-! ## Characters -/

theorem IdentChar.ne (c : IdentChar) {d : Char} (hd : isIdentChar d = false) : c.1 ≠ d := by
  rintro rfl
  rw [c.2] at hd
  cases hd

@[simp] theorem isOpenBracket_opening (b : Bracket) : isOpenBracket b.opening = true := by
  cases b <;> rfl

@[simp] theorem isCloseBracket_closing (b : Bracket) : isCloseBracket b.closing = true := by
  cases b <;> rfl

@[simp] theorem isOpenBracket_closing (b : Bracket) : isOpenBracket b.closing = false := by
  cases b <;> rfl

@[simp] theorem isOpenBracket_identChar (c : IdentChar) : isOpenBracket c.1 = false := by
  simp [isOpenBracket, c.ne (d := '(') rfl, c.ne (d := '{') rfl]

@[simp] theorem isCloseBracket_identChar (c : IdentChar) : isCloseBracket c.1 = false := by
  simp [isCloseBracket, c.ne (d := ')') rfl, c.ne (d := '}') rfl]

@[simp] theorem startsWithBracket_opening (b : Bracket) (rest : CString) :
    startsWithBracket (b.opening :: rest) = true := isOpenBracket_opening b

variable {left right : Char} {dollar : Bool} {bracks : Int} {vars : Nat} {rest : CString}
  {b b' : Bracket}

@[simp] theorem isBracketPair_brackets : isBracketPair b'.opening b.closing = decide (b' = b) := by
  cases b <;> cases b' <;> rfl

/-! ## The scan of `IsCf3VarString` -/

/-- The scan of the rest of a string in `IsCf3VarString`. -/
abbrev scanCf3 : VarScan → CString → Option VarScan := scanVars ['$', '@'] true

/-- Nothing is counted inside of a reference, ... -/
theorem VarScan.count_inside (h : bracks ≠ 0) :
    VarScan.count ⟨left, right, dollar, bracks, vars⟩ = ⟨left, right, dollar, bracks, vars⟩ := by
  simp [count, h]

/-- ... without a sigil, ... -/
theorem VarScan.count_literal :
    VarScan.count ⟨left, right, false, bracks, vars⟩ = ⟨left, right, false, bracks, vars⟩ := by
  simp [count]

/-- ... and behind brackets that are no pair. -/
theorem VarScan.count_unpaired (h : isBracketPair left right = false) :
    VarScan.count ⟨left, right, dollar, bracks, vars⟩ = ⟨left, right, dollar, bracks, vars⟩ := by
  simp [count, h]

theorem VarScan.count_paired (h : isBracketPair left right = true) :
    VarScan.count ⟨left, right, true, 0, vars⟩ = ⟨left, right, false, 0, vars + 1⟩ := by
  simp [count, h]

theorem scanCf3_identChar (c : IdentChar) (scan : VarScan) :
    scanCf3 scan (c.1 :: rest) = scanCf3 scan.count rest := by
  have hread : scan.read ['$', '@'] c.1 rest = scan := by
    simp [VarScan.read, c.ne (d := '$') rfl, c.ne (d := '@') rfl]
  simp [scanCf3, scanVars, hread, c.ne (d := '/') rfl]

theorem scanCf3_sigil :
    scanCf3 ⟨left, right, dollar, bracks, vars⟩ ('$' :: b.opening :: rest) =
      scanCf3 (VarScan.count ⟨left, right, true, bracks, vars⟩) (b.opening :: rest) := by
  simp [scanCf3, scanVars, VarScan.read]

theorem scanCf3_opening :
    scanCf3 ⟨left, right, true, bracks, vars⟩ (b.opening :: rest) =
      scanCf3 (VarScan.count ⟨b.opening, right, true, bracks + 1, vars⟩) rest := by
  cases b <;> simp [scanCf3, scanVars, VarScan.read, isOpenBracket, Bracket.opening]

theorem scanCf3_closing :
    scanCf3 ⟨left, right, true, bracks, vars⟩ (b.closing :: rest) =
      scanCf3 (VarScan.count ⟨left, b.closing, true, bracks - 1, vars⟩) rest := by
  cases b <;>
    simp [scanCf3, scanVars, VarScan.read, isOpenBracket, isCloseBracket, Bracket.closing]

theorem scanCf3_literal {c : Char} (hc : isOpenBracket c || isCloseBracket c) :
    scanCf3 ⟨left, right, false, bracks, vars⟩ (c :: rest) =
      scanCf3 ⟨left, right, false, bracks, vars⟩ rest := by
  have hsigil : c ∉ ['$', '@'] := by
    rintro h
    simp only [List.mem_cons, List.not_mem_nil, or_false] at h
    rcases h with rfl | rfl <;> cases hc
  have hslash : c ≠ '/' := by
    rintro rfl
    cases hc
  have hread : VarScan.read ['$', '@'] ⟨left, right, false, bracks, vars⟩ c rest =
      ⟨left, right, false, bracks, vars⟩ := by
    rw [VarScan.read, if_neg hsigil]
    simp
  simp [scanCf3, scanVars, hread, hslash, VarScan.count_literal]

variable (left right vars rest) in
/-- Inside a reference only the last brackets change. -/
theorem scanCf3_inside (t : RefText) (hbracks : 0 < bracks) :
    ∃ right', scanCf3 ⟨left, right, true, bracks, vars⟩ (t.text ++ rest) =
      scanCf3 ⟨t.lastOpened.elim left Bracket.opening, right', true, bracks, vars⟩ rest := by
  induction t generalizing left right bracks rest with
  | nil => exact ⟨right, rfl⟩
  | chr c t ih =>
    rw [RefText.text, List.cons_append, scanCf3_identChar, VarScan.count_inside (by omega)]
    exact ih _ _ _ hbracks
  | ref b name t ihname iht =>
    rw [RefText.text, List.cons_append, List.cons_append, List.append_assoc, List.cons_append,
      scanCf3_sigil, VarScan.count_inside (by omega),
      scanCf3_opening, VarScan.count_inside (by omega)]
    have hnested : 0 < bracks + 1 := by omega
    obtain ⟨right₁, hname⟩ := ihname b.opening right (b.closing :: (t.text ++ rest)) hnested
    rw [hname, scanCf3_closing, Int.add_sub_cancel, VarScan.count_inside (by omega)]
    obtain ⟨right₂, ht⟩ := iht _ b.closing rest hbracks
    refine ⟨right₂, ht.trans ?_⟩
    rw [RefText.lastOpened]
    cases t.lastOpened <;> cases name.lastOpened <;> rfl

variable (vars rest) in
/-- Once the last brackets are a pair outside of a reference, every `$` is counted and the
brackets behind it are ignored. -/
theorem scanCf3_paired (t : RefText) (hpair : isBracketPair left right = true) :
    ∃ vars' ≥ vars, scanCf3 ⟨left, right, false, 0, vars⟩ (t.text ++ rest) =
      scanCf3 ⟨left, right, false, 0, vars'⟩ rest := by
  induction t generalizing vars rest with
  | nil => exact ⟨vars, Nat.le_refl _, rfl⟩
  | chr c t ih =>
    rw [RefText.text, List.cons_append, scanCf3_identChar, VarScan.count_literal]
    exact ih _ _
  | ref b name t ihname iht =>
    obtain ⟨vars₁, hvars₁, hname⟩ := ihname (vars + 1) (b.closing :: (t.text ++ rest))
    obtain ⟨vars₂, hvars₂, ht⟩ := iht vars₁ rest
    refine ⟨vars₂, by omega, ?_⟩
    rw [RefText.text, List.cons_append, List.cons_append, List.append_assoc, List.cons_append,
      scanCf3_sigil, VarScan.count_paired hpair, scanCf3_literal (by simp), hname,
      scanCf3_literal (by simp), ht]

variable (dollar) in
/-- As long as no reference was recognised, the scan of a reference recognises it or changes
nothing that matters. -/
theorem scanCf3_unpaired (t : RefText) (hpair : isBracketPair left right = false) :
    ∃ scan, scanCf3 ⟨left, right, dollar, 0, 0⟩ t.text = some scan ∧ scan.bracks = 0 ∧
      (scan.vars ≠ 0 ↔ t.recognised = true) := by
  induction t generalizing left right dollar with
  | nil => exact ⟨_, rfl, rfl, by simp [RefText.recognised]⟩
  | chr c t ih =>
    rw [RefText.text, scanCf3_identChar, VarScan.count_unpaired hpair]
    exact ih _ hpair
  | ref b name t _ iht =>
    obtain ⟨right', hname⟩ :=
      scanCf3_inside b.opening right 0 (b.closing :: t.text) name Int.one_pos
    have hleft : name.lastOpened.elim b.opening Bracket.opening =
        (name.lastOpened.getD b).opening := by
      cases name.lastOpened <;> rfl
    rw [RefText.text, scanCf3_sigil, VarScan.count_unpaired hpair, scanCf3_opening,
      VarScan.count_inside (by decide), Int.zero_add, hname, scanCf3_closing, hleft, Int.sub_self]
    by_cases hb : name.lastOpened.getD b = b
    · obtain ⟨vars', hvars', ht⟩ := scanCf3_paired 1 [] t
        (isBracketPair_brackets.trans (decide_eq_true hb))
      rw [List.append_nil] at ht
      refine ⟨_, (congrArg (scanCf3 · t.text) (VarScan.count_paired
        (isBracketPair_brackets.trans (decide_eq_true hb)))).trans ht, rfl, ?_⟩
      simpa [RefText.recognised, hb] using Nat.ne_of_gt hvars'
    · have hpair' := isBracketPair_brackets.trans (decide_eq_false hb)
      rw [VarScan.count_unpaired hpair']
      obtain ⟨scan, ht, hbracks, hiff⟩ := iht _ hpair'
      exact ⟨scan, ht, hbracks, by simp [hiff, RefText.recognised, hb]⟩

theorem isCf3VarString_text (t : RefText) :
    isCf3VarString t.text ≠ 0 ↔ t.recognised = true := by
  have hpair : isBracketPair 'x' 'x' = false := rfl
  obtain ⟨scan, hscan, hbracks, hiff⟩ := scanCf3_unpaired false t hpair
  have hcount : isCf3VarString t.text = scan.vars := by
    simp [isCf3VarString, hscan, hbracks]
  rw [hcount, hiff]

/-- **When `IsCf3VarString` agrees with the grammar**: if the text has no reference, or if in some
top-level reference the last bracket opened is of the kind of the reference. -/
theorem isCf3VarString_iff_hasRef (t : RefText) :
    (isCf3VarString t.text ≠ 0 ↔ t.hasRef = true) ↔ (t.hasRef = true → t.recognised = true) := by
  have hrec : t.recognised = true → t.hasRef = true := by
    intro h
    induction t with
    | nil => cases h
    | chr c t ih => exact ih h
    | ref b name t => rfl
  rw [isCf3VarString_text]
  exact ⟨fun h => h.mpr, fun h => ⟨hrec, h⟩⟩

theorem isIdentChar_a : isIdentChar 'a' = true := rfl

/-- `${a$(b)}` -/
def mixedRef : RefText :=
  .ref .brace (.chr ⟨'a', rfl⟩ (.ref .paren (.chr ⟨'b', rfl⟩ .nil) .nil)) .nil

theorem isCf3VarString_mixedRef :
    mixedRef.text = "${a$(b)}".toList ∧ mixedRef.hasRef = true ∧ isCf3VarString mixedRef.text = 0 ∧
      ¬ (isCf3VarString mixedRef.text ≠ 0 ↔ mixedRef.hasRef = true) := by
  decide

end Cfengine
