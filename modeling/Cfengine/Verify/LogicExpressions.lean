import Cfengine.LogicExpressions
import Cfengine.Verify.StringExpressions

/-!
# The grammar of class expressions

`ClassTree` are the derivation trees of the grammar of class expressions. A parsed text is the
text of a tree that stops (`ClassTree.Stops`) at what the parser leaves, and the other way round;
the value of the parsed expression is that of any tree with the text.
-/

namespace Cfengine
open Descent

/-- The nonterminals. -/
inductive ClassSym where
  | or | and | not | primary

/-- The spellings of the conjunction. -/
inductive AndOp where
  | dot | ampersand

def AndOp.char : AndOp → Char
  | dot => '.'
  | ampersand => '&'

/-- The spellings of the disjunction. -/
inductive OrOp where
  | bar | doubleBar

def OrOp.text : OrOp → CString
  | bar => ['|']
  | doubleBar => ['|', '|']

inductive ClassTree : ClassSym → Type where
  | ofAnd (a : ClassTree .and) : ClassTree .or
  | or (op : OrOp) (lhs : ClassTree .and) (rhs : ClassTree .or) : ClassTree .or
  | ofNot (n : ClassTree .not) : ClassTree .and
  | and (op : AndOp) (lhs : ClassTree .not) (rhs : ClassTree .and) : ClassTree .and
  | ofPrimary (p : ClassTree .primary) : ClassTree .not
  | not (p : ClassTree .primary) : ClassTree .not
  | group (e : ClassTree .or) : ClassTree .primary
  | name (n : StringTree .name) : ClassTree .primary

/-- The value of a name; it fails if a variable or the class has no value. -/
def StringTree.classValue (nameevalfn : CString → ExpressionValue)
    (varrefevalfn : CString → Option CString) (n : StringTree .name) : ExpressionValue :=
  match n.value varrefevalfn with
  | none => .expError
  | some name => nameevalfn name

namespace ClassTree

def text {sym : ClassSym} : ClassTree sym → CString
  | ofAnd a => a.text
  | or op lhs rhs => lhs.text ++ (op.text ++ rhs.text)
  | ofNot n => n.text
  | and op lhs rhs => lhs.text ++ op.char :: rhs.text
  | ofPrimary p => p.text
  | not p => '!' :: p.text
  | group e => '(' :: (e.text ++ [')'])
  | name n => n.text

/-- The names of an expression. -/
def names {sym : ClassSym} : ClassTree sym → List (StringTree .name)
  | ofAnd a => a.names
  | or _ lhs rhs => lhs.names ++ rhs.names
  | ofNot n => n.names
  | and _ lhs rhs => lhs.names ++ rhs.names
  | ofPrimary p => p.names
  | not p => p.names
  | group e => e.names
  | name n => [n]

/-- The Boolean value of an expression. -/
def truth {sym : ClassSym} (isTrue : StringTree .name → Bool) : ClassTree sym → Bool
  | ofAnd a => a.truth isTrue
  | or _ lhs rhs => lhs.truth isTrue || rhs.truth isTrue
  | ofNot n => n.truth isTrue
  | and _ lhs rhs => lhs.truth isTrue && rhs.truth isTrue
  | ofPrimary p => p.truth isTrue
  | not p => !p.truth isTrue
  | group e => e.truth isTrue
  | name n => isTrue n

/-- Some name of an expression fails. -/
def fails {sym : ClassSym} (nameevalfn : CString → ExpressionValue)
    (varrefevalfn : CString → Option CString) (t : ClassTree sym) : Bool :=
  t.names.any fun n => n.classValue nameevalfn varrefevalfn = .expError

/-- The value of an expression: an error if a name fails, and otherwise its truth. -/
def value {sym : ClassSym} (nameevalfn : CString → ExpressionValue)
    (varrefevalfn : CString → Option CString) (t : ClassTree sym) : ExpressionValue :=
  if t.fails nameevalfn varrefevalfn then .expError
  else .ofBool (t.truth fun n => n.classValue nameevalfn varrefevalfn = .expTrue)

/-- The text `rest` does not continue the expression in front of it. -/
def Stops {sym : ClassSym} (rest : CString) : ClassTree sym → Prop
  | ofAnd a => a.Stops rest ∧ '|' ∉ rest.head?
  | or _ _ rhs => rhs.Stops rest
  | ofNot n => n.Stops rest ∧ '.' ∉ rest.head? ∧ '&' ∉ rest.head?
  | and _ _ rhs => rhs.Stops rest
  | ofPrimary p => p.Stops rest
  | not p => p.Stops rest
  | group _ => True
  | name _ => NameStops rest

attribute [grind =] text names truth fails value Stops

end ClassTree

/-! ## What the functions accept -/

section
variable {parse parse' : Parser Char Expression} {s rest : CString} {e : Expression}

theorem parseStringExpression_ne_of_head {c : Char} {name : StringExpression}
    (hc : validTokenCharacter c = false) (hd : c ≠ '$') :
    parseStringExpression (c :: s) ≠ ⟨some name, rest⟩ := by
  intro h
  have := parseStringExpression_eq_none.mpr (parseTerm_eq_none_of_head (s := s) hc hd)
  rw [h] at this
  cases this

theorem parsePrimary_eq_some :
    parsePrimary parse s = ⟨some e, rest⟩ ↔
      (∃ next, s = '(' :: next ∧ parse next = ⟨some e, ')' :: rest⟩) ∨
        ∃ name, parseStringExpression s = ⟨some name, rest⟩ ∧ e = .eval name := by
  constructor
  · intro h
    rw [parsePrimary.eq_def] at h
    split at h
    · rename_i next
      obtain ⟨res, mid, hres, h⟩ := ParseResult.bind_eq_some.mp h
      cases mid with
      | nil => cases h
      | cons c next' =>
        by_cases hc : c = ')'
        · simp only [if_pos hc] at h
          cases h
          exact .inl ⟨next, rfl, by rw [hres, hc]⟩
        · simp only [if_neg hc] at h
          cases h
    · obtain ⟨name, mid, hname, h⟩ := ParseResult.bind_eq_some.mp h
      cases h
      exact .inr ⟨name, hname, rfl⟩
  · rintro (⟨next, rfl, hres⟩ | ⟨name, hname, rfl⟩)
    · simp [parsePrimary, hres]
    · rw [parsePrimary.eq_def]
      split
      · exact absurd hname (parseStringExpression_ne_of_head rfl (by decide))
      · rw [hname]
        rfl

theorem parsePrimary_ne_of_head {c : Char} (hc : validTokenCharacter c = false) (hd : c ≠ '$')
    (hb : c ≠ '(') : parsePrimary parse (c :: s) ≠ ⟨some e, rest⟩ := by
  intro h
  rcases parsePrimary_eq_some.mp h with ⟨next, h, -⟩ | ⟨name, h, -⟩
  · exact hb (List.cons.inj h).1
  · exact parseStringExpression_ne_of_head hc hd h

theorem parseNotExpression_eq_some :
    parseNotExpression parse s = ⟨some e, rest⟩ ↔
      (∃ next arg, s = '!' :: next ∧ parsePrimary parse next = ⟨some arg, rest⟩ ∧ e = .not arg) ∨
        parsePrimary parse s = ⟨some e, rest⟩ := by
  constructor
  · intro h
    rw [parseNotExpression.eq_def] at h
    split at h
    · rename_i next
      obtain ⟨arg, mid, harg, h⟩ := ParseResult.bind_eq_some.mp h
      cases h
      exact .inl ⟨next, arg, rfl, harg, rfl⟩
    · exact .inr h
  · rintro (⟨next, arg, rfl, harg, rfl⟩ | h)
    · simp [parseNotExpression, harg]
    · rw [parseNotExpression.eq_def]
      split
      · exact absurd h (parsePrimary_ne_of_head rfl (by decide) (by decide))
      · exact h

theorem AndOp.exists_char {c : Char} : (∃ op : AndOp, c = op.char) ↔ c = '.' ∨ c = '&' := by
  constructor
  · rintro ⟨_ | _, rfl⟩
    · exact .inl rfl
    · exact .inr rfl
  · rintro (rfl | rfl)
    · exact ⟨.dot, rfl⟩
    · exact ⟨.ampersand, rfl⟩

theorem parseAndExpression.body_eq_some {self : Parser Char Expression} :
    parseAndExpression.body parse self s = ⟨some e, rest⟩ ↔
      ∃ lhs mid, parseNotExpression parse s = ⟨some lhs, mid⟩ ∧
        ('.' ∉ mid.head? ∧ '&' ∉ mid.head? ∧ e = lhs ∧ rest = mid ∨
          ∃ (op : AndOp) (next : CString) (rhs : Expression), mid = op.char :: next ∧
            self next = ⟨some rhs, rest⟩ ∧ e = .and lhs rhs) := by
  rw [parseAndExpression.body, ParseResult.bind_eq_some]
  refine exists_congr fun lhs => exists_congr fun mid => and_congr_right fun _ => ?_
  constructor
  · intro h
    cases mid with
    | nil =>
      cases h
      exact .inl ⟨nofun, nofun, rfl, rfl⟩
    | cons c next =>
      by_cases hc : c = '.' || c = '&'
      · simp only [if_pos hc] at h
        obtain ⟨op, rfl⟩ := AndOp.exists_char.mpr (by simpa using hc)
        obtain ⟨rhs, mid, hrhs, h⟩ := ParseResult.bind_eq_some.mp h
        cases h
        exact .inr ⟨op, next, rhs, rfl, hrhs, rfl⟩
      · simp only [if_neg hc] at h
        cases h
        simp only [Bool.or_eq_true, decide_eq_true_eq, not_or] at hc
        exact .inl ⟨fun h => hc.1 (Option.some.inj h), fun h => hc.2 (Option.some.inj h), rfl, rfl⟩
  · rintro (⟨hdot, hamp, rfl, rfl⟩ | ⟨op, next, rhs, rfl, hrhs, rfl⟩)
    · cases rest with
      | nil => rfl
      | cons c next =>
        refine if_neg ?_
        simp only [Bool.or_eq_true, decide_eq_true_eq, not_or]
        exact ⟨fun hc => hdot (congrArg some hc), fun hc => hamp (congrArg some hc)⟩
    · have hc : op.char = '.' || op.char = '&' := by cases op <;> rfl
      simp [hc, hrhs]

theorem parseExpression.body_eq_some :
    parseExpression.body parse s = ⟨some e, rest⟩ ↔
      ∃ lhs mid, parseAndExpression parse s = ⟨some lhs, mid⟩ ∧
        ('|' ∉ mid.head? ∧ e = lhs ∧ rest = mid ∨
          ∃ next rhs, mid = '|' :: next ∧ parse (skipBar next) = ⟨some rhs, rest⟩ ∧
            e = .or lhs rhs) := by
  rw [parseExpression.body, ParseResult.bind_eq_some]
  refine exists_congr fun lhs => exists_congr fun mid => and_congr_right fun _ => ?_
  constructor
  · intro h
    cases mid with
    | nil =>
      cases h
      exact .inl ⟨nofun, rfl, rfl⟩
    | cons c next =>
      by_cases hc : c = '|'
      · subst hc
        obtain ⟨rhs, mid, hrhs, h⟩ := ParseResult.bind_eq_some.mp (by simpa using h)
        cases h
        exact .inr ⟨next, rhs, rfl, hrhs, rfl⟩
      · simp only [if_neg hc] at h
        cases h
        exact .inl ⟨fun h => hc (Option.some.inj h), rfl, rfl⟩
  · rintro (⟨hbar, rfl, rfl⟩ | ⟨next, rhs, rfl, hrhs, rfl⟩)
    · cases rest with
      | nil => rfl
      | cons c next => exact if_neg fun hc => hbar (congrArg some hc)
    · simp [hrhs]

/-! ## The recursion -/

theorem parsePrimary_shortens (hp : Shortens parse) : Shortens (parsePrimary parse) := by
  intro s e rest h
  rcases parsePrimary_eq_some.mp h with ⟨next, rfl, hres⟩ | ⟨name, hname, -⟩
  · have := hp hres
    simp only [List.length_cons] at this ⊢
    omega
  · exact shortens_recurse parseStringExpression_guarded hname

theorem parseNotExpression_shortens (hp : Shortens parse) :
    Shortens (parseNotExpression parse) := by
  intro s e rest h
  rcases parseNotExpression_eq_some.mp h with ⟨next, arg, rfl, harg, -⟩ | h
  · have := parsePrimary_shortens hp harg
    simp only [List.length_cons]
    omega
  · exact parsePrimary_shortens hp h

theorem parsePrimary_congr (h : AgreeBelow s.length parse parse') :
    parsePrimary parse s = parsePrimary parse' s := by
  rw [parsePrimary.eq_def, parsePrimary.eq_def]
  split
  · rw [h _ (Nat.lt_succ_self _)]
  · rfl

theorem parseNotExpression_congr (h : AgreeBelow s.length parse parse') :
    parseNotExpression parse s = parseNotExpression parse' s := by
  rw [parseNotExpression.eq_def, parseNotExpression.eq_def]
  split
  · rw [parsePrimary_congr (h.mono (Nat.le_succ _))]
  · exact parsePrimary_congr h

theorem parseAndExpression_guarded (hp : Shortens parse) :
    Guarded (parseAndExpression.body parse) where
  shortens self hself s e rest h := by
    obtain ⟨lhs, mid, hlhs, hcases⟩ := parseAndExpression.body_eq_some.mp h
    have hl := parseNotExpression_shortens hp hlhs
    rcases hcases with ⟨-, -, -, rfl⟩ | ⟨op, next, rhs, rfl, hrhs, -⟩
    · exact hl
    · have hr := hself hrhs
      simp only [List.length_cons] at hl
      omega
  congr self self' s _ _ h := by
    refine ParseResult.bind_congr fun lhs rest hlhs => ?_
    have hlen := parseNotExpression_shortens hp hlhs
    cases rest with
    | nil => rfl
    | cons c next =>
      have : self next = self' next := h next (by simp only [List.length_cons] at hlen; omega)
      simp only [this]

theorem parseAndExpression_congr (hp : Shortens parse) (hp' : Shortens parse')
    (h : AgreeBelow s.length parse parse') :
    parseAndExpression parse s = parseAndExpression parse' s := by
  refine recurse_congr (parseAndExpression_guarded hp) (parseAndExpression_guarded hp')
    fun self t _ ht => ?_
  rw [parseAndExpression.body, parseAndExpression.body, parseNotExpression_congr (h.mono ht)]

theorem length_skipBar_le : (skipBar s).length ≤ s.length := by
  cases s with
  | nil => exact Nat.le_refl _
  | cons c next =>
    rw [skipBar]
    split
    · exact Nat.le_succ _
    · exact Nat.le_refl _

theorem parseExpression_guarded : Guarded parseExpression.body where
  shortens parse hp s e rest h := by
    obtain ⟨lhs, mid, hlhs, hcases⟩ := parseExpression.body_eq_some.mp h
    have hl := shortens_recurse (parseAndExpression_guarded hp) hlhs
    rcases hcases with ⟨-, -, rfl⟩ | ⟨next, rhs, rfl, hrhs, -⟩
    · exact hl
    · have hr := hp hrhs
      have := length_skipBar_le (s := next)
      simp only [List.length_cons] at hl
      omega
  congr parse parse' s hp hp' h := by
    rw [parseExpression.body, parseExpression.body, ← parseAndExpression_congr hp hp' h]
    refine ParseResult.bind_congr fun lhs rest hlhs => ?_
    have hlen := shortens_recurse (parseAndExpression_guarded hp) hlhs
    cases rest with
    | nil => rfl
    | cons c next =>
      have : parse (skipBar next) = parse' (skipBar next) := by
        have := length_skipBar_le (s := next)
        simp only [List.length_cons] at hlen
        exact h _ (by omega)
      simp only [this]

end

/-- The parser of each nonterminal. -/
def ClassSym.parse : ClassSym → Parser Char Expression
  | or => parseExpression
  | and => parseAndExpression parseExpression
  | not => parseNotExpression parseExpression
  | primary => parsePrimary parseExpression

theorem parseExpression_shortens : Shortens parseExpression :=
  shortens_recurse parseExpression_guarded

theorem parseExpression_eq (s : CString) :
    parseExpression s = parseExpression.body parseExpression s :=
  recurse_eq parseExpression_guarded s

theorem parseAndExpression_eq (s : CString) :
    parseAndExpression parseExpression s =
      parseAndExpression.body parseExpression (parseAndExpression parseExpression) s :=
  recurse_eq (parseAndExpression_guarded parseExpression_shortens) s

/-! ## Evaluation -/

section
variable {nameevalfn : CString → ExpressionValue} {varrefevalfn : CString → Option CString}
  {lhs rhs : Expression}

namespace ClassTree

theorem value_or {op : OrOp} {l : ClassTree .and} {r : ClassTree .or}
    (hl : evalExpression nameevalfn varrefevalfn lhs = l.value nameevalfn varrefevalfn)
    (hr : evalExpression nameevalfn varrefevalfn rhs = r.value nameevalfn varrefevalfn) :
    evalExpression nameevalfn varrefevalfn (.or lhs rhs) =
      (or op l r).value nameevalfn varrefevalfn := by
  have hfails : (or op l r).fails nameevalfn varrefevalfn =
      (l.fails nameevalfn varrefevalfn || r.fails nameevalfn varrefevalfn) := List.any_append
  rw [evalExpression, hl, hr, value, value, value, hfails, truth]
  generalize l.fails _ _ = lfails, r.fails _ _ = rfails, l.truth _ = ltrue, r.truth _ = rtrue
  revert lfails rfails ltrue rtrue
  decide

theorem value_and {op : AndOp} {l : ClassTree .not} {r : ClassTree .and}
    (hl : evalExpression nameevalfn varrefevalfn lhs = l.value nameevalfn varrefevalfn)
    (hr : evalExpression nameevalfn varrefevalfn rhs = r.value nameevalfn varrefevalfn) :
    evalExpression nameevalfn varrefevalfn (.and lhs rhs) =
      (and op l r).value nameevalfn varrefevalfn := by
  have hfails : (and op l r).fails nameevalfn varrefevalfn =
      (l.fails nameevalfn varrefevalfn || r.fails nameevalfn varrefevalfn) := List.any_append
  rw [evalExpression, hl, hr, value, value, value, hfails, truth]
  generalize l.fails _ _ = lfails, r.fails _ _ = rfails, l.truth _ = ltrue, r.truth _ = rtrue
  revert lfails rfails ltrue rtrue
  decide

theorem value_not {p : ClassTree .primary}
    (hp : evalExpression nameevalfn varrefevalfn lhs = p.value nameevalfn varrefevalfn) :
    evalExpression nameevalfn varrefevalfn (.not lhs) =
      (not p).value nameevalfn varrefevalfn := by
  have hfails : (not p).fails nameevalfn varrefevalfn = p.fails nameevalfn varrefevalfn := rfl
  rw [evalExpression, hp, value, value, hfails, truth]
  generalize p.fails _ _ = fails, p.truth _ = isTrue
  revert fails isTrue
  decide

theorem value_name {name : StringExpression} {n : StringTree .name}
    (hn : evalStringExpression varrefevalfn name = n.value varrefevalfn) :
    evalExpression nameevalfn varrefevalfn (.eval name) =
      (ClassTree.name n).value nameevalfn varrefevalfn := by
  have hfails : (ClassTree.name n).fails nameevalfn varrefevalfn =
      decide (n.classValue nameevalfn varrefevalfn = .expError) := Bool.or_false _
  rw [evalExpression, hn, value, hfails, truth]
  change n.classValue nameevalfn varrefevalfn = _
  cases n.classValue nameevalfn varrefevalfn <;> rfl

end ClassTree

end

/-! ## Soundness -/

section
variable {s rest : CString} {e : Expression}

/-- What is parsed is the text of a tree, which stops there. -/
theorem ClassSym.parse_sound (sym : ClassSym) (h : sym.parse s = ⟨some e, rest⟩) :
    ∃ t : ClassTree sym, s = t.text ++ rest ∧ t.Stops rest := by
  generalize hlen : s.length = len
  induction len using Nat.strongRecOn generalizing sym s e rest with
  | _ len ih =>
    subst hlen
    have hprimary : ∀ {e rest}, ClassSym.primary.parse s = ⟨some e, rest⟩ →
        ∃ t : ClassTree .primary, s = t.text ++ rest ∧ t.Stops rest := by
      intro e rest h
      rcases parsePrimary_eq_some.mp h with ⟨next, rfl, hres⟩ | ⟨name, hname, -⟩
      · obtain ⟨t, rfl, -⟩ := ih _ (Nat.lt_succ_self _) .or hres rfl
        exact ⟨.group t, by simp [ClassTree.text], trivial⟩
      · obtain ⟨⟨n, hn⟩, hstop⟩ := parseStringExpression_sound hname
        exact ⟨.name n, hn, parseTerm_eq_none_iff.mp hstop⟩
    have hnot : ∀ {e rest}, ClassSym.not.parse s = ⟨some e, rest⟩ →
        ∃ t : ClassTree .not, s = t.text ++ rest ∧ t.Stops rest := by
      intro e rest h
      rcases parseNotExpression_eq_some.mp h with ⟨next, arg, rfl, harg, -⟩ | h
      · obtain ⟨t, rfl, hstop⟩ := ih _ (Nat.lt_succ_self _) .primary harg rfl
        exact ⟨.not t, rfl, hstop⟩
      · obtain ⟨t, ht, hstop⟩ := hprimary h
        exact ⟨.ofPrimary t, ht, hstop⟩
    have hand : ∀ {e rest}, ClassSym.and.parse s = ⟨some e, rest⟩ →
        ∃ t : ClassTree .and, s = t.text ++ rest ∧ t.Stops rest := by
      intro e rest h
      rw [ClassSym.parse, parseAndExpression_eq] at h
      obtain ⟨lhs, mid, hlhs, hcases⟩ := parseAndExpression.body_eq_some.mp h
      have hshort := parseNotExpression_shortens parseExpression_shortens hlhs
      obtain ⟨l, hl, hlstop⟩ := hnot hlhs
      rcases hcases with ⟨hdot, hamp, -, rfl⟩ | ⟨op, next, rhs, rfl, hrhs, -⟩
      · exact ⟨.ofNot l, hl, hlstop, hdot, hamp⟩
      · obtain ⟨r, rfl, hstop⟩ := ih next.length
          (Nat.lt_of_succ_lt hshort) .and hrhs rfl
        exact ⟨.and op l r, by simpa [ClassTree.text] using hl, hstop⟩
    cases sym with
    | primary => exact hprimary h
    | not => exact hnot h
    | and => exact hand h
    | or =>
      rw [ClassSym.parse, parseExpression_eq] at h
      obtain ⟨lhs, mid, hlhs, hcases⟩ := parseExpression.body_eq_some.mp h
      have hshort := shortens_recurse (parseAndExpression_guarded parseExpression_shortens) hlhs
      obtain ⟨l, hl, hlstop⟩ := hand hlhs
      rcases hcases with ⟨hbar, -, rfl⟩ | ⟨next, rhs, rfl, hrhs, -⟩
      · exact ⟨.ofAnd l, hl, hlstop, hbar⟩
      · have hle := length_skipBar_le (s := next)
        simp only [List.length_cons] at hshort
        obtain ⟨r, hr, hstop⟩ := ih (skipBar next).length (by omega) .or hrhs rfl
        obtain ⟨op, hop⟩ : ∃ op : OrOp, '|' :: next = op.text ++ skipBar next := by
          cases next with
          | nil => exact ⟨.bar, rfl⟩
          | cons c next =>
            by_cases hc : c = '|'
            · exact ⟨.doubleBar, by simp [skipBar, hc, OrOp.text]⟩
            · exact ⟨.bar, by simp [skipBar, hc, OrOp.text]⟩
        refine ⟨.or op l r, ?_, hstop⟩
        rw [hl, hop, hr]
        simp [ClassTree.text]

/-! ## Completeness -/

/-- The character ends every expression of the nonterminal. -/
def ClassSym.Closes (sym : ClassSym) (c : Char) : Prop :=
  validTokenCharacter c = false ∧ c ≠ '$' ∧
    match sym with
    | primary | not => True
    | and => c ≠ '.' ∧ c ≠ '&'
    | or => c ≠ '.' ∧ c ≠ '&' ∧ c ≠ '|'

theorem NameStops.of_head {c : Char} (hc : validTokenCharacter c = false) (hd : c ≠ '$') :
    NameStops (c :: rest) :=
  parseTerm_eq_none_iff.mp (parseTerm_eq_none_of_head hc hd)

theorem ClassTree.stops_of_closes {sym : ClassSym} (t : ClassTree sym) {c : Char}
    (hc : sym.Closes c) : t.Stops (c :: rest) := by
  induction t with
  | ofAnd a ih => exact ⟨ih ⟨hc.1, hc.2.1, hc.2.2.1, hc.2.2.2.1⟩, by simpa using hc.2.2.2.2⟩
  | or _ _ rhs _ ih => exact ih hc
  | ofNot n ih => exact ⟨ih ⟨hc.1, hc.2.1, trivial⟩, by simpa using hc.2.2⟩
  | and _ _ rhs _ ih => exact ih hc
  | ofPrimary p ih => exact ih hc
  | not p ih => exact ih hc
  | group _ => trivial
  | name _ => exact .of_head hc.1 hc.2.1

/-- At the end of the text every expression stops. -/
theorem ClassTree.stops_nil {sym : ClassSym} (t : ClassTree sym) : t.Stops [] := by
  induction t with
  | ofAnd a ih => exact ⟨ih, nofun⟩
  | or _ _ rhs _ ih => exact ih
  | ofNot n ih => exact ⟨ih, nofun, nofun⟩
  | and _ _ rhs _ ih => exact ih
  | ofPrimary p ih => exact ih
  | not p ih => exact ih
  | group _ => trivial
  | name _ => exact ⟨nofun, nofun⟩

theorem StringTree.exists_cons {sym : StringSym} (t : StringTree sym) :
    ∃ c cs, t.text = c :: cs ∧ (validTokenCharacter c = true ∨ c = '$') := by
  induction t with
  | token t =>
    obtain ⟨c, cs, hcs⟩ := List.exists_cons_of_ne_nil t.ne_nil
    exact ⟨c, cs, hcs, .inl (t.valid c (by rw [hcs]; exact List.mem_cons_self))⟩
  | varRef b q => exact ⟨'$', _, rfl, .inr rfl⟩
  | last t ih => exact ih
  | plain n ih => exact ih
  | cons t n ih | dotted t n ih =>
    obtain ⟨c, cs, hcs, hc⟩ := ih
    exact ⟨c, cs ++ _, by rw [text, hcs]; rfl, hc⟩

/-- No expression begins with an operator or a closing bracket. -/
theorem ClassTree.exists_cons {sym : ClassSym} (t : ClassTree sym) :
    ∃ c cs, t.text = c :: cs ∧ c ∉ ['.', '&', '|', ')'] := by
  induction t with
  | ofAnd t ih | ofNot t ih | ofPrimary t ih => exact ih
  | or _ l r ih | and _ l r ih =>
    obtain ⟨c, cs, hcs, hc⟩ := ih
    exact ⟨c, cs ++ _, by rw [text, hcs]; rfl, hc⟩
  | not p => exact ⟨'!', _, rfl, by decide⟩
  | group e => exact ⟨'(', _, rfl, by decide⟩
  | name n =>
    obtain ⟨c, cs, hcs, hc⟩ := n.exists_cons
    refine ⟨c, cs, hcs, fun hmem => ?_⟩
    rcases hc with hc | rfl
    · revert hc
      simp only [List.mem_cons, List.not_mem_nil, or_false] at hmem
      rcases hmem with rfl | rfl | rfl | rfl <;> decide
    · revert hmem
      decide

/-- Every tree is parsed, up to a text at which it stops. -/
theorem ClassTree.parse_complete {sym : ClassSym} (t : ClassTree sym) (hstop : t.Stops rest) :
    ∃ e, sym.parse (t.text ++ rest) = ⟨some e, rest⟩ ∧ ∀ nameevalfn varrefevalfn,
      evalExpression nameevalfn varrefevalfn e = t.value nameevalfn varrefevalfn := by
  induction t generalizing rest with
  | ofAnd a ih =>
    obtain ⟨e, ha, he⟩ := ih hstop.1
    refine ⟨e, ?_, he⟩
    rw [ClassSym.parse, parseExpression_eq]
    exact parseExpression.body_eq_some.mpr ⟨e, rest, ha, .inl ⟨hstop.2, rfl, rfl⟩⟩
  | or op l r ihl ihr =>
    have hlstop : l.Stops (op.text ++ (r.text ++ rest)) := by
      cases op <;> exact l.stops_of_closes ⟨rfl, by decide, by decide⟩
    obtain ⟨lhs, hl, hlv⟩ := ihl hlstop
    obtain ⟨rhs, hr, hrv⟩ := ihr hstop
    refine ⟨.or lhs rhs, ?_, fun _ _ => value_or (hlv _ _) (hrv _ _)⟩
    obtain ⟨c, cs, hcs, hc⟩ := r.exists_cons
    have hbar : c ≠ '|' := by
      rintro rfl
      exact hc (by decide)
    obtain ⟨next, hnext, hskip⟩ : ∃ next, op.text ++ (r.text ++ rest) = '|' :: next ∧
        skipBar next = r.text ++ rest := by
      cases op with
      | bar => exact ⟨r.text ++ rest, rfl, by rw [hcs]; exact if_neg hbar⟩
      | doubleBar => exact ⟨'|' :: (r.text ++ rest), rfl, rfl⟩
    rw [ClassSym.parse, parseExpression_eq, text, List.append_assoc, List.append_assoc]
    refine parseExpression.body_eq_some.mpr ⟨lhs, _, hl, .inr ⟨next, rhs, hnext, ?_, rfl⟩⟩
    rw [hskip]
    exact hr
  | ofNot n ih =>
    obtain ⟨e, hn, he⟩ := ih hstop.1
    refine ⟨e, ?_, he⟩
    rw [ClassSym.parse, parseAndExpression_eq]
    exact parseAndExpression.body_eq_some.mpr
      ⟨e, rest, hn, .inl ⟨hstop.2.1, hstop.2.2, rfl, rfl⟩⟩
  | and op l r ihl ihr =>
    have hlstop : l.Stops (op.char :: (r.text ++ rest)) := by
      cases op <;> exact l.stops_of_closes ⟨rfl, by decide, trivial⟩
    obtain ⟨lhs, hl, hlv⟩ := ihl hlstop
    obtain ⟨rhs, hr, hrv⟩ := ihr hstop
    refine ⟨.and lhs rhs, ?_, fun _ _ => value_and (hlv _ _) (hrv _ _)⟩
    rw [ClassSym.parse, parseAndExpression_eq, text, List.append_assoc]
    exact parseAndExpression.body_eq_some.mpr ⟨lhs, _, hl, .inr ⟨op, _, rhs, rfl, hr, rfl⟩⟩
  | ofPrimary p ih =>
    obtain ⟨e, hp, he⟩ := ih hstop
    exact ⟨e, parseNotExpression_eq_some.mpr (.inr hp), he⟩
  | not p ih =>
    obtain ⟨e, hp, he⟩ := ih hstop
    exact ⟨.not e, parseNotExpression_eq_some.mpr (.inl ⟨_, e, rfl, hp, rfl⟩),
      fun _ _ => value_not (he _ _)⟩
  | group e ih =>
    have hstop : e.Stops (')' :: rest) :=
      e.stops_of_closes ⟨rfl, by decide, by decide, by decide, by decide⟩
    obtain ⟨res, he, hv⟩ := ih hstop
    refine ⟨res, ?_, hv⟩
    rw [ClassSym.parse, text, List.cons_append, List.append_assoc]
    exact parsePrimary_eq_some.mpr (.inl ⟨_, rfl, he⟩)
  | name n =>
    obtain ⟨name, hn, hv⟩ := readsName_of_stops n hstop
    exact ⟨.eval name, parsePrimary_eq_some.mpr (.inr ⟨name, hn, rfl⟩),
      fun _ _ => value_name (hv _)⟩

/-! ## The language -/

/-- The parser stops behind the longest class expression. -/
theorem parseExpression_iff :
    (∃ e, parseExpression s = ⟨some e, rest⟩) ↔
      ∃ t : ClassTree .or, s = t.text ++ rest ∧ t.Stops rest := by
  constructor
  · rintro ⟨e, h⟩
    exact ClassSym.parse_sound .or h
  · rintro ⟨t, rfl, hstop⟩
    obtain ⟨e, h, -⟩ := t.parse_complete hstop
    exact ⟨e, h⟩

/-- **Class expressions.** The strings that are parsed to their end are those that the grammar
derives, and the expression has the value of every derivation: an error if some name fails, and
otherwise its truth. -/
theorem parseExpression_correct :
    (∀ s, (∃ e, parseExpression s = ⟨some e, []⟩) ↔ ∃ t : ClassTree .or, t.text = s) ∧
      ∀ t : ClassTree .or, ∃ e, parseExpression t.text = ⟨some e, []⟩ ∧
        ∀ nameevalfn varrefevalfn,
          evalExpression nameevalfn varrefevalfn e = t.value nameevalfn varrefevalfn := by
  refine ⟨fun s => ?_, fun t => ?_⟩
  · rw [parseExpression_iff]
    refine exists_congr fun t => ?_
    rw [List.append_nil, and_iff_left t.stops_nil, eq_comm]
  · obtain ⟨e, h, hv⟩ := t.parse_complete t.stops_nil
    rw [List.append_nil] at h
    exact ⟨e, h, hv⟩

end

end Cfengine
