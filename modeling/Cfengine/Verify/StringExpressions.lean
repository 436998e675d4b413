import Cfengine.StringExpressions

/-!
# The grammar of names

`StringTree` are the derivation trees of the grammar of names, with their text and their value.
The parser takes tokens as long as it can, so it does not distinguish two adjacent tokens from one,
and all trees of a text have the value that the parser's expression evaluates to.
-/

namespace Cfengine
open Descent

/-- A non-empty run of token characters. -/
structure Token where
  chars : CString
  ne_nil : chars ≠ []
  valid : ∀ c ∈ chars, validTokenCharacter c = true

/-- The nonterminals. -/
inductive StringSym where
  | term | name | qname

inductive StringTree : StringSym → Type where
  | token (t : Token) : StringTree .term
  | varRef (b : Bracket) (q : StringTree .qname) : StringTree .term
  | last (t : StringTree .term) : StringTree .name
  | cons (t : StringTree .term) (n : StringTree .name) : StringTree .name
  | plain (n : StringTree .name) : StringTree .qname
  | dotted (scope n : StringTree .name) : StringTree .qname

/-- The string a name stands for, given the values of the variables. -/
abbrev NameValue := (CString → Option CString) → Option CString

namespace NameValue

def literal (s : CString) : NameValue := fun _ => some s

def append (v w : NameValue) : NameValue := fun evalfn => do
  let v ← v evalfn
  let w ← w evalfn
  return v ++ w

theorem append_assoc (u v w : NameValue) : (u.append v).append w = u.append (v.append w) := by
  funext evalfn
  simp only [append]
  cases u evalfn <;> cases v evalfn <;> cases w evalfn <;> simp

theorem literal_append (s t : CString) : (literal s).append (literal t) = literal (s ++ t) := rfl

@[simp] theorem literal_nil_append (v : NameValue) : (literal []).append v = v := by
  funext evalfn
  simp only [append, literal]
  cases v evalfn <;> rfl

@[simp] theorem append_literal_nil (v : NameValue) : v.append (literal []) = v := by
  funext evalfn
  simp only [append, literal]
  cases v evalfn <;> simp

end NameValue

namespace StringTree

def text {sym : StringSym} : StringTree sym → CString
  | token t => t.chars
  | varRef b q => '$' :: b.opening :: (q.text ++ [b.closing])
  | last t => t.text
  | cons t n => t.text ++ n.text
  | plain n => n.text
  | dotted scope n => scope.text ++ '.' :: n.text

def value {sym : StringSym} : StringTree sym → NameValue
  | token t => .literal t.chars
  | varRef _ q => fun evalfn => (q.value evalfn).bind evalfn
  | last t => t.value
  | cons t n => t.value.append n.value
  | plain n => n.value
  | dotted scope n => scope.value.append ((NameValue.literal ['.']).append n.value)

attribute [grind =] text value

end StringTree

/-- No term begins here. -/
def NameStops (rest : CString) : Prop :=
  (∀ c ∈ rest.head?, validTokenCharacter c = false) ∧
    ∀ (b : Bracket) (q : StringTree .qname) (rest' : CString),
      rest ≠ '$' :: b.opening :: (q.text ++ b.closing :: rest')

/-! ## What the functions accept -/

section
variable {parse parse' : Parser Char StringExpression} {s rest : CString} {e : StringExpression}

theorem parseToken_eq_some :
    parseToken s = ⟨some e, rest⟩ ↔ ∃ t : Token, s = t.chars ++ rest ∧
      (∀ c ∈ rest.head?, validTokenCharacter c = false) ∧ e = .literal t.chars := by
  rw [parseToken]
  constructor
  · intro h
    split at h
    · cases h
    · rename_i hne
      cases h
      refine ⟨⟨_, hne, fun c hc => List.all_eq_true.mp List.all_takeWhile c hc⟩,
        List.takeWhile_append_dropWhile.symm, fun c hc => ?_, rfl⟩
      have := List.head?_dropWhile_not validTokenCharacter s
      rw [Option.mem_def.mp hc] at this
      simpa using this
  · rintro ⟨t, rfl, hrest, rfl⟩
    have htake : (t.chars ++ rest).takeWhile validTokenCharacter = t.chars := by
      rw [List.takeWhile_append_of_pos t.valid]
      cases rest with
      | nil => simp
      | cons c rest => simp [hrest c rfl]
    have hdrop : (t.chars ++ rest).dropWhile validTokenCharacter = rest := by
      rw [List.dropWhile_append_of_pos t.valid]
      cases rest with
      | nil => rfl
      | cons c rest => simp [hrest c rfl]
    simp only [htake, hdrop, if_neg t.ne_nil]

theorem parseToken_eq_none :
    (parseToken s).result = none ↔ ∀ c ∈ s.head?, validTokenCharacter c = false := by
  cases s with
  | nil => simp [parseToken]
  | cons c s => cases hc : validTokenCharacter c <;> simp [parseToken, hc]

theorem parseQname_eq_some :
    parseQname parse s = ⟨some e, rest⟩ ↔
      (parse s = ⟨some e, rest⟩ ∧ '.' ∉ rest.head?) ∨
        ∃ lhs rhs mid, parse s = ⟨some lhs, '.' :: mid⟩ ∧ parse mid = ⟨some rhs, rest⟩ ∧
          e = .concat lhs (.concat (.literal ['.']) rhs) := by
  rw [parseQname, ParseResult.bind_eq_some]
  constructor
  · rintro ⟨lhs, mid, hlhs, h⟩
    cases mid with
    | nil =>
      cases h
      exact .inl ⟨hlhs, nofun⟩
    | cons c next =>
      by_cases hc : c = '.'
      · subst hc
        obtain ⟨rhs, mid, hrhs, h⟩ := ParseResult.bind_eq_some.mp (by simpa using h)
        cases h
        exact .inr ⟨lhs, rhs, next, hlhs, hrhs, rfl⟩
      · simp only [if_neg hc] at h
        cases h
        exact .inl ⟨hlhs, fun h => hc (Option.some.inj h)⟩
  · rintro (⟨hparse, hdot⟩ | ⟨lhs, rhs, mid, hlhs, hrhs, rfl⟩)
    · refine ⟨e, rest, hparse, ?_⟩
      cases rest with
      | nil => rfl
      | cons c next => exact if_neg fun hc => hdot (congrArg some hc)
    · exact ⟨lhs, _, hlhs, by simp [hrhs]⟩

theorem parseVarRef_eq_some :
    parseVarRef parse s = ⟨some e, rest⟩ ↔ ∃ (b : Bracket) (next : CString) (name : _),
      s = '$' :: b.opening :: next ∧ parseQname parse next = ⟨some name, b.closing :: rest⟩ ∧
        e = .varref name := by
  constructor
  · intro h
    rw [parseVarRef.eq_def] at h
    split at h
    · rename_i dollar bracket next
      by_cases hdollar : dollar = '$'
      · by_cases hbracket : bracket = '(' || bracket = '{'
        · obtain ⟨b, hb, hclosing⟩ : ∃ b : Bracket, bracket = b.opening ∧
              (if bracket = '(' then ')' else '}') = b.closing := by
            rcases by simpa using hbracket with rfl | rfl
            · exact ⟨.paren, rfl, rfl⟩
            · exact ⟨.brace, rfl, rfl⟩
          simp only [if_pos hdollar, if_pos hbracket, hclosing] at h
          obtain ⟨name, mid, hname, h⟩ := ParseResult.bind_eq_some.mp h
          cases mid with
          | nil => cases h
          | cons c next' =>
            by_cases hc : c = b.closing
            · simp only [if_pos hc] at h
              cases h
              exact ⟨b, next, name, by rw [hdollar, hb], by rw [hname, hc], rfl⟩
            · simp only [if_neg hc] at h
              cases h
        · simp only [if_pos hdollar, if_neg hbracket] at h
          cases h
      · rw [if_neg hdollar] at h
        cases h
    · cases h
  · rintro ⟨b, next, name, rfl, hname, rfl⟩
    cases b with
    | paren | brace =>
      simp [parseVarRef, Bracket.opening] at hname ⊢
      simp [hname, Bracket.closing]

theorem parseTerm_eq_some :
    parseTerm parse s = ⟨some e, rest⟩ ↔
      parseToken s = ⟨some e, rest⟩ ∨ parseVarRef parse s = ⟨some e, rest⟩ := by
  rw [parseTerm]
  cases htoken : parseToken s with
  | mk result rest' =>
    cases result with
    | none => simp
    | some lit =>
      refine (or_iff_left fun h => ?_).symm
      obtain ⟨b, next, name, rfl, -⟩ := parseVarRef_eq_some.mp h
      have : (parseToken ('$' :: b.opening :: next)).result = none :=
        parseToken_eq_none.mpr fun c hc => by cases hc; rfl
      rw [htoken] at this
      cases this

/-! ## The recursion -/

theorem parseToken_shortens : Shortens parseToken := by
  intro s e rest h
  obtain ⟨t, rfl, -⟩ := parseToken_eq_some.mp h
  have := List.length_pos_iff.mpr t.ne_nil
  simp only [List.length_append]
  omega

theorem parseQname_shortens (hp : Shortens parse) : Shortens (parseQname parse) := by
  intro s e rest h
  rcases parseQname_eq_some.mp h with ⟨h, -⟩ | ⟨lhs, rhs, mid, hlhs, hrhs, -⟩
  · exact hp h
  · have hl := hp hlhs
    have hr := hp hrhs
    simp only [List.length_cons] at hl
    omega

theorem parseVarRef_shortens (hp : Shortens parse) : Shortens (parseVarRef parse) := by
  intro s e rest h
  obtain ⟨b, next, name, rfl, hname, -⟩ := parseVarRef_eq_some.mp h
  have := parseQname_shortens hp hname
  simp only [List.length_cons] at this ⊢
  omega

theorem parseTerm_shortens (hp : Shortens parse) : Shortens (parseTerm parse) := by
  intro s e rest h
  rcases parseTerm_eq_some.mp h with h | h
  · exact parseToken_shortens h
  · exact parseVarRef_shortens hp h

theorem parseQname_congr (hp : Shortens parse) (h : ∀ t, t.length ≤ s.length → parse t = parse' t) :
    parseQname parse s = parseQname parse' s := by
  rw [parseQname, parseQname, ← h s (Nat.le_refl _)]
  refine ParseResult.bind_congr fun lhs rest hlhs => ?_
  have hlen := hp hlhs
  cases rest with
  | nil => rfl
  | cons c next =>
    have : parse next = parse' next := h next (by simp only [List.length_cons] at hlen; omega)
    simp only [this]

theorem parseVarRef_congr (hp : Shortens parse) (h : AgreeBelow s.length parse parse') :
    parseVarRef parse s = parseVarRef parse' s := by
  rw [parseVarRef.eq_def, parseVarRef.eq_def]
  split
  · rename_i dollar bracket next
    have : parseQname parse next = parseQname parse' next :=
      parseQname_congr hp fun t ht => h t (by simp only [List.length_cons]; omega)
    rw [this]
  · rfl

theorem parseStringExpression_guarded : Guarded parseStringExpression.body where
  shortens parse hp s e rest h := by
    obtain ⟨lhs, mid, hlhs, h⟩ := ParseResult.bind_eq_some.mp h
    have hl := parseTerm_shortens hp hlhs
    split at h
    · rename_i rhs rest' hrhs
      cases h
      have := hp hrhs
      omega
    · cases h
      exact hl
  congr parse parse' s hp _ h := by
    have hterm : parseTerm parse s = parseTerm parse' s := by
      rw [parseTerm, parseTerm, parseVarRef_congr hp h]
    rw [parseStringExpression.body, parseStringExpression.body, ← hterm]
    refine ParseResult.bind_congr fun lhs rest hlhs => ?_
    rw [h rest (parseTerm_shortens hp hlhs)]

/-- A name begins with a term. -/
theorem parseStringExpression_eq_some :
    parseStringExpression s = ⟨some e, rest⟩ ↔
      ∃ lhs mid, parseTerm parseStringExpression s = ⟨some lhs, mid⟩ ∧
        ((parseStringExpression mid).result = none ∧ e = lhs ∧ rest = mid ∨
          ∃ rhs, parseStringExpression mid = ⟨some rhs, rest⟩ ∧ e = .concat lhs rhs) := by
  rw [parseStringExpression, recurse_eq parseStringExpression_guarded, ← parseStringExpression,
    parseStringExpression.body, ParseResult.bind_eq_some]
  refine exists_congr fun lhs => exists_congr fun mid => and_congr_right fun _ => ?_
  obtain ⟨_ | rhs, rest'⟩ := parseStringExpression mid
  · simp [eq_comm]
  · simp only [reduceCtorEq, false_and, false_or, ParseResult.mk.injEq, Option.some.injEq]
    constructor
    · rintro ⟨rfl, rfl⟩
      exact ⟨rhs, ⟨rfl, rfl⟩, rfl⟩
    · rintro ⟨_, ⟨rfl, rfl⟩, rfl⟩
      exact ⟨rfl, rfl⟩

theorem parseStringExpression_eq_none :
    (parseStringExpression s).result = none ↔
      (parseTerm parseStringExpression s).result = none := by
  rw [parseStringExpression, recurse_eq parseStringExpression_guarded, ← parseStringExpression,
    parseStringExpression.body]
  obtain ⟨_ | lhs, mid⟩ := parseTerm parseStringExpression s
  · exact iff_of_true rfl rfl
  · refine iff_of_false (fun h => ?_) (Option.some_ne_none _)
    rw [ParseResult.some_bind] at h
    split at h <;> cases h

/-! ## Soundness -/

theorem parseQname_sound
    (ih : ∀ t, t.length ≤ s.length → ∀ e rest, parse t = ⟨some e, rest⟩ →
      ∃ n : StringTree .name, t = n.text ++ rest) (hp : Shortens parse)
    (h : parseQname parse s = ⟨some e, rest⟩) : ∃ q : StringTree .qname, s = q.text ++ rest := by
  rcases parseQname_eq_some.mp h with ⟨h, -⟩ | ⟨lhs, rhs, mid, hlhs, hrhs, -⟩
  · obtain ⟨n, hn⟩ := ih s (Nat.le_refl _) _ _ h
    exact ⟨.plain n, hn⟩
  · have hlen := hp hlhs
    simp only [List.length_cons] at hlen
    obtain ⟨scope, hscope⟩ := ih s (Nat.le_refl _) _ _ hlhs
    obtain ⟨n, rfl⟩ := ih mid (by omega) _ _ hrhs
    exact ⟨.dotted scope n, by simpa [StringTree.text] using hscope⟩

theorem parseTerm_sound
    (ih : ∀ t, t.length < s.length → ∀ e rest, parse t = ⟨some e, rest⟩ →
      ∃ n : StringTree .name, t = n.text ++ rest) (hp : Shortens parse)
    (h : parseTerm parse s = ⟨some e, rest⟩) : ∃ t : StringTree .term, s = t.text ++ rest := by
  rcases parseTerm_eq_some.mp h with h | h
  · obtain ⟨t, hs, -⟩ := parseToken_eq_some.mp h
    exact ⟨.token t, hs⟩
  · obtain ⟨b, next, name, rfl, hname, -⟩ := parseVarRef_eq_some.mp h
    obtain ⟨q, rfl⟩ := parseQname_sound
      (fun t ht => ih t (by simp only [List.length_cons]; omega)) hp hname
    exact ⟨.varRef b q, by simp [StringTree.text]⟩

/-- What the parser takes is a name, and it stops where no term follows. -/
theorem parseStringExpression_sound (h : parseStringExpression s = ⟨some e, rest⟩) :
    (∃ n : StringTree .name, s = n.text ++ rest) ∧
      (parseTerm parseStringExpression rest).result = none := by
  generalize hlen : s.length = len
  induction len using Nat.strongRecOn generalizing s e rest with
  | _ len ih =>
    subst hlen
    have hshortens := shortens_recurse parseStringExpression_guarded
    obtain ⟨lhs, mid, hlhs, hcases⟩ := parseStringExpression_eq_some.mp h
    have hmid := parseTerm_shortens hshortens hlhs
    obtain ⟨t, rfl⟩ := parseTerm_sound (fun t ht e rest h => (ih _ ht h rfl).1) hshortens hlhs
    rcases hcases with ⟨hnone, -, rfl⟩ | ⟨rhs, hrhs, -⟩
    · exact ⟨⟨.last t, rfl⟩, parseStringExpression_eq_none.mp hnone⟩
    · obtain ⟨⟨n, rfl⟩, hstop⟩ := ih _ hmid hrhs rfl
      exact ⟨⟨.cons t n, by simp [StringTree.text]⟩, hstop⟩

end

/-! ## Completeness -/

section
variable {s rest p : CString} {v : NameValue}

/-- `s` is parsed as a name up to `rest`, whose value is `v`. -/
def ReadsName (s rest : CString) (v : NameValue) : Prop :=
  ∃ e, parseStringExpression s = ⟨some e, rest⟩ ∧
    ∀ evalfn, evalStringExpression evalfn e = v evalfn

/-- Behind a term, `s` is parsed up to `rest`, possibly as nothing. -/
def ReadsRest (s rest : CString) (v : NameValue) : Prop :=
  (parseStringExpression s).result = none ∧ rest = s ∧ v = .literal [] ∨ ReadsName s rest v

/-- A run of token characters, possibly empty. -/
def TokenChars (p : CString) : Prop := ∀ c ∈ p, validTokenCharacter c = true

theorem readsName_of_parseTerm {lhs : StringExpression} {mid : CString} {u : NameValue}
    (hterm : parseTerm parseStringExpression s = ⟨some lhs, mid⟩)
    (hlhs : ∀ evalfn, evalStringExpression evalfn lhs = u evalfn) (h : ReadsRest mid rest v) :
    ReadsName s rest (u.append v) := by
  rcases h with ⟨hnone, rfl, rfl⟩ | ⟨rhs, hrhs, hv⟩
  · refine ⟨lhs, parseStringExpression_eq_some.mpr ⟨lhs, _, hterm, .inl ⟨hnone, rfl, rfl⟩⟩, ?_⟩
    rw [NameValue.append_literal_nil]
    exact hlhs
  · refine ⟨.concat lhs rhs,
      parseStringExpression_eq_some.mpr ⟨lhs, mid, hterm, .inr ⟨rhs, hrhs, rfl⟩⟩, fun evalfn => ?_⟩
    rw [evalStringExpression, hlhs, hv]
    rfl

/-- A token in front of what is no token character is one term. -/
theorem readsName_token (hp : TokenChars p) (hne : p ≠ [])
    (hs : ∀ c ∈ s.head?, validTokenCharacter c = false) (h : ReadsRest s rest v) :
    ReadsName (p ++ s) rest ((NameValue.literal p).append v) :=
  readsName_of_parseTerm (parseTerm_eq_some.mpr <| .inl <|
    parseToken_eq_some.mpr ⟨⟨p, hne, hp⟩, rfl, hs, rfl⟩) (fun _ => rfl) h

theorem noTokenCharacter_of_parseTerm (h : (parseTerm parseStringExpression s).result = none) :
    ∀ c ∈ s.head?, validTokenCharacter c = false := by
  refine parseToken_eq_none.mp (Option.not_isSome_iff_eq_none.mp fun hsome => ?_)
  rw [parseTerm, if_pos hsome] at h
  rw [h] at hsome
  cases hsome

/-- Where the parser stops, a token can end. -/
theorem readsRest_of_stop (h : (parseTerm parseStringExpression s).result = none)
    (hp : TokenChars p) : ReadsRest (p ++ s) s (.literal p) := by
  have hrest : ReadsRest s s (.literal []) :=
    .inl ⟨parseStringExpression_eq_none.mpr h, rfl, rfl⟩
  by_cases hne : p = []
  · subst hne
    exact hrest
  · exact .inr (by simpa using readsName_token hp hne (noTokenCharacter_of_parseTerm h) hrest)

theorem parseTerm_eq_none_of_head {c : Char} (hc : validTokenCharacter c = false) (hd : c ≠ '$') :
    (parseTerm parseStringExpression (c :: s)).result = none := by
  have htoken : parseToken (c :: s) = ⟨none, c :: s⟩ := by simp [parseToken, hc]
  rw [parseTerm, htoken]
  cases s <;> simp [parseVarRef, hd]

/-- The parser reads every tree, also behind a token that it takes together with the first token
of the tree. -/
def StringTree.Reads {sym : StringSym} (t : StringTree sym) : Prop :=
  match sym with
  | .term | .name => ∀ s rest v,
      (∀ p, TokenChars p → ReadsRest (p ++ s) rest ((NameValue.literal p).append v)) →
      ∀ p, TokenChars p →
        ReadsName (p ++ (t.text ++ s)) rest ((NameValue.literal p).append (t.value.append v))
  | .qname => ∀ (b : Bracket) (rest : CString), ∃ e,
      parseQname parseStringExpression (t.text ++ b.closing :: rest) =
        ⟨some e, b.closing :: rest⟩ ∧ ∀ evalfn, evalStringExpression evalfn e = t.value evalfn

/-- A name is read up to where the parser stops. -/
theorem StringTree.Reads.name {n : StringTree .name} (h : n.Reads)
    (hstop : (parseTerm parseStringExpression rest).result = none) :
    ReadsName (n.text ++ rest) rest n.value := by
  have := h rest rest (.literal []) (fun p hp => ?_) [] nofun
  · simpa using this
  · rw [NameValue.append_literal_nil]
    exact readsRest_of_stop hstop hp

theorem StringTree.reads {sym : StringSym} (t : StringTree sym) : t.Reads := by
  induction t with
  | token t =>
    intro s rest v h p hp
    have hpt : TokenChars (p ++ t.chars) := fun c hc =>
      (List.mem_append.mp hc).elim (hp c) (t.valid c)
    rw [← NameValue.append_assoc, value, NameValue.literal_append, text, ← List.append_assoc]
    refine (h _ hpt).resolve_left fun hstop => ?_
    have hhead := noTokenCharacter_of_parseTerm (parseStringExpression_eq_none.mp hstop.1)
    obtain ⟨c, cs, hcs⟩ :=
      List.exists_cons_of_ne_nil (List.append_ne_nil_of_right_ne_nil p t.ne_nil)
    have hc := hpt c (by rw [hcs]; exact List.mem_cons_self)
    rw [hhead c (by rw [hcs]; rfl)] at hc
    cases hc
  | varRef b q ih =>
    intro s rest v h p hp
    obtain ⟨e, hq, he⟩ := ih b s
    have hterm : parseTerm parseStringExpression ((varRef b q).text ++ s) = ⟨some (.varref e), s⟩ :=
      parseTerm_eq_some.mpr <| .inr <| parseVarRef_eq_some.mpr ⟨b, _, e, by simp [text], hq, rfl⟩
    have hread : ReadsName ((varRef b q).text ++ s) rest ((varRef b q).value.append v) := by
      refine readsName_of_parseTerm hterm (fun evalfn => ?_) (by simpa using h [] nofun)
      rw [evalStringExpression, he]
      rfl
    by_cases hne : p = []
    · subst hne
      simpa using hread
    · refine readsName_token hp hne ?_ (.inr hread)
      rintro c ⟨⟩
      rfl
  | last t ih => exact ih
  | cons t n iht ihn =>
    intro s rest v h p hp
    have := iht (n.text ++ s) rest (n.value.append v) (fun p hp => .inr (ihn s rest v h p hp)) p hp
    rw [← NameValue.append_assoc t.value, ← List.append_assoc t.text] at this
    exact this
  | plain n ih =>
    intro b rest
    have hstop : (parseTerm parseStringExpression (b.closing :: rest)).result = none :=
      parseTerm_eq_none_of_head (by cases b <;> rfl) (by cases b <;> decide)
    obtain ⟨e, hn, he⟩ := ih.name hstop
    exact ⟨e, parseQname_eq_some.mpr (.inl ⟨hn, by cases b <;> nofun⟩), he⟩
  | dotted scope n ihs ihn =>
    intro b rest
    have hdot : (parseTerm parseStringExpression
        ('.' :: (n.text ++ b.closing :: rest))).result = none :=
      parseTerm_eq_none_of_head rfl (by decide)
    have hstop : (parseTerm parseStringExpression (b.closing :: rest)).result = none :=
      parseTerm_eq_none_of_head (by cases b <;> rfl) (by cases b <;> decide)
    obtain ⟨lhs, hscope, hlhs⟩ := ihs.name hdot
    obtain ⟨rhs, hn, hrhs⟩ := ihn.name hstop
    refine ⟨_, parseQname_eq_some.mpr (.inr ⟨lhs, rhs, _, ?_, hn, rfl⟩), fun evalfn => ?_⟩
    · rw [text, List.append_assoc]
      exact hscope
    · simp only [evalStringExpression, hlhs, hrhs]
      rfl

/-- The parser finds no term exactly where the grammar has none. -/
theorem parseTerm_eq_none_iff :
    (parseTerm parseStringExpression rest).result = none ↔ NameStops rest := by
  constructor
  · refine fun h => ⟨noTokenCharacter_of_parseTerm h, ?_⟩
    rintro b q rest' rfl
    obtain ⟨e, hq, -⟩ := q.reads b rest'
    rw [parseTerm_eq_some.mpr (.inr (parseVarRef_eq_some.mpr ⟨b, _, e, rfl, hq, rfl⟩))] at h
    cases h
  · rintro ⟨htoken, href⟩
    rcases hterm : parseTerm parseStringExpression rest with ⟨_ | e, rest'⟩
    · rfl
    obtain ⟨t, ht⟩ := parseTerm_sound (fun _ _ _ _ h => (parseStringExpression_sound h).1)
      (shortens_recurse parseStringExpression_guarded) hterm
    cases t with
    | token t =>
      obtain ⟨c, cs, hcs⟩ := List.exists_cons_of_ne_nil t.ne_nil
      have hc := t.valid c (by rw [hcs]; exact List.mem_cons_self)
      rw [htoken c (by rw [ht, StringTree.text, hcs]; rfl)] at hc
      cases hc
    | varRef b q => exact absurd ht (by simpa [StringTree.text] using href b q rest')

/-- **The parser of names.** -/
theorem readsName_of_stops (n : StringTree .name) (h : NameStops rest) :
    ReadsName (n.text ++ rest) rest n.value :=
  n.reads.name (parseTerm_eq_none_iff.mpr h)

end

end Cfengine
