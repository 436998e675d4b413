import Cfengine.Verify.EnvContext
import Cfengine.Verify.SplitRegex

/-!
# Splitting class expressions

`SplitContextExpression` cuts an expression into its alternatives and distributes each conjunction
over the single bracket in it, if there is one. All texts here are free of references, so the
brackets in them are those of the grammar.
-/

namespace Cfengine
open Pieces

/-! ## Expressions without references -/

theorem StringTree.text_valid {sym : StringSym} (t : StringTree sym) (hsym : sym ≠ .qname)
    (h : '$' ∉ t.text) : ∀ c ∈ t.text, validTokenCharacter c = true := by
  induction t with
  | token t => exact t.valid
  | varRef b q => exact absurd List.mem_cons_self h
  | last t ih => exact ih (by simp) h
  | cons t n iht ihn =>
    rw [text, List.mem_append, not_or] at h
    exact List.forall_mem_append.mpr ⟨iht (by simp) h.1, ihn (by simp) h.2⟩
  | plain | dotted => exact absurd rfl hsym

theorem StringTree.not_mem (n : StringTree .name) (h : '$' ∉ n.text) {c : Char}
    (hc : validTokenCharacter c = false) : c ∉ n.text := fun hmem => by
  rw [n.text_valid nofun h c hmem] at hc
  cases hc

theorem validTokenCharacter_eq_false {s : CString} (h : s.any validTokenCharacter = false) :
    ∀ c ∈ s, validTokenCharacter c = false := fun c hc =>
  Bool.eq_false_iff.mpr (List.any_eq_false.mp h c hc)

theorem StringTree.no_sep (n : StringTree .name) (h : '$' ∉ n.text) {chars : CString}
    (hchars : ∀ c ∈ chars, validTokenCharacter c = false) :
    ∀ c ∈ n.text, isSep chars c = false := fun c hc =>
  decide_eq_false fun hmem => n.not_mem h (hchars c hmem) hc

namespace ClassTree

variable {sym : ClassSym}

theorem not_mem_or {op : OrOp} {l : ClassTree .and} {r : ClassTree .or} {c : Char}
    (h : c ∉ (or op l r).text) : c ∉ l.text ∧ c ∉ r.text := by
  rw [text, List.mem_append, List.mem_append, not_or, not_or] at h
  exact ⟨h.1, h.2.2⟩

theorem not_mem_and {op : AndOp} {l : ClassTree .not} {r : ClassTree .and} {c : Char}
    (h : c ∉ (and op l r).text) : c ∉ l.text ∧ c ∉ r.text := by
  rw [text, List.mem_append, List.mem_cons, not_or, not_or] at h
  exact ⟨h.1, h.2.2⟩

theorem no_ref_not {p : ClassTree .primary} (h : '$' ∉ (not p).text) : '$' ∉ p.text := fun hp =>
  h (List.mem_cons_of_mem _ hp)

theorem no_ref_group {e : ClassTree .or} (h : '$' ∉ (group e).text) : '$' ∉ e.text := fun he =>
  h (List.mem_cons_of_mem _ (List.mem_append_left _ he))

/-- Brackets are balanced. -/
theorem count_brackets (t : ClassTree sym) (h : '$' ∉ t.text) :
    t.text.count '(' = t.text.count ')' := by
  induction t with
  | ofAnd t ih | ofNot t ih | ofPrimary t ih => exact ih h
  | or op l r ihl ihr =>
    have hop : op.text.count '(' = op.text.count ')' := by cases op <;> rfl
    rw [text, List.count_append, List.count_append, List.count_append, List.count_append, hop,
      ihl (not_mem_or h).1, ihr (not_mem_or h).2]
  | and op l r ihl ihr =>
    have hop : [op.char].count '(' = [op.char].count ')' := by cases op <;> rfl
    rw [text, ← List.singleton_append, List.count_append, List.count_append, List.count_append,
      List.count_append, hop, ihl (not_mem_and h).1, ihr (not_mem_and h).2]
  | not p ih => simpa [text] using ih (no_ref_not h)
  | group e ih => simp [text, ih (no_ref_group h)]
  | name n =>
    rw [text, List.count_eq_zero_of_not_mem (n.not_mem h rfl),
      List.count_eq_zero_of_not_mem (n.not_mem h rfl)]

/-- The separators of conjuncts. -/
abbrev andChars : CString := ['.', '&']

/-- No operator is at an end of an expression or next to another one. -/
theorem separated (t : ClassTree sym) (h : '$' ∉ t.text) : Separated (isSep andChars) t.text := by
  induction t with
  | ofAnd t ih | ofNot t ih | ofPrimary t ih => exact ih h
  | or op l r ihl ihr =>
    have hop : Separated (isSep andChars) op.text := by
      cases op <;> exact .block (List.cons_ne_nil _ _) (by simp [isSep, andChars, OrOp.text])
    exact (ihl (not_mem_or h).1).append (hop.append (ihr (not_mem_or h).2))
  | and op l r ihl ihr =>
    exact (ihl (not_mem_and h).1).append_cons (by cases op <;> rfl) (ihr (not_mem_and h).2)
  | not p ih =>
    exact Separated.append (s := ['!']) (.block (by simp) (by simp [isSep, andChars]))
      (ih (no_ref_not h))
  | group e ih =>
    refine Separated.append (s := ['(']) (.block (by simp) (by simp [isSep, andChars])) ?_
    exact (ih (no_ref_group h)).append (.block (by simp) (by simp [isSep, andChars]))
  | name n =>
    obtain ⟨c, cs, hcs, -⟩ := n.exists_cons
    exact .block (by rw [text, hcs]; exact List.cons_ne_nil _ _)
      (n.no_sep h (validTokenCharacter_eq_false rfl))

/-! ## Alternatives and conjuncts -/

def alternatives : ClassTree .or → List (ClassTree .and)
  | ofAnd a => [a]
  | or _ l r => l :: r.alternatives

def conjuncts : ClassTree .and → List (ClassTree .not)
  | ofNot n => [n]
  | and _ l r => l :: r.conjuncts

variable {isTrue : StringTree .name → Bool}

theorem truth_alternatives : (t : ClassTree .or) →
    t.truth isTrue = t.alternatives.any (·.truth isTrue)
  | ofAnd a => by simp [truth, alternatives]
  | or op l r => by simp [truth, alternatives, truth_alternatives r]

theorem truth_conjuncts : (a : ClassTree .and) →
    a.truth isTrue = a.conjuncts.all (·.truth isTrue)
  | ofNot n => by simp [truth, conjuncts]
  | and op l r => by simp [truth, conjuncts, truth_conjuncts r]

theorem mem_text_of_alternative {c : Char} : (t : ClassTree .or) → ∀ a ∈ t.alternatives,
    c ∈ a.text → c ∈ t.text
  | ofAnd a, b, hb, hc => by
    rw [alternatives, List.mem_singleton] at hb
    rwa [hb] at hc
  | or op l r, b, hb, hc => by
    rw [alternatives] at hb
    rw [text, List.mem_append, List.mem_append]
    rcases List.mem_cons.mp hb with rfl | hb
    · exact .inl hc
    · exact .inr (.inr (mem_text_of_alternative r b hb hc))

theorem length_alternative_le : (t : ClassTree .or) → ∀ a ∈ t.alternatives,
    a.text.length ≤ t.text.length
  | ofAnd a, b, hb => by
    rw [alternatives, List.mem_singleton] at hb
    rw [hb, text]
  | or op l r, b, hb => by
    rw [alternatives] at hb
    rw [text, List.length_append, List.length_append]
    rcases List.mem_cons.mp hb with rfl | hb
    · omega
    · have := length_alternative_le r b hb
      omega

/-- The conjunction of two conjunctions. -/
def conj : ClassTree .and → ClassTree .and → ClassTree .and
  | ofNot n, b => and .dot n b
  | and op l r, b => and op l (r.conj b)

theorem text_conj {b : ClassTree .and} : (a : ClassTree .and) →
    (a.conj b).text = a.text ++ '.' :: b.text
  | ofNot n => by simp [conj, text, AndOp.char]
  | and op l r => by simp [conj, text, text_conj r]

theorem truth_conj {b : ClassTree .and} : (a : ClassTree .and) →
    (a.conj b).truth isTrue = (a.truth isTrue && b.truth isTrue)
  | ofNot n => by simp [conj, truth]
  | and op l r => by simp [conj, truth, truth_conj r, Bool.and_assoc]

/-- The conjunction of some conjuncts. -/
def conjunction (n : ClassTree .not) : List (ClassTree .not) → ClassTree .and
  | [] => ofNot n
  | m :: ns => and .dot n (conjunction m ns)

theorem text_conjunction {n : ClassTree .not} {ns : List (ClassTree .not)} :
    (conjunction n ns).text = ['.'].intercalate ((n :: ns).map text) := by
  induction ns generalizing n with
  | nil => simp [conjunction, text]
  | cons m ns ih => simp [conjunction, text, ih, AndOp.char]

theorem truth_conjunction {n : ClassTree .not} {ns : List (ClassTree .not)} :
    (conjunction n ns).truth isTrue = (n :: ns).all (·.truth isTrue) := by
  induction ns generalizing n with
  | nil => simp [conjunction, truth]
  | cons m ns ih => simp [conjunction, truth, ih]

/-- The expression with one spelling of the conjunction. -/
def dotted {sym : ClassSym} : ClassTree sym → ClassTree sym
  | ofAnd a => ofAnd a.dotted
  | or op l r => or op l.dotted r.dotted
  | ofNot n => ofNot n.dotted
  | and _ l r => and .dot l.dotted r.dotted
  | ofPrimary p => ofPrimary p.dotted
  | not p => not p.dotted
  | group e => group e.dotted
  | name n => name n

theorem text_dotted (t : ClassTree sym) (h : '$' ∉ t.text) :
    t.dotted.text = t.text.map fun c => if isSep andChars c then '.' else c := by
  induction t with
  | ofAnd t ih | ofNot t ih | ofPrimary t ih => exact ih h
  | or op l r ihl ihr =>
    have hop : op.text.map (fun c => if isSep andChars c then '.' else c) = op.text := by
      cases op <;> rfl
    rw [dotted, text, text, List.map_append, List.map_append, hop, ihl (not_mem_or h).1,
      ihr (not_mem_or h).2]
  | and op l r ihl ihr =>
    have hop : (if isSep andChars op.char then '.' else op.char) = '.' := by cases op <;> rfl
    rw [dotted, text, text, List.map_append, List.map_cons, hop, ihl (not_mem_and h).1,
      ihr (not_mem_and h).2]
    rfl
  | not p ih => simp [dotted, text, ih (no_ref_not h)]
  | group e ih => simp [dotted, text, ih (no_ref_group h)]
  | name n =>
    refine ((List.map_congr_left fun c hc => ?_).trans (List.map_id _)).symm
    rw [if_neg]
    · rfl
    · rw [n.no_sep h (validTokenCharacter_eq_false rfl) c hc]
      exact Bool.false_ne_true

theorem truth_dotted (t : ClassTree sym) : t.dotted.truth isTrue = t.truth isTrue := by
  induction t with
  | ofAnd t ih | ofNot t ih | ofPrimary t ih | group t ih => exact ih
  | or _ l r ihl ihr | and _ l r ihl ihr => rw [dotted, truth, truth, ihl, ihr]
  | not p ih => rw [dotted, truth, truth, ih]
  | name n => rfl

end ClassTree

/-! ## The alternatives of the loop -/

/-- `GetORAtom` passes over `s` at the level `k` of brackets. -/
def PassedAt (k : Int) (s : CString) : Prop :=
  ∀ rest, getORAtom k (s ++ rest) = (s ++ (getORAtom k rest).1, (getORAtom k rest).2)

namespace PassedAt

variable {k : Int} {s t : CString}

theorem nil : PassedAt k [] := fun _ => rfl

theorem append (hs : PassedAt k s) (ht : PassedAt k t) : PassedAt k (s ++ t) := fun rest => by
  rw [List.append_assoc, hs, ht, List.append_assoc]

theorem of_forall (h : ∀ c ∈ s, c ∉ ['(', ')', '|']) : PassedAt k s := by
  induction s with
  | nil => exact nil
  | cons c s ih =>
    rw [List.forall_mem_cons] at h
    have hc := h.1
    simp only [List.mem_cons, List.not_mem_nil, or_false, not_or] at hc
    intro rest
    rw [List.cons_append, getORAtom]
    simp only [hc.1, hc.2.1, hc.2.2, decide_false, Bool.false_and, Bool.false_eq_true, if_false]
    rw [ih h.2]
    rfl

theorem bar (hk : k ≠ 0) : PassedAt k ['|'] := fun rest => by
  rw [List.singleton_append, getORAtom]
  simp [hk]

theorem group (hs : PassedAt (k + 1) s) : PassedAt k ('(' :: (s ++ [')'])) := fun rest => by
  have hclose : getORAtom (k + 1) (')' :: rest) =
      (')' :: (getORAtom k rest).1, (getORAtom k rest).2) := by
    rw [getORAtom]
    simp
  rw [List.cons_append, List.append_assoc, List.singleton_append, getORAtom]
  simp [hs _, hclose]

end PassedAt

theorem ClassTree.passedAt {sym : ClassSym} (t : ClassTree sym) (h : '$' ∉ t.text) {k : Int}
    (hk : 0 ≤ k) (hor : sym = .or → k ≠ 0) : PassedAt k t.text := by
  induction t generalizing k with
  | ofAnd a ih => exact ih h hk nofun
  | ofNot t ih | ofPrimary t ih => exact ih h hk nofun
  | or op l r ihl ihr =>
    have hop : PassedAt k op.text := by
      cases op
      · exact .bar (hor rfl)
      · exact (PassedAt.bar (hor rfl)).append (.bar (hor rfl))
    exact (ihl (not_mem_or h).1 hk nofun).append (hop.append (ihr (not_mem_or h).2 hk hor))
  | and op l r ihl ihr =>
    have hop : PassedAt k [op.char] := .of_forall (by cases op <;> simp [AndOp.char])
    exact (ihl (not_mem_and h).1 hk nofun).append (hop.append (ihr (not_mem_and h).2 hk nofun))
  | not p ih =>
    exact (PassedAt.of_forall (s := ['!']) (by simp)).append (ih (no_ref_not h) hk nofun)
  | group e ih => exact .group (ih (no_ref_group h) (by omega) fun _ => by omega)
  | name n =>
    have hinvalid : ∀ c ∈ ['(', ')', '|'], validTokenCharacter c = false :=
      validTokenCharacter_eq_false rfl
    exact .of_forall fun c hc hmem => n.not_mem h (hinvalid c hmem) hc

/-- One alternative, behind the bars that separate it from the one before. -/
theorem getORAtom_alternative (a : ClassTree .and) (h : '$' ∉ a.text) {bars rest : CString}
    (hbars : ∀ c ∈ bars, c = '|') (hrest : getORAtom 0 rest = ([], rest)) :
    getORAtom 0 ((bars ++ (a.text ++ rest)).dropWhile (· = '|')) = (a.text, rest) := by
  obtain ⟨c, cs, hcs, hc⟩ := a.exists_cons
  have hbar : c ≠ '|' := by
    rintro rfl
    exact hc (by decide)
  have hdrop : (bars ++ (a.text ++ rest)).dropWhile (· = '|') = a.text ++ rest := by
    rw [List.dropWhile_append_of_pos fun c hc => decide_eq_true (hbars c hc), hcs]
    simp [hbar]
  rw [hdrop, a.passedAt h (Int.le_refl 0) nofun, hrest, List.append_nil]

theorem ClassTree.text_ne_nil {sym : ClassSym} (t : ClassTree sym) : t.text ≠ [] := by
  obtain ⟨c, cs, hcs, -⟩ := t.exists_cons
  rw [hcs]
  exact List.cons_ne_nil _ _

/-- The loop passes the alternatives of an expression on, from the first to the last. -/
theorem splitContextExpression.loop_text {prepend : CString → List CString → List CString} :
    (t : ClassTree .or) → '$' ∉ t.text → ∀ (bars : CString), (∀ c ∈ bars, c = '|') →
      ∀ fuel, (bars ++ t.text).length ≤ fuel → ∀ list,
        splitContextExpression.loop prepend fuel (bars ++ t.text) list =
          (t.alternatives.map ClassTree.text).foldl (fun list a => prepend a list) list
  | .ofAnd a, h, bars, hbars, fuel, hfuel, list => by
    have hne : bars ++ a.text ≠ [] := List.append_ne_nil_of_right_ne_nil _ a.text_ne_nil
    have hpos := List.length_pos_iff.mpr hne
    have hatom := getORAtom_alternative a h hbars (show getORAtom 0 [] = ([], []) from rfl)
    rw [List.append_nil] at hatom
    rw [ClassTree.text] at hfuel
    obtain ⟨fuel, rfl⟩ := Nat.exists_eq_succ_of_ne_zero (n := fuel) (by omega)
    rw [loop, ClassTree.text, if_neg hne, hatom]
    simp [a.text_ne_nil, ClassTree.alternatives]
  | .or op l r, h, bars, hbars, fuel, hfuel, list => by
    obtain ⟨hl, hr⟩ := ClassTree.not_mem_or h
    -- the loop skips one bar, and the next round skips the second one of `||`
    obtain ⟨bars', hbars', hop⟩ : ∃ bars' : CString, (∀ c ∈ bars', c = '|') ∧
        op.text = '|' :: bars' := by
      cases op
      · exact ⟨[], List.forall_mem_nil _, rfl⟩
      · exact ⟨['|'], by simp, rfl⟩
    rw [ClassTree.text, hop] at hfuel ⊢
    have hne : bars ++ (l.text ++ ('|' :: bars' ++ r.text)) ≠ [] := by
      simp [l.text_ne_nil]
    have hbar : getORAtom 0 ('|' :: bars' ++ r.text) = ([], '|' :: bars' ++ r.text) := rfl
    have hatom := getORAtom_alternative l hl hbars hbar
    obtain ⟨fuel, rfl⟩ := Nat.exists_eq_succ_of_ne_zero (n := fuel) (by
      have := List.length_pos_iff.mpr hne
      omega)
    rw [loop, if_neg hne, hatom]
    simp only [if_neg l.text_ne_nil, List.cons_append]
    rw [loop_text r hr bars' hbars' fuel, ClassTree.alternatives]
    · rfl
    · simp only [List.length_append, List.length_cons] at hfuel ⊢
      omega

/-! ## Brackets -/

section
variable {s cbuff : CString}

theorem head?_of_isBracketed (h : isBracketed s = true) : s.head? = some '(' := by
  simp only [isBracketed, Bool.and_eq_true, decide_eq_true_eq] at h
  exact h.1.1.1.1

theorem getLast?_of_isBracketed (h : isBracketed s = true) : s.getLast? = some ')' := by
  simp only [isBracketed, Bool.and_eq_true, decide_eq_true_eq] at h
  exact h.1.1.1.2

theorem count_le_of_isBracketed (h : isBracketed s = true) :
    s.count '(' + s.count ')' ≤ 2 := by
  simp only [isBracketed, Bool.and_eq_true, decide_eq_true_eq] at h
  exact h.2

theorem isBracketed_eq_false_of_open (h : '(' ∉ s) : isBracketed s = false :=
  Bool.eq_false_iff.mpr fun hb => h (List.mem_of_mem_head? (head?_of_isBracketed hb))

theorem isBracketed_eq_false_of_close (h : ')' ∉ s) : isBracketed s = false :=
  Bool.eq_false_iff.mpr fun hb => h (List.mem_of_mem_getLast? (getLast?_of_isBracketed hb))

theorem isBracketed_group (hopen : '(' ∉ s) (hclose : ')' ∉ s) :
    isBracketed ('(' :: (s ++ [')'])) = true := by
  have hinfix : ¬ [')', '('] <:+: '(' :: (s ++ [')']) := by
    rintro ⟨u, v, huv⟩
    cases u with
    | nil => cases huv
    | cons c u =>
      -- the second bracket would be one behind the first character
      have hmem : '(' ∈ s ++ [')'] := by
        rw [← (List.cons.inj huv).2]
        simp
      simp [hopen] at hmem
  have hlast : ('(' :: (s ++ [')'])).getLast? = some ')' := by
    rw [← List.cons_append, List.getLast?_append]
    rfl
  simp [isBracketed, hlast, hinfix, List.count_eq_zero_of_not_mem hopen,
    List.count_eq_zero_of_not_mem hclose]

theorem stripBrackets_group : stripBrackets ('(' :: (s ++ [')'])) = s := by
  rw [stripBrackets, ← List.cons_append, List.dropLast_concat]
  rfl

end

namespace ClassTree

/-- A conjunct without brackets has no operators but a negation. -/
theorem not_mem_conjunct (n : ClassTree .not) (h : '$' ∉ n.text) (hopen : '(' ∉ n.text) :
    ∀ c ∈ n.text, c ∉ ['.', '&', '|'] := by
  have hinvalid : ∀ c ∈ ['.', '&', '|'], validTokenCharacter c = false :=
    validTokenCharacter_eq_false rfl
  match n with
  | .ofPrimary (.group e) | .not (.group e) => simp [text] at hopen
  | .ofPrimary (.name m) => exact fun c hc hmem => m.not_mem h (hinvalid c hmem) hc
  | .not (.name m) =>
    rintro c hc hmem
    rcases List.mem_cons.mp hc with rfl | hc
    · revert hmem
      decide
    · exact m.not_mem (no_ref_not h) (hinvalid c hmem) hc

theorem pieces_conjunct (n : ClassTree .not) (h : '$' ∉ n.text) (hopen : '(' ∉ n.text) :
    pieces (isSep andChars) n.text = [n.text] := by
  refine pieces_eq_singleton n.text_ne_nil fun c hc => decide_eq_false fun hmem => ?_
  refine n.not_mem_conjunct h hopen c hc ?_
  simp only [List.mem_cons, List.not_mem_nil, or_false] at hmem ⊢
  tauto

theorem pieces_and {op : AndOp} {l : ClassTree .not} {r : ClassTree .and} :
    pieces (isSep andChars) (and op l r).text =
      pieces (isSep andChars) l.text ++ pieces (isSep andChars) r.text := by
  rw [text, pieces_append_cons]
  cases op <;> rfl

/-- Without brackets, the pieces of a conjunction are its conjuncts. -/
theorem pieces_conjuncts : (a : ClassTree .and) → '$' ∉ a.text → '(' ∉ a.text →
    pieces (isSep andChars) a.text = a.conjuncts.map text
  | ofNot n, h, hopen => by
    rw [conjuncts]
    exact n.pieces_conjunct h hopen
  | and op l r, h, hopen => by
    obtain ⟨hl, hr⟩ := not_mem_and h
    obtain ⟨hlo, hro⟩ := not_mem_and hopen
    rw [pieces_and, l.pieces_conjunct hl hlo, pieces_conjuncts r hr hro, conjuncts]
    rfl

theorem mem_text_of_conjunct {c : Char} : (a : ClassTree .and) → ∀ n ∈ a.conjuncts,
    c ∈ n.text → c ∈ a.text
  | ofNot n, m, hm, hc => by
    rw [conjuncts, List.mem_singleton] at hm
    rwa [hm] at hc
  | and op l r, m, hm, hc => by
    rw [conjuncts] at hm
    rw [text, List.mem_append, List.mem_cons]
    rcases List.mem_cons.mp hm with rfl | hm
    · exact .inl hc
    · exact .inr (.inr (mem_text_of_conjunct r m hm hc))

theorem bar_not_mem : (a : ClassTree .and) → '$' ∉ a.text → '(' ∉ a.text → '|' ∉ a.text
  | ofNot n, h, hopen => fun hc => n.not_mem_conjunct h hopen _ hc (by decide)
  | and op l r, h, hopen => by
    obtain ⟨hl, hr⟩ := not_mem_and h
    obtain ⟨hlo, hro⟩ := not_mem_and hopen
    have hop : '|' ≠ op.char := by cases op <;> decide
    rw [text, List.mem_append, List.mem_cons, not_or, not_or]
    exact ⟨fun hc => l.not_mem_conjunct hl hlo _ hc (by decide), hop, bar_not_mem r hr hro⟩

/-- Without brackets, the alternatives of an expression are the pieces between bars. -/
theorem pieces_alternatives : (t : ClassTree .or) → '$' ∉ t.text → '(' ∉ t.text →
    pieces (isSep ['|']) t.text = t.alternatives.map text
  | ofAnd a, h, hopen => by
    have hbar : ∀ c ∈ a.text, isSep ['|'] c = false := fun c hc => decide_eq_false fun hmem =>
      a.bar_not_mem h hopen (List.mem_singleton.mp hmem ▸ hc)
    rw [alternatives]
    exact pieces_eq_singleton a.text_ne_nil hbar
  | or op l r, h, hopen => by
    obtain ⟨hl, hr⟩ := not_mem_or h
    obtain ⟨hlo, hro⟩ := not_mem_or hopen
    have hbar : ∀ c ∈ l.text, isSep ['|'] c = false := fun c hc => decide_eq_false fun hmem =>
      l.bar_not_mem hl hlo (List.mem_singleton.mp hmem ▸ hc)
    have hop : op.text ≠ [] ∧ ∀ c ∈ op.text, isSep ['|'] c = true := by
      cases op <;> exact ⟨List.cons_ne_nil _ _, by simp [isSep, OrOp.text]⟩
    rw [text, pieces_append_run hop.1 hop.2, pieces_eq_singleton l.text_ne_nil hbar,
      pieces_alternatives r hr hro, alternatives]
    rfl

/-- A bracket that is cut into several pieces has its ends in different ones. -/
theorem isBracketed_pieces_split {e : ClassTree .or} {u : CString} (hu : ∀ c ∈ u, c ∈ ['!', '('])
    (hopen : '(' ∉ e.text) (hclose : ')' ∉ e.text) (hsep : e.text.any (isSep andChars) = true) :
    ∀ p ∈ pieces (isSep andChars) (u ++ (e.text ++ [')'])), isBracketed p = false := by
  obtain ⟨x, c, y, hxy, hc, -⟩ := exists_append_of_any hsep
  rw [hxy, List.mem_append, List.mem_cons, not_or, not_or] at hopen hclose
  intro p hp
  rw [hxy, List.append_assoc, List.cons_append, ← List.append_assoc, pieces_append_cons hc,
    List.mem_append] at hp
  rcases hp with hp | hp
  · refine isBracketed_eq_false_of_close fun hmem => ?_
    rcases List.mem_append.mp (mem_of_mem_pieces hp hmem) with hmem | hmem
    · have := hu _ hmem
      revert this
      decide
    · exact hclose.1 hmem
  · refine isBracketed_eq_false_of_open fun hmem => ?_
    rcases List.mem_append.mp (mem_of_mem_pieces hp hmem) with hmem | hmem
    · exact hopen.2.2 hmem
    · revert hmem
      decide

/-- A conjunct with one pair of brackets: it is a bracket that is one piece, or none of its pieces
is bracketed. -/
theorem conjunct_shape (n : ClassTree .not) (h : '$' ∉ n.text) (hcount : n.text.count '(' = 1) :
    (∃ e : ClassTree .or, n = .ofPrimary (.group e) ∧ '(' ∉ e.text ∧
      pieces (isSep andChars) n.text = [n.text]) ∨
      ∀ p ∈ pieces (isSep andChars) n.text, isBracketed p = false := by
  match n with
  | .ofPrimary (.name m) =>
    rw [text, text, List.count_eq_zero_of_not_mem (m.not_mem h rfl)] at hcount
    cases hcount
  | .not (.name m) =>
    rw [text, text, List.count_cons_of_ne (by decide),
      List.count_eq_zero_of_not_mem (m.not_mem (no_ref_not h) rfl)] at hcount
    cases hcount
  | .ofPrimary (.group e) =>
    have hopen : '(' ∉ e.text := List.count_eq_zero.mp (by simpa [text] using hcount)
    have hclose : ')' ∉ e.text := by
      rw [← List.count_eq_zero, ← count_brackets e (no_ref_group h), List.count_eq_zero]
      exact hopen
    cases hsep : e.text.any (isSep andChars) with
    | true => exact .inr (isBracketed_pieces_split (u := ['(']) (by simp) hopen hclose hsep)
    | false =>
      refine .inl ⟨e, rfl, hopen, pieces_eq_singleton (List.cons_ne_nil _ _) fun c hc => ?_⟩
      simp only [List.any_eq_false, Bool.not_eq_true] at hsep
      rw [text, text, List.mem_cons, List.mem_append, List.mem_singleton] at hc
      rcases hc with rfl | hc | rfl
      · rfl
      · exact hsep c hc
      · rfl
  | .not (.group e) =>
    have hopen : '(' ∉ e.text := List.count_eq_zero.mp (by simpa [text] using hcount)
    have hclose : ')' ∉ e.text := by
      rw [← List.count_eq_zero, ← count_brackets e (no_ref_group (no_ref_not h)),
        List.count_eq_zero]
      exact hopen
    right
    cases hsep : e.text.any (isSep andChars) with
    | true => exact isBracketed_pieces_split (u := ['!', '(']) (by simp) hopen hclose hsep
    | false =>
      intro p hp
      have hnosep : ∀ c ∈ (ClassTree.not (.group e)).text, isSep andChars c = false := by
        intro c hc
        simp only [List.any_eq_false, Bool.not_eq_true] at hsep
        rw [text, text, List.mem_cons, List.mem_cons, List.mem_append, List.mem_singleton] at hc
        rcases hc with rfl | rfl | hc | rfl
        · rfl
        · rfl
        · exact hsep c hc
        · rfl
      rw [pieces_eq_singleton (text_ne_nil _) hnosep, List.mem_singleton] at hp
      refine Bool.eq_false_iff.mpr fun hb => ?_
      have := head?_of_isBracketed hb
      rw [hp] at this
      cases this

/-- A conjunction with one pair of brackets: one conjunct is a bracket that is one piece, or no
piece is bracketed. -/
theorem conjunction_shape : (a : ClassTree .and) → '$' ∉ a.text → a.text.count '(' = 1 →
    (∃ (e : ClassTree .or) (l r : List (ClassTree .not)),
      a.conjuncts = l ++ .ofPrimary (.group e) :: r ∧ '(' ∉ e.text ∧
      pieces (isSep andChars) a.text = a.conjuncts.map text ∧ ∀ n ∈ l ++ r, '(' ∉ n.text) ∨
      ∀ p ∈ pieces (isSep andChars) a.text, isBracketed p = false
  | ofNot n, h, hcount => by
    rw [text] at h hcount ⊢
    rcases n.conjunct_shape h hcount with ⟨e, rfl, hopen, hpieces⟩ | hnone
    · exact .inl ⟨e, [], [], by simp [conjuncts], hopen, by simp [conjuncts, hpieces], by simp⟩
    · exact .inr hnone
  | and op l r, h, hcount => by
    obtain ⟨hl, hr⟩ := not_mem_and h
    have hop : '(' ≠ op.char := by cases op <;> decide
    rw [text, List.count_append, List.count_cons_of_ne hop.symm] at hcount
    rw [pieces_and, conjuncts]
    by_cases hlcount : l.text.count '(' = 0
    · have hlo := List.count_eq_zero.mp hlcount
      rw [l.pieces_conjunct hl hlo]
      rcases conjunction_shape r hr (by omega) with ⟨e, l', r', hconj, hopen, hpieces,
        hothers⟩ | hnone
      · refine .inl ⟨e, l :: l', r', by rw [hconj]; rfl, hopen, by rw [hpieces]; rfl, ?_⟩
        exact List.forall_mem_cons.mpr ⟨hlo, hothers⟩
      · exact .inr (List.forall_mem_cons.mpr ⟨isBracketed_eq_false_of_open hlo, hnone⟩)
    · have hro := List.count_eq_zero.mp (show r.text.count '(' = 0 by omega)
      have hrest := r.pieces_conjuncts hr hro
      rcases l.conjunct_shape hl (by omega) with ⟨e, rfl, hopen, hpieces⟩ | hnone
      · refine .inl ⟨e, [], r.conjuncts, rfl, hopen, by rw [hpieces, hrest]; rfl, ?_⟩
        exact fun n hn hmem => hro (r.mem_text_of_conjunct n hn hmem)
      · refine .inr (List.forall_mem_append.mpr ⟨hnone, fun p hp => ?_⟩)
        exact isBracketed_eq_false_of_open fun hmem => hro (mem_of_mem_pieces hp hmem)

theorem conjuncts_ne_nil : (a : ClassTree .and) → a.conjuncts ≠ []
  | ofNot n => by simp [conjuncts]
  | and op l r => by simp [conjuncts]

theorem text_of_conjuncts_singleton {n : ClassTree .not} : (a : ClassTree .and) →
    a.conjuncts = [n] → a.text = n.text
  | ofNot m, h => by
    rw [conjuncts] at h
    rw [text, List.cons.inj h |>.1]
  | and op l r, h => by
    rw [conjuncts] at h
    exact absurd (List.cons.inj h).2 r.conjuncts_ne_nil

/-- An expression that is bracketed as a whole. -/
theorem eq_group_of_isBracketed (a : ClassTree .and) (h : '$' ∉ a.text)
    (hb : isBracketed a.text = true) :
    ∃ e : ClassTree .or, a.text = '(' :: (e.text ++ [')']) ∧
      ∀ isTrue, a.truth isTrue = e.truth isTrue := by
  have hhead := head?_of_isBracketed hb
  match a with
  | .ofNot (.ofPrimary (.group e)) => exact ⟨e, rfl, fun _ => rfl⟩
  | .ofNot (.not p) => cases hhead
  | .ofNot (.ofPrimary (.name m)) =>
    exact absurd (List.mem_of_mem_head? hhead) (m.not_mem h rfl)
  | .and op l r =>
    obtain ⟨hl, hr⟩ := not_mem_and h
    -- the first bracket is in `l` and the last one in `r`, which are both balanced
    have hopen : '(' ∈ l.text := by
      obtain ⟨c, cs, hcs, -⟩ := l.exists_cons
      rw [text, hcs] at hhead
      rw [hcs, ← Option.some.inj hhead]
      exact List.mem_cons_self
    have hclose : ')' ∈ r.text := by
      have hlast := getLast?_of_isBracketed hb
      rw [text, ← List.singleton_append, ← List.append_assoc, List.getLast?_append,
        List.getLast?_eq_some_getLast r.text_ne_nil, Option.some_or] at hlast
      rw [← Option.some.inj hlast]
      exact List.getLast_mem _
    have hl1 := List.count_pos_iff.mpr hopen
    have hr1 := List.count_pos_iff.mpr hclose
    have hle := count_le_of_isBracketed hb
    rw [text, ← List.singleton_append, List.count_append, List.count_append, List.count_append,
      List.count_append, ← count_brackets l hl, count_brackets r hr] at hle
    omega

end ClassTree

/-! ## Distribution -/

/-- The limits of the buffers and of the splitting are not reached where one alternative is
distributed over its bracket: it has at most 99 pieces between `.` and `&`, the pieces outside of
the bracket and the bracket fit in the buffers, and the bracket has at most 99 alternatives. -/
def FitsBuffers (cbuff : CString) : Prop :=
  isBracketed cbuff = false → cbuff.count '(' = 1 →
    let andlist := pieces (isSep ClassTree.andChars) cbuff
    andlist.length ≤ 99 ∧
      (['.'].intercalate (andlist.filter (!isBracketed ·))).length ≤ joinLimit ∧
      ∀ p ∈ andlist, isBracketed p = true → (stripBrackets p).length ≤ joinLimit ∧
        (pieces (isSep ['|']) (stripBrackets p)).length ≤ 99

theorem foldl_collectPiece {andlist : List CString} {strings : CString × CString} :
    andlist.foldl collectPiece strings =
      (((andlist.filter isBracketed).map stripBrackets).foldl (joinWith '|') strings.1,
        (andlist.filter (!isBracketed ·)).foldl (joinWith '.') strings.2) := by
  induction andlist generalizing strings with
  | nil => rfl
  | cons p andlist ih =>
    rw [List.foldl_cons, ih, collectPiece]
    cases hb : isBracketed p <;> simp [hb]

/-- The pieces and the two strings collected from them, within the limits. -/
theorem foldl_collectPiece_split {cbuff : CString} (hlen : cbuff.length < cfMaxVarSize)
    (hfits : FitsBuffers cbuff) (hb : isBracketed cbuff = false) (hcount : cbuff.count '(' = 1) :
    (splitRegexAsRList cbuff ['.', '&'] 99 false).foldl collectPiece ([], []) =
      ((((pieces (isSep ClassTree.andChars) cbuff).filter isBracketed).map stripBrackets).foldl
          (joinWith '|') [],
        ['.'].intercalate
          ((pieces (isSep ClassTree.andChars) cbuff).filter (!isBracketed ·))) := by
  obtain ⟨hmax, hand, -⟩ := hfits hb hcount
  rw [splitRegexAsRList_eq hlen, List.take_of_length_le hmax, foldl_collectPiece,
    foldl_joinWith (fun p hp => ne_nil_of_mem_pieces (List.mem_filter.mp hp).1) hand]

theorem length_intercalate (leaves : List CString) (hne : leaves ≠ []) (sep : Char) :
    ([sep].intercalate leaves).length + 1 = (leaves.map List.length).sum + leaves.length := by
  induction leaves with
  | nil => exact absurd rfl hne
  | cons leaf leaves ih =>
    cases leaves with
    | nil => simp
    | cons leaf' leaves =>
      have := ih (List.cons_ne_nil _ _)
      simp only [List.intercalate_cons_cons, List.length_append, List.map_cons, List.sum_cons,
        List.length_cons, List.length_nil] at this ⊢
      omega

section
variable {context : ClassContext} {ns : Option CString}

/-- Some string of the list is defined. -/
def AnyDefined (context : ClassContext) (ns : Option CString) (list : List CString) : Prop :=
  ∃ atom ∈ list, isDefinedClass context ns (some atom) = true

theorem anyDefined_append {l l' : List CString} :
    AnyDefined context ns (l ++ l') ↔ AnyDefined context ns l ∨ AnyDefined context ns l' := by
  simp [AnyDefined, or_and_right, exists_or]

theorem anyDefined_text {t : ClassTree .or} (h : '$' ∉ t.text) :
    AnyDefined context ns [t.text] ↔ t.truth (StringTree.isDefined context ns) = true := by
  simp [AnyDefined, isDefinedClass_text, h]

/-- One alternative without a bracket among its pieces is kept, with one spelling of the
conjunction. -/
theorem prependAtoms_undistributed {a : ClassTree .and} (h : '$' ∉ a.text)
    (hlen : a.text.length < cfMaxVarSize) (hfits : FitsBuffers a.text)
    (hb : isBracketed a.text = false) (hcount : a.text.count '(' = 1)
    (hnone : ∀ p ∈ pieces (isSep ClassTree.andChars) a.text, isBracketed p = false) :
    prependAtoms a.text [] = [a.dotted.text] := by
  have hfilter : (pieces (isSep ClassTree.andChars) a.text).filter isBracketed = [] :=
    List.filter_eq_nil_iff.mpr fun p hp => by rw [hnone p hp]; exact Bool.false_ne_true
  have hfilter' : (pieces (isSep ClassTree.andChars) a.text).filter (!isBracketed ·) =
      pieces (isSep ClassTree.andChars) a.text :=
    List.filter_eq_self.mpr fun p hp => by rw [hnone p hp]; rfl
  have hbrackets : hasBrackets a.text = true := by simp [hasBrackets, hcount]
  simp only [prependAtoms, hb, hbrackets, if_true, Bool.false_eq_true, if_false,
    foldl_collectPiece_split hlen hfits hb hcount, hfilter, hfilter']
  rw [(a.separated h).intercalate_pieces, ← a.text_dotted h]
  rfl

/-- The length of an alternative, with one bracket among its conjuncts. -/
theorem length_of_conjuncts {a : ClassTree .and} (h : '$' ∉ a.text) {e : ClassTree .or}
    {l r : List (ClassTree .not)} (hconj : a.conjuncts = l ++ .ofPrimary (.group e) :: r)
    (hpieces : pieces (isSep ClassTree.andChars) a.text = a.conjuncts.map ClassTree.text)
    {n : ClassTree .not} {ns : List (ClassTree .not)} (hlr : l ++ r = n :: ns) :
    a.text.length = (ClassTree.conjunction n ns).text.length + e.text.length + 3 := by
  have hjoin := congrArg List.length ((a.separated h).intercalate_pieces '.')
  have hand := length_intercalate ((n :: ns).map ClassTree.text) (by simp) '.'
  have hall := length_intercalate (a.conjuncts.map ClassTree.text) (by simp [hconj]) '.'
  have hgroup : (ClassTree.ofPrimary (.group e)).text.length = e.text.length + 2 := by
    simp [ClassTree.text]
  rw [List.length_map, hpieces] at hjoin
  rw [ClassTree.text_conjunction]
  rw [← hlr] at hand ⊢
  simp only [hconj, List.map_append, List.map_cons, List.sum_append, List.sum_cons,
    List.length_append, List.length_map, List.length_cons, hgroup] at hall hand hjoin ⊢
  omega

/-- One alternative with a bracket among its pieces is distributed over it. -/
theorem prependAtoms_distributed {a : ClassTree .and} (h : '$' ∉ a.text)
    (hlen : a.text.length < cfMaxVarSize) (hfits : FitsBuffers a.text)
    (hb : isBracketed a.text = false) (hcount : a.text.count '(' = 1)
    {e : ClassTree .or} {l r : List (ClassTree .not)}
    (hconj : a.conjuncts = l ++ .ofPrimary (.group e) :: r) (hopen : '(' ∉ e.text)
    (hpieces : pieces (isSep ClassTree.andChars) a.text = a.conjuncts.map ClassTree.text)
    (hothers : ∀ n ∈ l ++ r, '(' ∉ n.text) {n : ClassTree .not} {ns : List (ClassTree .not)}
    (hlr : l ++ r = n :: ns) :
    prependAtoms a.text [] =
      (e.alternatives.map fun b => (b.conj (.conjunction n ns)).text).reverse := by
  have hmem : ClassTree.ofPrimary (.group e) ∈ a.conjuncts := by simp [hconj]
  have he : '$' ∉ e.text := ClassTree.no_ref_group fun hc =>
    h (a.mem_text_of_conjunct _ hmem hc)
  have hclose : ')' ∉ e.text := by
    rw [← List.count_eq_zero, ← e.count_brackets he, List.count_eq_zero]
    exact hopen
  have hgroup : isBracketed (ClassTree.ofPrimary (.group e)).text = true :=
    isBracketed_group hopen hclose
  have hstrip : stripBrackets (ClassTree.ofPrimary (.group e)).text = e.text :=
    stripBrackets_group
  have hother : ∀ m ∈ l ++ r, isBracketed m.text = false := fun m hm =>
    isBracketed_eq_false_of_open (hothers m hm)
  obtain ⟨hl, hr⟩ := List.forall_mem_append.mp hother
  -- the bracket is the only bracketed piece
  have hfilter : (pieces (isSep ClassTree.andChars) a.text).filter isBracketed =
      [(ClassTree.ofPrimary (.group e)).text] := by
    rw [hpieces, hconj, List.map_append, List.map_cons, List.filter_append,
      List.filter_cons_of_pos hgroup, List.filter_eq_nil_iff.mpr (by simpa using hl),
      List.filter_eq_nil_iff.mpr (by simpa using hr)]
    rfl
  have hfilter' : (pieces (isSep ClassTree.andChars) a.text).filter (!isBracketed ·) =
      (n :: ns).map ClassTree.text := by
    rw [hpieces, hconj, List.map_append, List.map_cons, List.filter_append,
      List.filter_cons_of_neg (by simp [hgroup]), List.filter_eq_self.mpr (by simpa using hl),
      List.filter_eq_self.mpr (by simpa using hr), ← hlr, List.map_append]
  obtain ⟨-, -, hbracket⟩ := hfits hb hcount
  obtain ⟨hfit, hmax⟩ := hbracket _ (by rw [hpieces]; exact List.mem_map_of_mem hmem) hgroup
  rw [hstrip] at hfit hmax
  have halen := length_of_conjuncts h hconj hpieces hlr
  have hor : splitRegexAsRList e.text ['|'] 99 false = e.alternatives.map ClassTree.text := by
    rw [splitRegexAsRList_eq (by omega), List.take_of_length_le hmax,
      e.pieces_alternatives he hopen]
  have hbrackets : hasBrackets a.text = true := by simp [hasBrackets, hcount]
  simp only [prependAtoms, hb, hbrackets, if_true, Bool.false_eq_true, if_false,
    foldl_collectPiece_split hlen hfits hb hcount, hfilter, hfilter', List.map_cons, List.map_nil,
    List.foldl_cons, List.foldl_nil, hstrip, joinWith_nil hfit, ne_eq, e.text_ne_nil,
    not_false_eq_true, hor, List.foldl_flip_cons_eq_append, List.append_nil, List.map_map]
  refine congrArg List.reverse (List.map_congr_left fun b hb => ?_)
  have hble := e.length_alternative_le b hb
  rw [ClassTree.text_conjunction] at halen
  rw [ClassTree.text_conj, ClassTree.text_conjunction]
  refine List.take_of_length_le ?_
  simp only [List.length_append, List.length_cons, ← List.map_cons]
  omega

theorem ClassTree.not_mem_conjunction {c : Char} (hc : c ≠ '.') {n : ClassTree .not}
    {ms : List (ClassTree .not)} (h : ∀ m ∈ n :: ms, c ∉ m.text) :
    c ∉ (conjunction n ms).text := by
  induction ms generalizing n with
  | nil => simpa [conjunction, text] using h
  | cons m ms ih =>
    rw [List.forall_mem_cons] at h
    rw [conjunction, text, List.mem_append, List.mem_cons, not_or, not_or]
    exact ⟨h.1, hc, ih h.2⟩

/-- The distributed alternatives are true together if and only if the conjunction is. -/
theorem anyDefined_distributed {a : ClassTree .and} (h : '$' ∉ a.text) {e : ClassTree .or}
    {l r : List (ClassTree .not)} (hconj : a.conjuncts = l ++ .ofPrimary (.group e) :: r)
    {n : ClassTree .not} {ms : List (ClassTree .not)} (hlr : l ++ r = n :: ms) :
    AnyDefined context ns
        (e.alternatives.map fun b => (b.conj (.conjunction n ms)).text).reverse ↔
      a.truth (StringTree.isDefined context ns) = true := by
  have hmem : ∀ m ∈ a.conjuncts, '$' ∉ m.text := fun m hm hc => h (a.mem_text_of_conjunct m hm hc)
  simp only [hconj, List.forall_mem_append, List.forall_mem_cons] at hmem
  have he : '$' ∉ e.text := ClassTree.no_ref_group hmem.2.1
  have hrest : '$' ∉ (ClassTree.conjunction n ms).text := by
    refine ClassTree.not_mem_conjunction (by decide) ?_
    rw [← hlr]
    exact List.forall_mem_append.mpr ⟨hmem.1, hmem.2.2⟩
  have hatom : ∀ b ∈ e.alternatives,
      (isDefinedClass context ns (some (b.conj (.conjunction n ms)).text) = true ↔
        b.truth (StringTree.isDefined context ns) = true ∧
          (ClassTree.conjunction n ms).truth (StringTree.isDefined context ns) = true) := by
    intro b hb
    have hdollar : '$' ∉ (ClassTree.ofAnd (b.conj (.conjunction n ms))).text := by
      rw [ClassTree.text, ClassTree.text_conj, List.mem_append, List.mem_cons, not_or, not_or]
      exact ⟨fun hc => he (e.mem_text_of_alternative b hb hc), by decide, hrest⟩
    refine (isDefinedClass_text (.ofAnd (b.conj (.conjunction n ms)))).trans ?_
    rw [and_iff_right hdollar, ClassTree.truth, ClassTree.truth_conj, Bool.and_eq_true]
  have hlist : AnyDefined context ns
      (e.alternatives.map fun b => (b.conj (.conjunction n ms)).text).reverse ↔
      ∃ b ∈ e.alternatives,
        isDefinedClass context ns (some (b.conj (.conjunction n ms)).text) = true := by
    simp [AnyDefined]
  rw [hlist, a.truth_conjuncts, hconj]
  simp only [List.all_append, List.all_cons, ClassTree.truth, Bool.and_eq_true,
    e.truth_alternatives, List.any_eq_true]
  have hall : (ClassTree.conjunction n ms).truth (StringTree.isDefined context ns) = true ↔
      l.all (·.truth (StringTree.isDefined context ns)) = true ∧
        r.all (·.truth (StringTree.isDefined context ns)) = true := by
    rw [ClassTree.truth_conjunction, ← hlr, List.all_append, Bool.and_eq_true]
  constructor
  · rintro ⟨b, hb, hdef⟩
    obtain ⟨hbtrue, hrest⟩ := (hatom b hb).mp hdef
    obtain ⟨hl, hr⟩ := hall.mp hrest
    exact ⟨hl, ⟨b, hb, hbtrue⟩, hr⟩
  · rintro ⟨hl, ⟨b, hb, hbtrue⟩, hr⟩
    exact ⟨b, hb, (hatom b hb).mpr ⟨hbtrue, hall.mpr ⟨hl, hr⟩⟩⟩

/-- **One alternative.** It is true if and only if what is prepended for it contains a defined
class expression. -/
theorem anyDefined_prependAtoms {a : ClassTree .and} (h : '$' ∉ a.text)
    (hlen : a.text.length < cfMaxVarSize) (hfits : FitsBuffers a.text) :
    AnyDefined context ns (prependAtoms a.text []) ↔
      a.truth (StringTree.isDefined context ns) = true := by
  cases hb : isBracketed a.text with
  | true =>
    obtain ⟨e, htext, htruth⟩ := a.eq_group_of_isBracketed h hb
    have he : '$' ∉ e.text := fun hc => h (by rw [htext]; simp [hc])
    have hatoms : prependAtoms a.text [] = [e.text] := by
      rw [prependAtoms, if_pos hb, htext, stripBrackets_group]
    rw [hatoms, anyDefined_text he, htruth]
  | false =>
    by_cases hcount : a.text.count '(' = 1
    · rcases a.conjunction_shape h hcount with ⟨e, l, r, hconj, hopen, hpieces, hothers⟩ | hnone
      · obtain ⟨n, ms, hlr⟩ : ∃ n ms, l ++ r = n :: ms := by
          refine List.exists_cons_of_ne_nil fun hnil => ?_
          obtain ⟨rfl, rfl⟩ := List.append_eq_nil_iff.mp hnil
          have hmem : ClassTree.ofPrimary (.group e) ∈ a.conjuncts := by simp [hconj]
          have he : '$' ∉ e.text := ClassTree.no_ref_group fun hc =>
            h (a.mem_text_of_conjunct _ hmem hc)
          have hclose : ')' ∉ e.text := by
            rw [← List.count_eq_zero, ← e.count_brackets he, List.count_eq_zero]
            exact hopen
          rw [ClassTree.text_of_conjuncts_singleton a hconj] at hb
          exact Bool.noConfusion (hb.symm.trans (isBracketed_group hopen hclose))
        rw [prependAtoms_distributed h hlen hfits hb hcount hconj hopen hpieces hothers hlr]
        exact anyDefined_distributed h hconj hlr
      · rw [prependAtoms_undistributed h hlen hfits hb hcount hnone]
        have hdotted : '$' ∉ (ClassTree.ofAnd a.dotted).text := by
          rw [ClassTree.text, a.text_dotted h]
          intro hc
          obtain ⟨c, hc, heq⟩ := List.mem_map.mp hc
          split at heq
          · cases heq
          · exact h (heq ▸ hc)
        exact (anyDefined_text hdotted).trans (by rw [ClassTree.truth, a.truth_dotted])
    · have hbrackets : hasBrackets a.text = false := by
        simp [hasBrackets, a.count_brackets h] at hcount ⊢
        exact hcount
      have hatoms : prependAtoms a.text [] = [(ClassTree.ofAnd a).text] := by
        rw [prependAtoms, if_neg (by simp [hb]), if_neg (by simp [hbrackets]), ClassTree.text]
      rw [hatoms, anyDefined_text h, ClassTree.truth]

/-! ## The whole expression -/

/-- The alternatives that the loop of `SplitContextExpression` finds, the last one first. -/
def orAtoms (e : CString) : List CString :=
  splitContextExpression.loop List.cons e.length e []

theorem prependAtoms_append {cbuff : CString} {list : List CString} :
    prependAtoms cbuff list = prependAtoms cbuff [] ++ list := by
  simp only [prependAtoms, List.foldl_flip_cons_eq_append, List.append_nil]
  repeat' split
  all_goals rfl

theorem anyDefined_foldl {cbuffs list : List CString} :
    AnyDefined context ns (cbuffs.foldl (fun list a => prependAtoms a list) list) ↔
      AnyDefined context ns list ∨ ∃ a ∈ cbuffs, AnyDefined context ns (prependAtoms a []) := by
  induction cbuffs generalizing list with
  | nil => simp
  | cons a cbuffs ih =>
    rw [List.foldl_cons, ih, prependAtoms_append, anyDefined_append, List.exists_mem_cons_iff]
    tauto

/-- **Splitting an expression.** Within the limits of the buffers, a class expression is defined
if and only if it contains no reference and some string of its split is defined. -/
theorem splitContextExpression_iff {e : CString} {x : Expression} (context : ClassContext)
    (ns : Option CString) (hparse : parseExpression e = ⟨some x, []⟩)
    (hlen : e.length < cfMaxVarSize) (hfits : ∀ cbuff ∈ orAtoms e, FitsBuffers cbuff) :
    isDefinedClass context ns (some e) = true ↔
      '$' ∉ e ∧ ∃ atom ∈ splitContextExpression (some e),
        isDefinedClass context ns (some atom) = true := by
  obtain ⟨t, rfl⟩ := (parseExpression_correct.1 e).mp ⟨x, hparse⟩
  rw [isDefinedClass_text]
  refine and_congr_right fun h => ?_
  have hloop : ∀ {prepend}, splitContextExpression.loop prepend t.text.length t.text [] =
      (t.alternatives.map ClassTree.text).foldl (fun list a => prepend a list) [] :=
        fun {prepend} =>
    splitContextExpression.loop_text t h [] nofun _ (Nat.le_refl _) []
  have hatoms : orAtoms t.text = (t.alternatives.map ClassTree.text).reverse := by
    rw [orAtoms, hloop, List.foldl_flip_cons_eq_append', List.append_nil]
  change _ ↔ AnyDefined context ns (splitContextExpression (some t.text))
  rw [splitContextExpression, hloop, anyDefined_foldl, t.truth_alternatives, List.any_eq_true]
  have halternative : ∀ a ∈ t.alternatives, (AnyDefined context ns (prependAtoms a.text []) ↔
      a.truth (StringTree.isDefined context ns) = true) := fun a ha =>
    anyDefined_prependAtoms (fun hc => h (t.mem_text_of_alternative a ha hc))
      (Nat.lt_of_le_of_lt (t.length_alternative_le a ha) hlen)
      (hfits _ (by rw [hatoms]; simp [List.mem_map_of_mem ha]))
  constructor
  · rintro ⟨a, ha, htrue⟩
    exact .inr ⟨a.text, List.mem_map_of_mem ha, (halternative a ha).mpr htrue⟩
  · rintro (⟨_, hnil, -⟩ | ⟨_, hmem, hdef⟩)
    · cases hnil
    · obtain ⟨a, ha, rfl⟩ := List.mem_map.mp hmem
      exact ⟨a, ha, (halternative a ha).mp hdef⟩

theorem splitContextExpression_iff_distributed :
    isDefinedClass onlyClassA none (some "a.(b||a)|c".toList) = true ↔
      '$' ∉ "a.(b||a)|c".toList ∧ ∃ atom ∈ splitContextExpression (some "a.(b||a)|c".toList),
        isDefinedClass onlyClassA none (some atom) = true :=
  splitContextExpression_iff
    (x := .or
      (.and (.eval (.literal ['a'])) (.or (.eval (.literal ['b'])) (.eval (.literal ['a']))))
      (.eval (.literal ['c'])))
    onlyClassA none (by decide) (by decide) (by
      simp only [FitsBuffers]
      decide)

/-- The class `a` is one of the strings of the split of `a|$(x)`, but the expression is not
defined, because its other operand has no value. -/
theorem splitContextExpression_reference :
    let e := "a|$(x)".toList
    (parseExpression e).result.isSome = true ∧ (parseExpression e).rest = [] ∧
      e.length < cfMaxVarSize ∧ isDefinedClass onlyClassA none (some e) = false ∧
      ∃ atom ∈ splitContextExpression (some e),
        isDefinedClass onlyClassA none (some atom) = true := by
  decide

end

end Cfengine