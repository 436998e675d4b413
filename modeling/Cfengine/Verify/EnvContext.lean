import Cfengine.EnvContext
import Cfengine.Verify.LogicExpressions

/-!
# Defined classes

A name with a reference never has a value, so a class expression is defined if it contains no
reference and is true. `IsDefinedClass` does not look at where the parser stopped, so it also
takes a string for defined that goes on behind a true expression.
-/

namespace Cfengine
open Descent

/-! ## Names without references -/

theorem Token.not_mem (t : Token) {c : Char} (hc : validTokenCharacter c = false) :
    c ∉ t.chars := fun h => by
  rw [t.valid c h] at hc
  cases hc

/-- Without variables, exactly the names with a reference fail. -/
theorem StringTree.value_evalVarRef {sym : StringSym} (t : StringTree sym) :
    t.value evalVarRef = if '$' ∈ t.text then none else some t.text := by
  induction t with
  | token t => rw [value, text, if_neg (t.not_mem (by decide))]; rfl
  | varRef b q ih =>
    rw [value, text, if_pos List.mem_cons_self]
    change (q.value evalVarRef).bind evalVarRef = none
    cases q.value evalVarRef <;> rfl
  | last t ih => exact ih
  | plain n ih => exact ih
  | cons t n iht ihn =>
    rw [value, text, NameValue.append, iht, ihn]
    by_cases ht : '$' ∈ t.text <;> by_cases hn : '$' ∈ n.text <;> simp [ht, hn]
  | dotted s n ihs ihn =>
    rw [value, text, NameValue.append, NameValue.append, ihs, ihn]
    by_cases hs : '$' ∈ s.text <;> by_cases hn : '$' ∈ n.text <;> simp [hs, hn, NameValue.literal]

/-- The class that a name without references stands for is in the context. -/
def StringTree.isDefined (context : ClassContext) («namespace» : Option CString)
    (n : StringTree .name) : Bool :=
  evalTokenAsClass context «namespace» n.text = .expTrue

variable {context : ClassContext} {ns : Option CString} {s rest : CString}

theorem evalTokenAsClass_ne_error {classname : CString} :
    evalTokenAsClass context ns classname ≠ .expError := by
  have hofBool : ∀ b, ExpressionValue.ofBool b ≠ .expError := by decide
  exact hofBool _

theorem StringTree.classValue_evalVarRef (n : StringTree .name) :
    n.classValue (evalTokenAsClass context ns) evalVarRef =
      if '$' ∈ n.text then .expError else evalTokenAsClass context ns n.text := by
  rw [classValue, value_evalVarRef]
  by_cases hn : '$' ∈ n.text
  · rw [if_pos hn, if_pos hn]
  · rw [if_neg hn, if_neg hn]

namespace ClassTree

variable {sym : ClassSym}

theorem mem_text_of_name {c : Char} (hc : c ∉ ['!', '(', ')', '|', '.', '&'])
    (t : ClassTree sym) : c ∈ t.text ↔ ∃ n ∈ t.names, c ∈ n.text := by
  simp only [List.mem_cons, List.not_mem_nil, or_false, not_or] at hc
  obtain ⟨hnot, hopen, hclose, hbar, hdot, hamp⟩ := hc
  induction t with
  | ofAnd t ih | ofNot t ih | ofPrimary t ih => exact ih
  | or op l r ihl ihr =>
    have hop : c ∉ op.text := by cases op <;> simp [OrOp.text, hbar]
    simp [text, names, ihl, ihr, hop, or_and_right, exists_or]
  | and op l r ihl ihr =>
    have hop : c ≠ op.char := by cases op <;> assumption
    simp [text, names, ihl, ihr, hop, or_and_right, exists_or]
  | not p ih => simpa [text, names, hnot] using ih
  | group e ih => simpa [text, names, hopen, hclose] using ih
  | name n => simp [text, names]

theorem truth_congr {f g : StringTree .name → Bool} (t : ClassTree sym)
    (h : ∀ n ∈ t.names, f n = g n) : t.truth f = t.truth g := by
  induction t with
  | ofAnd t ih | ofNot t ih | ofPrimary t ih | group t ih => exact ih h
  | or _ l r ihl ihr | and _ l r ihl ihr =>
    rw [names] at h
    rw [truth, truth, ihl fun n hn => h n (List.mem_append_left _ hn),
      ihr fun n hn => h n (List.mem_append_right _ hn)]
  | not p ih => rw [truth, truth, ih h]
  | name n => exact h n (List.mem_singleton_self n)

theorem fails_iff (t : ClassTree sym) :
    t.fails (evalTokenAsClass context ns) evalVarRef = true ↔ '$' ∈ t.text := by
  rw [fails, List.any_eq_true, mem_text_of_name (by decide)]
  refine exists_congr fun n => and_congr_right fun _ => ?_
  rw [decide_eq_true_eq, StringTree.classValue_evalVarRef]
  by_cases hn : '$' ∈ n.text
  · simp [hn]
  · simp [hn, evalTokenAsClass_ne_error]

/-- The value of an expression in a context of classes. -/
theorem value_eq_expTrue_iff (t : ClassTree sym) :
    t.value (evalTokenAsClass context ns) evalVarRef = .expTrue ↔
      '$' ∉ t.text ∧ t.truth (StringTree.isDefined context ns) = true := by
  rw [value]
  split
  · rename_i h
    exact iff_of_false (by simp) fun hn => hn.1 (fails_iff t |>.mp h)
  · rename_i h
    have hdollar : '$' ∉ t.text := fun hmem => h ((fails_iff t).mpr hmem)
    have htruth : t.truth (fun n =>
        n.classValue (evalTokenAsClass context ns) evalVarRef = .expTrue) =
          t.truth (StringTree.isDefined context ns) := by
      refine truth_congr t fun n hn => ?_
      rw [StringTree.classValue_evalVarRef, if_neg, StringTree.isDefined]
      exact fun hmem => hdollar ((mem_text_of_name (by decide) t).mpr ⟨n, hn, hmem⟩)
    rw [htruth, and_iff_right hdollar]
    cases t.truth (StringTree.isDefined context ns) <;> decide

end ClassTree

/-! ## Defined classes -/

/-- A string is defined if the expression at which the parser stops is true. -/
theorem isDefinedClass_iff :
    isDefinedClass context ns (some s) = true ↔
      ∃ (t : ClassTree .or) (rest : CString), s = t.text ++ rest ∧ t.Stops rest ∧
        t.value (evalTokenAsClass context ns) evalVarRef = .expTrue := by
  rw [isDefinedClass]
  constructor
  · intro h
    rcases hparse : parseExpression s with ⟨_ | e, rest⟩
    · rw [hparse] at h
      cases h
    · rw [hparse] at h
      obtain ⟨t, rfl, hstop⟩ := parseExpression_iff.mp ⟨e, hparse⟩
      obtain ⟨e', he', hv⟩ := t.parse_complete hstop
      obtain rfl : e' = e := by
        have := he'.symm.trans hparse
        cases this
        rfl
      exact ⟨t, rest, rfl, hstop, by rw [← hv]; exact of_decide_eq_true h⟩
  · rintro ⟨t, rest, rfl, hstop, hvalue⟩
    obtain ⟨e, he, hv⟩ := t.parse_complete hstop
    rw [ClassSym.parse] at he
    rw [he]
    exact decide_eq_true ((hv _ _).trans hvalue)

/-- A whole class expression is defined if it contains no reference and is true. -/
theorem isDefinedClass_text (t : ClassTree .or) :
    isDefinedClass context ns (some t.text) = true ↔
      '$' ∉ t.text ∧ t.truth (StringTree.isDefined context ns) = true := by
  rw [← t.value_eq_expTrue_iff, isDefinedClass]
  obtain ⟨e, he, hv⟩ := parseExpression_correct.2 t
  rw [he]
  simp [hv]

theorem validClassName_iff : validClassName s = true ↔ ∃ t : ClassTree .or, t.text = s := by
  rw [← parseExpression_correct.1, validClassName]
  rcases parseExpression s with ⟨_ | e, rest⟩ <;> simp

/-- **Malformed strings.** Whatever is defined is a class expression as a whole, unless the string
goes on behind a class expression that it does not continue and that is true. -/
theorem isDefinedClass_valid_iff (context : ClassContext) (ns : Option CString) (s : CString) :
    (isDefinedClass context ns (some s) = true → validClassName s = true) ↔
      ¬ ∃ (t : ClassTree .or) (rest : CString), rest ≠ [] ∧ s = t.text ++ rest ∧ t.Stops rest ∧
        '$' ∉ t.text ∧ t.truth (StringTree.isDefined context ns) = true := by
  rw [isDefinedClass_iff, validClassName_iff]
  constructor
  · rintro h ⟨t, rest, hrest, rfl, hstop, htrue⟩
    obtain ⟨t', ht'⟩ := h ⟨t, rest, rfl, hstop, t.value_eq_expTrue_iff.mpr htrue⟩
    -- the parser stops in front of `rest`, and at the end of the string
    obtain ⟨e, he, -⟩ := t.parse_complete hstop
    obtain ⟨e', he', -⟩ := t'.parse_complete t'.stops_nil
    rw [List.append_nil, ht', he] at he'
    cases he'
    exact hrest rfl
  · rintro h ⟨t, rest, rfl, hstop, hvalue⟩
    have hrest : rest = [] := Decidable.not_not.mp fun hrest =>
      h ⟨t, rest, hrest, rfl, hstop, t.value_eq_expTrue_iff.mp hvalue⟩
    exact ⟨t, by rw [hrest, List.append_nil]⟩

/-- A context in which `a` is the only class. -/
def onlyClassA : ClassContext where
  vnegheap := []
  vdelclasses := []
  vhardheap := fun _ => []
  vheap := fun c => if c = 'a' then [['a']] else []
  vaddclasses := fun _ => []

/-- The string `a)b` is defined because `a` is, but it is no class expression. -/
theorem isDefinedClass_trailing :
    isDefinedClass onlyClassA none (some "a)b".toList) = true ∧
      validClassName "a)b".toList = false := by
  decide

end Cfengine
