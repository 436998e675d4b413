import Cfengine.Expand
import Cfengine.Verify.Variables

/-!
# Expansion is one-pass substitution

`ScalarText` is the text that `ExpandPrivateScalar` is specified for. Its expansion replaces each
reference by the value of its expanded name, and writes it back if there is no scalar value. The
loop computes this (`loop_text`), by induction on the fuel for the references and the text behind
them, and on the text for the literal characters between them.
-/

namespace Cfengine

namespace RefText

/-- All brackets are of kind `b` and no name is empty. -/
def Uniform (b : Bracket) : RefText → Prop
  | nil => True
  | chr _ rest => rest.Uniform b
  | ref b' name rest => b' = b ∧ name ≠ nil ∧ name.Uniform b ∧ rest.Uniform b

theorem Uniform.lastOpened {b : Bracket} {t : RefText} (h : t.Uniform b) :
    t.lastOpened = none ∨ t.lastOpened = some b := by
  induction t with
  | nil => exact .inl rfl
  | chr c t ih => exact ih h
  | ref b' name t ihname iht =>
    obtain ⟨rfl, -, hname, ht⟩ := h
    right
    rw [RefText.lastOpened]
    rcases iht ht with ht | ht <;> rcases ihname hname with hname | hname <;>
      simp [ht, hname]

/-- In names of one kind every reference is recognised. -/
theorem Uniform.recognised {b : Bracket} {t : RefText} (h : t.Uniform b) :
    t.recognised = t.hasRef := by
  induction t with
  | nil => rfl
  | chr c t ih => exact ih h
  | ref b' name t _ _ =>
    obtain ⟨rfl, -, hname, -⟩ := h
    rw [RefText.recognised, hasRef]
    rcases hname.lastOpened with hname | hname <;> simp [hname]

end RefText

/-! ## The specification -/

/-- A reference with the name `name`: its scalar value, or itself. -/
def refValue (getVariable : VarLookup) (b : Bracket) (name : CString) : CString :=
  match getVariable name with
  | some (.scalar item, _) => item
  | _ => '$' :: b.opening :: (name ++ [b.closing])

/-- The name is bound to a scalar. -/
def isScalarName (getVariable : VarLookup) (name : CString) : Bool :=
  match getVariable name with
  | some (.scalar _, _) => true
  | _ => false

/-- Scalar types go with scalars and list types with lists, and there are no other types. -/
def ScalarOrList (getVariable : VarLookup) : Prop :=
  ∀ name rval dtype, getVariable name = some (rval, dtype) →
    (dtype = .str ∨ dtype = .int ∨ dtype = .real) ∧ (∃ item, rval = .scalar item) ∨
    (dtype = .slist ∨ dtype = .ilist ∨ dtype = .rlist) ∧ ∃ item, rval = .list item

/-- The expansion of a name, innermost references first. -/
def RefText.expand (getVariable : VarLookup) : RefText → CString
  | nil => []
  | chr c rest => c.1 :: rest.expand getVariable
  | ref b name rest =>
    refValue getVariable b (name.expand getVariable) ++ rest.expand getVariable

/-- A reference is shorter than `CF_MAXVARSIZE`, and so is what is written back for it; its
expanded name fits in the buffer. -/
structure RefFits (getVariable : VarLookup) (name : RefText) : Prop where
  written : name.text.length + 3 < cfMaxVarSize
  expanded : (name.expand getVariable).length < cfExpandSize - cfBufferMargin
  writtenBack : isScalarName getVariable (name.expand getVariable) = false →
    (name.expand getVariable).length + 3 < cfMaxVarSize

/-- Every reference fits, those in names included. -/
def RefText.Fits (getVariable : VarLookup) : RefText → Prop
  | nil => True
  | chr _ rest => rest.Fits getVariable
  | ref _ name rest =>
    RefFits getVariable name ∧ name.Fits getVariable ∧ rest.Fits getVariable

/-- Literal characters and references. -/
inductive ScalarText where
  | nil
  | lit (c : Char) (rest : ScalarText)
  | ref (bracket : Bracket) (name : RefText) (rest : ScalarText)

namespace ScalarText

def text : ScalarText → CString
  | nil => []
  | lit c rest => c :: rest.text
  | ref b name rest => '$' :: b.opening :: (name.text ++ b.closing :: rest.text)

/-- A literal `$` is not followed by a bracket; a reference has brackets of one kind and no empty
names. -/
def Wf : ScalarText → Prop
  | nil => True
  | lit c rest => (c = '$' → startsWithBracket rest.text = false) ∧ rest.Wf
  | ref b name rest => name ≠ .nil ∧ name.Uniform b ∧ rest.Wf

variable (getVariable : VarLookup)

def expand : ScalarText → CString
  | nil => []
  | lit c rest => c :: rest.expand
  | ref b name rest => refValue getVariable b (name.expand getVariable) ++ rest.expand

/-- Every top-level reference is resolved to a scalar. -/
def resolved : ScalarText → Bool
  | nil => true
  | lit _ rest => rest.resolved
  | ref _ name rest => isScalarName getVariable (name.expand getVariable) && rest.resolved

def Fits : ScalarText → Prop
  | nil => True
  | lit _ rest => rest.Fits
  | ref _ name rest => RefFits getVariable name ∧ name.Fits getVariable ∧ rest.Fits

end ScalarText

/-- A name, as the string that a recursive call expands. -/
def RefText.toScalarText : RefText → ScalarText
  | nil => .nil
  | chr c rest => .lit c.1 rest.toScalarText
  | ref b name rest => .ref b name rest.toScalarText

section
variable {getVariable : VarLookup} {b : Bracket}

@[simp] theorem RefText.text_toScalarText (t : RefText) : t.toScalarText.text = t.text := by
  induction t with
  | nil => rfl
  | chr c t ih => rw [toScalarText, ScalarText.text, ih, RefText.text]
  | ref b name t _ ih => rw [toScalarText, ScalarText.text, ih, RefText.text]

@[simp] theorem RefText.expand_toScalarText (t : RefText) :
    t.toScalarText.expand getVariable = t.expand getVariable := by
  induction t with
  | nil => rfl
  | chr c t ih => rw [toScalarText, ScalarText.expand, ih, RefText.expand]
  | ref b name t _ ih => rw [toScalarText, ScalarText.expand, ih, RefText.expand]

theorem RefText.wf_toScalarText {t : RefText} (h : t.Uniform b) : t.toScalarText.Wf := by
  induction t with
  | nil => trivial
  | chr c t ih => exact ⟨fun hc => absurd hc (c.ne rfl), ih h⟩
  | ref b' name t _ ih =>
    obtain ⟨rfl, hne, hname, ht⟩ := h
    exact ⟨hne, hname, ih ht⟩

theorem RefText.fits_toScalarText {t : RefText} (h : t.Fits getVariable) :
    t.toScalarText.Fits getVariable := by
  induction t with
  | nil => trivial
  | chr c t ih => exact ih h
  | ref b' name t _ ih => exact ⟨h.1, h.2.1, ih h.2.2⟩

theorem RefText.expand_of_not_hasRef {t : RefText} (h : t.hasRef = false) :
    t.expand getVariable = t.text := by
  induction t with
  | nil => rfl
  | chr c t ih => rw [RefText.expand, ih h, RefText.text]
  | ref => cases h

end

/-! ## Extracting -/

variable {b : Bracket} {rest : CString} {bracks : Int}

@[simp] theorem bracketDelta_opening : bracketDelta b.opening = 1 := by
  rw [bracketDelta, isOpenBracket_opening, if_pos rfl]

@[simp] theorem bracketDelta_closing : bracketDelta b.closing = -1 := by
  rw [bracketDelta, isOpenBracket_closing, isCloseBracket_closing]
  rfl

@[simp] theorem bracketDelta_identChar (c : IdentChar) : bracketDelta c.1 = 0 := by
  simp [bracketDelta]

@[simp] theorem bracketDelta_sigil : bracketDelta '$' = 0 := by decide

theorem opening_ne_sigil : b.opening ≠ '$' := by cases b <;> decide

theorem closing_ne_sigil : b.closing ≠ '$' := by cases b <;> decide

theorem extractInner_loop_text (t : RefText) (hbracks : 0 < bracks) :
    extractInnerCf3VarString.loop bracks (t.text ++ rest) =
      (extractInnerCf3VarString.loop bracks rest).map (t.text ++ ·) := by
  induction t generalizing bracks rest with
  | nil => simp [RefText.text]
  | chr c t ih =>
    rw [RefText.text, List.cons_append, extractInnerCf3VarString.loop, bracketDelta_identChar,
      Int.add_zero, if_neg (by omega), ih hbracks, Option.map_map]
    rfl
  | ref b name t ihname iht =>
    have hstep : extractInnerCf3VarString.loop bracks (t.text ++ rest) =
        (extractInnerCf3VarString.loop bracks rest).map (t.text ++ ·) := iht hbracks
    rw [RefText.text, List.cons_append, List.cons_append, List.append_assoc, List.cons_append,
      extractInnerCf3VarString.loop, bracketDelta_sigil, Int.add_zero, if_neg (by omega),
      extractInnerCf3VarString.loop, bracketDelta_opening, if_neg (by omega),
      ihname (by omega), extractInnerCf3VarString.loop, bracketDelta_closing,
      Int.add_neg_cancel_right, if_neg (by omega), hstep]
    simp [Function.comp_def]

theorem extractOuter_loop_text (t : RefText) (hbracks : 0 < bracks) :
    extractOuterCf3VarString.loop true true bracks (t.text ++ rest) =
      (extractOuterCf3VarString.loop true true bracks rest).map (t.text ++ ·) := by
  have hstep : ∀ {c : Char} {rest : CString} {bracks : Int}, 0 < bracks + bracketDelta c →
      (c = '$' → startsWithBracket rest = true) →
      extractOuterCf3VarString.loop true true bracks (c :: rest) =
        (extractOuterCf3VarString.loop true true (bracks + bracketDelta c) rest).map (c :: ·) := by
    intro c rest bracks hbracks hc
    have hstray : (c = '$' && !startsWithBracket rest) = false := by
      by_cases hsigil : c = '$' <;> simp [hsigil, hc]
    have hbracks : bracks + bracketDelta c ≠ 0 := by omega
    simp [extractOuterCf3VarString.loop, hstray, hbracks]
  induction t generalizing bracks rest with
  | nil => simp [RefText.text]
  | chr c t ih =>
    rw [RefText.text, List.cons_append, hstep (by simpa using hbracks) fun hc =>
      absurd hc (c.ne rfl), bracketDelta_identChar, Int.add_zero, ih hbracks, Option.map_map]
    rfl
  | ref b name t ihname iht =>
    rw [RefText.text, List.cons_append, List.cons_append, List.append_assoc, List.cons_append,
      hstep (by simpa using hbracks) fun _ => startsWithBracket_opening _ _, bracketDelta_sigil,
      Int.add_zero, hstep (by simp; omega) fun hc => absurd hc opening_ne_sigil,
      bracketDelta_opening, ihname (by omega),
      hstep (by simp; omega) fun hc => absurd hc closing_ne_sigil, bracketDelta_closing,
      Int.add_neg_cancel_right, iht hbracks]
    simp [Function.comp_def]

theorem extractInnerCf3VarString_ref (name : RefText) :
    extractInnerCf3VarString ('$' :: b.opening :: (name.text ++ b.closing :: rest)) =
      name.text := by
  simp [extractInnerCf3VarString, extractInner_loop_text, extractInnerCf3VarString.loop]

theorem extractOuterCf3VarString_ref (name : RefText) :
    extractOuterCf3VarString ('$' :: b.opening :: (name.text ++ b.closing :: rest)) =
      '$' :: b.opening :: (name.text ++ [b.closing]) := by
  have hsigil : isOpenBracket '$' = false := by decide
  simp [extractOuterCf3VarString, extractOuterCf3VarString.loop, extractOuter_loop_text,
    opening_ne_sigil, closing_ne_sigil, hsigil]

/-! ## The rounds of the loop -/

variable {getVariable : VarLookup} {buffer item sp : CString} {returnval : Bool} {fuel : Nat}

theorem strlcat_eq (h : (buffer ++ item).length ≤ cfExpandSize - cfBufferMargin) :
    strlcat buffer item cfExpandSize = buffer ++ item := by
  rw [List.length_append] at h
  rw [strlcat, List.take_of_length_le]
  have : cfExpandSize - cfBufferMargin < cfExpandSize - 1 := by decide
  omega

theorem expandOverflow_eq_false (h : (buffer ++ item).length ≤ cfExpandSize - cfBufferMargin) :
    expandOverflow buffer item = false := by
  rw [List.length_append] at h
  simpa [expandOverflow] using h

/-- A character before the next `$` goes to the buffer. -/
theorem loop_lit {c : Char} (hc : c ≠ '$')
    (hbuffer : (buffer ++ [c]).length ≤ cfExpandSize - cfBufferMargin) :
    expandPrivateScalar.loop getVariable (fuel + 1) (c :: sp) buffer returnval =
      expandPrivateScalar.loop getVariable (fuel + 1) sp (buffer ++ [c]) returnval := by
  have hover : expandOverflow buffer (c :: sp.takeWhile (· ≠ '$')) =
      expandOverflow (buffer ++ [c]) (sp.takeWhile (· ≠ '$')) := by
    simp only [expandOverflow, List.length_cons, List.length_append, List.length_nil]
    congr 2
    omega
  have hcat : strlcat buffer (c :: sp.takeWhile (· ≠ '$')) cfExpandSize =
      strlcat (buffer ++ [c]) (sp.takeWhile (· ≠ '$')) cfExpandSize := by
    have : cfExpandSize - cfBufferMargin < cfExpandSize - 1 := by decide
    obtain ⟨k, hk⟩ : ∃ k, cfExpandSize - 1 - buffer.length = k + 1 :=
      ⟨cfExpandSize - 1 - buffer.length - 1, by simp at hbuffer; omega⟩
    rw [strlcat, strlcat, hk, List.take_succ_cons, List.append_assoc, List.singleton_append]
    congr 3
    rw [List.length_append, List.length_singleton]
    omega
  rw [expandPrivateScalar.loop, expandPrivateScalar.loop,
    List.takeWhile_cons_of_pos (by simpa using hc), List.dropWhile_cons_of_pos (by simpa using hc),
    hover, hcat]

theorem loop_nil (hbuffer : buffer.length ≤ cfExpandSize - cfBufferMargin) :
    expandPrivateScalar.loop getVariable (fuel + 1) [] buffer returnval =
      some (buffer, returnval) := by
  rw [← List.append_nil buffer] at hbuffer
  simp [expandPrivateScalar.loop, expandOverflow_eq_false hbuffer, strlcat_eq hbuffer]

/-- A stray `$` goes to the buffer. -/
theorem loop_stray (hsp : startsWithBracket sp = false)
    (hbuffer : (buffer ++ ['$']).length ≤ cfExpandSize - cfBufferMargin) :
    expandPrivateScalar.loop getVariable (fuel + 1) ('$' :: sp) buffer returnval =
      expandPrivateScalar.loop getVariable fuel sp (buffer ++ ['$']) returnval := by
  have hempty : (buffer ++ []).length ≤ cfExpandSize - cfBufferMargin := by
    simp at hbuffer ⊢
    omega
  simp [expandPrivateScalar.loop, expandOverflow_eq_false hempty, strlcat_eq hempty, hsp,
    strlcat_eq hbuffer]

theorem refValue_of_not_isScalarName {name : CString} (h : isScalarName getVariable name = false) :
    refValue getVariable b name = '$' :: b.opening :: (name ++ [b.closing]) := by
  rw [isScalarName] at h
  rw [refValue]
  split
  · rename_i hvalue
    rw [hvalue] at h
    cases h
  · rfl

theorem writtenBack_eq {name : CString} (h : name.length + 3 < cfMaxVarSize) :
    writtenBack b.closing name = '$' :: b.opening :: (name ++ [b.closing]) := by
  have hlen : ('$' :: b.opening :: (name ++ [b.closing])).length ≤ cfMaxVarSize - 1 := by
    simp
    omega
  cases b <;> exact List.take_of_length_le hlen

/-- A reference is replaced by its value or written back. -/
theorem loop_ref {name : RefText} {expanded : CString} (hlookup : ScalarOrList getVariable)
    (hwritten : name.text.length + 3 < cfMaxVarSize)
    (hname : expandName (expandPrivateScalar.loop getVariable fuel name.text [] true) name.text =
      some expanded)
    (hback : isScalarName getVariable expanded = false → expanded.length + 3 < cfMaxVarSize)
    (hbuffer : (buffer ++ refValue getVariable b expanded).length ≤
      cfExpandSize - cfBufferMargin) :
    expandPrivateScalar.loop getVariable (fuel + 1)
        ('$' :: b.opening :: (name.text ++ b.closing :: sp)) buffer returnval =
      expandPrivateScalar.loop getVariable fuel sp (buffer ++ refValue getVariable b expanded)
        (isScalarName getVariable expanded && returnval) := by
  have hempty : (buffer ++ []).length ≤ cfExpandSize - cfBufferMargin := by
    simp at hbuffer ⊢
    omega
  have hlen : ('$' :: b.opening :: (name.text ++ [b.closing])).length < cfBufSize := by
    have : cfMaxVarSize < cfBufSize := by decide
    simp
    omega
  have hdrop : ('$' :: b.opening :: (name.text ++ b.closing :: sp)).drop
      ('$' :: b.opening :: (name.text ++ [b.closing])).length = sp := by
    simp
  have hvarstring : (if (b.opening :: (name.text ++ b.closing :: sp)).head? = some '{' then '}'
      else ')') = b.closing := by
    cases b <;> rfl
  rw [expandPrivateScalar.loop]
  simp only [List.takeWhile_cons_of_neg, List.dropWhile_cons_of_neg, expandOverflow_eq_false hempty,
    strlcat_eq hempty, startsWithBracket_opening, extractOuterCf3VarString_ref,
    extractInnerCf3VarString_ref, hdrop, hvarstring, hname, List.append_nil, reduceCtorEq,
    Bool.false_eq_true, if_false, if_true, ne_eq, not_true, decide_false, not_false_eq_true,
    Nat.not_le.mpr hlen, Option.bind_eq_bind, Option.bind_some]
  have hunresolved : isScalarName getVariable expanded = false →
      strlcat buffer (writtenBack b.closing expanded) cfExpandSize =
        buffer ++ refValue getVariable b expanded := by
    intro h
    have hvalue : writtenBack b.closing expanded = refValue getVariable b expanded := by
      rw [writtenBack_eq (hback h), refValue_of_not_isScalarName h]
    rw [hvalue, strlcat_eq hbuffer]
  cases hvalue : getVariable expanded with
  | none =>
    have hscalar : isScalarName getVariable expanded = false := by rw [isScalarName, hvalue]
    simp only [hunresolved hscalar, hscalar, Bool.false_and]
  | some value =>
    obtain ⟨rval, dtype⟩ := value
    rcases hlookup _ _ _ hvalue with ⟨hdtype, item, rfl⟩ | ⟨hdtype, item, rfl⟩
    · have hscalar : isScalarName getVariable expanded = true := by rw [isScalarName, hvalue]
      have hitem : refValue getVariable b expanded = item := by rw [refValue, hvalue]
      rw [hitem] at hbuffer ⊢
      rcases hdtype with rfl | rfl | rfl <;>
        simp only [expandOverflow_eq_false hbuffer, strlcat_eq hbuffer, hscalar, Bool.true_and,
          Bool.false_eq_true, if_false]
    · have hscalar : isScalarName getVariable expanded = false := by rw [isScalarName, hvalue]
      rcases hdtype with rfl | rfl | rfl <;>
        simp only [hunresolved hscalar, hscalar, Bool.false_and]

/-! ## The whole string -/

variable (getVariable fuel) in
/-- The expansion of a name, by a recursive call or as it stands. -/
theorem expandName_text {name : RefText} (hname : name.Uniform b)
    (hloop : name.hasRef = true →
      ∃ ret, expandPrivateScalar.loop getVariable fuel name.text [] true =
      some (name.expand getVariable, ret)) :
    expandName (expandPrivateScalar.loop getVariable fuel name.text [] true) name.text =
      some (name.expand getVariable) := by
  rw [expandName]
  cases href : name.hasRef with
  | true =>
    obtain ⟨ret, hloop⟩ := hloop href
    rw [if_pos ((isCf3VarString_text name).mpr (hname.recognised.trans href)), hloop]
    rfl
  | false =>
    rw [if_neg, RefText.expand_of_not_hasRef href]
    rw [isCf3VarString_text, hname.recognised, href]
    exact Bool.false_ne_true

theorem loop_text (hlookup : ScalarOrList getVariable) (t : ScalarText) (hwf : t.Wf)
    (hfits : t.Fits getVariable) (hfuel : t.text.length < fuel)
    (hbuffer : (buffer ++ t.expand getVariable).length ≤ cfExpandSize - cfBufferMargin) :
    expandPrivateScalar.loop getVariable fuel t.text buffer returnval =
      some (buffer ++ t.expand getVariable, t.resolved getVariable && returnval) := by
  induction fuel generalizing t buffer returnval with
  | zero => exact absurd hfuel (Nat.not_lt_zero _)
  | succ fuel ihfuel =>
    induction t generalizing buffer with
    | nil =>
      rw [ScalarText.expand, List.append_nil] at hbuffer ⊢
      rw [ScalarText.text, loop_nil hbuffer]
      rfl
    | lit c t iht =>
      obtain ⟨hstray, hwf⟩ := hwf
      rw [ScalarText.text, List.length_cons] at hfuel
      rw [ScalarText.expand, List.append_cons] at hbuffer ⊢
      have hchar : (buffer ++ [c]).length ≤ cfExpandSize - cfBufferMargin := by
        rw [List.length_append] at hbuffer
        omega
      by_cases hc : c = '$'
      · subst hc
        rw [ScalarText.text, loop_stray (hstray rfl) hchar]
        exact ihfuel t hwf hfits (by omega) hbuffer
      · rw [ScalarText.text, loop_lit hc hchar]
        exact iht hwf hfits (by omega) hbuffer
    | ref b name t _ =>
      obtain ⟨-, hname, hwf⟩ := hwf
      obtain ⟨href, hnamefits, hfits⟩ := hfits
      rw [ScalarText.text] at hfuel
      simp only [List.length_cons, List.length_append] at hfuel
      rw [ScalarText.expand, ← List.append_assoc] at hbuffer ⊢
      have hvalue : (buffer ++ refValue getVariable b (name.expand getVariable)).length ≤
          cfExpandSize - cfBufferMargin := by
        rw [List.length_append] at hbuffer
        omega
      -- the recursive call, if there is one
      have hexpand := expandName_text getVariable fuel hname fun _ => by
        have hnested := @ihfuel [] true name.toScalarText
          (RefText.wf_toScalarText hname) (RefText.fits_toScalarText hnamefits)
          (by rw [RefText.text_toScalarText]; omega)
          (by rw [RefText.expand_toScalarText]; exact Nat.le_of_lt href.expanded)
        rw [RefText.text_toScalarText, RefText.expand_toScalarText] at hnested
        exact ⟨_, hnested⟩
      rw [ScalarText.text, loop_ref hlookup href.written hexpand href.writtenBack hvalue,
        ihfuel t hwf hfits (by omega) hbuffer, ScalarText.resolved]
      rw [Bool.and_left_comm, Bool.and_assoc]

/-- **`ExpandPrivateScalar` is one-pass substitution.** -/
theorem expandPrivateScalar_text (hlookup : ScalarOrList getVariable) (t : ScalarText)
    (hne : t.text ≠ []) (hwf : t.Wf) (hfits : t.Fits getVariable)
    (hresult : (t.expand getVariable).length < cfExpandSize - cfBufferMargin) :
    expandPrivateScalar getVariable t.text =
      some (t.expand getVariable, t.resolved getVariable) := by
  rw [expandPrivateScalar, if_neg hne,
    loop_text hlookup t hwf hfits (Nat.lt_succ_self _) (by simpa using Nat.le_of_lt hresult),
    Bool.and_true]
  rfl

/-! ## An array element with a computed index -/

/-- `i` has the value `index`, and the element of `a` with the index 5 is defined. -/
def indexLookup (index : CString) : VarLookup := fun name =>
  if name = "i".toList then some (.scalar index, .str)
  else if name = "a[5]".toList then some (.scalar "v".toList, .int)
  else none

theorem scalarOrList_indexLookup (index : CString) : ScalarOrList (indexLookup index) := by
  intro name rval dtype h
  rw [indexLookup] at h
  split at h
  · cases h
    exact .inl ⟨.inl rfl, index, rfl⟩
  · split at h
    · cases h
      exact .inl ⟨.inr (.inl rfl), _, rfl⟩
    · cases h

/-- `a[$(i)]` -/
def indexedName : RefText :=
  .chr ⟨'a', isIdentChar_a⟩ <| .chr ⟨'[', rfl⟩ <| .ref .paren (.chr ⟨'i', rfl⟩ .nil) <|
    .chr ⟨']', rfl⟩ .nil

theorem uniform_indexedName : indexedName.Uniform .paren := ⟨rfl, nofun, trivial, trivial⟩

/-- `$$(a[$(i)])` expands to `$v`. -/
theorem expandPrivateScalar_text_indexed :
    expandPrivateScalar (indexLookup "5".toList) "$$(a[$(i)])".toList = some ("$v".toList, true) :=
  expandPrivateScalar_text (scalarOrList_indexLookup _) (.lit '$' (.ref .paren indexedName .nil))
    (by decide) ⟨fun _ => rfl, nofun, uniform_indexedName, trivial⟩
    ⟨⟨by decide, by decide, by decide⟩,
      ⟨⟨by decide, by decide, by decide⟩, trivial, trivial⟩, trivial⟩
    (by decide)

/-- With an index of 1100 characters the reference is written back cut off. -/
theorem expandPrivateScalar_cut_off :
    ScalarOrList (indexLookup (List.replicate 1100 'x')) ∧
      (∀ name, '$' ∈ name → indexLookup (List.replicate 1100 'x') name = none) ∧
      (ScalarText.ref .paren indexedName .nil).Wf ∧
      (ScalarText.ref .paren indexedName .nil).text = "$(a[$(i)])".toList ∧
      ((ScalarText.ref .paren indexedName .nil).expand
          (indexLookup (List.replicate 1100 'x'))).length < cfExpandSize - cfBufferMargin ∧
      expandPrivateScalar (indexLookup (List.replicate 1100 'x')) "$(a[$(i)])".toList =
        some ("$(a[".toList ++ List.replicate 1019 'x', false) ∧
      (ScalarText.ref .paren indexedName .nil).expand (indexLookup (List.replicate 1100 'x')) =
        "$(a[".toList ++ List.replicate 1100 'x' ++ "])".toList ∧
      expandPrivateScalar (indexLookup (List.replicate 1100 'x')) "$(a[$(i)])".toList ≠
        some ((ScalarText.ref .paren indexedName .nil).expand
          (indexLookup (List.replicate 1100 'x')), (ScalarText.ref .paren indexedName .nil).resolved
            (indexLookup (List.replicate 1100 'x'))) := by
  refine ⟨scalarOrList_indexLookup _, fun name hname => ?_, ⟨nofun, uniform_indexedName, trivial⟩,
    rfl, by decide +kernel, by decide +kernel, by decide +kernel, by decide +kernel⟩
  rw [indexLookup, if_neg (by rintro rfl; revert hname; decide),
    if_neg (by rintro rfl; revert hname; decide)]

end Cfengine
