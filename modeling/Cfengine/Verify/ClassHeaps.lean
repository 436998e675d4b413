import Cfengine.ClassHeaps
import Cfengine.Verify.EnvContext

/-!
# Class heaps are sets with a private stack

A name is defined through its qualified form, which all functions build in the same way
(`qualifiedClass`). No list has a name twice, so that deleting the first one deletes it, and no two
lists are at one address, so that what is done to the private classes does not reach the stack.
-/

namespace Cfengine
open Descent

/-! ## Names -/

/-- A character of an identifier. -/
def isIdChar (c : Char) : Bool := c.isAlphanum || c = '_'

/-- The name of a class, which fits in the buffers. -/
structure ClassName (name : CString) : Prop where
  ne_nil : name ≠ []
  chars : ∀ c ∈ name, isIdChar c = true
  length : name.length < cfMaxVarSize

/-- The name of a namespace; `NULL` is the default one. -/
def NamespaceName (ns : Option CString) : Prop := ∀ s, ns = some s → ∀ c ∈ s, isIdChar c = true

section
variable {name s : CString} {ns : Option CString} {c : Char} {context : ClassContext}

theorem isIdChar_eq : isIdChar c = true ↔
    ('A' ≤ c ∧ c ≤ 'Z') ∨ ('a' ≤ c ∧ c ≤ 'z') ∨ ('0' ≤ c ∧ c ≤ '9') ∨ c = '_' := by
  simp only [isIdChar, Char.isAlphanum, Char.isAlpha, Char.isUpper, Char.isLower, Char.isDigit,
    Bool.or_eq_true, Bool.and_eq_true, decide_eq_true_eq, or_assoc]
  rfl

theorem ne_colon_of_isIdChar (h : isIdChar c = true) : c ≠ ':' := by
  rintro rfl
  exact absurd h (by decide)

theorem isspace_of_isIdChar (h : isIdChar c = true) : isspace c = false := by
  rw [Bool.eq_false_iff, isspace]
  intro hspace
  simp only [Bool.or_eq_true, Bool.and_eq_true, decide_eq_true_eq] at hspace
  rcases hspace with rfl | ⟨-, hspace⟩
  · exact absurd h (by decide)
  · rcases isIdChar_eq.1 h with ⟨h, -⟩ | ⟨h, -⟩ | ⟨h, -⟩ | rfl
    · exact absurd (le_trans h hspace) (by decide)
    · exact absurd (le_trans h hspace) (by decide)
    · exact absurd (le_trans h hspace) (by decide)
    · exact absurd hspace (by decide)

theorem validTokenCharacter_of_isIdChar (h : isIdChar c = true) : validTokenCharacter c = true := by
  rw [isIdChar_eq] at h
  rw [validTokenCharacter]
  simp only [Bool.or_eq_true, Bool.and_eq_true, decide_eq_true_eq]
  tauto

theorem ClassName.colon (h : ClassName name) : ':' ∉ name :=
  fun hc => ne_colon_of_isIdChar (h.chars _ hc) rfl

theorem chop_of_forall (h : ∀ c ∈ s, isspace c = false) : chop s = s := by
  rw [chop, ite_eq_left_iff]
  intro _
  refine List.rdropWhile_eq_self_iff.2 fun hne hspace => ?_
  rw [h _ (List.getLast_mem hne)] at hspace
  cases hspace

theorem ClassName.chop_eq (h : ClassName name) : chop name = name :=
  chop_of_forall fun c hc => isspace_of_isIdChar (h.chars c hc)

theorem ClassName.canonifyNameInPlace_eq (h : ClassName name) :
    canonifyNameInPlace name = name := by
  refine (List.map_congr_left fun c hc => ?_).trans (List.map_id name)
  have hchar := h.chars c hc
  rw [isIdChar, Bool.or_eq_true, decide_eq_true_eq] at hchar
  rcases hchar with hchar | rfl
  · exact if_pos hchar
  · rfl

theorem ClassName.canonifyName_eq (h : ClassName name) : canonifyName name = name := by
  have htake : name.take (cfBufSize - 1) = name :=
    List.take_of_length_le (Nat.le_of_lt (Nat.lt_trans h.length (by decide)))
  rw [canonifyName, htake, h.canonifyNameInPlace_eq]

/-- The qualified form of a name. -/
theorem ClassName.qualifiedClass_eq (h : ClassName name) :
    qualifiedClass ns name =
      match ns with
      | none => name
      | some ns =>
        if ns ≠ "default".toList then (ns ++ ':' :: name).take (cfMaxVarSize - 1) else name := by
  have htake : name.take (cfMaxVarSize - 1) = name :=
    List.take_of_length_le (Nat.le_pred_of_lt h.length)
  rw [qualifiedClass.eq_def]
  dsimp only
  rw [if_neg h.colon]
  cases ns with
  | none => exact htake
  | some ns =>
    dsimp only
    split
    · rfl
    · exact htake

theorem ClassName.qualifiedClass_ne_nil (h : ClassName name) : qualifiedClass ns name ≠ [] := by
  rw [h.qualifiedClass_eq]
  cases ns with
  | none => exact h.ne_nil
  | some ns =>
    dsimp only
    split
    · intro hnil
      rw [List.take_eq_nil_iff] at hnil
      rcases hnil with hnil | hnil
      · exact absurd hnil (by decide)
      · exact absurd hnil (by simp)
    · exact h.ne_nil

theorem ClassName.chop_qualifiedClass (h : ClassName name) (hns : NamespaceName ns) :
    chop (qualifiedClass ns name) = qualifiedClass ns name := by
  refine chop_of_forall fun c hc => ?_
  rw [h.qualifiedClass_eq] at hc
  cases ns with
  | none => exact isspace_of_isIdChar (h.chars c hc)
  | some ns =>
    dsimp only at hc
    split at hc
    · rcases List.mem_append.1 (List.mem_of_mem_take hc) with hc | hc
      · exact isspace_of_isIdChar (hns ns rfl c hc)
      · rcases List.mem_cons.1 hc with rfl | hc
        · decide
        · exact isspace_of_isIdChar (h.chars c hc)
    · exact isspace_of_isIdChar (h.chars c hc)

/-- The expression that is one name. -/
def ClassName.tree (h : ClassName name) : ClassTree .or :=
  .ofAnd <| .ofNot <| .ofPrimary <| .name <| .last <| .token
    ⟨name, h.ne_nil, fun c hc => validTokenCharacter_of_isIdChar (h.chars c hc)⟩

/-- A name is defined if it is so as a token. -/
theorem ClassName.isDefinedClass_token (h : ClassName name) :
    isDefinedClass context ns (some name) = true ↔ evalTokenAsClass context ns name = .expTrue := by
  have hdollar : '$' ∉ name := fun hc => absurd (h.chars _ hc) (by decide)
  have htext : isDefinedClass context ns (some h.tree.text) = true ↔ _ :=
    isDefinedClass_text h.tree
  exact htext.trans ((and_iff_right hdollar).trans decide_eq_true_iff)

/-! ## Lists of names -/

/-- The name is in the list of its first character. -/
def AlphaList.Has (al : AlphaList) (s : CString) : Prop := s ∈ al (s.headD '\x00')

/-- No name is in the list twice: it is once in the list of its first character, and in no other. -/
def AlphaList.IsSet (al : AlphaList) : Prop :=
  ∀ i, (al i).Nodup ∧ ∀ s ∈ al i, s.headD '\x00' = i

variable {al : AlphaList}

theorem inAlphaList_iff (hs : s ≠ []) : inAlphaList al s = true ↔ al.Has s := by
  rw [inAlphaList, isItemIn, Bool.or_eq_true, decide_eq_true_eq, decide_eq_true_eq, or_iff_right hs]
  rfl

theorem isSet_empty : emptyAlphaList.IsSet :=
  fun _ => ⟨List.nodup_nil, fun _ hs => absurd hs List.not_mem_nil⟩

/-- `PrependAlphaList`, on the items. -/
def AlphaList.prepend (al : AlphaList) (s : CString) : AlphaList :=
  Function.update al (s.headD '\x00') (s :: al (s.headD '\x00'))

/-- `DeleteFromAlphaList`, on the items. -/
def AlphaList.delete (al : AlphaList) (s : CString) : AlphaList :=
  Function.update al (s.headD '\x00') ((al (s.headD '\x00')).erase s)

theorem AlphaList.IsSet.prepend (h : al.IsSet) (hs : ¬ al.Has s) : (al.prepend s).IsSet := by
  intro i
  by_cases hi : i = s.headD '\x00'
  · subst hi
    rw [AlphaList.prepend, Function.update_self]
    exact ⟨List.nodup_cons.2 ⟨hs, (h _).1⟩, List.forall_mem_cons.2 ⟨rfl, (h _).2⟩⟩
  · rw [AlphaList.prepend, Function.update_of_ne hi]
    exact h i

theorem AlphaList.IsSet.delete (h : al.IsSet) (s : CString) : (al.delete s).IsSet := by
  intro i
  by_cases hi : i = s.headD '\x00'
  · subst hi
    rw [AlphaList.delete, Function.update_self]
    exact ⟨(h _).1.erase _, fun t ht => (h _).2 t (List.mem_of_mem_erase ht)⟩
  · rw [AlphaList.delete, Function.update_of_ne hi]
    exact h i

theorem AlphaList.has_prepend {t : CString} : (al.prepend s).Has t ↔ t = s ∨ al.Has t := by
  rw [Has, AlphaList.prepend]
  by_cases hi : t.headD '\x00' = s.headD '\x00'
  · rw [hi, Function.update_self, List.mem_cons, Has, hi]
  · rw [Function.update_of_ne hi, or_iff_right fun heq : t = s => hi (heq ▸ rfl)]
    rfl

/-- Where no name is in the list twice, the deleted one is gone. -/
theorem AlphaList.IsSet.not_has_delete (h : al.IsSet) : ¬ (al.delete s).Has s := by
  rw [Has, AlphaList.delete, Function.update_self]
  exact (h _).1.not_mem_erase

theorem AlphaList.has_delete_of_ne {t : CString} (ht : t ≠ s) : (al.delete s).Has t ↔ al.Has t := by
  rw [Has, AlphaList.delete]
  by_cases hi : t.headD '\x00' = s.headD '\x00'
  · rw [hi, Function.update_self, List.mem_erase_of_ne ht, Has, hi]
  · rw [Function.update_of_ne hi]
    rfl

/-- When a name is defined. -/
theorem ClassName.isDefinedClass_iff (h : ClassName name) (hany : name ≠ "any".toList) :
    isDefinedClass context ns (some name) = true ↔
      qualifiedClass ns name ∉ context.vnegheap ∧ qualifiedClass ns name ∉ context.vdelclasses ∧
        (context.vhardheap.Has name ∨ context.vheap.Has (qualifiedClass ns name) ∨
          context.vaddclasses.Has (qualifiedClass ns name)) := by
  have hne : qualifiedClass ns name ≠ [] := h.qualifiedClass_ne_nil
  have hitem (list : List CString) : isItemIn list (qualifiedClass ns name) = true ↔
      qualifiedClass ns name ∈ list := by
    rw [isItemIn, Bool.or_eq_true, decide_eq_true_eq, decide_eq_true_eq, or_iff_right hne]
  have htrue (b : Bool) : ExpressionValue.ofBool b = .expTrue ↔ b = true := by
    cases b <;> decide
  rw [h.isDefinedClass_token, evalTokenAsClass, htrue, if_neg hany]
  by_cases hneg : qualifiedClass ns name ∈ context.vnegheap
  · rw [if_pos ((hitem _).2 hneg)]
    exact iff_of_false Bool.false_ne_true fun h => h.1 hneg
  · rw [if_neg (mt (hitem _).1 hneg), and_iff_right hneg]
    by_cases hdel : qualifiedClass ns name ∈ context.vdelclasses
    · rw [if_pos ((hitem _).2 hdel)]
      exact iff_of_false Bool.false_ne_true fun h => h.1 hdel
    · rw [if_neg (mt (hitem _).1 hdel), and_iff_right hdel, ← inAlphaList_iff h.ne_nil,
        ← inAlphaList_iff hne, ← inAlphaList_iff hne]
      split
      · rename_i hhard
        exact iff_of_true rfl (.inl hhard)
      · rename_i hhard
        rw [or_iff_right hhard]
        split
        · rename_i hheap
          exact iff_of_true rfl (.inl hheap)
        · rename_i hheap
          rw [or_iff_right hheap]

/-! ## What the functions do -/

variable {f : CString → CString → Bool} {heaps heaps' : ClassHeaps} {a b : Nat}

@[simp] theorem setItems_items (heaps : ClassHeaps) (a : Nat) (al : AlphaList) :
    (heaps.setItems a al).items = Function.update heaps.items a al := rfl

theorem prependAlphaList_eq :
    prependAlphaList heaps a s = heaps.setItems a ((heaps.items a).prepend s) := rfl

theorem deleteFromAlphaList_eq :
    deleteFromAlphaList heaps a s = heaps.setItems a ((heaps.items a).delete s) := rfl

/-- A name is defined in a list, if it is not. -/
def defineIn (heaps : ClassHeaps) (a : Nat) (s : CString) : ClassHeaps :=
  if inAlphaList (heaps.items a) s then heaps else prependAlphaList heaps a s

/-- The flag to abort a bundle is set or not. -/
def ClassHeaps.flagged (heaps : ClassHeaps) (flag : Bool) : ClassHeaps :=
  { heaps with abortbundle := flag }

theorem abortOnName_eq_some (h : abortOnName f heaps s = some heaps') :
    ∃ flag, heaps' = heaps.flagged flag := by
  rw [abortOnName] at h
  split at h
  · cases h
  · exact ⟨_, (Option.some.inj h).symm⟩

theorem abortOnClasses_eq_some (h : abortOnClasses heaps ns = some heaps') :
    ∃ flag, heaps' = heaps.flagged flag := by
  rw [abortOnClasses] at h
  split at h
  · cases h
  · exact ⟨_, (Option.some.inj h).symm⟩

theorem defineClass_eq_some (hs : s ≠ []) (h : defineClass f s ns a heaps = some heaps') :
    ∃ flag, heaps' = (defineIn heaps a s).flagged flag := by
  rw [defineClass, if_neg hs] at h
  obtain ⟨flagged, hname, h⟩ := Option.bind_eq_some_iff.1 h
  obtain ⟨flag, rfl⟩ := abortOnName_eq_some hname
  rw [defineIn]
  by_cases hin : inAlphaList (heaps.items a) s = true
  · rw [if_pos hin]
    exact ⟨flag, (Option.some.inj ((if_pos hin).symm.trans h)).symm⟩
  · rw [if_neg hin]
    obtain ⟨flag', rfl⟩ := abortOnClasses_eq_some ((if_neg hin).symm.trans h)
    exact ⟨flag', rfl⟩

theorem newClass_eq (hname : ClassName name) :
    newClass f name ns heaps = defineClass f (qualifiedClass ns name) ns heaps.vheap heaps := by
  rw [newClass.eq_def, if_neg (Nat.not_le.2 hname.length), hname.chop_eq,
    hname.canonifyNameInPlace_eq]
  exact congrArg (defineClass f · ns heaps.vheap heaps) hname.qualifiedClass_eq.symm

theorem ClassName.qualifyName_eq (hname : ClassName name) :
    qualifyName ns name = some (qualifiedClass ns name) := by
  have hcopy : copyName name = some name := if_neg (Nat.not_le.2 hname.length)
  rw [qualifyName.eq_def, hname.qualifiedClass_eq, hcopy]
  cases ns with
  | none => rfl
  | some ns =>
    dsimp only
    split <;> rfl

theorem newBundleClass_eq (hname : ClassName name) (hns : NamespaceName ns) :
    newBundleClass f name ns heaps =
      defineClass f (qualifiedClass ns name) ns heaps.vaddclasses heaps := by
  rw [newBundleClass, hname.qualifyName_eq, Option.bind_some, hname.chop_qualifiedClass hns]

theorem deleteClass_eq (hname : ClassName name) :
    deleteClass name ns heaps =
      some (deleteFromAlphaList (deleteFromAlphaList heaps heaps.vheap (qualifiedClass ns name))
        heaps.vaddclasses (qualifiedClass ns name)) := by
  rw [deleteClass, if_neg hname.colon, hname.qualifyName_eq]
  rfl

/-- Without classes to abort on, every definition succeeds. -/
theorem exists_defineClass (hs : s ≠ []) (habort : heaps.abortheap = []) :
    ∃ heaps', defineClass f s ns a heaps = some heaps' := by
  have hname : ∃ flag, abortOnName f heaps s = some (heaps.flagged flag) := by
    refine ⟨_, if_neg ?_⟩
    show ¬ isRegexItemIn f _ heaps.abortheap s = true
    rw [habort]
    exact Bool.false_ne_true
  have hclasses (heaps : ClassHeaps) (habort : heaps.abortheap = []) :
      ∃ flag, abortOnClasses heaps ns = some (heaps.flagged flag) := by
    refine ⟨_, if_neg ?_⟩
    rw [habort]
    exact Bool.false_ne_true
  obtain ⟨flag, hname⟩ := hname
  rw [defineClass, if_neg hs, hname]
  by_cases hin : inAlphaList ((heaps.flagged flag).items a) s = true
  · exact ⟨_, if_pos hin⟩
  · obtain ⟨flag', hflag⟩ := hclasses (prependAlphaList (heaps.flagged flag) a s) habort
    exact ⟨_, (if_neg hin).trans hflag⟩

/-! ## The stack -/

/-- Where the lists are. -/
def ClassHeaps.addresses (heaps : ClassHeaps) : List Nat :=
  heaps.vheap :: heaps.vaddclasses :: heaps.privclassheap

/-- What is defined, and where: the lists have no name twice, and no two are at one address. -/
structure ClassHeaps.WF (heaps : ClassHeaps) : Prop where
  noAbort : heaps.abortheap = []
  isSet : ∀ a ∈ heaps.addresses, (heaps.items a).IsSet
  separate : (heaps.addresses).Nodup
  fresh : ∀ a ∈ heaps.addresses, a < heaps.fresh

theorem ClassHeaps.WF.flagged (h : heaps.WF) (flag : Bool) : (heaps.flagged flag).WF :=
  ⟨h.noAbort, h.isSet, h.separate, h.fresh⟩

/-- Another set is written to one of the lists. -/
theorem ClassHeaps.WF.setItems (h : heaps.WF) (hal : al.IsSet) : (heaps.setItems a al).WF where
  noAbort := h.noAbort
  isSet := by
    intro b hb
    rw [setItems_items]
    by_cases hba : b = a
    · rw [hba, Function.update_self]
      exact hal
    · rw [Function.update_of_ne hba]
      exact h.isSet b hb
  separate := h.separate
  fresh := h.fresh

theorem ClassHeaps.WF.vheap_isSet (h : heaps.WF) : (heaps.items heaps.vheap).IsSet :=
  h.isSet _ List.mem_cons_self

theorem ClassHeaps.WF.vaddclasses_isSet (h : heaps.WF) : (heaps.items heaps.vaddclasses).IsSet :=
  h.isSet _ (List.mem_cons_of_mem _ List.mem_cons_self)

theorem ClassHeaps.WF.vheap_ne_vaddclasses (h : heaps.WF) : heaps.vheap ≠ heaps.vaddclasses :=
  fun heq => (List.nodup_cons.1 h.separate).1 (heq ▸ List.mem_cons_self)

/-- The stack is not where the current classes are. -/
theorem ClassHeaps.WF.ne_of_mem_stack (h : heaps.WF) (ha : a ∈ heaps.privclassheap) :
    a ≠ heaps.vheap ∧ a ≠ heaps.vaddclasses := by
  obtain ⟨hvheap, hrest⟩ := List.nodup_cons.1 h.separate
  constructor
  · rintro rfl
    exact hvheap (List.mem_cons_of_mem _ ha)
  · rintro rfl
    exact (List.nodup_cons.1 hrest).1 ha

/-- What changes the current classes leaves the stack. -/
def SameStack (heaps heaps' : ClassHeaps) : Prop :=
  heaps'.privclassheap = heaps.privclassheap ∧
    ∀ a ∈ heaps.privclassheap, heaps'.items a = heaps.items a

theorem ClassHeaps.WF.defineIn (h : heaps.WF) (hs : s ≠ [])
    (ha : a = heaps.vheap ∨ a = heaps.vaddclasses) :
    (defineIn heaps a s).WF ∧ SameStack heaps (defineIn heaps a s) := by
  have hset : (heaps.items a).IsSet := by
    rcases ha with rfl | rfl
    · exact h.vheap_isSet
    · exact h.vaddclasses_isSet
  rw [Cfengine.defineIn]
  split
  · exact ⟨h, rfl, fun _ _ => rfl⟩
  · rename_i hin
    refine ⟨h.setItems (hset.prepend (mt (inAlphaList_iff hs).2 hin)), rfl, fun b hb => ?_⟩
    refine Function.update_of_ne ?_ _ _
    rcases ha with rfl | rfl
    · exact (h.ne_of_mem_stack hb).1
    · exact (h.ne_of_mem_stack hb).2

theorem ClassHeaps.WF.deleteClass (h : heaps.WF) (s : CString) :
    (deleteFromAlphaList (deleteFromAlphaList heaps heaps.vheap s) heaps.vaddclasses s).WF ∧
      SameStack heaps
        (deleteFromAlphaList (deleteFromAlphaList heaps heaps.vheap s) heaps.vaddclasses s) := by
  have hvheap := h.setItems (a := heaps.vheap) (h.vheap_isSet.delete s)
  refine ⟨hvheap.setItems (hvheap.vaddclasses_isSet.delete s), rfl, fun b hb => ?_⟩
  obtain ⟨hne, hne'⟩ := h.ne_of_mem_stack hb
  exact (Function.update_of_ne hne' _ _).trans (Function.update_of_ne hne _ _)

theorem ClassHeaps.WF.not_mem (h : heaps.WF) (ha : heaps.fresh ≤ a) : a ∉ heaps.addresses :=
  fun hmem => Nat.not_lt.2 ha (h.fresh a hmem)

/-- Lists at the same addresses and a new one, with items that were there and a set. -/
theorem ClassHeaps.WF.extend (h : heaps.WF) (hal : al.IsSet) (ha : heaps.fresh ≤ a)
    (habort : heaps'.abortheap = heaps.abortheap) (hfresh : a < heaps'.fresh)
    (haddresses : heaps'.addresses.Perm (a :: heaps.addresses)) (hitems : heaps'.items a = al)
    (hkept : ∀ b ∈ heaps.addresses, heaps'.items b = heaps.items b) : heaps'.WF where
  noAbort := habort.trans h.noAbort
  isSet := by
    intro b hb
    rcases List.mem_cons.1 (haddresses.mem_iff.1 hb) with rfl | hb
    · exact hitems ▸ hal
    · exact hkept b hb ▸ h.isSet b hb
  separate := haddresses.nodup_iff.2 (List.nodup_cons.2 ⟨h.not_mem ha, h.separate⟩)
  fresh := by
    intro b hb
    rcases List.mem_cons.1 (haddresses.mem_iff.1 hb) with rfl | hb
    · exact hfresh
    · exact Nat.lt_trans (Nat.lt_of_lt_of_le (h.fresh b hb) ha) hfresh

/-- What a push leaves on the stack and in the private classes. -/
theorem ClassHeaps.WF.push (h : heaps.WF) (inherit : Bool) :
    (pushPrivateClassContext inherit heaps).WF ∧
    (pushPrivateClassContext inherit heaps).items
      (pushPrivateClassContext inherit heaps).vaddclasses =
      (if inherit then heaps.items heaps.vaddclasses else emptyAlphaList) ∧
    ∃ ap, (pushPrivateClassContext inherit heaps).privclassheap = ap :: heaps.privclassheap ∧
      (pushPrivateClassContext inherit heaps).items ap = heaps.items heaps.vaddclasses ∧
      ∀ a ∈ heaps.privclassheap, (pushPrivateClassContext inherit heaps).items a =
        heaps.items a := by
  have hvadd : heaps.vaddclasses ∈ heaps.addresses := List.mem_cons_of_mem _ List.mem_cons_self
  have hstack : ∀ b ∈ heaps.privclassheap, b ∈ heaps.addresses := fun b hb =>
    List.mem_cons_of_mem _ (List.mem_cons_of_mem _ hb)
  cases inherit with
  | false =>
    -- the new list is the private one, and the old one goes to the stack
    have hkept : ∀ b ∈ heaps.addresses,
        (pushPrivateClassContext false heaps).items b = heaps.items b := fun b hb =>
      Function.update_of_ne (Nat.ne_of_lt (h.fresh b hb)) _ _
    have hitems : (pushPrivateClassContext false heaps).items heaps.fresh = emptyAlphaList :=
      Function.update_self _ _ _
    refine ⟨h.extend isSet_empty (Nat.le_refl _) rfl (Nat.lt_succ_self _) ?_ hitems hkept, hitems,
      heaps.vaddclasses, rfl, hkept _ hvadd, fun b hb => hkept b (hstack b hb)⟩
    exact List.Perm.swap _ _ _
  | true =>
    -- the copy goes to the stack
    have hkept : ∀ b ∈ heaps.addresses,
        (pushPrivateClassContext true heaps).items b = heaps.items b := by
      intro b hb
      have hlt := h.fresh b hb
      have hne : b ≠ heaps.fresh + 1 + 1 ∧ b ≠ heaps.fresh + 1 ∧ b ≠ heaps.fresh := by omega
      exact (Function.update_of_ne hne.1 _ _).trans
        ((Function.update_of_ne hne.2.1 _ _).trans (Function.update_of_ne hne.2.2 _ _))
    have hitems : (pushPrivateClassContext true heaps).items (heaps.fresh + 1 + 1) =
        heaps.items heaps.vaddclasses := by
      have hlt := h.fresh _ hvadd
      have hne : heaps.vaddclasses ≠ heaps.fresh + 1 ∧ heaps.vaddclasses ≠ heaps.fresh := by omega
      exact (Function.update_self _ _ _).trans
        ((Function.update_of_ne hne.1 _ _).trans (Function.update_of_ne hne.2 _ _))
    refine ⟨h.extend (a := heaps.fresh + 1 + 1) h.vaddclasses_isSet (by omega) rfl
      (Nat.lt_succ_self _)
      ?_ hitems hkept, hkept _ hvadd, heaps.fresh + 1 + 1, rfl, hitems,
      fun b hb => hkept b (hstack b hb)⟩
    exact (List.Perm.cons _ (List.Perm.swap _ _ _)).trans (List.Perm.swap _ _ _)

/-- A pop takes back what is on the stack. -/
theorem ClassHeaps.WF.pop (h : heaps.WF) {stack : List Nat}
    (hstack : heaps.privclassheap = a :: stack) :
    ∃ heaps', popPrivateClassContext heaps = some heaps' ∧ heaps'.WF ∧ heaps'.vaddclasses = a ∧
      heaps'.privclassheap = stack ∧ ∀ b ∈ a :: stack, heaps'.items b = heaps.items b := by
  have hne : ∀ b ∈ a :: stack, b ≠ heaps.vaddclasses := fun b hb =>
    (h.ne_of_mem_stack (hstack ▸ hb)).2
  have hkept : ∀ b, b ≠ heaps.vaddclasses →
      (heaps.setItems heaps.vaddclasses emptyAlphaList).items b = heaps.items b := fun b hb =>
    Function.update_of_ne hb _ _
  have hmem : ∀ b ∈ heaps.vheap :: a :: stack, b ∈ heaps.addresses := fun b hb => by
    rw [ClassHeaps.addresses, hstack]
    rcases List.mem_cons.1 hb with rfl | hb
    · exact List.mem_cons_self
    · exact List.mem_cons_of_mem _ (List.mem_cons_of_mem _ hb)
  refine ⟨{ heaps.setItems heaps.vaddclasses emptyAlphaList with
      vaddclasses := a, privclassheap := stack }, ?_,
    ⟨h.noAbort, fun b hb => ?_, ?_, fun b hb => h.fresh b (hmem b hb)⟩, rfl, rfl,
    fun b hb => hkept b (hne b hb)⟩
  · rw [popPrivateClassContext.eq_def]
    dsimp only [ClassHeaps.setItems]
    rw [hstack]
  · show ((heaps.setItems heaps.vaddclasses emptyAlphaList).items b).IsSet
    rw [hkept b ?_]
    · exact h.isSet b (hmem b hb)
    · rcases List.mem_cons.1 hb with rfl | hb
      · exact h.vheap_ne_vaddclasses
      · exact hne b hb
  · have hseparate := h.separate
    rw [ClassHeaps.addresses, hstack] at hseparate
    exact hseparate.sublist (List.Sublist.cons_cons _ (List.sublist_cons_self _ _))

/-! ## Runs -/

/-- The names in a call are those of classes and namespaces. -/
def ClassOp.Valid : ClassOp → Prop
  | .newClass name ns | .newBundleClass name ns | .deleteClass name ns => ClassName name ∧
      NamespaceName ns
  | .pushPrivateClassContext _ | .popPrivateClassContext => True

/-- The call does not use the stack. -/
def ClassOp.Flat : ClassOp → Prop
  | .pushPrivateClassContext _ | .popPrivateClassContext => False
  | _ => True

/-- Every pop is for a push before it. -/
inductive Balanced : List ClassOp → Prop where
  | nil : Balanced []
  | flat {op : ClassOp} {ops : List ClassOp} : op.Flat → Balanced ops → Balanced (op :: ops)
  | nested (inherit : Bool) {inner ops : List ClassOp} : Balanced inner → Balanced ops →
      Balanced (.pushPrivateClassContext inherit :: (inner ++ .popPrivateClassContext :: ops))

variable {op : ClassOp} {ops : List ClassOp}

theorem ClassHeaps.WF.defineClass (h : heaps.WF) (hs : s ≠ [])
    (ha : a = heaps.vheap ∨ a = heaps.vaddclasses)
    (hdefine : defineClass f s ns a heaps = some heaps') : heaps'.WF ∧ SameStack heaps heaps' := by
  obtain ⟨flag, rfl⟩ := defineClass_eq_some hs hdefine
  obtain ⟨hwf, hstack⟩ := h.defineIn hs ha
  exact ⟨hwf.flagged flag, hstack⟩

/-- A call that does not use the stack keeps it. -/
theorem ClassHeaps.WF.flat (h : heaps.WF) (hvalid : op.Valid) (hflat : op.Flat) :
    ∃ heaps', op.run f heaps = some heaps' ∧ heaps'.WF ∧ SameStack heaps heaps' := by
  cases op with
  | newClass name ns =>
    obtain ⟨heaps', hdefine⟩ : ∃ heaps',
      Cfengine.defineClass f (qualifiedClass ns name) ns heaps.vheap
        heaps = some heaps' := exists_defineClass hvalid.1.qualifiedClass_ne_nil h.noAbort
    exact ⟨heaps', (newClass_eq hvalid.1).trans hdefine,
      h.defineClass hvalid.1.qualifiedClass_ne_nil (.inl rfl) hdefine⟩
  | newBundleClass name ns =>
    obtain ⟨heaps', hdefine⟩ : ∃ heaps', Cfengine.defineClass f (qualifiedClass ns name) ns
        heaps.vaddclasses heaps = some heaps' :=
      exists_defineClass hvalid.1.qualifiedClass_ne_nil h.noAbort
    exact ⟨heaps', (newBundleClass_eq hvalid.1 hvalid.2).trans hdefine,
      h.defineClass hvalid.1.qualifiedClass_ne_nil (.inr rfl) hdefine⟩
  | deleteClass name ns => exact ⟨_, deleteClass_eq hvalid.1, h.deleteClass _⟩
  | pushPrivateClassContext inherit => exact hflat.elim
  | popPrivateClassContext => exact hflat.elim

theorem runClassOps_cons : runClassOps f heaps (op :: ops) =
    (op.run f heaps).bind fun heaps => runClassOps f heaps ops := rfl

theorem runClassOps_append {ops' : List ClassOp} : runClassOps f heaps (ops ++ ops') =
    (runClassOps f heaps ops).bind fun heaps => runClassOps f heaps ops' :=
  List.foldlM_append

/-- A run keeps the lists as they have to be. -/
theorem ClassHeaps.WF.run (h : heaps.WF) (hvalid : ∀ op ∈ ops, op.Valid)
    (hrun : runClassOps f heaps ops = some heaps') : heaps'.WF := by
  induction ops generalizing heaps with
  | nil => exact Option.some.inj hrun ▸ h
  | cons op ops ih =>
    rw [runClassOps_cons] at hrun
    obtain ⟨next, hop, hrun⟩ := Option.bind_eq_some_iff.1 hrun
    refine ih ?_ (fun op hop => hvalid op (List.mem_cons_of_mem _ hop)) hrun
    have hflat (hflat : op.Flat) : next.WF := by
      obtain ⟨heaps', hop', hwf, -⟩ := h.flat (f := f) (hvalid op List.mem_cons_self) hflat
      exact Option.some.inj (hop'.symm.trans hop) ▸ hwf
    cases op with
    | pushPrivateClassContext inherit => exact Option.some.inj hop ▸ (h.push inherit).1
    | popPrivateClassContext =>
      cases hstack : heaps.privclassheap with
      | nil =>
        rw [ClassOp.run, popPrivateClassContext.eq_def] at hop
        dsimp only [ClassHeaps.setItems] at hop
        rw [hstack] at hop
        cases hop
      | cons a stack =>
        obtain ⟨heaps', hpop, hwf, -⟩ := h.pop hstack
        exact Option.some.inj (hpop.symm.trans hop) ▸ hwf
    | _ => exact hflat trivial

/-- A push, a run that leaves the stack, and a pop: the private classes are as they were. -/
theorem ClassHeaps.WF.nested (h : heaps.WF) {inherit : Bool} (hvalid : ∀ op ∈ ops, op.Valid)
    (hinner : ∃ next, runClassOps f (pushPrivateClassContext inherit heaps) ops = some next ∧
      SameStack (pushPrivateClassContext inherit heaps) next) :
    ∃ heaps',
      runClassOps f heaps (.pushPrivateClassContext inherit :: (ops ++ [.popPrivateClassContext])) =
        some heaps' ∧ heaps'.WF ∧ SameStack heaps heaps' ∧
      heaps'.items heaps'.vaddclasses = heaps.items heaps.vaddclasses := by
  obtain ⟨next, hrun, hsame, hitems⟩ := hinner
  obtain ⟨hpush, -, ap, hap, hpushed, hstack⟩ := h.push inherit
  obtain ⟨heaps', hpop, hwf, hvadd, hrest, hkept⟩ := (hpush.run hvalid hrun).pop (hsame.trans hap)
  have hback : ∀ b ∈ ap :: heaps.privclassheap,
      heaps'.items b = (pushPrivateClassContext inherit heaps).items b := fun b hb =>
    (hkept b hb).trans (hitems b (hap ▸ hb))
  refine ⟨heaps', ?_, hwf, ⟨hrest, fun b hb => ?_⟩, ?_⟩
  · rw [runClassOps_cons, ClassOp.run, Option.bind_some, runClassOps_append, hrun]
    show (popPrivateClassContext next).bind _ = _
    rw [hpop]
    rfl
  · rw [hback b (List.mem_cons_of_mem _ hb), hstack b hb]
  · rw [hvadd, hback ap List.mem_cons_self, hpushed]

/-- A balanced run ends, and the stack is as it was. -/
theorem ClassHeaps.WF.balanced (hbalanced : Balanced ops) (h : heaps.WF)
    (hvalid : ∀ op ∈ ops, op.Valid) :
    ∃ heaps', runClassOps f heaps ops = some heaps' ∧ SameStack heaps heaps' := by
  induction hbalanced generalizing heaps with
  | nil => exact ⟨heaps, rfl, rfl, fun _ _ => rfl⟩
  | flat hflat _ ih =>
    obtain ⟨next, hop, hwf, hstack⟩ := h.flat (f := f) (hvalid _ List.mem_cons_self) hflat
    obtain ⟨heaps', hrun, hstack'⟩ := ih hwf fun op hop => hvalid op (List.mem_cons_of_mem _ hop)
    refine ⟨heaps', ?_, hstack'.1.trans hstack.1, fun b hb => ?_⟩
    · rw [runClassOps_cons, hop]
      exact hrun
    · exact (hstack'.2 b (hstack.1 ▸ hb)).trans (hstack.2 b hb)
  | @nested inherit inner ops _ _ ihinner ihrest =>
    have hinner : ∀ op ∈ inner, op.Valid := fun op hop =>
      hvalid op (List.mem_cons_of_mem _ (List.mem_append_left _ hop))
    have hrest : ∀ op ∈ ops, op.Valid := fun op hop =>
      hvalid op (List.mem_cons_of_mem _ (List.mem_append_right _ (List.mem_cons_of_mem _ hop)))
    obtain ⟨next, hrun, hwf, hstack, -⟩ := h.nested hinner (ihinner (h.push inherit).1 hinner)
    obtain ⟨heaps', hrun', hstack'⟩ := ihrest hwf hrest
    refine ⟨heaps', ?_, hstack'.1.trans hstack.1, fun b hb => ?_⟩
    · rw [List.append_cons, ← List.cons_append, runClassOps_append, hrun]
      exact hrun'
    · exact (hstack'.2 b (hstack.1 ▸ hb)).trans (hstack.2 b hb)

/-- The start of the program: no classes but hard ones, nothing on the stack, and no class to abort
on. -/
structure ClassHeaps.Started (heaps : ClassHeaps) : Prop where
  noAbort : heaps.abortheap = []
  vheap : heaps.items heaps.vheap = emptyAlphaList
  vaddclasses : heaps.items heaps.vaddclasses = emptyAlphaList
  stack : heaps.privclassheap = []
  separate : heaps.vheap ≠ heaps.vaddclasses
  fresh : heaps.vheap < heaps.fresh ∧ heaps.vaddclasses < heaps.fresh

theorem ClassHeaps.Started.wf (h : heaps.Started) : heaps.WF := by
  have haddresses : heaps.addresses = [heaps.vheap, heaps.vaddclasses] := by
    rw [ClassHeaps.addresses, h.stack]
  refine ⟨h.noAbort, ?_, ?_, ?_⟩
  · rw [haddresses]
    simp [h.vheap, h.vaddclasses, isSet_empty]
  · rw [haddresses]
    simp [h.separate]
  · rw [haddresses]
    simp [h.fresh]

/-- After `NewClass` a class is defined. -/
theorem ClassHeaps.WF.newClass (h : heaps.WF) (hname : ClassName name) (hany : name ≠ "any".toList)
    (hneg : qualifiedClass ns name ∉ heaps.vnegheap)
    (hdel : qualifiedClass ns name ∉ heaps.vdelclasses) :
    ∃ next, Cfengine.newClass f name ns heaps = some next ∧
      isDefinedClass next.context ns (some name) = true := by
  have hne : qualifiedClass ns name ≠ [] := hname.qualifiedClass_ne_nil
  obtain ⟨next, hdefine⟩ : ∃ next, Cfengine.defineClass f (qualifiedClass ns name) ns
    heaps.vheap heaps =
      some next := exists_defineClass hne h.noAbort
  refine ⟨next, (newClass_eq hname).trans hdefine, ?_⟩
  obtain ⟨flag, rfl⟩ := defineClass_eq_some hne hdefine
  rw [hname.isDefinedClass_iff hany, Cfengine.defineIn]
  split
  · rename_i hin
    exact ⟨hneg, hdel, .inr (.inl ((inAlphaList_iff hne).1 hin))⟩
  · refine ⟨hneg, hdel, .inr (.inl ?_)⟩
    show AlphaList.Has ((heaps.setItems heaps.vheap _).items heaps.vheap) _
    rw [setItems_items, Function.update_self]
    exact AlphaList.has_prepend.2 (.inl rfl)

/-- After `DeleteClass` it is not. -/
theorem ClassHeaps.WF.deleted (h : heaps.WF) (hname : ClassName name) (hany : name ≠ "any".toList)
    (hhard : ¬ heaps.vhardheap.Has name) :
    ∃ next, Cfengine.deleteClass name ns heaps = some next ∧
      isDefinedClass next.context ns (some name) = false := by
  have hne := h.vheap_ne_vaddclasses
  have hvheap (al : AlphaList) (heaps' : ClassHeaps) :
      (heaps'.setItems heaps.vaddclasses al).items heaps.vheap = heaps'.items heaps.vheap :=
    Function.update_of_ne hne _ _
  refine ⟨_, deleteClass_eq hname, ?_⟩
  rw [Bool.eq_false_iff, Ne, hname.isDefinedClass_iff hany]
  rintro ⟨-, -, hhas | hhas | hhas⟩
  · exact hhard hhas
  · rw [deleteFromAlphaList_eq, deleteFromAlphaList_eq] at hhas
    change AlphaList.Has (ClassHeaps.items (ClassHeaps.setItems _ heaps.vaddclasses _) heaps.vheap)
      _ at hhas
    rw [hvheap, setItems_items, Function.update_self] at hhas
    exact h.vheap_isSet.not_has_delete hhas
  · rw [deleteFromAlphaList_eq, deleteFromAlphaList_eq] at hhas
    change AlphaList.Has
      (ClassHeaps.items (ClassHeaps.setItems _ heaps.vaddclasses _) heaps.vaddclasses) _
      at hhas
    rw [setItems_items, Function.update_self, setItems_items,
      Function.update_of_ne hne.symm] at hhas
    exact h.vaddclasses_isSet.not_has_delete hhas

/-- In every state that the calls reach, the lists are sets, what is defined is defined and what is
deleted is not, and a push and its pop leave the private classes. -/
theorem classHeaps_sets (f : CString → CString → Bool) (start : ClassHeaps) (hstart : start.Started)
    (ops : List ClassOp) (hops : ∀ op ∈ ops, op.Valid) (heaps : ClassHeaps)
    (hrun : runClassOps f start ops = some heaps) :
    (heaps.items heaps.vheap).IsSet ∧ (heaps.items heaps.vaddclasses).IsSet ∧
    (∀ name ns, ClassName name → NamespaceName ns → name ≠ "any".toList →
      qualifiedClass ns name ∉ heaps.vnegheap → qualifiedClass ns name ∉ heaps.vdelclasses →
      ¬ heaps.vhardheap.Has name →
      (∃ next, newClass f name ns heaps = some next ∧
        isDefinedClass next.context ns (some name) = true) ∧
      ∃ next, deleteClass name ns heaps = some next ∧
        isDefinedClass next.context ns (some name) = false) ∧
    ∀ inherit,
      (pushPrivateClassContext inherit heaps).items
          (pushPrivateClassContext inherit heaps).vaddclasses =
        (if inherit then heaps.items heaps.vaddclasses else emptyAlphaList) ∧
      ∀ inner, Balanced inner → (∀ op ∈ inner, op.Valid) →
        ∃ next, runClassOps f heaps
            (.pushPrivateClassContext inherit :: (inner ++ [.popPrivateClassContext])) = some next ∧
          next.items next.vaddclasses = heaps.items heaps.vaddclasses := by
  have hwf := hstart.wf.run hops hrun
  refine ⟨hwf.vheap_isSet, hwf.vaddclasses_isSet, ?_, fun inherit => ⟨(hwf.push inherit).2.1, ?_⟩⟩
  · intro name ns hname _ hany hneg hdel hhard
    exact ⟨hwf.newClass hname hany hneg hdel, hwf.deleted hname hany hhard⟩
  · intro inner hinner hvalid
    obtain ⟨next, hnested, -, -, hitems⟩ :=
      hwf.nested hvalid ((hwf.push inherit).1.balanced hinner hvalid)
    exact ⟨next, hnested, hitems⟩

/-- An agent with one hard class. -/
def hardLinux : ClassHeaps where
  items _ := emptyAlphaList
  fresh := 2
  vheap := 0
  vaddclasses := 1
  privclassheap := []
  vnegheap := []
  vdelclasses := []
  vhardheap := emptyAlphaList.prepend "linux".toList
  abortheap := []
  abortbundleheap := []
  abortbundle := false

theorem started_hardLinux : hardLinux.Started := ⟨rfl, rfl, rfl, rfl, by decide, by decide⟩

/-- A global class, a private one, and one that is private to an inner bundle. -/
def nestedBundles : List ClassOp :=
  [.newClass "ready".toList none, .newBundleClass "outer".toList (some "site".toList),
    .pushPrivateClassContext true, .newBundleClass "inner".toList (some "site".toList),
    .deleteClass "outer".toList (some "site".toList)]

theorem valid_nestedBundles : ∀ op ∈ nestedBundles, op.Valid := by
  have hready : ClassName "ready".toList :=
    ⟨by decide, by simp [isIdChar], by decide⟩
  have houter : ClassName "outer".toList :=
    ⟨by decide, by simp [isIdChar], by decide⟩
  have hinner : ClassName "inner".toList :=
    ⟨by decide, by simp [isIdChar], by decide⟩
  have hnone : NamespaceName none := fun s hs => by cases hs
  have hsite : NamespaceName (some "site".toList) := fun s hs => by
    cases hs
    simp [isIdChar]
  simp only [nestedBundles, List.forall_mem_cons]
  exact ⟨⟨hready, hnone⟩, ⟨houter, hsite⟩, trivial, ⟨hinner, hsite⟩, ⟨houter, hsite⟩,
    fun _ hop => absurd hop List.not_mem_nil⟩

theorem classHeaps_sets_nestedBundles : ∃ heaps,
    runClassOps (fun _ _ => false) hardLinux nestedBundles = some heaps ∧
      (heaps.items heaps.vheap).IsSet ∧ (heaps.items heaps.vaddclasses).IsSet := by
  obtain ⟨heaps, hrun⟩ : ∃ heaps,
      runClassOps (fun _ _ => false) hardLinux nestedBundles = some heaps :=
    Option.isSome_iff_exists.1 (by decide)
  have hsets := classHeaps_sets (fun _ _ => false) hardLinux started_hardLinux nestedBundles
    valid_nestedBundles heaps hrun
  exact ⟨heaps, hrun, hsets.1, hsets.2.1⟩

end

end Cfengine
