import Cfengine.Modes

/-!
# The mode strings that are accepted

What `CheckModeState` finds is not looked at when the string ends. An item is accepted if it
consists of letters, numbers and at most one action that has no number in front of it, and what is
read of the last item is not nothing (`parseModeString_isSome_iff`).
-/

namespace Cfengine

/-- A piece of an item. -/
inductive ModeToken where
  /-- A letter for a class or a permission. -/
  | letter (c : Char)
  | action (c : Char)
  | number (digits : CString)

namespace ModeToken

def text : ModeToken → CString
  | letter c => [c]
  | action c => [c]
  | number digits => digits

def isLetter : ModeToken → Bool
  | letter _ => true
  | _ => false

def isAction : ModeToken → Bool
  | action _ => true
  | _ => false

def isNumber : ModeToken → Bool
  | number _ => true
  | _ => false

/-- A letter is one of the nine, a number starts with an octal digit, and what is read of it is not
too big. -/
def Valid : ModeToken → Prop
  | letter c => c ∈ ['a', 'u', 'g', 'o', 'r', 'w', 'x', 's', 't']
  | action c => isModeAction c = true
  | number digits => (∃ c ds, digits = c :: ds ∧ isOctalDigit c = true) ∧
      (∀ c ∈ digits, c.isDigit = true) ∧ (scanOctal digits).toInt ≤ 0o7777

end ModeToken

variable {modestring s text digits sp : CString} {m m' : ModeParse} {c d : Char} {t : ModeToken}
  {toks item : List ModeToken} {items : List (List ModeToken)} {masks : BitVec 32 × BitVec 32}

/-- What a piece does. -/
def ModeParse.token (m : ModeParse) : ModeToken → ModeParse
  | .letter c =>
    match modeClass c with
    | some bits => m.classLetter bits
    | none => m.permissionLetter ((modePermission m.affected c).getD 0)
  | .action c => m.setAction c
  | .number digits => m.setNumber (scanOctal digits)

/-- The text of an item. -/
def itemText (toks : List ModeToken) : CString := toks.flatMap ModeToken.text

/-- An item that is read without an error that ends the parsing. -/
structure LooseItem (toks : List ModeToken) : Prop where
  valid : ∀ t ∈ toks, t.Valid
  /-- Two numbers in a row are one. -/
  apart : toks.IsChain fun t u => ¬ (t.isNumber = true ∧ u.isNumber = true)
  /-- Only letters stand in front of an action. -/
  single : toks.Pairwise fun t u => u.isAction = true → t.isLetter = true

/-- An item that goes on after an action or a number. -/
def Continues (gotaction : Bool) (toks : List ModeToken) : Prop :=
  gotaction = true → ∀ t ∈ toks, t.isAction = false

/-! ## Characters -/

theorem modePermission_eq_none (affected : BitVec 32)
    (h : c ∉ ['r', 'w', 'x', 's', 't']) : modePermission affected c = none := by
  simp only [List.mem_cons, List.not_mem_nil, or_false, not_or] at h
  obtain ⟨hr, hw, hx, hs, ht⟩ := h
  rw [modePermission, if_neg hr, if_neg hw, if_neg hx, if_neg hs, if_neg ht]

theorem exists_modePermission (affected : BitVec 32) (h : c ∈ ['r', 'w', 'x', 's', 't']) :
    ∃ bits, modePermission affected c = some bits := by
  simp only [List.mem_cons, List.not_mem_nil, or_false] at h
  rcases h with rfl | rfl | rfl | rfl | rfl <;> exact ⟨_, rfl⟩

theorem modeClass_eq_none (h : c ∉ ['a', 'u', 'g', 'o']) : modeClass c = none := by
  simp only [List.mem_cons, List.not_mem_nil, or_false, not_or] at h
  obtain ⟨ha, hu, hg, ho⟩ := h
  rw [modeClass, if_neg ha, if_neg hu, if_neg hg, if_neg ho]

theorem exists_modeClass (h : c ∈ ['a', 'u', 'g', 'o']) : ∃ bits, modeClass c = some bits := by
  simp only [List.mem_cons, List.not_mem_nil, or_false] at h
  rcases h with rfl | rfl | rfl | rfl <;> exact ⟨_, rfl⟩

/-- A character that is no letter of a mode. -/
theorem modeLetter_eq_none (affected : BitVec 32)
    (h : c ∉ ['a', 'u', 'g', 'o', 'r', 'w', 'x', 's', 't']) :
    modeClass c = none ∧ modePermission affected c = none := by
  refine ⟨modeClass_eq_none fun hc => h ?_, modePermission_eq_none affected fun hc => h ?_⟩
  · exact List.mem_append_left ['r', 'w', 'x', 's', 't'] hc
  · exact List.mem_append_right ['a', 'u', 'g', 'o'] hc

theorem not_modeLetter_of_isModeAction (h : isModeAction c = true) :
    c ∉ ['a', 'u', 'g', 'o', 'r', 'w', 'x', 's', 't'] := by
  simp only [isModeAction, Bool.or_eq_true, decide_eq_true_eq] at h
  rcases h with (rfl | rfl) | rfl <;> decide

theorem isDigit_of_isOctalDigit (h : isOctalDigit c = true) : c.isDigit = true := by
  simp only [isOctalDigit, Bool.and_eq_true, decide_eq_true_eq, Char.le_def,
    UInt32.le_iff_toNat_le] at h
  simp only [Char.isDigit, Bool.and_eq_true, decide_eq_true_eq, ge_iff_le, UInt32.le_iff_toNat_le]
  exact ⟨h.1, h.2.trans (by decide)⟩

theorem not_modeLetter_of_isDigit (h : c.isDigit = true) :
    c ∉ ['a', 'u', 'g', 'o', 'r', 'w', 'x', 's', 't'] ∧ isModeAction c = false ∧ c ≠ ',' := by
  refine ⟨fun hc => ?_, Bool.eq_false_iff.mpr fun hc => ?_, ?_⟩
  · simp only [List.mem_cons, List.not_mem_nil, or_false] at hc
    rcases hc with rfl | rfl | rfl | rfl | rfl | rfl | rfl | rfl | rfl <;>
      exact absurd h (by decide)
  · simp only [isModeAction, Bool.or_eq_true, decide_eq_true_eq] at hc
    rcases hc with (rfl | rfl) | rfl <;> exact absurd h (by decide)
  · rintro rfl
    exact absurd h (by decide)

/-! ## Steps of the loop -/

theorem loop_letter (h : c ∈ ['a', 'u', 'g', 'o', 'r', 'w', 'x', 's', 't']) :
    parseModeString.loop modestring m (c :: sp) = parseModeString.loop modestring
      (m.token (.letter c)) sp := by
  rcases List.mem_append.mp (show c ∈ ['a', 'u', 'g', 'o'] ++ ['r', 'w', 'x', 's', 't'] from h) with
    hc | hc
  · obtain ⟨bits, hbits⟩ := exists_modeClass hc
    rw [parseModeString.loop, ModeParse.token, hbits]
  · obtain ⟨bits, hbits⟩ := exists_modePermission m.affected hc
    have hclass : modeClass c = none := by
      simp only [List.mem_cons, List.not_mem_nil, or_false] at hc
      rcases hc with rfl | rfl | rfl | rfl | rfl <;> rfl
    rw [parseModeString.loop, ModeParse.token, hclass, hbits]
    rfl

theorem loop_action (h : isModeAction c = true) (hgot : m.gotaction = false) :
    parseModeString.loop modestring m (c :: sp) = parseModeString.loop modestring
      (m.setAction c) sp := by
  obtain ⟨hclass, hperm⟩ := modeLetter_eq_none m.affected (not_modeLetter_of_isModeAction h)
  rw [parseModeString.loop, hclass, hperm]
  dsimp only
  rw [if_pos h, hgot, if_neg Bool.false_ne_true]

theorem loop_action_twice (h : isModeAction c = true) (hgot : m.gotaction = true) :
    parseModeString.loop modestring m (c :: sp) = none := by
  obtain ⟨hclass, hperm⟩ := modeLetter_eq_none m.affected (not_modeLetter_of_isModeAction h)
  rw [parseModeString.loop, hclass, hperm]
  dsimp only
  rw [if_pos h, if_pos hgot]

theorem loop_invalid (hletter : c ∉ ['a', 'u', 'g', 'o', 'r', 'w', 'x', 's', 't'])
    (haction : ¬ isModeAction c = true) (hdigit : ¬ isOctalDigit c = true) (hcomma : c ≠ ',') :
    parseModeString.loop modestring m (c :: sp) = none := by
  obtain ⟨hclass, hperm⟩ := modeLetter_eq_none m.affected hletter
  rw [parseModeString.loop, hclass, hperm]
  dsimp only
  rw [if_neg haction, if_neg hdigit, if_neg hcomma]

theorem loop_comma (h : m.setMask = some masks) :
    parseModeString.loop modestring m (',' :: sp) =
      parseModeString.loop modestring (m.nextItem masks) sp := by
  rw [parseModeString.loop, show modeClass ',' = none from rfl,
    show modePermission m.affected ',' = none from rfl]
  dsimp only
  rw [if_neg (by decide), if_neg (by decide), if_pos rfl, h]

/-- What follows a number in the string is no digit. -/
def NotDigitFirst (sp : CString) : Prop := ∀ c ∈ sp.head?, c.isDigit = false

theorem notDigitFirst_dropWhile (s : CString) : NotDigitFirst (s.dropWhile Char.isDigit) := by
  intro c hc
  have := List.head?_dropWhile_not Char.isDigit s
  rwa [hc] at this

theorem span_digits (hdigits : ∀ c ∈ digits, c.isDigit = true) (hsp : NotDigitFirst sp) :
    (digits ++ sp).takeWhile Char.isDigit = digits ∧
      (digits ++ sp).dropWhile Char.isDigit = sp := by
  rw [List.takeWhile_append_of_pos hdigits, List.dropWhile_append_of_pos hdigits]
  cases sp with
  | nil => exact ⟨List.append_nil _, rfl⟩
  | cons c sp =>
    have hc : ¬ c.isDigit = true := Bool.not_eq_true _ ▸ hsp c rfl
    rw [List.takeWhile_cons_of_neg hc, List.dropWhile_cons_of_neg hc, List.append_nil]
    exact ⟨rfl, rfl⟩

theorem scanOctal_append (hsp : NotDigitFirst sp) :
    scanOctal (digits ++ sp) = scanOctal digits := by
  have hnone : sp.takeWhile isOctalDigit = [] := by
    cases sp with
    | nil => rfl
    | cons c sp =>
      refine List.takeWhile_cons_of_neg fun hc => ?_
      have := hsp c rfl
      rw [isDigit_of_isOctalDigit hc] at this
      cases this
  have htake : (digits ++ sp).takeWhile isOctalDigit = digits.takeWhile isOctalDigit := by
    rw [List.takeWhile_append, hnone, List.append_nil]
    split_ifs with hlength
    · exact ((List.takeWhile_prefix _).eq_of_length hlength).symm
    · rfl
  rw [scanOctal, scanOctal, htake]

theorem loop_digit (h : isOctalDigit c = true) :
    parseModeString.loop modestring m (c :: sp) =
      if 0o7777 < (scanOctal (c :: sp)).toInt then none
      else parseModeString.loop modestring (m.setNumber (scanOctal (c :: sp)))
        (sp.dropWhile Char.isDigit) := by
  obtain ⟨hletter, haction, -⟩ := not_modeLetter_of_isDigit (isDigit_of_isOctalDigit h)
  obtain ⟨hclass, hperm⟩ := modeLetter_eq_none m.affected hletter
  rw [parseModeString.loop, hclass, hperm]
  dsimp only
  rw [haction, if_neg Bool.false_ne_true, if_pos h]

theorem loop_number (h : (ModeToken.number digits).Valid) (hsp : NotDigitFirst sp) :
    parseModeString.loop modestring m (digits ++ sp) =
      parseModeString.loop modestring (m.setNumber (scanOctal digits)) sp := by
  obtain ⟨⟨c, ds, rfl, hc⟩, hdigits, hvalue⟩ := h
  have hdrop := (span_digits hdigits hsp).2
  rw [List.cons_append, List.dropWhile_cons_of_pos (hdigits c List.mem_cons_self)] at hdrop
  rw [List.cons_append, loop_digit hc, ← List.cons_append, scanOctal_append hsp,
    if_neg (Int.not_lt.mpr hvalue), hdrop]

/-! ## Items -/

/-- The end of an item. -/
def ItemEnd (sp : CString) : Prop := sp = [] ∨ ∃ rest, sp = ',' :: rest

theorem itemText_cons : itemText (t :: toks) = t.text ++ itemText toks := List.flatMap_cons

/-- A piece that is no number starts with no digit. -/
theorem notDigitFirst_itemText (hvalid : ∀ t ∈ toks, t.Valid) (hend : ItemEnd sp)
    (hnumber : ∀ t ∈ toks.head?, t.isNumber = false) : NotDigitFirst (itemText toks ++ sp) := by
  cases toks with
  | nil =>
    rcases hend with rfl | ⟨rest, rfl⟩
    · exact fun c hc => by cases hc
    · intro c hc
      cases hc
      decide
  | cons t toks =>
    have ht := hvalid t List.mem_cons_self
    intro d hd
    refine Bool.eq_false_iff.mpr fun hdigit => ?_
    obtain ⟨hletter, haction, -⟩ := not_modeLetter_of_isDigit hdigit
    cases t with
    | letter c =>
      cases hd
      exact hletter ht
    | action c =>
      cases hd
      rw [show isModeAction d = true from ht] at haction
      cases haction
    | number digits =>
      have := hnumber _ rfl
      cases this

theorem isNumber_false_of_notDigitFirst (hvalid : ∀ t ∈ toks, t.Valid)
    (hfirst : NotDigitFirst (itemText toks ++ sp)) (ht : t ∈ toks.head?) : ¬ t.isNumber = true := by
  intro hnumber
  cases toks with
  | nil => cases ht
  | cons u toks =>
    cases ht
    cases t with
    | letter c => cases hnumber
    | action c => cases hnumber
    | number digits =>
      obtain ⟨⟨c, ds, rfl, hc⟩, -⟩ := hvalid _ List.mem_cons_self
      have := hfirst c rfl
      rw [isDigit_of_isOctalDigit hc] at this
      cases this

/-- What remains of an item behind its first piece. -/
theorem LooseItem.tail (h : LooseItem (t :: toks)) : LooseItem toks :=
  ⟨fun u hu => h.valid u (List.mem_cons_of_mem _ hu), h.apart.tail, h.single.tail⟩

theorem gotaction_letter (m : ModeParse) (c : Char) :
    (m.token (.letter c)).gotaction = m.gotaction := by
  rw [ModeParse.token]
  cases modeClass c <;> rfl

/-- An item is read piece by piece. -/
theorem loop_item (h : LooseItem toks) (hgot : Continues m.gotaction toks) (hend : ItemEnd sp) :
    parseModeString.loop modestring m (itemText toks ++ sp) =
      parseModeString.loop modestring (toks.foldl ModeParse.token m) sp := by
  induction toks generalizing m with
  | nil => rfl
  | cons t toks ih =>
    have ht := h.valid t List.mem_cons_self
    have hsingle := (List.pairwise_cons.mp h.single).1
    rw [itemText_cons, List.append_assoc, List.foldl_cons]
    cases t with
    | letter c =>
      refine (loop_letter ht).trans (ih h.tail fun hgot' u hu => ?_)
      rw [gotaction_letter] at hgot'
      exact hgot hgot' u (List.mem_cons_of_mem _ hu)
    | action c =>
      have hgot' : m.gotaction = false := by
        refine Bool.eq_false_iff.mpr fun hgot' => ?_
        cases hgot hgot' _ List.mem_cons_self
      refine (loop_action ht hgot').trans (ih h.tail fun _ u hu => ?_)
      exact Bool.eq_false_iff.mpr fun haction => by cases hsingle u hu haction
    | number digits =>
      have hnumber : ∀ u ∈ toks.head?, u.isNumber = false := by
        intro u hu
        have hapart := (List.isChain_cons.mp h.apart).1 u hu
        exact Bool.eq_false_iff.mpr fun hu' => hapart ⟨rfl, hu'⟩
      refine (loop_number ht (notDigitFirst_itemText h.tail.valid hend hnumber)).trans
        (ih h.tail fun _ u hu => ?_)
      exact Bool.eq_false_iff.mpr fun haction => by cases hsingle u hu haction

/-- What is accepted starts with an item. -/
theorem exists_item (h : parseModeString.loop modestring m s = some masks) :
    ∃ toks sp, s = itemText toks ++ sp ∧ ItemEnd sp ∧ LooseItem toks ∧
      Continues m.gotaction toks := by
  induction hn : s.length using Nat.strong_induction_on generalizing s m with
  | _ n ih =>
    have hempty : LooseItem [] := ⟨fun _ ht => absurd ht List.not_mem_nil, .nil, .nil⟩
    cases s with
    | nil => exact ⟨[], [], rfl, .inl rfl, hempty, fun _ _ ht => absurd ht List.not_mem_nil⟩
    | cons c s =>
      by_cases hletter : c ∈ ['a', 'u', 'g', 'o', 'r', 'w', 'x', 's', 't']
      · rw [loop_letter hletter] at h
        obtain ⟨toks, sp, rfl, hend, hloose, hcont⟩ :=
          ih _ (by rw [← hn]; exact Nat.lt_succ_self _) h rfl
        rw [gotaction_letter] at hcont
        refine ⟨.letter c :: toks, sp, rfl, hend, ⟨?_, ?_, ?_⟩, fun hgot t ht => ?_⟩
        · exact List.forall_mem_cons.mpr ⟨hletter, hloose.valid⟩
        · exact List.isChain_cons.mpr ⟨fun _ _ hnum => (by cases hnum.1), hloose.apart⟩
        · exact List.pairwise_cons.mpr ⟨fun _ _ _ => rfl, hloose.single⟩
        · rcases List.mem_cons.mp ht with rfl | ht
          · rfl
          · exact hcont hgot t ht
      by_cases haction : isModeAction c = true
      · cases hgot : m.gotaction with
        | true =>
          rw [loop_action_twice haction hgot] at h
          cases h
        | false =>
          rw [loop_action haction hgot] at h
          obtain ⟨toks, sp, rfl, hend, hloose, hcont⟩ :=
            ih _ (by rw [← hn]; exact Nat.lt_succ_self _) h rfl
          refine ⟨.action c :: toks, sp, rfl, hend, ⟨?_, ?_, ?_⟩, fun hfalse => by cases hfalse⟩
          · exact List.forall_mem_cons.mpr ⟨haction, hloose.valid⟩
          · exact List.isChain_cons.mpr ⟨fun _ _ hnum => (by cases hnum.1), hloose.apart⟩
          · refine List.pairwise_cons.mpr ⟨fun t ht hact => ?_, hloose.single⟩
            rw [hcont rfl t ht] at hact
            cases hact
      by_cases hdigit : isOctalDigit c = true
      · rw [loop_digit hdigit] at h
        split_ifs at h with hvalue
        obtain ⟨toks, sp, heq, hend, hloose, hcont⟩ := ih _
          (by rw [← hn]; exact Nat.lt_succ_of_le (List.length_dropWhile_le _ _)) h rfl
        have hdigits : c :: s = (c :: s.takeWhile Char.isDigit) ++ (itemText toks ++ sp) := by
          rw [← heq, List.cons_append, List.takeWhile_append_dropWhile]
        have hfirst : NotDigitFirst (itemText toks ++ sp) := heq ▸ notDigitFirst_dropWhile s
        have hscan : scanOctal (c :: s) = scanOctal (c :: s.takeWhile Char.isDigit) := by
          rw [hdigits, scanOctal_append hfirst]
        have hvalid : (ModeToken.number (c :: s.takeWhile Char.isDigit)).Valid := by
          refine ⟨⟨c, _, rfl, hdigit⟩, List.forall_mem_cons.mpr ⟨isDigit_of_isOctalDigit hdigit,
            fun d hd => List.mem_takeWhile_imp hd⟩, ?_⟩
          rw [← hscan]
          exact Int.not_lt.mp hvalue
        refine ⟨.number (c :: s.takeWhile Char.isDigit) :: toks, sp, ?_, hend, ⟨?_, ?_, ?_⟩,
          fun _ t ht => ?_⟩
        · rw [itemText_cons, List.append_assoc]
          exact hdigits
        · exact List.forall_mem_cons.mpr ⟨hvalid, hloose.valid⟩
        · refine List.isChain_cons.mpr ⟨fun u hu hnum => ?_, hloose.apart⟩
          exact isNumber_false_of_notDigitFirst hloose.valid hfirst hu hnum.2
        · refine List.pairwise_cons.mpr ⟨fun t ht hact => ?_, hloose.single⟩
          rw [hcont rfl t ht] at hact
          cases hact
        · rcases List.mem_cons.mp ht with rfl | ht
          · rfl
          · exact hcont rfl t ht
      by_cases hcomma : c = ','
      · exact ⟨[], c :: s, rfl, .inr ⟨s, by rw [hcomma]⟩, hempty,
          fun _ _ ht => absurd ht List.not_mem_nil⟩
      · rw [loop_invalid hletter haction hdigit hcomma] at h
        cases h

/-! ## Lists of items -/

/-- What is read of an item. -/
def itemParse (toks : List ModeToken) : ModeParse := toks.foldl ModeParse.token {}

/-- The masks with an item. -/
def addMask (masks : BitVec 32 × BitVec 32) (toks : List ModeToken) : BitVec 32 × BitVec 32 :=
  (setModeMask (itemParse toks).action (itemParse toks).value (itemParse toks).affected masks.1
    masks.2).getD masks

/-- At the start of an item. -/
structure ModeParse.Fresh (m : ModeParse) : Prop where
  affected : m.affected = 0
  value : m.value = 0
  gotaction : m.gotaction = false
  action : m.action = '='

/-- The same has been read of an item. -/
structure ModeParse.Same (m m' : ModeParse) : Prop where
  affected : m.affected = m'.affected
  value : m.value = m'.value
  action : m.action = m'.action

theorem ModeParse.Same.token (h : m.Same m') (t : ModeToken) : (m.token t).Same (m'.token t) := by
  obtain ⟨haffected, hvalue, haction⟩ := h
  cases t with
  | letter c =>
    rw [ModeParse.token, ModeParse.token, haffected]
    cases modeClass c with
    | some bits => exact ⟨congrArg (· ||| bits) haffected, hvalue, haction⟩
    | none =>
      exact ⟨haffected, congrArg (· ||| (modePermission m'.affected c).getD 0) hvalue, haction⟩
  | action c => exact ⟨haffected, hvalue, rfl⟩
  | number digits => exact ⟨rfl, rfl, haction⟩

theorem ModeParse.Same.foldl (h : m.Same m') (toks : List ModeToken) :
    (toks.foldl ModeParse.token m).Same (toks.foldl ModeParse.token m') := by
  induction toks generalizing m m' with
  | nil => exact h
  | cons t toks ih => exact ih (h.token t)

theorem ModeParse.Fresh.same (h : m.Fresh) (toks : List ModeToken) :
    (toks.foldl ModeParse.token m).Same (itemParse toks) :=
  ModeParse.Same.foldl ⟨h.affected, h.value, h.action⟩ toks

/-- An item does not change the masks. -/
theorem masks_foldl (m : ModeParse) (toks : List ModeToken) :
    (toks.foldl ModeParse.token m).plusmask = m.plusmask ∧
      (toks.foldl ModeParse.token m).minusmask = m.minusmask := by
  induction toks generalizing m with
  | nil => exact ⟨rfl, rfl⟩
  | cons t toks ih =>
    have ht : (m.token t).plusmask = m.plusmask ∧ (m.token t).minusmask = m.minusmask := by
      cases t with
      | letter c =>
        rw [ModeParse.token]
        cases modeClass c <;> exact ⟨rfl, rfl⟩
      | action c => exact ⟨rfl, rfl⟩
      | number digits => exact ⟨rfl, rfl⟩
    rw [List.foldl_cons, (ih (m.token t)).1, (ih (m.token t)).2]
    exact ht

theorem state_token (m : ModeParse) (t : ModeToken) :
    (m.token t).state = if t.isLetter = true then m.state else .which := by
  cases t with
  | letter c =>
    rw [ModeParse.token]
    cases modeClass c <;> rfl
  | action c => rfl
  | number digits => rfl

theorem state_foldl (m : ModeParse) (toks : List ModeToken) :
    (toks.foldl ModeParse.token m).state = .who ↔
      m.state = .who ∧ ∀ t ∈ toks, t.isLetter = true := by
  induction toks generalizing m with
  | nil => exact ⟨fun h => ⟨h, fun _ ht => absurd ht List.not_mem_nil⟩, fun h => h.1⟩
  | cons t toks ih =>
    rw [List.foldl_cons, ih, state_token, List.forall_mem_cons]
    by_cases ht : t.isLetter = true
    · rw [if_pos ht, and_iff_right ht]
    · rw [if_neg ht]
      exact iff_of_false (fun h => by cases h.1) fun h => ht h.2.1

theorem isModeAction_foldl (hvalid : ∀ t ∈ toks, t.Valid) (h : isModeAction m.action = true) :
    isModeAction (toks.foldl ModeParse.token m).action = true := by
  induction toks generalizing m with
  | nil => exact h
  | cons t toks ih =>
    obtain ⟨ht, htoks⟩ := List.forall_mem_cons.mp hvalid
    refine ih htoks ?_
    cases t with
    | letter c =>
      rw [ModeParse.token]
      cases modeClass c <;> exact h
    | action c => exact ht
    | number digits => exact h

theorem exists_setModeMask (h : isModeAction c = true) (value affected p q : BitVec 32) :
    ∃ masks, setModeMask c value affected p q = some masks := by
  simp only [isModeAction, Bool.or_eq_true, decide_eq_true_eq] at h
  rcases h with (rfl | rfl) | rfl <;> exact ⟨_, rfl⟩

/-- The masks behind an item. -/
theorem setMask_foldl (h : LooseItem toks) (hfresh : m.Fresh) :
    (toks.foldl ModeParse.token m).setMask = some (addMask (m.plusmask, m.minusmask) toks) := by
  obtain ⟨haffected, hvalue, haction⟩ := hfresh.same toks
  obtain ⟨masks, hmasks⟩ := exists_setModeMask (isModeAction_foldl (m := {}) h.valid (by decide))
    (itemParse toks).value (itemParse toks).affected m.plusmask m.minusmask
  rw [ModeParse.setMask, haffected, hvalue, haction, (masks_foldl m toks).1, (masks_foldl m toks).2,
    addMask]
  change setModeMask (itemParse toks).action _ _ _ _ = _ at hmasks
  rw [hmasks]
  rfl

/-! ## Permissions -/

/-- A number, or a letter for one of the classes. -/
def ModeToken.Affects (classes : List Char) : ModeToken → Prop
  | letter c => c ∈ classes
  | action _ => False
  | number _ => True

/-- A piece behind these gives permissions: a number that is not zero, or a letter for a permission
that some class in front of it can have. -/
def ModeToken.Gives (before : List ModeToken) : ModeToken → Prop
  | letter c => c = 't' ∨ c ∈ ['r', 'w', 'x'] ∧ (∃ u ∈ before, u.Affects ['a', 'u', 'g', 'o']) ∨
      c = 's' ∧ ∃ u ∈ before, u.Affects ['a', 'u', 'g']
  | action _ => False
  | number digits => scanOctal digits ≠ 0

/-- A piece of the item gives permissions, and no number takes its place. -/
def GivesPermissions (toks : List ModeToken) : Prop :=
  ∃ before t after, toks = before ++ t :: after ∧ (∀ u ∈ after, u.isNumber = false) ∧ t.Gives before

theorem givesPermissions_concat : GivesPermissions (toks ++ [t]) ↔
    t.Gives toks ∨ t.isNumber = false ∧ GivesPermissions toks := by
  constructor
  · rintro ⟨before, u, after, heq, hafter, hgives⟩
    rcases List.eq_nil_or_concat' after with rfl | ⟨after, v, rfl⟩
    · obtain ⟨rfl, huv⟩ := List.append_inj' heq rfl
      cases huv
      exact .inl hgives
    · rw [← List.cons_append, ← List.append_assoc] at heq
      obtain ⟨rfl, huv⟩ := List.append_inj' heq rfl
      cases huv
      obtain ⟨hafter, hlast⟩ := List.forall_mem_append.mp hafter
      exact .inr ⟨hlast _ List.mem_cons_self, before, u, after, rfl, hafter, hgives⟩
  · rintro (hgives | ⟨hnumber, before, u, after, rfl, hafter, hgives⟩)
    · exact ⟨toks, t, [], rfl, fun _ hu => absurd hu List.not_mem_nil, hgives⟩
    · refine ⟨before, u, after ++ [t], List.append_assoc .., ?_, hgives⟩
      exact List.forall_mem_append.mpr ⟨hafter, List.forall_mem_singleton.mpr hnumber⟩

theorem or_ne_zero_iff {w : Nat} {x y : BitVec w} : x ||| y ≠ 0 ↔ x ≠ 0 ∨ y ≠ 0 := by
  rw [← not_and_or, not_iff_not]
  exact BitVec.or_eq_zero_iff

/-- The bits that the classes in front give to a permission. -/
theorem and_affected_ne_zero_iff {mask : BitVec 32} {classes : List Char}
    (hclass : ∀ c, mask &&& (modeClass c).getD 0 ≠ 0 ↔ c ∈ classes) (hall : mask &&& 0o7777 ≠ 0)
    (m : ModeParse) (toks : List ModeToken) :
    mask &&& (toks.foldl ModeParse.token m).affected ≠ 0 ↔
      mask &&& m.affected ≠ 0 ∨ ∃ u ∈ toks, u.Affects classes := by
  induction toks generalizing m with
  | nil => simp
  | cons t toks ih =>
    have ht : mask &&& (m.token t).affected ≠ 0 ↔ mask &&& m.affected ≠ 0 ∨ t.Affects classes := by
      cases t with
      | letter c =>
        have hc := hclass c
        rw [ModeParse.token, ModeToken.Affects, ← hc]
        cases modeClass c with
        | none => simp [ModeParse.permissionLetter]
        | some bits =>
          change mask &&& (m.affected ||| bits) ≠ 0 ↔ _
          rw [BitVec.and_or_distrib_left]
          exact or_ne_zero_iff
      | action c => exact (or_false _).symm ▸ Iff.rfl
      | number digits => exact iff_of_true hall (.inr trivial)
    rw [List.foldl_cons, ih, ht, or_assoc]
    simp only [List.mem_cons, exists_eq_or_imp]

theorem and_modeClass_ne_zero_iff (mask : BitVec 32) (h : mask ∈ [0o444, 0o222, 0o111]) (c : Char) :
    mask &&& (modeClass c).getD 0 ≠ 0 ↔ c ∈ ['a', 'u', 'g', 'o'] := by
  by_cases hc : c ∈ ['a', 'u', 'g', 'o']
  · simp only [List.mem_cons, List.not_mem_nil, or_false] at h hc
    rcases h with rfl | rfl | rfl <;> rcases hc with rfl | rfl | rfl | rfl <;> decide
  · rw [modeClass_eq_none hc]
    exact iff_of_false (not_not_intro BitVec.and_zero) hc

/-- Others cannot have the bits of `s`. -/
theorem and_modeClass_ne_zero_iff_s (c : Char) :
    (0o6000 : BitVec 32) &&& (modeClass c).getD 0 ≠ 0 ↔ c ∈ ['a', 'u', 'g'] := by
  by_cases hc : c ∈ ['a', 'u', 'g', 'o']
  · simp only [List.mem_cons, List.not_mem_nil, or_false] at hc
    rcases hc with rfl | rfl | rfl | rfl <;> decide
  · rw [modeClass_eq_none hc]
    exact iff_of_false (not_not_intro BitVec.and_zero) fun hmem =>
      hc (List.mem_append_left ['o'] hmem)

theorem and_affected_itemParse_ne_zero_iff (toks : List ModeToken) {mask : BitVec 32}
    {classes : List Char} (hclass : ∀ c, mask &&& (modeClass c).getD 0 ≠ 0 ↔ c ∈ classes)
    (hall : mask &&& 0o7777 ≠ 0) :
    mask &&& (itemParse toks).affected ≠ 0 ↔ ∃ u ∈ toks, u.Affects classes := by
  rw [itemParse, and_affected_ne_zero_iff hclass hall, or_iff_right]
  exact not_not_intro BitVec.and_zero

/-- A letter for a permission adds bits exactly if it gives permissions. -/
theorem modePermission_ne_zero_iff (h : c ∉ ['a', 'u', 'g', 'o']) :
    (modePermission (itemParse toks).affected c).getD 0 ≠ 0 ↔ (ModeToken.letter c).Gives toks := by
  rw [ModeToken.Gives]
  by_cases hc : c ∈ ['r', 'w', 'x', 's', 't']
  · simp only [List.mem_cons, List.not_mem_nil, or_false] at hc
    rcases hc with rfl | rfl | rfl | rfl | rfl
    · simpa [modePermission] using and_affected_itemParse_ne_zero_iff toks
        (and_modeClass_ne_zero_iff 0o444 (by decide)) (by decide)
    · simpa [modePermission] using and_affected_itemParse_ne_zero_iff toks
        (and_modeClass_ne_zero_iff 0o222 (by decide)) (by decide)
    · simpa [modePermission] using and_affected_itemParse_ne_zero_iff toks
        (and_modeClass_ne_zero_iff 0o111 (by decide)) (by decide)
    · simpa [modePermission] using and_affected_itemParse_ne_zero_iff toks
        and_modeClass_ne_zero_iff_s (by decide)
    · exact iff_of_true (show (0o1000 : BitVec 32) ≠ 0 by decide) (.inl rfl)
  · rw [modePermission_eq_none _ hc]
    apply iff_of_false (not_not_intro rfl)
    simp only [List.mem_cons, List.not_mem_nil, or_false, not_or] at hc
    simp [hc]

/-- What is read of an item is not nothing exactly if it gives permissions. -/
theorem value_itemParse_ne_zero_iff : (itemParse toks).value ≠ 0 ↔ GivesPermissions toks := by
  induction toks using List.reverseRecOn with
  | nil =>
    apply iff_of_false (not_not_intro rfl)
    rintro ⟨before, t, after, heq, -⟩
    exact List.append_ne_nil_of_right_ne_nil before (List.cons_ne_nil t after) heq.symm
  | append_singleton toks t ih =>
    rw [givesPermissions_concat, ← ih, itemParse, List.foldl_concat, ← itemParse]
    cases t with
    | letter c =>
      have hletter : (ModeToken.letter c).isNumber = false := rfl
      rw [ModeParse.token, and_iff_right hletter]
      by_cases hc : c ∈ ['a', 'u', 'g', 'o']
      · obtain ⟨bits, hbits⟩ := exists_modeClass hc
        rw [hbits, or_iff_right]
        · exact Iff.rfl
        · simp only [List.mem_cons, List.not_mem_nil, or_false] at hc
          rcases hc with rfl | rfl | rfl | rfl <;> simp [ModeToken.Gives]
      · rw [modeClass_eq_none hc, ← modePermission_ne_zero_iff hc, or_comm]
        exact or_ne_zero_iff
    | action c => exact ⟨fun h => .inr ⟨rfl, h⟩, fun h => (h.resolve_left id).2⟩
    | number digits => exact ⟨.inl, fun h => h.resolve_right fun hrest => by cases hrest.1⟩

/-- The last item gives no permissions, or does not say what to do. -/
def Incomplete (state : ModeState) (init : List (List ModeToken)) (last : List ModeToken) : Prop :=
  ((init ≠ [] ∨ state = .who) ∧ ∀ t ∈ last, t.isLetter = true) ∨ ¬ GivesPermissions last

/-- The two strings for which that is no error. -/
def IsZeros (modestring : CString) : Prop :=
  modestring = ['0', '0', '0', '0'] ∨ modestring = ['0', '0', '0']

variable (modestring) in
/-- A list of items is read item by item. -/
theorem loop_items {init : List (List ModeToken)} {last : List ModeToken} (hfresh : m.Fresh)
    (hall : ∀ item ∈ init ++ [last], LooseItem item) :
    (Incomplete m.state init last ∧ ¬ IsZeros modestring →
      parseModeString.loop modestring m ([','].intercalate ((init ++ [last]).map itemText)) =
      none) ∧
    (¬ Incomplete m.state init last ∨ IsZeros modestring →
      parseModeString.loop modestring m ([','].intercalate ((init ++ [last]).map itemText)) =
        some ((init ++ [last]).foldl addMask (m.plusmask, m.minusmask))) := by
  induction init generalizing m with
  | nil =>
    have hlast := hall last List.mem_cons_self
    have hcont : Continues m.gotaction last := fun hgot => by
      rw [hfresh.gotaction] at hgot; cases hgot
    have hread : parseModeString.loop modestring m (itemText last ++ []) = _ :=
      loop_item hlast hcont (.inl rfl)
    rw [List.append_nil] at hread
    rw [List.nil_append, List.map_singleton, List.intercalate_singleton, hread,
      parseModeString.loop, setMask_foldl hlast hfresh]
    have hcond : ((last.foldl ModeParse.token m).state = .who ∨
      (last.foldl ModeParse.token m).value = 0) ∧
        modestring ≠ ['0', '0', '0', '0'] ∧ modestring ≠ ['0', '0', '0'] ↔
          Incomplete m.state [] last ∧ ¬ IsZeros modestring := by
      rw [state_foldl, (hfresh.same last).value, Incomplete, IsZeros, not_or, ne_self_iff_false,
        false_or, ← value_itemParse_ne_zero_iff, not_not]
    refine ⟨fun h => if_pos (hcond.mpr h), fun h => if_neg fun hnot => ?_⟩
    obtain ⟨hincomplete, hzeros⟩ := hcond.mp hnot
    exact h.elim (fun h => h hincomplete) hzeros
  | cons item init ih =>
    obtain ⟨hitem, hrest⟩ := List.forall_mem_cons.mp hall
    have hcont : Continues m.gotaction item := fun hgot => by
      rw [hfresh.gotaction] at hgot; cases hgot
    obtain ⟨a, l, hal⟩ := List.exists_cons_of_ne_nil
      (show (init ++ [last]).map itemText ≠ [] by simp)
    have htext : [','].intercalate ((item :: init ++ [last]).map itemText) =
        itemText item ++ ',' :: [','].intercalate ((init ++ [last]).map itemText) := by
      rw [List.cons_append, List.map_cons, hal, List.intercalate_cons_cons, List.append_assoc]
      rfl
    have hread : parseModeString.loop modestring m
        ([','].intercalate ((item :: init ++ [last]).map itemText)) =
          parseModeString.loop modestring
          ((item.foldl ModeParse.token m).nextItem (addMask (m.plusmask, m.minusmask) item))
            ([','].intercalate ((init ++ [last]).map itemText)) := by
      rw [htext, loop_item hitem hcont (.inr ⟨_, rfl⟩), loop_comma (setMask_foldl hitem hfresh)]
    have hnext :=
      ih (m := (item.foldl ModeParse.token m).nextItem (addMask (m.plusmask, m.minusmask) item))
      ⟨rfl, rfl, rfl, rfl⟩ hrest
    have hsame : Incomplete .who init last ↔ Incomplete m.state (item :: init) last := by
      rw [Incomplete, Incomplete, and_iff_right (.inr rfl),
        and_iff_right (.inl (List.cons_ne_nil _ _))]
    rw [hread, ← hsame]
    exact hnext

/-- A string of such items that has the end of one. -/
def LooseMode (modestring : CString) : Prop :=
  ∃ init last, (∀ item ∈ init ++ [last], LooseItem item) ∧
    modestring = [','].intercalate ((init ++ [last]).map itemText) ∧
      (¬ Incomplete .wild init last ∨ IsZeros modestring)

/-- What is accepted is a list of items. -/
theorem exists_items (h : parseModeString.loop modestring m s = some masks) (hfresh : m.Fresh) :
    ∃ init last, (∀ item ∈ init ++ [last], LooseItem item) ∧
      s = [','].intercalate ((init ++ [last]).map itemText) := by
  induction hn : s.length using Nat.strong_induction_on generalizing s m with
  | _ n ih =>
    obtain ⟨toks, sp, rfl, hend, hloose, hcont⟩ := exists_item h
    rcases hend with rfl | ⟨rest, rfl⟩
    · refine ⟨[], toks, List.forall_mem_singleton.mpr hloose, ?_⟩
      rw [List.nil_append, List.map_singleton, List.intercalate_singleton, List.append_nil]
    · rw [loop_item hloose hcont (.inr ⟨rest, rfl⟩), loop_comma (setMask_foldl hloose hfresh)] at h
      obtain ⟨init, last, hall, rfl⟩ := ih rest.length
        (by rw [← hn, List.length_append, List.length_cons]; omega) h ⟨rfl, rfl, rfl, rfl⟩ rfl
      refine ⟨toks :: init, last, List.forall_mem_cons.mpr ⟨hloose, hall⟩, ?_⟩
      obtain ⟨a, l, hal⟩ := List.exists_cons_of_ne_nil
        (show (init ++ [last]).map itemText ≠ [] by simp)
      rw [List.cons_append, List.map_cons, hal, List.intercalate_cons_cons, List.append_assoc]
      rfl

/-- The strings that are accepted. -/
theorem parseModeString_isSome_iff (modestring : CString) :
    (parseModeString (some modestring)).isSome = true ↔ LooseMode modestring := by
  have hfresh : ({} : ModeParse).Fresh := ⟨rfl, rfl, rfl, rfl⟩
  constructor
  · intro h
    obtain ⟨masks, hmasks⟩ := Option.isSome_iff_exists.mp h
    obtain ⟨init, last, hall, htext⟩ := exists_items hmasks hfresh
    refine ⟨init, last, hall, htext, ?_⟩
    by_contra hnot
    rw [not_or, not_not] at hnot
    have hnone := (loop_items modestring hfresh hall).1 hnot
    rw [← htext] at hnone
    cases hmasks.symm.trans hnone
  · rintro ⟨init, last, hall, htext, hcomplete⟩
    have hsome := (loop_items modestring hfresh hall).2 hcomplete
    rw [← htext] at hsome
    exact Option.isSome_iff_exists.mpr ⟨_, hsome⟩

/-! ## Well-formed modes -/

/-- The number that octal digits stand for. -/
def octalValue (digits : CString) : Nat :=
  digits.foldl (fun n c => n * 8 + (c.toNat - '0'.toNat)) 0

/-- An octal number, or classes, an action and permissions. -/
inductive WellFormedItem : CString → Prop
  | number {digits : CString} : digits ≠ [] → (∀ c ∈ digits, isOctalDigit c = true) →
    octalValue digits ≤ 0o7777 → WellFormedItem digits
  | symbolic {who permissions : CString} {action : Char} : who ≠ [] →
    (∀ c ∈ who, c ∈ ['a', 'u', 'g', 'o']) → isModeAction action = true → permissions ≠ [] →
    (∀ c ∈ permissions, c ∈ ['r', 'w', 'x', 's', 't']) →
      WellFormedItem (who ++ action :: permissions)

/-- A comma-separated list of such items. -/
def WellFormedMode (modestring : CString) : Prop :=
  ∃ items, items ≠ [] ∧ (∀ item ∈ items, WellFormedItem item) ∧ modestring = [','].intercalate items

/-- Only well-formed strings are accepted exactly where a string is well formed or not even such a
list of items. -/
theorem accepts_wellFormedMode_iff (modestring : CString) :
    ((parseModeString (some modestring)).isSome = true → WellFormedMode modestring) ↔
      WellFormedMode modestring ∨ ¬ LooseMode modestring := by
  rw [parseModeString_isSome_iff]
  exact imp_iff_or_not

/-- Every item of a well-formed mode has a digit or an action. -/
theorem exists_mem_of_wellFormedMode (h : WellFormedMode s) :
    ∃ c ∈ s, isOctalDigit c = true ∨ isModeAction c = true := by
  obtain ⟨items, hne, hall, rfl⟩ := h
  obtain ⟨item, items, rfl⟩ := List.exists_cons_of_ne_nil hne
  have hitem : ∃ c ∈ item, isOctalDigit c = true ∨ isModeAction c = true := by
    cases hall item List.mem_cons_self with
    | number hdigits hoctal hvalue =>
      obtain ⟨c, ds, rfl⟩ := List.exists_cons_of_ne_nil hdigits
      exact ⟨c, List.mem_cons_self, .inl (hoctal c List.mem_cons_self)⟩
    | @symbolic who permissions action _ _ haction _ _ =>
      exact ⟨action, List.mem_append_right _ List.mem_cons_self, .inr haction⟩
  obtain ⟨c, hc, hcase⟩ := hitem
  refine ⟨c, ?_, hcase⟩
  cases items with
  | nil => rwa [List.intercalate_singleton]
  | cons other items =>
    rw [List.intercalate_cons_cons]
    exact List.mem_append_left _ (List.mem_append_left _ hc)

/-- A class and a permission without an action. -/
theorem accepts_wellFormedMode_ur :
    ¬ ((parseModeString (some ['u', 'r'])).isSome = true → WellFormedMode ['u', 'r']) := by
  intro h
  have haccepted : (parseModeString (some ['u', 'r'])).isSome = true := by
    rw [parseModeString, loop_letter (by decide), loop_letter (by decide), parseModeString.loop]
    decide
  obtain ⟨c, hc, hcase⟩ := exists_mem_of_wellFormedMode (h haccepted)
  simp only [List.mem_cons, List.not_mem_nil, or_false] at hc
  rcases hc with rfl | rfl <;> exact absurd hcase (by decide)

end Cfengine
