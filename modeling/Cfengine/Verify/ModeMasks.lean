import Cfengine.Verify.Modes

/-!
# The masks of a mode string

Each item sets some bits and clears others. The two masks say which bits any item sets and which
bits any item clears, and clearing goes last: a bit comes out as the items leave it one after the
other unless it is set for good behind an item that clears it
(`newPermissions_parseModeString_iff`).
-/

namespace Cfengine

/-! ## Setting and clearing -/

section
variable {ops : List (Bool × Bool)} {op : Bool × Bool} {b : Bool}

/-- A bit that is set by the first component of a pair and cleared by the second. -/
def applyBit (b : Bool) (op : Bool × Bool) : Bool := (b && !op.2) || op.1

/-- Where a bit is set, it was not cleared in front, or is cleared again. -/
def NotSetAgain (ops : List (Bool × Bool)) : Prop :=
  ∀ front op back, ops = front ++ op :: back → op.1 = true → (∃ o ∈ front, o.2 = true) →
    ∃ o ∈ back, o.2 = true

theorem eq_or_of_append_singleton {α : Type*} {front back l : List α} {x y : α}
    (h : l ++ [y] = front ++ x :: back) :
    (l = front ∧ y = x ∧ back = []) ∨ ∃ back', back = back' ++ [y] ∧ l = front ++ x :: back' := by
  rcases List.eq_nil_or_concat back with rfl | ⟨back', z, rfl⟩
  · obtain ⟨rfl, hy⟩ := List.append_inj' h rfl
    exact .inl ⟨rfl, (List.cons_eq_cons.mp hy).1, rfl⟩
  · rw [List.concat_eq_append, ← List.cons_append, ← List.append_assoc] at h
    obtain ⟨rfl, hz⟩ := List.append_inj' h rfl
    rw [(List.cons_eq_cons.mp hz).1]
    exact .inr ⟨back', List.concat_eq_append, rfl⟩

theorem notSetAgain_of_clear (h : op.1 = false) (hclear : op.2 = true) :
    NotSetAgain (ops ++ [op]) := by
  intro front o back heq hset _
  rcases eq_or_of_append_singleton heq with ⟨-, rfl, -⟩ | ⟨back', rfl, -⟩
  · rw [h] at hset
    cases hset
  · exact ⟨op, List.mem_append_right _ List.mem_cons_self, hclear⟩

theorem notSetAgain_of_set (h : op.1 = true) (hclear : op.2 = false) :
    NotSetAgain (ops ++ [op]) ↔ ops.any Prod.snd = false := by
  rw [List.any_eq_false]
  constructor
  · intro hall o ho hset
    obtain ⟨_, hmem, -⟩ := hall ops op [] rfl h ⟨o, ho, hset⟩
    exact List.not_mem_nil hmem
  · rintro hnone front o back heq - ⟨p, hp, hp'⟩
    have hmem : p ∈ ops ++ [op] := heq ▸ List.mem_append_left _ hp
    rcases List.mem_append.mp hmem with hmem | hmem
    · exact absurd hp' (hnone p hmem)
    · rw [List.mem_singleton.mp hmem, hclear] at hp'
      cases hp'

theorem notSetAgain_append (h : op.1 = false) (hclear : op.2 = false) :
    NotSetAgain (ops ++ [op]) ↔ NotSetAgain ops := by
  constructor
  · rintro hall front o back rfl hset hfront
    obtain ⟨p, hp, hp'⟩ := hall front o (back ++ [op]) (by simp) hset hfront
    rcases List.mem_append.mp hp with hp | hp
    · exact ⟨p, hp, hp'⟩
    · rw [List.mem_singleton.mp hp, hclear] at hp'
      cases hp'
  · intro hall front o back heq hset hfront
    rcases eq_or_of_append_singleton heq with ⟨-, rfl, -⟩ | ⟨back', rfl, hops⟩
    · rw [h] at hset
      cases hset
    · obtain ⟨p, hp, hp'⟩ := hall front o back' hops hset hfront
      exact ⟨p, List.mem_append_left _ hp, hp'⟩

/-- Setting in any pair, and then clearing in any pair, is what the pairs do one after the other. -/
theorem foldl_applyBit_iff (hops : ∀ op ∈ ops, op.1 = false ∨ op.2 = false) :
    ((b || ops.any Prod.fst) && !ops.any Prod.snd) = ops.foldl applyBit b ↔ NotSetAgain ops := by
  induction ops using List.reverseRecOn with
  | nil =>
    refine iff_of_true (by simp) fun front op back heq => ?_
    exact absurd heq.symm (by simp)
  | append_singleton ops op ih =>
    have hop := hops op (List.mem_append_right _ List.mem_cons_self)
    have hrest := ih fun o ho => hops o (List.mem_append_left _ ho)
    rw [List.foldl_append, List.foldl_cons, List.foldl_nil, applyBit, List.any_append,
      List.any_append, List.any_cons, List.any_nil, List.any_cons, List.any_nil]
    cases hset : op.1 <;> cases hclear : op.2
    · rw [notSetAgain_append hset hclear, ← hrest]
      simp
    · exact iff_of_true (by simp) (notSetAgain_of_clear hset hclear)
    · rw [notSetAgain_of_set hset hclear]
      simp
    · rw [hset, hclear] at hop
      simp at hop

end

/-! ## Bits of a mode -/

section
variable {v w m : BitVec 32} {i : Nat}

/-- Of the twelve bits of a mode. -/
def InMode (v : BitVec 32) : Prop := v &&& 0o7777 = v

instance : Decidable (InMode v) := inferInstanceAs (Decidable (_ = _))

theorem getLsbD_mask (i : Nat) : (0o7777 : BitVec 32).getLsbD i = decide (i < 12) := by
  change (BitVec.ofNat 32 (2 ^ 12 - 1)).getLsbD i = _
  rw [BitVec.getLsbD_ofNat, Nat.testBit_two_pow_sub_one, Bool.and_eq_right_iff_imp,
    decide_eq_true_eq, decide_eq_true_eq]
  exact fun hi => hi.trans (by decide)

theorem InMode.getLsbD (h : InMode v) (hi : ¬ i < 12) : v.getLsbD i = false := by
  rw [← h, BitVec.getLsbD_and, getLsbD_mask, decide_eq_false hi, Bool.and_false]

theorem InMode.or (hv : InMode v) (hw : InMode w) : InMode (v ||| w) := by
  rw [InMode, BitVec.and_or_distrib_right, hv, hw]

theorem InMode.and (hv : InMode v) (w : BitVec 32) : InMode (v &&& w) := by
  rw [InMode, BitVec.and_assoc, BitVec.and_comm w, ← BitVec.and_assoc, hv]

theorem inMode_ofNat {n : Nat} (h : n ≤ 0o7777) : InMode (BitVec.ofNat 32 n) := by
  change BitVec.ofNat 32 n &&& BitVec.ofNat 32 (2 ^ 12 - 1) = _
  rw [← BitVec.ofNat_and, Nat.and_two_pow_sub_one_eq_mod, Nat.mod_eq_of_lt (Nat.lt_succ_of_le h)]

end

/-! ## Changes of a mode -/

/-- What an item says: what to do with which bits. -/
structure ModeChange where
  action : Char
  affected : BitVec 32
  value : BitVec 32

namespace ModeChange

/-- The bits are added, removed, or take the place of those that are affected. -/
def apply (mode : BitVec 32) (change : ModeChange) : BitVec 32 :=
  if change.action = '+' then mode ||| change.value
  else if change.action = '-' then mode &&& ~~~change.value
  else (mode &&& ~~~change.affected) ||| change.value

/-- What `SetModeMask` adds to the first mask. -/
def sets (change : ModeChange) : BitVec 32 := if change.action = '-' then 0 else change.value

/-- What `SetModeMask` adds to the second mask. -/
def clears (change : ModeChange) : BitVec 32 :=
  if change.action = '+' then 0
  else if change.action = '-' then change.value
  else ~~~change.value &&& 0o7777 &&& change.affected

/-- Whether a bit is set, and whether it is cleared. -/
def bit (i : Nat) (change : ModeChange) : Bool × Bool :=
  (change.sets.getLsbD i, change.clears.getLsbD i)

end ModeChange

section
variable {change : ModeChange} {changes : List ModeChange} {p q mode : BitVec 32} {i : Nat}

theorem setModeMask_eq (h : isModeAction change.action = true) :
    setModeMask change.action change.value change.affected p q =
      some (p ||| change.sets, q ||| change.clears) := by
  simp only [isModeAction, Bool.or_eq_true, decide_eq_true_eq] at h
  rcases h with (h | h) | h <;> simp [setModeMask, ModeChange.sets, ModeChange.clears, h]

theorem bit_disjoint (i : Nat) (change : ModeChange) :
    (change.bit i).1 = false ∨ (change.bit i).2 = false := by
  rw [ModeChange.bit, ModeChange.sets, ModeChange.clears]
  split_ifs with hminus hplus
  · exact .inl BitVec.getLsbD_zero
  · exact .inl BitVec.getLsbD_zero
  · exact .inr BitVec.getLsbD_zero
  · cases hv : change.value.getLsbD i with
    | false => exact .inl rfl
    | true =>
      refine .inr ?_
      rw [BitVec.getLsbD_and, BitVec.getLsbD_and, BitVec.getLsbD_not, hv, Bool.not_true,
        Bool.and_false, Bool.false_and, Bool.false_and]

theorem getLsbD_apply (hi : i < 12) :
    (change.apply mode).getLsbD i = applyBit (mode.getLsbD i) (change.bit i) := by
  have hword : i < 32 := hi.trans (by decide)
  rw [ModeChange.apply, applyBit, ModeChange.bit, ModeChange.sets, ModeChange.clears]
  split_ifs with hplus hminus hminus
  · rw [hplus] at hminus
    cases hminus
  · simp
  · simp [hword]
  · simp only [BitVec.getLsbD_or, BitVec.getLsbD_and, BitVec.getLsbD_not, getLsbD_mask, hword, hi,
      decide_true, Bool.true_and, Bool.and_true]
    cases mode.getLsbD i <;> cases change.value.getLsbD i <;>
      cases change.affected.getLsbD i <;> rfl

theorem getLsbD_foldl_apply (hi : i < 12) :
    (changes.foldl ModeChange.apply mode).getLsbD i =
      (changes.map (ModeChange.bit i)).foldl applyBit (mode.getLsbD i) := by
  induction changes generalizing mode with
  | nil => rfl
  | cons change changes ih =>
    rw [List.foldl_cons, ih, getLsbD_apply hi, List.map_cons, List.foldl_cons]

theorem inMode_foldl_apply (hmode : InMode mode) (hall : ∀ change ∈ changes, InMode change.value) :
    InMode (changes.foldl ModeChange.apply mode) := by
  induction changes generalizing mode with
  | nil => exact hmode
  | cons change changes ih =>
    obtain ⟨hchange, hrest⟩ := List.forall_mem_cons.mp hall
    refine ih ?_ hrest
    rw [ModeChange.apply]
    split_ifs
    · exact hmode.or hchange
    · exact hmode.and _
    · exact (hmode.and _).or hchange

/-- The masks with a change. -/
def addChange (masks : BitVec 32 × BitVec 32) (change : ModeChange) : BitVec 32 × BitVec 32 :=
  (masks.1 ||| change.sets, masks.2 ||| change.clears)

theorem getLsbD_foldl_addChange (masks : BitVec 32 × BitVec 32) :
    (changes.foldl addChange masks).1.getLsbD i =
        (masks.1.getLsbD i || (changes.map (ModeChange.bit i)).any Prod.fst) ∧
      (changes.foldl addChange masks).2.getLsbD i =
        (masks.2.getLsbD i || (changes.map (ModeChange.bit i)).any Prod.snd) := by
  induction changes generalizing masks with
  | nil => exact ⟨(Bool.or_false _).symm, (Bool.or_false _).symm⟩
  | cons change changes ih =>
    obtain ⟨hp, hq⟩ := ih (addChange masks change)
    rw [List.foldl_cons, hp, hq, List.map_cons, List.any_cons, List.any_cons, ← Bool.or_assoc,
      ← Bool.or_assoc]
    exact ⟨congrArg (· || _) BitVec.getLsbD_or, congrArg (· || _) BitVec.getLsbD_or⟩

theorem getLsbD_newPermissions (masks : BitVec 32 × BitVec 32) (hi : i < 12) :
    (newPermissions mode masks &&& 0o7777).getLsbD i =
      ((mode.getLsbD i || masks.1.getLsbD i) && !masks.2.getLsbD i) := by
  have hword : i < 32 := hi.trans (by decide)
  rw [newPermissions, BitVec.getLsbD_and, BitVec.getLsbD_and, BitVec.getLsbD_or, BitVec.getLsbD_not,
    getLsbD_mask, decide_eq_true hi, decide_eq_true hword, Bool.and_true, Bool.true_and]

/-- Where an item sets a bit that an item in front of it clears, an item behind it clears the bit
again. -/
def SettledBits (changes : List ModeChange) : Prop :=
  ∀ i < 12, NotSetAgain (changes.map (ModeChange.bit i))

/-- The two masks do what the items do one after the other, on every mode, if and only if no bit is
set again for good. -/
theorem newPermissions_foldl_iff (hall : ∀ change ∈ changes, InMode change.value) :
    (∀ mode, InMode mode →
      newPermissions mode (changes.foldl addChange (0, 0)) &&& 0o7777 =
        changes.foldl ModeChange.apply mode) ↔ SettledBits changes := by
  have hops : ∀ i, ∀ op ∈ changes.map (ModeChange.bit i), op.1 = false ∨ op.2 = false := by
    intro i op hop
    obtain ⟨change, -, rfl⟩ := List.mem_map.mp hop
    exact bit_disjoint i change
  have hbit : ∀ mode, ∀ i < 12,
      (newPermissions mode (changes.foldl addChange (0, 0)) &&& 0o7777).getLsbD i =
        (changes.foldl ModeChange.apply mode).getLsbD i ↔
          NotSetAgain (changes.map (ModeChange.bit i)) := by
    intro mode i hi
    obtain ⟨hp, hq⟩ := @getLsbD_foldl_addChange changes i (0, 0)
    have hzero : (0 : BitVec 32).getLsbD i = false := BitVec.getLsbD_zero
    dsimp only at hp hq
    rw [getLsbD_newPermissions _ hi, hp, hq, getLsbD_foldl_apply hi, hzero, Bool.false_or,
      Bool.false_or]
    exact foldl_applyBit_iff (hops i)
  constructor
  · intro h i hi
    exact (hbit 0 i hi).mp (congrArg (·.getLsbD i) (h 0 BitVec.zero_and))
  · intro h mode hmode
    refine BitVec.eq_of_getLsbD_eq fun i _ => ?_
    by_cases hi : i < 12
    · exact (hbit mode i hi).mpr (h i hi)
    · rw [(inMode_foldl_apply hmode hall).getLsbD hi, BitVec.getLsbD_and, getLsbD_mask,
        decide_eq_false hi, Bool.and_false]

end

/-! ## Well-formed modes -/

/-- The classes that letters stand for. -/
def classBits (who : CString) : BitVec 32 :=
  who.foldl (fun bits c => bits ||| (modeClass c).getD 0) 0

/-- The permissions that letters stand for, for some classes. -/
def permissionBits (affected : BitVec 32) (permissions : CString) : BitVec 32 :=
  permissions.foldl (fun bits c => bits ||| (modePermission affected c).getD 0) 0

/-- What a well-formed item says. -/
inductive ItemMeans : CString → ModeChange → Prop
  | number {digits : CString} : digits ≠ [] → (∀ c ∈ digits, isOctalDigit c = true) →
    octalValue digits ≤ 0o7777 → ItemMeans digits ⟨'=', 0o7777, BitVec.ofNat 32 (octalValue digits)⟩
  | symbolic {who permissions : CString} {action : Char} : who ≠ [] →
    (∀ c ∈ who, c ∈ ['a', 'u', 'g', 'o']) → isModeAction action = true → permissions ≠ [] →
    (∀ c ∈ permissions, c ∈ ['r', 'w', 'x', 's', 't']) →
    ItemMeans (who ++ action :: permissions)
      ⟨action, classBits who, permissionBits (classBits who) permissions⟩

/-- What a well-formed mode string says. -/
def ModeMeans (modestring : CString) (changes : List ModeChange) : Prop :=
  ∃ texts, texts ≠ [] ∧ List.Forall₂ ItemMeans texts changes ∧ modestring = [','].intercalate texts

/-- The well-formed items are those that say something. -/
theorem wellFormedItem_iff {text : CString} :
    WellFormedItem text ↔ ∃ change, ItemMeans text change := by
  constructor
  · intro h
    cases h with
    | number hdigits hoctal hvalue => exact ⟨_, .number hdigits hoctal hvalue⟩
    | symbolic hwho hclass haction hperms hletters =>
      exact ⟨_, .symbolic hwho hclass haction hperms hletters⟩
  · rintro ⟨change, h⟩
    cases h with
    | number hdigits hoctal hvalue => exact .number hdigits hoctal hvalue
    | symbolic hwho hclass haction hperms hletters =>
      exact .symbolic hwho hclass haction hperms hletters

/-- So are the well-formed modes. -/
theorem wellFormedMode_iff {s : CString} : WellFormedMode s ↔ ∃ changes, ModeMeans s changes := by
  constructor
  · rintro ⟨texts, hne, hall, rfl⟩
    obtain ⟨changes, hmeans⟩ : ∃ changes, List.Forall₂ ItemMeans texts changes := by
      clear hne
      induction texts with
      | nil => exact ⟨[], .nil⟩
      | cons text texts ih =>
        obtain ⟨htext, htexts⟩ := List.forall_mem_cons.mp hall
        obtain ⟨change, hchange⟩ := wellFormedItem_iff.mp htext
        obtain ⟨changes, hchanges⟩ := ih htexts
        exact ⟨change :: changes, .cons hchange hchanges⟩
    exact ⟨changes, texts, hne, hmeans, rfl⟩
  · rintro ⟨changes, texts, hne, hmeans, rfl⟩
    refine ⟨texts, hne, fun text htext => ?_, rfl⟩
    obtain ⟨i, hi, rfl⟩ := List.getElem_of_mem htext
    exact wellFormedItem_iff.mpr ⟨_, hmeans.get hi (hmeans.length_eq ▸ hi)⟩

/-! ## What is read of a well-formed mode -/

section
variable {modestring text digits who permissions : CString} {change : ModeChange}
  {changes : List ModeChange} {m : ModeParse} {toks : List ModeToken}
    {items : List (List ModeToken)}
  {affected : BitVec 32} {masks : BitVec 32 × BitVec 32}

/-- What has been read of an item. -/
def ModeParse.meaning (m : ModeParse) : ModeChange := ⟨m.action, m.affected, m.value⟩

theorem inMode_modePermission (affected : BitVec 32) (c : Char) :
    InMode ((modePermission affected c).getD 0) := by
  have hand : ∀ v, InMode v → InMode (v &&& affected) := fun v hv => hv.and affected
  rw [modePermission]
  split_ifs
  · exact hand 0o444 (by decide)
  · exact hand 0o222 (by decide)
  · exact hand 0o111 (by decide)
  · exact hand 0o6000 (by decide)
  · exact show InMode 0o1000 by decide
  · exact show InMode 0 by decide

theorem inMode_permissionBits (affected : BitVec 32) (permissions : CString) :
    InMode (permissionBits affected permissions) :=
  List.foldlRecOn permissions _ (show InMode 0 by decide)
    fun _ hbits c _ => hbits.or (inMode_modePermission affected c)

theorem ItemMeans.inMode (h : ItemMeans text change) : InMode change.value := by
  cases h with
  | number _ _ hvalue => exact inMode_ofNat hvalue
  | symbolic => exact inMode_permissionBits _ _

theorem itemText_letters (s : CString) : itemText (s.map .letter) = s := by
  induction s with
  | nil => rfl
  | cons c s ih =>
    rw [List.map_cons, itemText_cons, ih]
    rfl

/-- Letters for classes. -/
theorem meaning_classLetters (h : ∀ c ∈ who, c ∈ ['a', 'u', 'g', 'o']) :
    ((who.map ModeToken.letter).foldl ModeParse.token m).meaning =
      { m.meaning with
        affected := who.foldl (fun bits c => bits ||| (modeClass c).getD 0) m.affected } := by
  induction who generalizing m with
  | nil => rfl
  | cons c who ih =>
    obtain ⟨hc, hwho⟩ := List.forall_mem_cons.mp h
    obtain ⟨bits, hbits⟩ := exists_modeClass hc
    rw [List.map_cons, List.foldl_cons, ih hwho, ModeParse.token, List.foldl_cons, hbits]
    rfl

/-- Letters for permissions. -/
theorem meaning_permissionLetters (h : ∀ c ∈ permissions, c ∈ ['r', 'w', 'x', 's', 't']) :
    ((permissions.map ModeToken.letter).foldl ModeParse.token m).meaning =
      { m.meaning with
        value := permissions.foldl (fun bits c => bits ||| (modePermission m.affected c).getD 0)
          m.value } := by
  induction permissions generalizing m with
  | nil => rfl
  | cons c permissions ih =>
    obtain ⟨hc, hrest⟩ := List.forall_mem_cons.mp h
    have hclass : modeClass c = none := by
      simp only [List.mem_cons, List.not_mem_nil, or_false] at hc
      rcases hc with rfl | rfl | rfl | rfl | rfl <;> rfl
    rw [List.map_cons, List.foldl_cons, ih hrest, ModeParse.token, List.foldl_cons, hclass]
    rfl

/-- The pieces of letters, an action and letters. -/
def symbolicItem (who : CString) (action : Char) (permissions : CString) : List ModeToken :=
  who.map .letter ++ .action action :: permissions.map .letter

theorem isLetter_of_mem_map {t : ModeToken} {s : CString} (h : t ∈ s.map ModeToken.letter) :
    t.isLetter = true := by
  obtain ⟨c, -, rfl⟩ := List.mem_map.mp h
  rfl

theorem looseItem_symbolic {action : Char} (hwho : ∀ c ∈ who, c ∈ ['a', 'u', 'g', 'o'])
    (haction : Cfengine.isModeAction action = true)
    (hpermissions : ∀ c ∈ permissions, c ∈ ['r', 'w', 'x', 's', 't']) :
    LooseItem (symbolicItem who action permissions) := by
  refine ⟨fun t ht => ?_, ?_, ?_⟩
  · rcases List.mem_append.mp ht with ht | ht
    · obtain ⟨c, hc, rfl⟩ := List.mem_map.mp ht
      exact List.mem_append_left ['r', 'w', 'x', 's', 't'] (hwho c hc)
    · rcases List.mem_cons.mp ht with rfl | ht
      · exact haction
      · obtain ⟨c, hc, rfl⟩ := List.mem_map.mp ht
        exact List.mem_append_right ['a', 'u', 'g', 'o'] (hpermissions c hc)
  · have hnumber : ∀ t ∈ symbolicItem who action permissions, ¬ t.isNumber = true := by
      intro t ht hnum
      rcases List.mem_append.mp ht with ht | ht
      · obtain ⟨c, -, rfl⟩ := List.mem_map.mp ht
        cases hnum
      · rcases List.mem_cons.mp ht with rfl | ht
        · cases hnum
        · obtain ⟨c, -, rfl⟩ := List.mem_map.mp ht
          cases hnum
    refine List.Pairwise.isChain (List.pairwise_of_forall_mem_list fun t ht u _ => ?_)
    exact fun hnum => hnumber t ht hnum.1
  · refine List.pairwise_append.mpr ⟨?_, List.pairwise_cons.mpr ⟨fun t ht hact => ?_, ?_⟩,
      fun t ht u _ _ => isLetter_of_mem_map ht⟩
    · exact List.pairwise_of_forall_mem_list fun t ht _ _ _ => isLetter_of_mem_map ht
    · obtain ⟨c, -, rfl⟩ := List.mem_map.mp ht
      cases hact
    · exact List.pairwise_of_forall_mem_list fun t ht _ _ _ => isLetter_of_mem_map ht

theorem scanOctal_eq (hdigits : ∀ c ∈ digits, isOctalDigit c = true)
    (hvalue : octalValue digits ≤ 0o7777) :
    scanOctal digits = BitVec.ofNat 32 (octalValue digits) := by
  have htake : digits.takeWhile isOctalDigit = digits := List.takeWhile_eq_self_iff.mpr hdigits
  change BitVec.ofNat 32 (min (octalValue (digits.takeWhile isOctalDigit)) (2 ^ 64 - 1)) = _
  rw [htake, min_eq_left (hvalue.trans (by norm_num))]

/-- A well-formed item is read as what it says. -/
theorem ItemMeans.exists_looseItem (h : ItemMeans text change) :
    ∃ toks, LooseItem toks ∧ text = itemText toks ∧ change = (itemParse toks).meaning ∧
      ¬ ∀ t ∈ toks, t.isLetter = true := by
  cases h with
  | number hdigits hoctal hvalue =>
    have hscan := scanOctal_eq hoctal hvalue
    refine ⟨[.number text], ⟨?_, .singleton _, List.pairwise_singleton _ _⟩,
      (List.append_nil _).symm, ?_, fun hall => ?_⟩
    · refine List.forall_mem_singleton.mpr ⟨?_, fun c hc => isDigit_of_isOctalDigit (hoctal c hc),
        ?_⟩
      · obtain ⟨c, ds, rfl⟩ := List.exists_cons_of_ne_nil hdigits
        exact ⟨c, ds, rfl, hoctal c List.mem_cons_self⟩
      · have hlt : octalValue text < 2 ^ 32 := hvalue.trans_lt (by norm_num)
        rw [hscan, BitVec.toInt_ofNat', Int.bmod_eq_of_le_mul_two (by omega) (by omega)]
        exact Int.ofNat_le.mpr hvalue
    · change _ = ModeChange.mk '=' 0o7777 (scanOctal text)
      rw [hscan]
    · cases hall _ List.mem_cons_self
  | @symbolic who permissions action hwho hclass haction hperms hletters =>
    refine ⟨symbolicItem who action permissions, looseItem_symbolic hclass haction hletters, ?_, ?_,
      fun hall => ?_⟩
    · rw [symbolicItem, itemText, List.flatMap_append, ← itemText, itemText_letters,
        List.flatMap_cons, ← itemText, itemText_letters]
      rfl
    · have hmeaning := meaning_classLetters (m := {}) hclass
      have haffected := congrArg ModeChange.affected hmeaning
      have hvalue := congrArg ModeChange.value hmeaning
      dsimp only [ModeParse.meaning] at haffected hvalue
      rw [itemParse, symbolicItem, List.foldl_append, List.foldl_cons,
        meaning_permissionLetters hletters]
      dsimp only [ModeParse.meaning, ModeParse.token, ModeParse.setAction]
      rw [haffected, hvalue]
      rfl
    · cases hall (.action action) (List.mem_append_right _ List.mem_cons_self)

/-- A well-formed mode is read as what its items say. -/
theorem ModeMeans.exists_items (h : ModeMeans modestring changes) :
    ∃ items, items ≠ [] ∧ (∀ item ∈ items, LooseItem item ∧ ¬ ∀ t ∈ item, t.isLetter = true) ∧
      modestring = [','].intercalate (items.map itemText) ∧
        changes = items.map fun item => (itemParse item).meaning := by
  obtain ⟨texts, hne, hmeans, rfl⟩ := h
  suffices hitems : ∃ items : List (List ModeToken),
      (∀ item ∈ items, LooseItem item ∧ ¬ ∀ t ∈ item, t.isLetter = true) ∧
        texts = items.map itemText ∧ changes = items.map fun item => (itemParse item).meaning by
    obtain ⟨items, hall, rfl, hchanges⟩ := hitems
    exact ⟨items, fun hnil => hne (by rw [hnil]; rfl), hall, rfl, hchanges⟩
  clear hne
  induction hmeans with
  | nil => exact ⟨[], fun _ hitem => absurd hitem List.not_mem_nil, rfl, rfl⟩
  | cons hitem _ ih =>
    obtain ⟨toks, hloose, rfl, rfl, hletter⟩ := hitem.exists_looseItem
    obtain ⟨items, hall, rfl, rfl⟩ := ih
    exact ⟨toks :: items, List.forall_mem_cons.mpr ⟨⟨hloose, hletter⟩, hall⟩, rfl, rfl⟩

theorem addMask_eq (h : LooseItem toks) (masks : BitVec 32 × BitVec 32) :
    addMask masks toks = addChange masks (itemParse toks).meaning := by
  have haction : isModeAction (itemParse toks).meaning.action = true :=
    isModeAction_foldl (m := {}) h.valid (by decide)
  rw [addMask]
  exact congrArg (·.getD masks) (setModeMask_eq haction)

theorem foldl_addMask_eq (h : ∀ item ∈ items, LooseItem item) (masks : BitVec 32 × BitVec 32) :
    items.foldl addMask masks = (items.map fun item => (itemParse item).meaning).foldl
      addChange masks := by
  rw [List.foldl_map]
  exact List.foldl_ext _ _ _ fun masks item hitem => addMask_eq (h item hitem) masks

/-- The last item says something, or need not. -/
def EndsComplete (modestring : CString) (changes : List ModeChange) : Prop :=
  (∀ change ∈ changes.getLast?, change.value ≠ 0) ∨ IsZeros modestring

/-- The masks of a well-formed mode are those of its changes; there are none if the last item is
nothing. -/
theorem ModeMeans.parseModeString_eq (h : ModeMeans modestring changes) :
    (EndsComplete modestring changes →
        parseModeString (some modestring) = some (changes.foldl addChange (0, 0))) ∧
      (¬ EndsComplete modestring changes → parseModeString (some modestring) = none) := by
  obtain ⟨items, hne, hall, htext, rfl⟩ := h.exists_items
  obtain ⟨init, last, rfl⟩ : ∃ init last, items = init ++ [last] :=
    ⟨_, _, (List.dropLast_concat_getLast hne).symm⟩
  have hloose : ∀ item ∈ init ++ [last], LooseItem item := fun item hitem => (hall item hitem).1
  obtain ⟨hnone, hsome⟩ := loop_items (m := {}) modestring ⟨rfl, rfl, rfl, rfl⟩ hloose
  have hlast : (∀ change ∈ ((init ++ [last]).map fun item => (itemParse item).meaning).getLast?,
      change.value ≠ 0) ↔ ¬ Incomplete .wild init last := by
    have hletter := (hall last (List.mem_append_right _ List.mem_cons_self)).2
    rw [List.map_append, List.map_singleton, List.getLast?_concat, Incomplete, not_or,
      and_iff_right (fun hall => hletter hall.2), not_not, ← value_itemParse_ne_zero_iff]
    exact ⟨fun hvalue => hvalue _ rfl, fun hvalue change hchange =>
      Option.some.inj hchange ▸ hvalue⟩
  rw [← htext] at hnone hsome
  rw [EndsComplete, hlast, ← foldl_addMask_eq hloose]
  exact ⟨hsome, fun hcond => hnone ((not_or.mp hcond).imp_left not_not.mp)⟩

/-- The masks of a well-formed mode do what its items say one after the other, on every mode, if and
only if the last item is something and no bit that an item clears is set for good by an item behind
it. -/
theorem newPermissions_parseModeString_iff (h : ModeMeans modestring changes) :
    (∃ masks, parseModeString (some modestring) = some masks ∧ ∀ mode, InMode mode →
      newPermissions mode masks &&& 0o7777 = changes.foldl ModeChange.apply mode) ↔
        EndsComplete modestring changes ∧ SettledBits changes := by
  have hvalues : ∀ change ∈ changes, InMode change.value := by
    obtain ⟨texts, -, hmeans, -⟩ := h
    intro change hchange
    obtain ⟨i, hi, rfl⟩ := List.getElem_of_mem hchange
    exact (hmeans.get (hmeans.length_eq ▸ hi) hi).inMode
  obtain ⟨hsome, hnone⟩ := h.parseModeString_eq
  rw [← newPermissions_foldl_iff hvalues]
  by_cases hcond : EndsComplete modestring changes
  · rw [and_iff_right hcond, hsome hcond]
    exact ⟨fun ⟨_, heq, hmasks⟩ => Option.some.inj heq ▸ hmasks, fun hmasks => ⟨_, rfl, hmasks⟩⟩
  · rw [hnone hcond]
    exact iff_of_false (fun ⟨_, heq, _⟩ => by cases heq) fun hboth => hcond hboth.1

/-- `a=r`, and an item that adds or removes a permission. -/
theorem modeMeans_two {action c d : Char} {classes bits : BitVec 32} (hc : c ∈ ['a', 'u', 'g', 'o'])
    (haction : isModeAction action = true) (hd : d ∈ ['r', 'w', 'x', 's', 't'])
    (hclasses : classBits [c] = classes) (hbits : permissionBits classes [d] = bits) :
    ModeMeans ['a', '=', 'r', ',', c, action, d]
      [⟨'=', 0o7777, 0o444⟩, ⟨action, classes, bits⟩] := by
  have ha : classBits ['a'] = 0o7777 := by decide
  have hr : permissionBits 0o7777 ['r'] = 0o444 := by decide
  refine ⟨[['a', '=', 'r'], [c, action, d]], List.cons_ne_nil _ _, .cons ?_ (.cons ?_ .nil), rfl⟩
  · rw [← hr, ← ha]
    exact show ItemMeans (['a'] ++ '=' :: ['r']) _ from .symbolic (List.cons_ne_nil _ _)
      (List.forall_mem_singleton.mpr (by decide)) rfl (List.cons_ne_nil _ _)
        (List.forall_mem_singleton.mpr (by decide))
  · rw [← hbits, ← hclasses]
    exact show ItemMeans ([c] ++ action :: [d]) _ from .symbolic (List.cons_ne_nil _ _)
      (List.forall_mem_singleton.mpr hc) haction (List.cons_ne_nil _ _)
        (List.forall_mem_singleton.mpr hd)

/-- Two items of which the second one only removes. -/
theorem newPermissions_parseModeString_minus :
    ∃ masks, parseModeString (some ['a', '=', 'r', ',', 'o', '-', 'r']) = some masks ∧
      ∀ mode, InMode mode → newPermissions mode masks &&& 0o7777 =
        [⟨'=', 0o7777, 0o444⟩, ⟨'-', 0o0007, 0o0004⟩].foldl ModeChange.apply mode := by
  have hmeans : ModeMeans ['a', '=', 'r', ',', 'o', '-', 'r']
      [⟨'=', 0o7777, 0o444⟩, ⟨'-', 0o0007, 0o0004⟩] :=
    modeMeans_two (by decide) (by decide) (by decide) (by decide) (by decide)
  refine (newPermissions_parseModeString_iff hmeans).mpr ⟨.inl fun change hchange => ?_, fun i hi =>
    ?_⟩
  · cases hchange
    exact show (0o0004 : BitVec 32) ≠ 0 by decide
  · refine (foldl_applyBit_iff (b := false) fun op hop => ?_).mp ?_
    · obtain ⟨change, -, rfl⟩ := List.mem_map.mp hop
      exact bit_disjoint i change
    · revert i
      decide

/-- An item that adds what another one in front of it took away. -/
theorem newPermissions_parseModeString_plus :
    ¬ ∀ changes, ModeMeans ['a', '=', 'r', ',', 'u', '+', 'w'] changes →
      ∃ masks, parseModeString (some ['a', '=', 'r', ',', 'u', '+', 'w']) = some masks ∧
        ∀ mode, InMode mode → newPermissions mode masks &&& 0o7777 =
          changes.foldl ModeChange.apply mode := by
  intro h
  have hmeans : ModeMeans ['a', '=', 'r', ',', 'u', '+', 'w']
      [⟨'=', 0o7777, 0o444⟩, ⟨'+', 0o4700, 0o0200⟩] :=
    modeMeans_two (by decide) (by decide) (by decide) (by decide) (by decide)
  obtain ⟨masks, hmasks, hall⟩ := h _ hmeans
  have hends : EndsComplete ['a', '=', 'r', ',', 'u', '+', 'w']
      [⟨'=', 0o7777, 0o444⟩, ⟨'+', 0o4700, 0o0200⟩] := by
    refine .inl fun change hchange => ?_
    cases hchange
    exact show (0o0200 : BitVec 32) ≠ 0 by decide
  rw [hmeans.parseModeString_eq.1 hends] at hmasks
  have hzero := hall 0 (by decide)
  rw [← Option.some.inj hmasks] at hzero
  exact absurd hzero (by decide)

end

end Cfengine
