import Cfengine.AddrLib
import Cfengine.Theory.Joined

/-!
# How address patterns are scanned

The parts of a pattern with ranges as data with a text, what `sscanf` reads of their numerals, and
the loops over the parts of the pattern and the blocks of the address as one recursion over both
(`rangeLoop_eq`).
-/

namespace Cfengine
open Numerals Joined

/-! ## Reading numerals -/

section
variable {base : Nat} {rest : CString}

theorem isspace_of_isDigit {c : Char} (hc : isDigit base c = true) : isspace c = false := by
  have hle : '0' ≤ c := by
    by_contra h
    have hlower : ¬ 'a' ≤ c := fun h' => h (Char.le_trans (by decide) h')
    have hupper : ¬ 'A' ≤ c := fun h' => h (Char.le_trans (by decide) h')
    simp [isDigit, digit?, h, hlower, hupper] at hc
  have hne : c ≠ ' ' := by
    rintro rfl
    exact absurd hle (by decide)
  have hgt : ¬ c ≤ '\r' := fun h => absurd (Char.le_trans hle h) (by decide)
  simp [isspace, hne, hgt]

theorem scanSign_of_isDigit {c : Char} (hbase : base ≤ 16) (hc : isDigit base c = true)
    (s : CString) : scanSign (c :: s) = (1, c :: s) := by
  have hdigit := isDigit_mono hbase hc
  have hminus : c ≠ '-' := by
    rintro rfl
    exact absurd hdigit (by decide)
  have hplus : c ≠ '+' := by
    rintro rfl
    exact absurd hdigit (by decide)
  rw [scanSign]
  · exact fun _ h => hminus (List.cons.inj h).1
  · exact fun _ h => hplus (List.cons.inj h).1

theorem skipHexPrefix_eq {s : CString} (h : ∀ c ∈ s, c ≠ 'x' ∧ c ≠ 'X') :
    skipHexPrefix base s = s := by
  rw [skipHexPrefix.eq_def]
  split
  · rename_i x rest
    obtain ⟨hx, hX⟩ := h x (by simp)
    rw [if_neg fun hprefix => hprefix.2.elim hx hX]
  · rfl

theorem skipHexPrefix_ten (s : CString) : skipHexPrefix 10 s = s := by
  rw [skipHexPrefix.eq_def]
  split
  · exact if_neg fun h => absurd h.1 (by decide)
  · rfl

/-- A numeral is read up to its end, or up to the `-` of a range. -/
theorem scanInteger_numeral (hbase : base ≤ 16) (n : Numeral base)
    (hrest : ∀ c ∈ rest, c = '-' ∨ isDigit base c = true) (hhead : rest.head? ∈ [none, some '-']) :
    scanInteger base (n.digits ++ rest) = some ((n.value : Int), rest) := by
  have hminus : isDigit base '-' = false := rfl
  have hnot : ∀ c ∈ n.digits ++ rest, c ≠ 'x' ∧ c ≠ 'X' := by
    intro c hc
    have hdigit : c = '-' ∨ isDigit 16 c = true := by
      rcases List.mem_append.mp hc with hc | hc
      · exact .inr (isDigit_mono hbase (n.isDigit c hc))
      · exact (hrest c hc).imp_right (isDigit_mono hbase)
    refine ⟨?_, ?_⟩ <;> rintro rfl <;> exact absurd hdigit (by decide)
  have htake : (n.digits ++ rest).takeWhile (isDigit base) = n.digits := by
    refine n.takeWhile_append fun c hc => ?_
    rcases List.mem_cons.mp hhead with hnone | hsome
    · rw [hnone] at hc
      cases hc
    · rw [List.mem_singleton.mp hsome] at hc
      cases hc
      exact hminus
  obtain ⟨c, s, hcs, hc⟩ := n.exists_cons
  have hdrop : (n.digits ++ rest).dropWhile isspace = n.digits ++ rest := by
    rw [hcs, List.cons_append, List.dropWhile_cons_of_neg]
    rw [isspace_of_isDigit hc]
    exact Bool.false_ne_true
  have hsign : scanSign (n.digits ++ rest) = (1, n.digits ++ rest) := by
    rw [hcs, List.cons_append, scanSign_of_isDigit hbase hc]
  simp only [scanInteger, hdrop, hsign, skipHexPrefix_eq hnot, htake, if_neg n.ne_nil,
    List.drop_left', one_mul]
  rfl

end

/-! ## The parts of a range pattern -/

/-- A number, or `lo-hi`. -/
inductive RangePart (base : Nat) where
  | number (n : Numeral base)
  | range (lo hi : Numeral base)

namespace RangePart

variable {base : Nat}

def text : RangePart base → CString
  | number n => n.digits
  | range lo hi => lo.digits ++ '-' :: hi.digits

def isRange : RangePart base → Bool
  | number _ => false
  | range _ _ => true

/-- What a part means: the number itself, or the numbers from `lo` to `hi`. -/
def Matches : RangePart base → Nat → Prop
  | number n, v => v = n.value
  | range lo hi, v => lo.value ≤ v ∧ v ≤ hi.value

theorem text_ne_nil (p : RangePart base) : p.text ≠ [] := by
  cases p with
  | number n => exact n.ne_nil
  | range lo hi => exact List.append_ne_nil_of_left_ne_nil lo.ne_nil _

theorem dash_mem_text (p : RangePart base) : '-' ∈ p.text ↔ p.isRange = true := by
  cases p with
  | number n => exact iff_of_false (n.not_mem rfl) Bool.false_ne_true
  | range lo hi => exact iff_of_true (by simp [text]) rfl

/-- A separator is not in the text of a part. -/
theorem not_mem_text (p : RangePart base) {c : Char} (hc : isDigit base c = false)
    (hdash : c ≠ '-') : c ∉ p.text := by
  cases p with
  | number n => exact n.not_mem hc
  | range lo hi =>
    rw [text, List.mem_append, List.mem_cons, not_or, not_or]
    exact ⟨lo.not_mem hc, hdash, hi.not_mem hc⟩

end RangePart

theorem scanInteger_digits {base : Nat} (hbase : base ≤ 16) (n : Numeral base) :
    scanInteger base n.digits = some ((n.value : Int), []) := by
  have hscan := @scanInteger_numeral base [] hbase n (List.forall_mem_nil _) (by simp)
  rwa [List.append_nil] at hscan

theorem scanInteger_range {base : Nat} (hbase : base ≤ 16) (lo hi : Numeral base) :
    scanInteger base (lo.digits ++ '-' :: hi.digits) = some ((lo.value : Int), '-' :: hi.digits) :=
  scanInteger_numeral hbase lo
    (List.forall_mem_cons.mpr ⟨.inl rfl, fun c hc => .inr (hi.isDigit c hc)⟩) (by simp)

/-- A number as a `long`. -/
def longOf (n : Nat) : Int := min n longMax

theorem max_longOf (n : Nat) : max (-2 ^ 63) (longOf n) = longOf n :=
  max_eq_right (Int.le_min.mpr ⟨by omega, by decide⟩)

theorem scanLong_digits (n : Numeral 10) : scanLong n.digits = some (longOf n.value, []) := by
  rw [scanLong, scanInteger_digits (by decide), Option.map_some]
  exact congrArg (fun n => some (n, [])) (max_longOf n.value)

theorem scanRange_scanLong (lo hi : Numeral 10) :
    scanRange scanLong (lo.digits ++ '-' :: hi.digits) =
      (some (longOf lo.value), some (longOf hi.value)) := by
  have hlo : scanLong (lo.digits ++ '-' :: hi.digits) =
      some (longOf lo.value, '-' :: hi.digits) := by
    rw [scanLong, scanInteger_range (by decide), Option.map_some]
    exact congrArg (fun n => some (n, _)) (max_longOf lo.value)
  rw [scanRange, hlo]
  simp only [scanLong_digits, Option.map_some]

/-! ## The range loops -/

section
variable {sep : Char} {breaks : Bool} {read : RangeScan → CString → CString → RangeScan}
  {matched : CString → RangeScan → Bool}

/-- What the loop does with the parts of the pattern and the blocks of the address. -/
def scanParts (read : RangeScan → CString → CString → RangeScan)
    (matched : CString → RangeScan → Bool) (scan : RangeScan) :
    List (CString × CString) → Except Fault Int
  | [] => .ok 0
  | (part, block) :: rest =>
    if part.length ≥ cfMaxIpLen ∨ block.length ≥ cfMaxIpLen then .error .bufferOverflow
    else
      let scan := read scan part block
      if matched part scan then scanParts read matched scan rest else .ok (-1)

/-- Where the rest of a joined string starts. -/
def restOf (sep : Char) (parts : List CString) : Option CString :=
  if parts = [] then none else some ([sep].intercalate parts)

theorem advance_intercalate (part : CString) (parts : List CString) :
    advance ([sep].intercalate (part :: parts)) (part.length + 1) = restOf sep parts := by
  cases parts with
  | nil =>
    rw [List.intercalate_singleton, advance, if_neg (by omega)]
    rfl
  | cons part' parts =>
    have hdrop : (part ++ [sep] ++ [sep].intercalate (part' :: parts)).drop (part.length + 1) =
        [sep].intercalate (part' :: parts) := List.drop_left' (by simp)
    rw [List.intercalate_cons_cons, advance, hdrop, if_pos (by simp)]
    rfl

theorem rangeLoop_eq {parts blocks : List CString} (hlen : parts.length = blocks.length)
    (hparts : ∀ part ∈ parts, part ≠ [] ∧ sep ∉ part)
    (hblocks : ∀ block ∈ blocks, block ≠ [] ∧ sep ∉ block) {buffer1 buffer2 : CString}
    {scan : RangeScan} :
    rangeLoop sep breaks read matched parts.length (restOf sep parts) (restOf sep blocks) buffer1
        buffer2 scan = scanParts read matched scan (parts.zip blocks) := by
  induction parts generalizing blocks buffer1 buffer2 scan with
  | nil => rfl
  | cons part parts ih =>
    obtain ⟨block, blocks, rfl⟩ :=
      List.exists_cons_of_length_pos (Nat.lt_of_lt_of_eq (Nat.succ_pos _) hlen)
    obtain ⟨⟨hpart, hsep⟩, hparts⟩ := List.forall_mem_cons.mp hparts
    obtain ⟨⟨hblock, hsep'⟩, hblocks⟩ := List.forall_mem_cons.mp hblocks
    have hrest := @ih blocks (Nat.succ.inj hlen) hparts hblocks part block (read scan part block)
    rw [List.zip_cons_cons, scanParts, List.length_cons, restOf, if_neg (List.cons_ne_nil _ _),
      restOf, if_neg (List.cons_ne_nil _ _), rangeLoop]
    simp only [takeWhile_intercalate hsep, takeWhile_intercalate hsep', ne_eq, hpart, hblock,
      not_false_eq_true, decide_true, Bool.or_true, if_true, decide_false, Bool.and_false,
      Bool.false_eq_true, if_false, advance_intercalate, hrest]
    by_cases hfits : part.length ≥ cfMaxIpLen
    · rw [if_pos hfits, if_pos (.inl hfits)]
    · rw [if_neg hfits]
      simp only [hfits, false_or]

/-- The loop over the parts of a pattern, which has at least one. -/
theorem rangeLoop_intercalate {parts blocks : List CString} (hne : parts ≠ [])
    (hlen : parts.length = blocks.length) (hparts : ∀ part ∈ parts, part ≠ [] ∧ sep ∉ part)
    (hblocks : ∀ block ∈ blocks, block ≠ [] ∧ sep ∉ block) {buffer1 buffer2 : CString}
    {scan : RangeScan} :
    rangeLoop sep breaks read matched parts.length (some ([sep].intercalate parts))
        (some ([sep].intercalate blocks)) buffer1 buffer2 scan =
      scanParts read matched scan (parts.zip blocks) := by
  have hne' : blocks ≠ [] := fun hnil => hne (by simpa [hnil] using hlen)
  have hloop := @rangeLoop_eq sep breaks read matched parts blocks hlen hparts hblocks buffer1
    buffer2 scan
  rwa [restOf, restOf, if_neg hne, if_neg hne'] at hloop

end

end Cfengine
