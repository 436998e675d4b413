import Cfengine.Verify.AddrLib

/-!
# What IPv6 range patterns match

The loop for IPv6 differs from the one for IPv4 in two places: a block that is the lower bound of
its range is left out, and a block outside of a range is read in base 10, so that only the digits
in front of its first letter count, and a block that starts with a letter counts as the number
that was read last. `fuzzySetMatch_ipv6_iff` says for which patterns and addresses the result is
nevertheless right.
-/

namespace Cfengine
open Numerals Joined

/-! ## Patterns and addresses -/

/-- A fully written IPv6 address. -/
structure Ipv6Address where
  blocks : List (Numeral 16)
  length_eq : blocks.length = 8
  short : ∀ b ∈ blocks, b.digits.length ≤ 4

def Ipv6Address.text (a : Ipv6Address) : CString := [':'].intercalate (a.blocks.map Numeral.digits)

/-- Eight numbers or ranges, with at least one range. -/
structure Ipv6Pattern where
  parts : List (RangePart 16)
  length_eq : parts.length = 8
  range : ∃ p ∈ parts, p.isRange = true

def Ipv6Pattern.text (p : Ipv6Pattern) : CString := [':'].intercalate (p.parts.map RangePart.text)

/-- What a pattern means. -/
def Ipv6Pattern.Matches (p : Ipv6Pattern) (a : Ipv6Address) : Prop :=
  List.Forall₂ (fun part block => part.Matches block.value) p.parts a.blocks

/-! ## When the result is right -/

/-- What `%ld` reads of a block: the digits in front of the first letter, if there are any. -/
def decimalPart (b : Numeral 16) : Option Nat :=
  let digits := b.digits.takeWhile (isDigit 10)
  if digits = [] then none else some (value 10 digits)

/-- The numbers that were read last, of the pattern and of the address; -1 before the first. -/
structure LastRead where
  «from» : Int
  cmp : Int

def LastRead.next (last : LastRead) : RangePart 16 → Numeral 16 → LastRead
  | .range lo _, b => ⟨lo.value, b.value⟩
  | .number n, b =>
    ⟨(decimalPart n).elim last.from Nat.cast, (decimalPart b).elim last.cmp Nat.cast⟩

/-- A block that the pattern matches passes: it is not the lower bound of its range, whose upper
bound is a `long`; outside of a range the two numbers read are the same. -/
def Passes (last : LastRead) : RangePart 16 → Numeral 16 → Prop
  | .range lo hi, b => lo.value ≠ b.value ∧ hi.value < 2 ^ 63
  | .number n, b => (last.next (.number n) b).from = (last.next (.number n) b).cmp

/-- A block is seen to be outside: it is not above the lower bound of its range, or it is above
the upper bound, or that is no `long`; outside of a range the two numbers read differ. -/
def Excluded (last : LastRead) : RangePart 16 → Numeral 16 → Prop
  | .range lo hi, b => b.value ≤ lo.value ∨ hi.value < b.value ∨ 2 ^ 63 ≤ hi.value
  | .number n, b => (last.next (.number n) b).from ≠ (last.next (.number n) b).cmp

section
variable (P : LastRead → RangePart 16 → Numeral 16 → Prop)

/-- Every block of the address has the property. -/
def AllBlocks : LastRead → List (RangePart 16) → List (Numeral 16) → Prop
  | last, p :: parts, b :: blocks => P last p b ∧ AllBlocks (last.next p b) parts blocks
  | _, _, _ => True

/-- Some block of the address has the property. -/
def SomeBlock : LastRead → List (RangePart 16) → List (Numeral 16) → Prop
  | last, p :: parts, b :: blocks => P last p b ∨ SomeBlock (last.next p b) parts blocks
  | _, _, _ => False

end

/-- The parts of the pattern fit in their buffer, up to the first one that excludes its block. -/
def FitsBlocks : LastRead → List (RangePart 16) → List (Numeral 16) → Prop
  | last, p :: parts, b :: blocks =>
    p.text.length < cfMaxIpLen ∧ (¬ Excluded last p b → FitsBlocks (last.next p b) parts blocks)
  | _, _, _ => True

/-- Before the first block. -/
def nothingRead : LastRead := ⟨-1, -1⟩

/-- The condition under which the result is right. -/
structure ScansRight (p : Ipv6Pattern) (a : Ipv6Address) : Prop where
  fits : FitsBlocks nothingRead p.parts a.blocks
  passes : p.Matches a → AllBlocks Passes nothingRead p.parts a.blocks
  excluded : ¬ p.Matches a → SomeBlock Excluded nothingRead p.parts a.blocks

/-! ## Reading blocks -/

theorem scanHex_eq {s rest : CString} {n : Nat} (h : scanInteger 16 s = some ((n : Int), rest)) :
    ∃ v, scanHex s = some (v, rest) ∧ if n < 2 ^ 63 then v = n else v < 0 := by
  refine ⟨_, by rw [scanHex, h, Option.map_some], ?_⟩
  simp only [Int.natAbs_natCast]
  split
  · rw [if_pos (by omega), Int.bmod_eq_of_le (by omega) (by omega)]
  · split
    · rw [Int.bmod_def]
      omega
    · omega

theorem scanLong_block (b : Numeral 16) {stale : Int} :
    (scanLong b.digits).elim stale Prod.fst = (decimalPart b).elim stale longOf := by
  obtain ⟨c, s, hcs, hc⟩ := b.exists_cons
  have hdrop : b.digits.dropWhile isspace = b.digits := by
    rw [hcs, List.dropWhile_cons_of_neg]
    rw [isspace_of_isDigit hc]
    exact Bool.false_ne_true
  have hsign : scanSign b.digits = (1, b.digits) := by
    rw [hcs, scanSign_of_isDigit (by decide) hc]
  have hskip : skipHexPrefix 10 b.digits = b.digits := by
    rw [skipHexPrefix_eq]
    intro c hc
    have hdigit := b.isDigit c hc
    refine ⟨?_, ?_⟩ <;> rintro rfl <;> exact absurd hdigit (by decide)
  rw [scanLong, scanInteger, hdrop, hsign, decimalPart]
  simp only [hskip]
  split
  · rfl
  · rw [Option.map_some, Option.elim_some, one_mul]
    exact max_longOf _

theorem value_lt_of_short {b : Numeral 16} (h : b.digits.length ≤ 4) : b.value < 2 ^ 16 :=
  Nat.lt_of_lt_of_le (value_lt b.isDigit) (Nat.pow_le_pow_right (n := 16) (by decide) h)

theorem decimalPart_lt {b : Numeral 16} (h : b.digits.length ≤ 4) {n : Nat}
    (hn : decimalPart b = some n) : n < 2 ^ 16 := by
  have hdigits : ∀ c ∈ b.digits.takeWhile (isDigit 10), isDigit 10 c = true := fun c hc =>
    List.mem_takeWhile_imp hc
  have hlen : (b.digits.takeWhile (isDigit 10)).length ≤ 4 :=
    Nat.le_trans (List.takeWhile_sublist _).length_le h
  rw [decimalPart] at hn
  split at hn
  · cases hn
  · cases hn
    exact Nat.lt_of_lt_of_le (value_lt hdigits)
      (Nat.le_trans (Nat.pow_le_pow_right (by decide) hlen) (by decide))

theorem scanHex_digits {n : Numeral 16} (h : n.value < 2 ^ 63) :
    scanHex n.digits = some ((n.value : Int), []) := by
  obtain ⟨v, hv, hvalue⟩ := scanHex_eq (scanInteger_digits (Nat.le_refl 16) n)
  rw [if_pos h] at hvalue
  rw [hv, hvalue]

theorem scanRange_scanHex (lo hi : Numeral 16) :
    ∃ vlo vhi, scanRange scanHex (lo.digits ++ '-' :: hi.digits) = (some vlo, some vhi) ∧
      (if lo.value < 2 ^ 63 then vlo = lo.value else vlo < 0) ∧
      if hi.value < 2 ^ 63 then vhi = hi.value else vhi < 0 := by
  obtain ⟨vlo, hlo, hvlo⟩ := scanHex_eq (scanInteger_range (Nat.le_refl 16) lo hi)
  obtain ⟨vhi, hhi, hvhi⟩ := scanHex_eq (scanInteger_digits (Nat.le_refl 16) hi)
  refine ⟨vlo, vhi, ?_, hvlo, hvhi⟩
  rw [scanRange, hlo]
  simp only [hhi, Option.map_some]

/-- What the loop has read, before a block. -/
structure HasRead (scan : RangeScan) (last : LastRead) : Prop where
  «from» : scan.«from» = last.«from»
  cmp : scan.cmp = last.cmp
  cmp_lt : last.cmp < 2 ^ 16

theorem LastRead.next_cmp_lt {last : LastRead} (h : last.cmp < 2 ^ 16) (p : RangePart 16)
    {b : Numeral 16} (hb : b.digits.length ≤ 4) : (last.next p b).cmp < 2 ^ 16 := by
  cases p with
  | number n =>
    change (decimalPart b).elim last.cmp Nat.cast < 2 ^ 16
    cases hdec : decimalPart b with
    | none => exact h
    | some v =>
      have hv := decimalPart_lt hb hdec
      rw [Option.elim_some]
      omega
  | range lo hi =>
    have hvalue := value_lt_of_short hb
    change (b.value : Int) < 2 ^ 16
    omega

/-- Only a number that is too large is read as another one. -/
theorem elim_longOf_eq {n : Option Nat} {stale v : Int} (hv : v < 2 ^ 16) :
    n.elim stale longOf = v ↔ n.elim stale Nat.cast = v := by
  cases n with
  | none => rfl
  | some n =>
    rw [Option.elim_some, Option.elim_some, longOf, longMax]
    omega

theorem readBlock_number {scan : RangeScan} {last : LastRead} (h : HasRead scan last)
    (n : Numeral 16) {b : Numeral 16} (hb : b.digits.length ≤ 4) :
    (readBlock scan n.digits b.digits).«from» = (decimalPart n).elim last.«from» longOf ∧
      (readBlock scan n.digits b.digits).cmp = (last.next (.number n) b).cmp := by
  have hdash : '-' ∉ n.digits := n.not_mem rfl
  rw [readBlock, readPart, if_neg hdash]
  refine ⟨by rw [scanLong_block, h.«from»], ?_⟩
  have hcmp := (elim_longOf_eq (last.next_cmp_lt h.cmp_lt (.number n) hb)).mpr rfl
  rw [← hcmp, ← h.cmp]
  exact scanLong_block b

/-- A block is matched if it is not seen to be outside. -/
theorem matchedBlock_text {scan : RangeScan} {last : LastRead} (h : HasRead scan last)
    (p : RangePart 16) {b : Numeral 16} (hb : b.digits.length ≤ 4) :
    matchedBlock p.text (readBlock scan p.text b.digits) = true ↔ ¬ Excluded last p b := by
  cases p with
  | number n =>
    obtain ⟨hfrom, hcmp⟩ := readBlock_number h n hb
    rw [matchedBlock, matchedPart, RangePart.text, if_neg (n.not_mem rfl), decide_eq_true_iff,
      Excluded, not_not, hfrom, hcmp]
    exact elim_longOf_eq (last.next_cmp_lt h.cmp_lt (.number n) hb)
  | range lo hi =>
    have hvalue := value_lt_of_short hb
    have hdash : '-' ∈ (RangePart.range lo hi).text := (RangePart.dash_mem_text _).mpr rfl
    obtain ⟨vlo, vhi, hrange, hlo, hhi⟩ := scanRange_scanHex lo hi
    rw [matchedBlock, matchedPart, readBlock, readPart, if_pos hdash, if_pos hdash, Excluded]
    simp only [RangePart.text, hrange, scanHex_digits (Nat.lt_trans hvalue (by decide)),
      Option.elim_some, Option.getD_some, Bool.and_eq_true, Bool.not_eq_true',
      Bool.or_eq_false_iff]
    simp only [decide_eq_false_iff_not, not_lt, not_le, gt_iff_lt, ge_iff_le]
    split at hlo <;> split at hhi <;> omega

/-- After a block that is matched. -/
theorem HasRead.next {scan : RangeScan} {last : LastRead} (h : HasRead scan last)
    {p : RangePart 16} {b : Numeral 16} (hb : b.digits.length ≤ 4) (hnot : ¬ Excluded last p b) :
    HasRead (readBlock scan p.text b.digits) (last.next p b) := by
  have hlt := last.next_cmp_lt h.cmp_lt p hb
  cases p with
  | number n =>
    obtain ⟨hfrom, hcmp⟩ := readBlock_number h n hb
    have heq := not_not.mp hnot
    refine ⟨?_, hcmp, hlt⟩
    rw [RangePart.text, hfrom, heq]
    exact (elim_longOf_eq hlt).mpr heq
  | range lo hi =>
    have hvalue := value_lt_of_short hb
    obtain ⟨vlo, vhi, hrange, hlo, hhi⟩ := scanRange_scanHex lo hi
    rw [Excluded] at hnot
    refine ⟨?_, ?_, hlt⟩
    · rw [readBlock, readPart, if_pos ((RangePart.dash_mem_text _).mpr rfl)]
      simp only [RangePart.text, hrange, Option.getD_some]
      rw [if_pos (by omega)] at hlo
      exact hlo
    · rw [readBlock, readPart, if_pos ((RangePart.dash_mem_text _).mpr rfl)]
      simp only [scanHex_digits (Nat.lt_trans hvalue (by decide)), Option.elim_some]
      rfl

/-! ## The loop over the blocks -/

/-- The loop over the blocks of an address, with what it read last. -/
theorem scanParts_blocks {parts : List (RangePart 16)} {blocks : List (Numeral 16)}
    (hlen : parts.length = blocks.length) (hshort : ∀ b ∈ blocks, b.digits.length ≤ 4)
    {scan : RangeScan} {last : LastRead} (hread : HasRead scan last) :
    (FitsBlocks last parts blocks ∧
      ∃ r, scanParts readBlock matchedBlock scan
          ((parts.map RangePart.text).zip (blocks.map Numeral.digits)) = .ok r ∧
        (r = 0 ↔ ¬ SomeBlock Excluded last parts blocks)) ∨
    (¬ FitsBlocks last parts blocks ∧
      scanParts readBlock matchedBlock scan
          ((parts.map RangePart.text).zip (blocks.map Numeral.digits)) =
        .error .bufferOverflow) := by
  induction parts generalizing blocks scan last with
  | nil =>
    obtain rfl := List.length_eq_zero_iff.mp hlen.symm
    exact .inl ⟨trivial, 0, rfl, iff_of_true rfl not_false⟩
  | cons p parts ih =>
    obtain ⟨b, blocks, rfl⟩ :=
      List.exists_cons_of_length_pos (Nat.lt_of_lt_of_eq (Nat.succ_pos _) hlen)
    obtain ⟨hb, hshort⟩ := List.forall_mem_cons.mp hshort
    have hblock : ¬ b.digits.length ≥ cfMaxIpLen := by
      rw [cfMaxIpLen]
      omega
    rw [List.map_cons, List.map_cons, List.zip_cons_cons, scanParts, FitsBlocks, SomeBlock]
    cases Nat.lt_or_ge p.text.length cfMaxIpLen with
    | inr hpart =>
      refine .inr ⟨fun h => absurd h.1 (Nat.not_lt.mpr hpart), ?_⟩
      rw [if_pos (.inl hpart)]
    | inl hpart =>
      rw [if_neg (not_or.mpr ⟨Nat.not_le.mpr hpart, hblock⟩), and_iff_right hpart]
      cases Classical.em (Excluded last p b) with
      | inl hexcluded =>
        have hunmatched := (matchedBlock_text hread p hb).not.mpr (not_not.mpr hexcluded)
        refine .inl ⟨fun h => absurd hexcluded h, -1, if_neg hunmatched, ?_⟩
        exact iff_of_false (by decide) fun h => h (.inl hexcluded)
      | inr hnot =>
        have hmatched := (matchedBlock_text hread p hb).mpr hnot
        simp only [hmatched, if_true, hnot, not_false_eq_true, forall_const, false_or]
        exact ih (Nat.succ.inj hlen) hshort (hread.next hb hnot)

theorem passes_iff {last : LastRead} {p : RangePart 16} {b : Numeral 16} (h : p.Matches b.value) :
    Passes last p b ↔ ¬ Excluded last p b := by
  cases p with
  | number n => exact not_not.symm
  | range lo hi =>
    obtain ⟨hlo, hhi⟩ := h
    rw [Passes, Excluded]
    omega

/-- Where the pattern matches, the loop gets to its end if every block passes. -/
theorem allBlocks_passes_iff {parts : List (RangePart 16)} {blocks : List (Numeral 16)}
    (h : List.Forall₂ (fun part block => part.Matches block.value) parts blocks)
    {last : LastRead} :
    AllBlocks Passes last parts blocks ↔ ¬ SomeBlock Excluded last parts blocks := by
  induction h generalizing last with
  | nil => exact iff_of_true trivial not_false
  | cons hmatches _ ih => rw [AllBlocks, SomeBlock, not_or, passes_iff hmatches, ih]

/-! ## The two texts -/

theorem Ipv6Address.not_mem_text (a : Ipv6Address) {c : Char} (hc : isDigit 16 c = false)
    (hcolon : c ≠ ':') : c ∉ a.text := by
  intro hmem
  rcases mem_intercalate hmem with rfl | ⟨part, hpart, hmem⟩
  · exact hcolon rfl
  · obtain ⟨b, -, rfl⟩ := List.mem_map.mp hpart
    exact b.not_mem hc hmem

theorem Ipv6Pattern.not_mem_text (p : Ipv6Pattern) {c : Char} (hc : isDigit 16 c = false)
    (hdash : c ≠ '-') (hcolon : c ≠ ':') : c ∉ p.text := by
  intro hmem
  rcases mem_intercalate hmem with rfl | ⟨part, hpart, hmem⟩
  · exact hcolon rfl
  · obtain ⟨part, -, rfl⟩ := List.mem_map.mp hpart
    exact part.not_mem_text hc hdash hmem

theorem Ipv6Pattern.dash_mem_text (p : Ipv6Pattern) : '-' ∈ p.text := by
  obtain ⟨part, hpart, hrange⟩ := p.range
  exact mem_intercalate_of_mem (List.mem_map_of_mem hpart) (part.dash_mem_text.mpr hrange)

theorem Ipv6Address.colon_mem_text (a : Ipv6Address) : ':' ∈ a.text := by
  obtain ⟨blocks, hlength, _⟩ := a
  obtain ⟨b, blocks, rfl⟩ :=
    List.exists_cons_of_length_pos (Nat.lt_of_lt_of_eq (by decide) hlength.symm)
  obtain ⟨b', blocks, rfl⟩ :=
    List.exists_cons_of_length_pos (Nat.lt_of_lt_of_eq (by decide) (Nat.succ.inj hlength).symm)
  simp [text, List.intercalate_cons_cons]

section
variable {sockaddrPton : CString → Nat} {sockaddrPton6 : CString → Nat → Nat}

theorem fuzzySetMatch_blocks (p : Ipv6Pattern) (a : Ipv6Address) :
    fuzzySetMatch sockaddrPton sockaddrPton6 p.text a.text =
      scanParts readBlock matchedBlock ⟨-1, -1, -1⟩
        ((p.parts.map RangePart.text).zip (a.blocks.map Numeral.digits)) := by
  have hne : p.text ≠ a.text := fun heq =>
    a.not_mem_text rfl (by decide) (heq ▸ p.dash_mem_text)
  have hloop : fuzzySetMatch sockaddrPton sockaddrPton6 p.text a.text =
      rangeLoop ':' false readBlock matchedBlock 8 (some p.text) (some a.text) [] []
        ⟨-1, -1, -1⟩ := by
    simp [fuzzySetMatch, hne, p.dash_mem_text,
      p.not_mem_text (c := '/') rfl (by decide) (by decide),
        p.not_mem_text (c := '.') rfl (by decide) (by decide), a.colon_mem_text,
      a.not_mem_text (c := '.') rfl (by decide)]
  have hrounds := @rangeLoop_intercalate ':' false readBlock matchedBlock
    (p.parts.map RangePart.text) (a.blocks.map Numeral.digits)
    (by simpa using List.ne_nil_of_length_pos (Nat.lt_of_lt_of_eq (by decide) p.length_eq.symm))
    (by simp [p.length_eq, a.length_eq]) (fun part hpart => by
      obtain ⟨p, -, rfl⟩ := List.mem_map.mp hpart
      exact ⟨p.text_ne_nil, p.not_mem_text rfl (by decide)⟩) (fun block hblock => by
      obtain ⟨b, -, rfl⟩ := List.mem_map.mp hblock
      exact ⟨b.ne_nil, b.not_mem rfl⟩) [] [] ⟨-1, -1, -1⟩
  rw [List.length_map, p.length_eq] at hrounds
  rw [hloop, Ipv6Pattern.text, Ipv6Address.text, hrounds]

/-- **When IPv6 patterns mean what they say**: the parts fit in the buffer that they are read to;
in an address that matches, no block is the lower bound of its range and the numbers that are read
of the other blocks agree; and in one that does not match, some block is seen to be outside. -/
theorem fuzzySetMatch_ipv6_iff {p : Ipv6Pattern} {a : Ipv6Address} :
    (∃ r, fuzzySetMatch sockaddrPton sockaddrPton6 p.text a.text = .ok r ∧
      (r = 0 ↔ p.Matches a)) ↔ ScansRight p a := by
  have hread : HasRead ⟨-1, -1, -1⟩ nothingRead := ⟨rfl, rfl, by decide⟩
  have hscan := scanParts_blocks (p.length_eq.trans a.length_eq.symm) a.short hread
  rw [fuzzySetMatch_blocks]
  rcases hscan with ⟨hfits, r, hr, hzero⟩ | ⟨hnot, herror⟩
  · constructor
    · intro ⟨r', hr', h⟩
      rw [hr] at hr'
      cases hr'
      exact ⟨hfits, fun hm => (allBlocks_passes_iff hm).mpr (hzero.mp (h.mpr hm)), fun hm =>
        not_not.mp fun hsome => hm (h.mp (hzero.mpr hsome))⟩
    · intro h
      refine ⟨r, hr, hzero.trans ⟨fun hsome => ?_, fun hm => ?_⟩⟩
      · exact not_not.mp fun hm => hsome (h.excluded hm)
      · exact (allBlocks_passes_iff hm).mp (h.passes hm)
  · refine iff_of_false ?_ fun h => hnot h.fits
    rw [herror]
    intro ⟨r, hr, _⟩
    cases hr

end

/-! ## A lower bound -/

def oneNumeral : Numeral 16 where
  digits := ['1']
  ne_nil := List.cons_ne_nil _ _
  isDigit := List.all_eq_true.mp rfl

def ffNumeral : Numeral 16 where
  digits := ['f', 'f']
  ne_nil := List.cons_ne_nil _ _
  isDigit := List.all_eq_true.mp rfl

/-- `1:1:1:1:1:1:1:1` -/
def lowestAddress : Ipv6Address where
  blocks := List.replicate 8 oneNumeral
  length_eq := List.length_replicate
  short := by
    intro b hb
    rw [List.eq_of_mem_replicate hb]
    decide

/-- `1:1:1:1:1:1:1:1-ff` -/
def rangedPattern : Ipv6Pattern where
  parts := List.replicate 7 (.number oneNumeral) ++ [.range oneNumeral ffNumeral]
  length_eq := rfl
  range := ⟨_, List.mem_append_right _ (List.mem_singleton_self _), rfl⟩

theorem lowestAddress_matches : rangedPattern.Matches lowestAddress := by
  have hnumber : (RangePart.number oneNumeral).Matches oneNumeral.value := rfl
  have hrange : (RangePart.range oneNumeral ffNumeral).Matches oneNumeral.value :=
    ⟨Nat.le_refl _, by decide⟩
  simpa [rangedPattern, lowestAddress, Ipv6Pattern.Matches, List.replicate] using
    And.intro hnumber hrange

theorem fuzzySetMatch_ipv6_lower :
    rangedPattern.text = "1:1:1:1:1:1:1:1-ff".toList ∧
      lowestAddress.text = "1:1:1:1:1:1:1:1".toList ∧ rangedPattern.Matches lowestAddress ∧
      fuzzySetMatch (fun _ => 0) (fun _ _ => 0) rangedPattern.text lowestAddress.text =
        .ok (-1) ∧
      ¬ ∃ r, fuzzySetMatch (fun _ => 0) (fun _ _ => 0) rangedPattern.text lowestAddress.text =
          .ok r ∧ (r = 0 ↔ rangedPattern.Matches lowestAddress) := by
  have hresult : fuzzySetMatch (fun _ => 0) (fun _ _ => 0) rangedPattern.text
      lowestAddress.text = .ok (-1) := by rfl
  refine ⟨by decide, by decide, lowestAddress_matches, hresult, ?_⟩
  intro ⟨r, hr, h⟩
  rw [hresult] at hr
  cases hr
  exact absurd (h.mpr lowestAddress_matches) (by decide)

end Cfengine
