import Cfengine.Verify.AddrLib

/-!
# What IPv4 patterns match

The notations for sets of IPv4 addresses as data with a text and a meaning: an address with a
mask, four numbers or ranges, or the first octets. `FuzzySetMatch` is right about them unless a
part of a pattern with ranges overflows the buffer that it is read to (`fuzzySetMatch_ipv4_iff`).
-/

namespace Cfengine
open Numerals Joined

/-- The decimal numeral of an octet. -/
def octetNumeral (o : Fin 256) : Numeral 10 where
  digits := Nat.toDigits 10 o
  ne_nil := Nat.toDigits_ne_nil
  isDigit := by
    have hdigits : ∀ o : Fin 256, (Nat.toDigits 10 o).all (Numerals.isDigit 10) = true := by
      decide +kernel
    exact List.all_eq_true.mp (hdigits o)

def octetText (o : Fin 256) : CString := (octetNumeral o).digits

theorem value_octetNumeral : ∀ o : Fin 256, (octetNumeral o).value = o := by decide +kernel

theorem length_octetText : ∀ o : Fin 256, (octetText o).length ≤ 3 := by decide +kernel

theorem octetText_injective : Function.Injective octetText := by
  intro o o' h
  have hvalue : (octetNumeral o).value = (octetNumeral o').value := congrArg (value 10) h
  rw [value_octetNumeral, value_octetNumeral] at hvalue
  exact Fin.ext hvalue

/-- An IPv4 address. -/
structure DottedQuad where
  a : Fin 256
  b : Fin 256
  c : Fin 256
  d : Fin 256

namespace DottedQuad

def octets (q : DottedQuad) : List (Fin 256) := [q.a, q.b, q.c, q.d]

def text (q : DottedQuad) : CString := ['.'].intercalate (q.octets.map octetText)

/-- The 32-bit host-order value. -/
def value (q : DottedQuad) : Nat := q.a * 2 ^ 24 + q.b * 2 ^ 16 + q.c * 2 ^ 8 + q.d

theorem value_lt (q : DottedQuad) : q.value < 2 ^ 32 := by
  have ha := q.a.isLt
  have hb := q.b.isLt
  have hc := q.c.isLt
  have hd := q.d.isLt
  rw [value]
  omega

end DottedQuad

/-- The notations for sets of IPv4 addresses. -/
inductive Ipv4Pattern where
  /-- `a.b.c.d/m` -/
  | cidr (address : DottedQuad) (mask : Numeral 10) (le : mask.value ≤ 32)
  /-- Four numbers or ranges, with at least one range. -/
  | ranges (parts : List (RangePart 10)) (length_eq : parts.length = 4)
      (range : ∃ p ∈ parts, p.isRange = true)
  /-- The first octets. -/
  | dotted (octets : List (Fin 256)) (ne_nil : octets ≠ []) (le : octets.length ≤ 4)

namespace Ipv4Pattern

def text : Ipv4Pattern → CString
  | cidr address mask _ => address.text ++ '/' :: mask.digits
  | ranges parts _ _ => ['.'].intercalate (parts.map RangePart.text)
  | dotted octets _ _ => ['.'].intercalate (octets.map octetText)

/-- What a pattern means. -/
def Matches : Ipv4Pattern → DottedQuad → Prop
  | cidr address mask _, q =>
    ∀ i, 32 - mask.value ≤ i → i < 32 → address.value.testBit i = q.value.testBit i
  | ranges parts _ _, q => List.Forall₂ (fun p o => p.Matches o.val) parts q.octets
  | dotted octets _ _, q => octets <+: q.octets

end Ipv4Pattern

/-- The parts of the pattern up to the first one that does not match fit in their buffer. -/
def FitsBuffer : List (RangePart 10) → List (Fin 256) → Prop
  | p :: parts, o :: octets =>
    p.text.length < cfMaxIpLen ∧ (p.Matches o → FitsBuffer parts octets)
  | _, _ => True

def Ipv4Pattern.Fits : Ipv4Pattern → DottedQuad → Prop
  | ranges parts _ _, q => FitsBuffer parts q.octets
  | _, _ => True

theorem longOf_inj {m n : Nat} (h : n < longMax) : longOf m = longOf n ↔ n = m := by
  rw [longMax] at h
  rw [longOf, longOf, longMax]
  omega

theorem matchedOctet_text (p : RangePart 10) (o : Fin 256) (scan : RangeScan) :
    matchedOctet p.text (readOctet scan p.text (octetText o)) = true ↔ p.Matches o := by
  have ho : (octetNumeral o).value < longMax := by
    rw [value_octetNumeral, longMax]
    have := o.isLt
    omega
  rw [← value_octetNumeral o, matchedOctet, matchedPart, readOctet, readPart, octetText]
  cases p with
  | number n =>
    have hdash : '-' ∉ (RangePart.number n).text :=
      (RangePart.dash_mem_text _).not.mpr Bool.false_ne_true
    rw [if_neg hdash, if_neg hdash, RangePart.Matches]
    simp only [RangePart.text, scanLong_digits, Option.elim_some, decide_eq_true_eq]
    exact longOf_inj ho
  | range lo hi =>
    have hdash : '-' ∈ (RangePart.range lo hi).text := (RangePart.dash_mem_text _).mpr rfl
    rw [if_pos hdash, if_pos hdash, RangePart.Matches]
    rw [longMax] at ho
    simp only [RangePart.text, scanRange_scanLong, scanLong_digits, Option.elim_some,
      Option.getD_some, longOf, longMax, Bool.and_eq_true, Bool.not_eq_true', Bool.or_eq_false_iff]
    simp only [decide_eq_false_iff_not, not_lt, gt_iff_lt]
    omega

/-- The loop over the octets is right if it gets past the parts that match. -/
theorem scanParts_octets {parts : List (RangePart 10)} {octets : List (Fin 256)}
    (hlen : parts.length = octets.length) (scan : RangeScan) :
    (∃ r, scanParts readOctet matchedOctet scan
        ((parts.map RangePart.text).zip (octets.map octetText)) = .ok r ∧
      (r = 0 ↔ List.Forall₂ (fun p o => p.Matches o.val) parts octets)) ↔
      FitsBuffer parts octets := by
  induction parts generalizing octets scan with
  | nil =>
    obtain rfl := List.length_eq_zero_iff.mp hlen.symm
    exact iff_of_true ⟨0, rfl, by simp⟩ trivial
  | cons p parts ih =>
    obtain ⟨o, octets, rfl⟩ :=
      List.exists_cons_of_length_pos (Nat.lt_of_lt_of_eq (Nat.succ_pos _) hlen)
    have hoctet := length_octetText o
    have hblock : ¬ (octetText o).length ≥ cfMaxIpLen := by
      rw [cfMaxIpLen]
      omega
    rw [List.map_cons, List.map_cons, List.zip_cons_cons, scanParts, FitsBuffer,
      List.forall₂_cons]
    by_cases hpart : p.text.length ≥ cfMaxIpLen
    · rw [if_pos (.inl hpart)]
      refine iff_of_false ?_ fun h => absurd h.1 (Nat.not_lt.mpr hpart)
      rintro ⟨r, hr, -⟩
      cases hr
    rw [if_neg (not_or.mpr ⟨hpart, hblock⟩), and_iff_right (Nat.lt_of_not_le hpart)]
    by_cases hmatch : p.Matches o
    · simp only [(matchedOctet_text p o scan).mpr hmatch, if_true, hmatch, true_and, forall_const]
      exact ih (Nat.succ.inj hlen) _
    · have hunmatched := (matchedOctet_text p o scan).not.mpr hmatch
      simp only [if_neg hunmatched, hmatch, false_and, false_imp_iff, iff_true, iff_false]
      exact ⟨-1, rfl, by decide⟩

theorem DottedQuad.not_mem_text (q : DottedQuad) {c : Char} (hc : isDigit 10 c = false)
    (hdot : c ≠ '.') : c ∉ q.text := by
  intro hmem
  rcases mem_intercalate hmem with rfl | ⟨part, hpart, hmem⟩
  · exact hdot rfl
  · obtain ⟨o, -, rfl⟩ := List.mem_map.mp hpart
    exact (octetNumeral o).not_mem hc hmem

theorem DottedQuad.dot_mem_text (q : DottedQuad) : '.' ∈ q.text := by
  simp [text, octets, List.intercalate_cons_cons]

section
variable {sockaddrPton : CString → Nat} {sockaddrPton6 : CString → Nat → Nat}

theorem fuzzySetMatch_ranges {parts : List (RangePart 10)} (hlength : parts.length = 4)
    (hrange : ∃ p ∈ parts, p.isRange = true) (q : DottedQuad) :
    (∃ r, fuzzySetMatch sockaddrPton sockaddrPton6
        (['.'].intercalate (parts.map RangePart.text)) q.text = .ok r ∧
      (r = 0 ↔ List.Forall₂ (fun p o => p.Matches o.val) parts q.octets)) ↔
      FitsBuffer parts q.octets := by
  set s1 := ['.'].intercalate (parts.map RangePart.text) with hs1
  have hnot : ∀ c, isDigit 10 c = false → c ≠ '-' → c ≠ '.' → c ∉ s1 := by
    intro c hc hdash hdot hmem
    rcases mem_intercalate hmem with rfl | ⟨part, hpart, hmem⟩
    · exact hdot rfl
    · obtain ⟨p, -, rfl⟩ := List.mem_map.mp hpart
      exact p.not_mem_text hc hdash hmem
  have hdash : '-' ∈ s1 := by
    obtain ⟨p, hp, hprange⟩ := hrange
    exact mem_intercalate_of_mem (List.mem_map_of_mem hp) (p.dash_mem_text.mpr hprange)
  have hdash' : '-' ∉ q.text := q.not_mem_text rfl (by decide)
  have hne : s1 ≠ q.text := fun heq => hdash' (heq ▸ hdash)
  have hloop : fuzzySetMatch sockaddrPton sockaddrPton6 s1 q.text =
      rangeLoop '.' true readOctet matchedOctet 4 (some s1) (some q.text) [] [] ⟨-1, -1, -1⟩ := by
    simp [fuzzySetMatch, hne, hdash, hnot '/' rfl (by decide) (by decide),
      hnot ':' rfl (by decide) (by decide), q.not_mem_text (c := ':') rfl (by decide),
      q.dot_mem_text]
  have hrounds := @rangeLoop_intercalate '.' true readOctet matchedOctet
    (parts.map RangePart.text) (q.octets.map octetText)
    (by simpa using List.ne_nil_of_length_pos (Nat.lt_of_lt_of_eq (by decide) hlength.symm))
    (by simp [hlength, DottedQuad.octets]) (fun part hpart => by
      obtain ⟨p, -, rfl⟩ := List.mem_map.mp hpart
      exact ⟨p.text_ne_nil, p.not_mem_text rfl (by decide)⟩) (fun block hblock => by
      obtain ⟨o, -, rfl⟩ := List.mem_map.mp hblock
      exact ⟨(octetNumeral o).ne_nil, (octetNumeral o).not_mem rfl⟩) [] [] ⟨-1, -1, -1⟩
  rw [List.length_map, hlength] at hrounds
  rw [hloop, hs1, DottedQuad.text, hrounds]
  exact scanParts_octets hlength _

/-- Two 32-bit numbers agree in their top bits if they agree without the other ones. -/
theorem shiftRight_eq_iff {v w m : Nat} (hv : v < 2 ^ 32) (hw : w < 2 ^ 32) :
    v >>> (32 - m) = w >>> (32 - m) ↔
      ∀ i, 32 - m ≤ i → i < 32 → v.testBit i = w.testBit i := by
  constructor
  · intro h i hlo _
    have hbit := congrArg (fun n => n.testBit (i - (32 - m))) h
    simpa only [Nat.testBit_shiftRight, Nat.add_sub_cancel' hlo] using hbit
  · intro h
    refine Nat.eq_of_testBit_eq fun i => ?_
    rw [Nat.testBit_shiftRight, Nat.testBit_shiftRight]
    rcases Nat.lt_or_ge (32 - m + i) 32 with hlt | hge
    · exact h _ (Nat.le_add_right _ _) hlt
    · rw [Nat.testBit_lt_two_pow (Nat.lt_of_lt_of_le hv (Nat.pow_le_pow_right (by decide) hge)),
        Nat.testBit_lt_two_pow (Nat.lt_of_lt_of_le hw (Nat.pow_le_pow_right (by decide) hge))]

theorem DottedQuad.length_text_le (q : DottedQuad) : q.text.length ≤ 15 := by
  have ha := length_octetText q.a
  have hb := length_octetText q.b
  have hc := length_octetText q.c
  have hd := length_octetText q.d
  simp only [text, octets, List.map_cons, List.map_nil, List.intercalate_cons_cons,
    List.intercalate_singleton, List.length_append, List.length_cons, List.length_nil]
  omega

theorem scanCidr_text (q : DottedQuad) (mask : Numeral 10) (hmask : mask.value ≤ 32) :
    scanCidr 16 (q.text ++ '/' :: mask.digits) = (q.text, (mask.value : Int)) := by
  have hslash : ∀ c ∈ q.text, decide (c ≠ '/') = true := fun c hc =>
    decide_eq_true fun heq => q.not_mem_text rfl (by decide) (heq ▸ hc)
  have htake : ((q.text ++ '/' :: mask.digits).take 16).takeWhile (· ≠ '/') = q.text := by
    have hlen := q.length_text_le
    obtain ⟨k, hk⟩ : ∃ k, 16 - q.text.length = k + 1 := ⟨15 - q.text.length, by omega⟩
    rw [List.take_append, List.take_of_length_le (by omega), hk, List.take_succ_cons,
      List.takeWhile_append_of_pos hslash, List.takeWhile_cons_of_neg (by simp), List.append_nil]
  have hne : q.text ≠ [] := List.ne_nil_of_mem q.dot_mem_text
  have hlong : (longOf mask.value).bmod (2 ^ 32) = mask.value := by
    rw [longOf, longMax, min_eq_left (by omega)]
    exact Int.bmod_eq_of_le (by omega) (by omega)
  rw [scanCidr, htake, if_neg hne, List.drop_left]
  simp only [scanLong_digits, Option.elim_some, hlong]

theorem fuzzySetMatch_cidr (hpton : ∀ q : DottedQuad, sockaddrPton q.text = q.value)
    (address : DottedQuad) (mask : Numeral 10) (hmask : mask.value ≤ 32) (q : DottedQuad) :
    ∃ r, fuzzySetMatch sockaddrPton sockaddrPton6 (address.text ++ '/' :: mask.digits) q.text =
        .ok r ∧
      (r = 0 ↔ ∀ i, 32 - mask.value ≤ i → i < 32 →
        address.value.testBit i = q.value.testBit i) := by
  have hnot : ∀ c ∈ ['-', ':'], c ∉ address.text ++ '/' :: mask.digits ∧ c ∉ q.text := by
    intro c hc
    have hdigit : isDigit 10 c = false ∧ c ≠ '.' ∧ c ≠ '/' := by
      rcases List.mem_cons.mp hc with rfl | hc
      · exact ⟨rfl, by decide, by decide⟩
      · rw [List.mem_singleton.mp hc]
        exact ⟨rfl, by decide, by decide⟩
    refine ⟨?_, q.not_mem_text hdigit.1 hdigit.2.1⟩
    rw [List.mem_append, List.mem_cons, not_or, not_or]
    exact ⟨address.not_mem_text hdigit.1 hdigit.2.1, hdigit.2.2, mask.not_mem hdigit.1⟩
  have hslash : '/' ∉ q.text := q.not_mem_text rfl (by decide)
  have hne : address.text ++ '/' :: mask.digits ≠ q.text := fun heq =>
    hslash (heq ▸ List.mem_append_right _ List.mem_cons_self)
  have hshift : (32 - (mask.value : Int)).toNat = 32 - mask.value := by omega
  have hcidr : fuzzySetMatch sockaddrPton sockaddrPton6 (address.text ++ '/' :: mask.digits)
      q.text = if address.value >>> (32 - mask.value) = q.value >>> (32 - mask.value) then .ok 0
        else .ok (-1) := by
    simp only [fuzzySetMatch, if_neg hne, (hnot '-' (by simp)).1, (hnot ':' (by simp)).1,
      (hnot ':' (by simp)).2, q.dot_mem_text, or_true, or_false, decide_true, decide_false,
      Bool.and_false, Bool.false_eq_true, if_false, Bool.or_true, Bool.not_true,
      List.mem_append, List.mem_cons, true_or, if_true, fuzzySetMatch.cidr4,
      scanCidr_text address mask hmask, hpton, hshift]
    rw [if_neg (by omega)]
  rw [hcidr, ← shiftRight_eq_iff address.value_lt q.value_lt]
  split
  · rename_i heq
    exact ⟨0, rfl, iff_of_true rfl heq⟩
  · rename_i hneq
    exact ⟨-1, rfl, iff_of_false (by decide) hneq⟩

theorem strncmp_eq_zero {s1 s2 : CString} (h : ∀ c ∈ s1, c.toNat ≠ 0) :
    strncmp s1 s2 s1.length = 0 ↔ s1 <+: s2 := by
  induction s1 generalizing s2 with
  | nil => exact iff_of_true (by rw [List.length_nil, strncmp]) List.nil_prefix
  | cons c1 s1 ih =>
    obtain ⟨hc, hs⟩ := List.forall_mem_cons.mp h
    cases s2 with
    | nil =>
      rw [List.prefix_nil]
      exact iff_of_false (by simpa [strncmp] using hc) (List.cons_ne_nil _ _)
    | cons c2 s2 =>
      rw [List.length_cons, strncmp, List.cons_prefix_cons]
      by_cases heq : c1 = c2
      · rw [if_pos heq, ih hs, and_iff_right heq]
      · have hcode : c1.toNat ≠ c2.toNat := fun h => heq (Char.toNat_inj.mp h)
        rw [if_neg heq]
        exact iff_of_false (by omega) fun h => heq h.1

/-- A prefix that stops at the end of an octet. -/
theorem prefix_octets_iff {octets : List (Fin 256)} {q : DottedQuad} (hne : octets ≠ [])
    (hneq : ['.'].intercalate (octets.map octetText) ≠ q.text) :
    octets <+: q.octets ↔
      ∃ t, q.text = ['.'].intercalate (octets.map octetText) ++ '.' :: t := by
  have hdot : ∀ part ∈ octets.map octetText, '.' ∉ part := by
    intro part hpart
    obtain ⟨o, -, rfl⟩ := List.mem_map.mp hpart
    exact (octetNumeral o).not_mem rfl
  have hdot' : ∀ part ∈ q.octets.map octetText, '.' ∉ part := by
    intro part hpart
    obtain ⟨o, -, rfl⟩ := List.mem_map.mp hpart
    exact (octetNumeral o).not_mem rfl
  have hsplit := List.splitOn_intercalate '.' hdot (by simpa using hne)
  have hsplit' := List.splitOn_intercalate '.' hdot' (by simp [DottedQuad.octets])
  constructor
  · rintro ⟨rest, hrest⟩
    cases rest with
    | nil => exact absurd (by rw [DottedQuad.text, ← hrest, List.append_nil]) hneq
    | cons o rest =>
      refine ⟨['.'].intercalate ((o :: rest).map octetText), ?_⟩
      rw [DottedQuad.text, ← hrest, List.map_append,
        intercalate_append (by simpa using hne) (by simp)]
  · rintro ⟨t, ht⟩
    rw [DottedQuad.text] at ht
    rw [ht, List.splitOn_append_cons_self, hsplit] at hsplit'
    exact (List.prefix_map_iff_of_injective octetText_injective).mp ⟨_, hsplit'⟩

theorem fuzzySetMatch_dotted {octets : List (Fin 256)} {q : DottedQuad} (hne : octets ≠ [])
    (hneq : ['.'].intercalate (octets.map octetText) ≠ q.text) :
    ∃ r, fuzzySetMatch sockaddrPton sockaddrPton6 (['.'].intercalate (octets.map octetText))
        q.text = .ok r ∧ (r = 0 ↔ octets <+: q.octets) := by
  rw [prefix_octets_iff hne hneq]
  set s1 := ['.'].intercalate (octets.map octetText) with hs1
  have hdigit : ∀ c ∈ s1, c = '.' ∨ isDigit 10 c = true := by
    intro c hc
    refine (mem_intercalate hc).imp_right fun ⟨part, hpart, hmem⟩ => ?_
    obtain ⟨o, -, rfl⟩ := List.mem_map.mp hpart
    exact (octetNumeral o).isDigit c hmem
  have hnot : ∀ c, c ≠ '.' → isDigit 10 c = false → c ∉ s1 := by
    intro c hdot hc hmem
    rw [(hdigit c hmem).resolve_left hdot] at hc
    cases hc
  have hnul : ∀ c ∈ s1, c.toNat ≠ 0 := by
    intro c hc h0
    obtain rfl : c = Char.ofNat 0 := by rw [← Char.ofNat_toNat c, h0]
    exact hnot _ (by decide) (by decide) hc
  have hplain : fuzzySetMatch sockaddrPton sockaddrPton6 s1 q.text =
      if q.text.length > s1.length && q.text[s1.length]? ≠ some '.' then .ok (-1)
      else .ok (strncmp s1 q.text s1.length) := by
    simp [fuzzySetMatch, hneq, hnot '/' (by decide) rfl, hnot '-' (by decide) rfl,
      hnot ':' (by decide) rfl, q.not_mem_text (c := ':') rfl (by decide), q.dot_mem_text]
  rw [hplain]
  split
  · rename_i h
    refine ⟨-1, rfl, iff_of_false (by decide) ?_⟩
    rintro ⟨t, ht⟩
    simp [ht] at h
  · rename_i h
    refine ⟨_, rfl, (strncmp_eq_zero hnul).trans ⟨?_, fun ⟨t, ht⟩ => ⟨_, ht.symm⟩⟩⟩
    rintro ⟨u, hu⟩
    cases u with
    | nil => exact absurd (by rw [← hu, List.append_nil]) hneq
    | cons c t =>
      obtain rfl : c = '.' := by simpa [← hu] using h
      exact ⟨t, hu.symm⟩

/-- **When IPv4 patterns mean what they say**: always, unless a part of a pattern with ranges
overflows the buffer that it is read to. -/
theorem fuzzySetMatch_ipv4_iff (hpton : ∀ q : DottedQuad, sockaddrPton q.text = q.value)
    {p : Ipv4Pattern} {q : DottedQuad} (hne : p.text ≠ q.text) :
    (∃ r, fuzzySetMatch sockaddrPton sockaddrPton6 p.text q.text = .ok r ∧
      (r = 0 ↔ p.Matches q)) ↔ p.Fits q := by
  cases p with
  | cidr address mask hmask =>
    exact iff_of_true (fuzzySetMatch_cidr hpton address mask hmask q) trivial
  | ranges parts hlength hrange => exact fuzzySetMatch_ranges hlength hrange q
  | dotted octets hnil hle => exact iff_of_true (fuzzySetMatch_dotted hnil hne) trivial

end

/-- The 32-bit value of the numbers between the dots. -/
def inetAddr (s : CString) : Nat :=
  ((s.splitOn '.').map (value 10)).foldl (fun addr octet => addr * 256 + octet) 0

theorem inetAddr_text (q : DottedQuad) : inetAddr q.text = q.value := by
  have hdot : ∀ part ∈ q.octets.map octetText, '.' ∉ part := by
    intro part hpart
    obtain ⟨o, -, rfl⟩ := List.mem_map.mp hpart
    exact (octetNumeral o).not_mem rfl
  have hvalue : ∀ o, value 10 (octetText o) = o := value_octetNumeral
  rw [inetAddr, DottedQuad.text, List.splitOn_intercalate '.' hdot (by simp [DottedQuad.octets])]
  simp only [DottedQuad.octets, List.map_cons, List.map_nil, List.foldl_cons, List.foldl_nil,
    hvalue, DottedQuad.value]
  omega

/-- `128.39.75.56` -/
def someAddress : DottedQuad := ⟨128, 39, 75, 56⟩

def someMask : Numeral 10 where
  digits := ['2', '3']
  ne_nil := List.cons_ne_nil _ _
  isDigit := List.all_eq_true.mp rfl

/-- `128.39.74.10/23` -/
def maskPattern : Ipv4Pattern := .cidr ⟨128, 39, 74, 10⟩ someMask (by decide)

theorem fuzzySetMatch_ipv4_iff_mask :
    maskPattern.text ≠ someAddress.text ∧
      ((∃ r, fuzzySetMatch inetAddr (fun _ _ => 0) maskPattern.text someAddress.text = .ok r ∧
        (r = 0 ↔ maskPattern.Matches someAddress)) ↔ maskPattern.Fits someAddress) := by
  have hne : maskPattern.text ≠ someAddress.text := by decide
  exact ⟨hne, fuzzySetMatch_ipv4_iff inetAddr_text hne⟩

/-- A number with `n` leading zeros. -/
def paddedNumeral (n : Nat) : Numeral 10 where
  digits := List.replicate n '0' ++ ['5']
  ne_nil := by simp
  isDigit := by
    intro c hc
    rcases List.mem_append.mp hc with hc | hc
    · rw [List.eq_of_mem_replicate hc]
      rfl
    · rw [List.mem_singleton.mp hc]
      rfl

/-- `128.39.70-79.0..05`, with 64 digits in the last part. -/
def paddedPattern : Ipv4Pattern :=
  .ranges [.number (octetNumeral 128), .number (octetNumeral 39),
    .range (octetNumeral 70) (octetNumeral 79), .number (paddedNumeral 63)] rfl
    ⟨_, List.mem_cons_of_mem _ (List.mem_cons_of_mem _ List.mem_cons_self), rfl⟩

theorem fuzzySetMatch_ipv4_overflow :
    paddedPattern.text = "128.39.70-79.".toList ++ List.replicate 63 '0' ++ ['5'] ∧
      paddedPattern.text ≠ someAddress.text ∧
      fuzzySetMatch inetAddr (fun _ _ => 0) paddedPattern.text someAddress.text =
        .error .bufferOverflow ∧
      ¬ ∃ r, fuzzySetMatch inetAddr (fun _ _ => 0) paddedPattern.text someAddress.text = .ok r ∧
        (r = 0 ↔ paddedPattern.Matches someAddress) := by
  have hoverflow : fuzzySetMatch inetAddr (fun _ _ => 0) paddedPattern.text someAddress.text =
      .error .bufferOverflow := by rfl
  refine ⟨by decide, by decide, hoverflow, ?_⟩
  rintro ⟨r, hr, -⟩
  rw [hoverflow] at hr
  cases hr

end Cfengine
