import Cfengine.IpRange

/-!
# Which address ranges are rejected

The scan that looks for a colon stops at it, since a colon is no hexadecimal digit. So no string
counts as an address, and the checks behind the scan are never made.
-/

namespace Cfengine
open Numerals

variable {s : CString}

/-- Ways in which an address range is malformed. -/
inductive MalformedRange (s : CString) : Prop
  | mixture : '.' ∈ s → ':' ∈ s → MalformedRange s
  | notations : '/' ∈ s → '-' ∈ s → MalformedRange s
  /-- CIDR notation for IPv4 with a mask that is not in 8..30. -/
  | mask (address : CString) (mask : Numeral 10) : s = address ++ '/' :: mask.digits →
      '.' ∈ address →
    mask.value < 8 ∨ 30 < mask.value → MalformedRange s
  /-- An octet of IPv4 that is a range with its end below its start. -/
  | octet (front back : CString) (lo hi : Numeral 10) : s = front ++ lo.digits ++ '-' ::
      hi.digits ++ back →
    '.' ∈ s → (∀ c ∈ front.getLast?, c = '.') → (∀ c ∈ back.head?, c = '.') → hi.value < lo.value →
    MalformedRange s

/-- No string counts as an address. -/
theorem isAddr_eq_false (count : Nat) : fuzzyMatchParse.isAddr count s = false := by
  fun_induction fuzzyMatchParse.isAddr count s with
  | case1 => rfl
  | case2 => rfl
  | case3 count sp hdigit => exact absurd hdigit (by decide)
  | case4 => rfl
  | case5 count c sp hdigit hcolon hten hcount ih => exact ih
  | case6 count c sp hdigit hcolon hten ih => exact ih

theorem fuzzyMatchParse_eq (s : CString) : fuzzyMatchParse s = .ok true := by
  simp only [fuzzyMatchParse, isAddr_eq_false]
  rfl

/-- The range is rejected, and is never matched. -/
def RejectedRange (sockaddrPton : CString → Nat) (sockaddrPton6 : CString → Nat → Nat)
    (s : CString) : Prop :=
  fuzzyMatchParse s = .ok false ∧ ∀ vipaddress ipaddresses,
    fnCallIPRange sockaddrPton sockaddrPton6 vipaddress ipaddresses s = .ok none

/-- Malformed ranges are not rejected: the checks do what they should only where there is nothing to
reject. -/
theorem rejectsMalformed_iff (sockaddrPton : CString → Nat) (sockaddrPton6 : CString → Nat → Nat)
    (s : CString) :
    (MalformedRange s → RejectedRange sockaddrPton sockaddrPton6 s) ↔ ¬ MalformedRange s := by
  refine ⟨fun h hmalformed => ?_, fun h hmalformed => absurd hmalformed h⟩
  have hparse := (h hmalformed).1
  rw [fuzzyMatchParse_eq] at hparse
  cases hparse

/-- A mask of 99 bits. -/
theorem not_rejected_mask99 :
    ¬ (MalformedRange "10.0.0.1/99".toList →
      RejectedRange (fun _ => 0) (fun _ _ => 0) "10.0.0.1/99".toList) := by
  have hnine : isDigit 10 '9' = true := by decide
  have hvalue : 30 < value 10 "99".toList := by decide
  have hmalformed : MalformedRange "10.0.0.1/99".toList :=
    .mask "10.0.0.1".toList ⟨"99".toList, by decide, by simp [hnine]⟩ rfl (by decide) (.inr hvalue)
  intro h
  have hparse := (h hmalformed).1
  rw [fuzzyMatchParse_eq] at hparse
  cases hparse

end Cfengine
