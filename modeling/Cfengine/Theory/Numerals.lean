import Mathlib

/-!
# Numerals

Non-empty strings of digits in a base up to 16, and their value. Leading zeros and letters of both
cases are allowed.
-/

namespace Numerals

/-- The value of a digit, of any base. -/
def digit? (c : Char) : Option Nat :=
  if '0' ≤ c ∧ c ≤ '9' then some (c.toNat - '0'.toNat)
  else if 'a' ≤ c ∧ c ≤ 'f' then some (c.toNat - 'a'.toNat + 10)
  else if 'A' ≤ c ∧ c ≤ 'F' then some (c.toNat - 'A'.toNat + 10)
  else none

def isDigit (base : Nat) (c : Char) : Bool := (digit? c).any (· < base)

/-- The number that a string of digits stands for. -/
def value (base : Nat) (s : List Char) : Nat :=
  s.foldl (fun n c => n * base + (digit? c).getD 0) 0

/-- A non-empty string of digits. -/
structure Numeral (base : Nat) where
  digits : List Char
  ne_nil : digits ≠ []
  isDigit : ∀ c ∈ digits, isDigit base c = true

namespace Numeral

variable {base : Nat}

def value (n : Numeral base) : Nat := Numerals.value base n.digits

theorem not_mem (n : Numeral base) {c : Char} (hc : Numerals.isDigit base c = false) :
    c ∉ n.digits := fun hmem => by
  rw [n.isDigit c hmem] at hc
  cases hc

/-- A numeral is read up to its end if no digit follows. -/
theorem takeWhile_append (n : Numeral base) {rest : List Char}
    (hrest : ∀ c ∈ rest.head?, Numerals.isDigit base c = false) :
    (n.digits ++ rest).takeWhile (Numerals.isDigit base) = n.digits := by
  rw [List.takeWhile_append_of_pos n.isDigit]
  cases rest with
  | nil => rw [List.takeWhile_nil, List.append_nil]
  | cons c rest =>
    rw [List.takeWhile_cons_of_neg (by simpa using hrest c rfl), List.append_nil]

theorem exists_cons (n : Numeral base) :
    ∃ c s, n.digits = c :: s ∧ Numerals.isDigit base c = true := by
  obtain ⟨c, s, hcs⟩ := List.exists_cons_of_ne_nil n.ne_nil
  exact ⟨c, s, hcs, n.isDigit c (hcs ▸ List.mem_cons_self)⟩

end Numeral

theorem isDigit_mono {base base' : Nat} (h : base ≤ base') {c : Char}
    (hc : isDigit base c = true) : isDigit base' c = true := by
  rw [isDigit, Option.any_eq_true] at hc ⊢
  obtain ⟨d, hd, hlt⟩ := hc
  exact ⟨d, hd, decide_eq_true (Nat.lt_of_lt_of_le (of_decide_eq_true hlt) h)⟩

theorem value_concat {base : Nat} {s : List Char} {c : Char} :
    value base (s ++ [c]) = value base s * base + (digit? c).getD 0 := by
  rw [value, List.foldl_append]
  rfl

theorem digit?_lt {base : Nat} {c : Char} (hc : isDigit base c = true) :
    (digit? c).getD 0 < base := by
  rw [isDigit, Option.any_eq_true] at hc
  obtain ⟨d, hd, hlt⟩ := hc
  rw [hd]
  exact of_decide_eq_true hlt

theorem value_lt {base : Nat} {s : List Char} (h : ∀ c ∈ s, isDigit base c = true) :
    value base s < base ^ s.length := by
  induction s using List.reverseRecOn with
  | nil => exact Nat.one_pos
  | append_singleton s c ih =>
    obtain ⟨hs, hc⟩ := List.forall_mem_append.mp h
    have hdigit := digit?_lt (hc c (List.mem_singleton_self c))
    rw [value_concat, List.length_append, List.length_singleton, Nat.pow_succ]
    calc value base s * base + (digit? c).getD 0
      _ < (value base s + 1) * base := by
        rw [Nat.succ_mul]
        exact Nat.add_lt_add_left hdigit _
      _ ≤ base ^ s.length * base := Nat.mul_le_mul_right base (ih hs)

/-! ## Decimal notation -/

/-- An integer in decimal notation, without leading zeros. -/
def decimal : Int → List Char
  | .ofNat n => Nat.toDigits 10 n
  | .negSucc n => '-' :: Nat.toDigits 10 (n + 1)

theorem digit?_digitChar {d : Nat} (h : d < 10) : digit? d.digitChar = some d := by
  interval_cases d <;> rfl

theorem isDigit_digitChar {d : Nat} (h : d < 10) : isDigit 10 d.digitChar = true := by
  rw [isDigit, digit?_digitChar h]
  exact decide_eq_true h

theorem isDigit_of_mem_toDigits {n : Nat} : ∀ c ∈ Nat.toDigits 10 n, isDigit 10 c = true := by
  induction n using Nat.strong_induction_on with
  | _ n ih =>
    by_cases h : n < 10
    · rw [Nat.toDigits_of_lt_base h]
      intro c hc
      rw [List.mem_singleton.mp hc]
      exact isDigit_digitChar h
    · rw [Nat.toDigits_of_base_le (by decide) (Nat.le_of_not_lt h)]
      intro c hc
      rcases List.mem_append.mp hc with hc | hc
      · exact ih (n / 10) (by omega) c hc
      · rw [List.mem_singleton.mp hc]
        exact isDigit_digitChar (Nat.mod_lt _ (by decide))

theorem value_toDigits {n : Nat} : value 10 (Nat.toDigits 10 n) = n := by
  induction n using Nat.strong_induction_on with
  | _ n ih =>
    by_cases h : n < 10
    · rw [Nat.toDigits_of_lt_base h, ← List.nil_append [n.digitChar], value_concat,
        digit?_digitChar h]
      exact Nat.zero_add n
    · have hdigit := digit?_digitChar (Nat.mod_lt n (by decide : 0 < 10))
      rw [Nat.toDigits_of_base_le (by decide) (Nat.le_of_not_lt h), value_concat, hdigit,
        ih (n / 10) (by omega)]
      exact Nat.div_add_mod' n 10

/-- An integer below `10 ^ k` has at most `k` characters, and one above `-10 ^ (k - 1)` as well. -/
theorem length_decimal_le {n : Int} {k : Nat} (hlower : -10 ^ k < n) (hupper : n < 10 ^ (k + 1)) :
    (decimal n).length ≤ k + 1 := by
  cases n with
  | ofNat n =>
    rw [decimal, Nat.length_toDigits_le_iff (by decide) (Nat.succ_pos k)]
    have hlt : (n : Int) < 10 ^ (k + 1) := hupper
    exact_mod_cast hlt
  | negSucc n =>
    rw [decimal, List.length_cons, Nat.add_le_add_iff_right]
    have hlt : n + 1 < 10 ^ k := by
      rw [Int.negSucc_eq] at hlower
      have : ((n + 1 : Nat) : Int) < ((10 ^ k : Nat) : Int) := by
        push_cast
        omega
      exact_mod_cast this
    cases k with
    | zero => omega
    | succ k => exact (Nat.length_toDigits_le_iff (by decide) (Nat.succ_pos k)).mpr hlt

end Numerals
