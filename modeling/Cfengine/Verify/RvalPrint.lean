import Cfengine.Rlist

/-!
# Printing a scalar

`EscapeQuotes` puts a backslash in front of every quote, but its counter runs ahead of what it
writes, by 2 for a quote. So `RvalPrint` prints all of a scalar exactly if only its last character
may be a quote, and the size of the buffer is an `int` (`rvalPrint_scalar_iff`).
-/

namespace Cfengine

variable {c : Char} {s : CString} {outSz i : Int}

/-- A single or double quote. -/
def isQuote (c : Char) : Bool := c = '\'' || c = '"'

/-- A backslash in front of every quote. -/
def withBackslashes (s : CString) : CString :=
  s.flatMap fun c => if isQuote c then ['\\', c] else [c]

theorem withBackslashes_cons :
    withBackslashes (c :: s) = (if isQuote c then ['\\', c] else [c]) ++ withBackslashes s :=
  List.flatMap_cons

/-- The text without the backslashes in front of quotes. -/
def withoutBackslashes : CString → CString
  | [] => []
  | c :: s => if c = '\\' ∧ s.head?.any isQuote then withoutBackslashes s
      else c :: withoutBackslashes s

theorem head?_withBackslashes : (withBackslashes s).head?.any isQuote = false := by
  cases s with
  | nil => rfl
  | cons c s =>
    rw [withBackslashes_cons]
    cases hc : isQuote c with
    | true => rfl
    | false => exact hc

/-- The backslashes can be taken out again. -/
theorem withoutBackslashes_withBackslashes (s : CString) :
    withoutBackslashes (withBackslashes s) = s := by
  induction s with
  | nil => rfl
  | cons c s ih =>
    rw [withBackslashes_cons]
    cases hc : isQuote c with
    | true =>
      have hne : c ≠ '\\' := by
        rintro rfl
        cases hc
      have hquote : (c :: withBackslashes s).head?.any isQuote := hc
      rw [if_pos rfl, List.cons_append, List.cons_append, List.nil_append, withoutBackslashes,
        if_pos ⟨rfl, hquote⟩, withoutBackslashes, if_neg fun h => hne h.1, ih]
    | false =>
      rw [if_neg Bool.false_ne_true, List.singleton_append, withoutBackslashes,
        head?_withBackslashes, if_neg fun h => Bool.false_ne_true h.2, ih]

theorem escapeQuotes_loop_cons : escapeQuotes.loop outSz i (c :: s) =
    if i < outSz - 2 then
      (if isQuote c then ['\\', c] else [c]) ++
        escapeQuotes.loop outSz (if isQuote c then i + 4 else i + 2) s
    else [] := by
  have hquote : (c = '\'' ∨ c = '"') ↔ isQuote c = true := by
    rw [isQuote, Bool.or_eq_true, decide_eq_true_eq, decide_eq_true_eq]
  rw [escapeQuotes.loop]
  split_ifs with hguard hc hq hq
  · rfl
  · exact absurd (hquote.mp hc) hq
  · exact absurd (hquote.mpr hq) hc
  · rfl
  · rfl

/-- The loop prints everything if its counter is small enough at the last character. -/
theorem escapeQuotes_loop_eq_iff : escapeQuotes.loop outSz i s = withBackslashes s ↔
    s = [] ∨ i + 2 * (s.length - 1) + 2 * s.dropLast.countP isQuote < outSz - 2 := by
  induction s generalizing i with
  | nil => exact iff_of_true rfl (.inl rfl)
  | cons c s ih =>
    rw [escapeQuotes_loop_cons, withBackslashes_cons, or_iff_right (List.cons_ne_nil _ _)]
    by_cases hguard : i < outSz - 2
    · rw [if_pos hguard, List.append_cancel_left_eq, ih]
      cases s with
      | nil => simpa using hguard
      | cons d s =>
        rw [or_iff_right (List.cons_ne_nil _ _), List.dropLast_cons_cons, List.countP_cons]
        simp only [List.length_cons]
        split_ifs <;> push_cast <;> omega
    · rw [if_neg hguard]
      refine iff_of_false ?_ ?_
      · split_ifs <;> exact fun h => by cases h
      · simp only [List.length_cons]
        push_cast
        omega

theorem bmod_of_lt {n : Nat} (h : n < 2 ^ 30) : Int.bmod (n * 2 + 1) (2 ^ 32) = n * 2 + 1 := by
  rw [Int.bmod_def]
  norm_num at h ⊢
  split_ifs <;> omega

theorem bmod_of_le {n : Nat} (h : 2 ^ 30 ≤ n) :
    Int.bmod (n * 2 + 1) (2 ^ 32) ≤ n * 2 + 1 - 2 ^ 32 := by
  rw [Int.bmod_def]
  norm_num at h ⊢
  split_ifs <;> omega

theorem rvalBufferSize_of_lt (h : s.length < 2 ^ 30) : rvalBufferSize s = s.length * 2 + 1 :=
  bmod_of_lt h

/-- A scalar is printed with a backslash in front of every quote, and nothing is lost, exactly if it
has no quote but at the end and is shorter than 2 ^ 30. -/
theorem rvalPrint_scalar_iff (s : CString) :
    rvalPrint (.scalar s) = .ok (withBackslashes s) ↔
      s.length < 2 ^ 30 ∧ ∀ c ∈ s.dropLast, isQuote c = false := by
  rw [rvalPrint, escapeQuotes]
  by_cases hlength : s.length < 2 ^ 30
  · have hsize : ¬ (s.length * 2 + 1 : Int) < 0 := by omega
    rw [rvalBufferSize_of_lt hlength, if_neg hsize, Except.ok.injEq, escapeQuotes_loop_eq_iff,
      and_iff_right hlength]
    have hnone : (∀ c ∈ s.dropLast, isQuote c = false) ↔ s.dropLast.countP isQuote = 0 := by
      rw [List.countP_eq_zero]
      simp
    rw [hnone]
    cases s with
    | nil => simp
    | cons c s =>
      rw [or_iff_right (List.cons_ne_nil _ _), List.length_cons]
      push_cast
      omega
  · have hsize : rvalBufferSize s ≤ _ := bmod_of_le (Nat.le_of_not_lt hlength)
    refine iff_of_false (fun h => ?_) fun h => hlength h.1
    split_ifs at h
    rw [Except.ok.injEq, escapeQuotes_loop_eq_iff] at h
    rcases h with rfl | h
    · exact hlength (by decide)
    · omega

/-- A quote at the start. -/
theorem rvalPrint_scalar_quote :
    rvalPrint (.scalar ['"', 'a']) ≠ .ok (withBackslashes ['"', 'a']) := by
  decide

end Cfengine
