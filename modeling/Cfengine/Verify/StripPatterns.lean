import Cfengine.Evalfunction

/-!
# Comment stripping

`StripPatterns` counts the matches that it removes, and takes a pattern for one that matches nothing
once the count is greater than the length of what is left. Many short comments do that as well
(`stripsComments_iff`).
-/

namespace Cfengine

/-- A pattern of comments, all of whose matches are non-empty. -/
structure CommentPattern where
  isMatch : CString → Nat → Nat → Prop
  start_lt {text start stop} : isMatch text start stop → start < stop
  stop_le {text start stop} : isMatch text start stop → stop ≤ text.length

namespace CommentPattern

/-- The text contains no match. -/
def Free (pattern : CommentPattern) (text : CString) : Prop :=
  ∀ start stop, ¬ pattern.isMatch text start stop

/-- The leftmost match is found. -/
structure Leftmost (pattern : CommentPattern) (blockTextMatch : CString → Option (Nat × Nat)) :
    Prop where
  free {text} : blockTextMatch text = none → pattern.Free text
  isMatch {text start stop} : blockTextMatch text = some (start, stop) →
    pattern.isMatch text start stop
  start_le {text start stop start' stop'} : blockTextMatch text = some (start, stop) →
    pattern.isMatch text start' stop' → start ≤ start'

end CommentPattern

/-- The text with so many matches removed in turn. -/
def removeMatches (blockTextMatch : CString → Option (Nat × Nat)) : Nat → CString → Option CString
  | 0, text => some text
  | n + 1, text =>
    match blockTextMatch text with
    | none => none
    | some (start, stop) => removeMatches blockTextMatch n (text.take start ++ text.drop stop)

/-- The text is free of comments, and is what is left when the matches are removed in turn. -/
def Stripped (pattern : CommentPattern) (blockTextMatch : CString → Option (Nat × Nat))
    (text result : CString) :
    Prop :=
  (∃ n, removeMatches blockTextMatch n text = some result) ∧ pattern.Free result

variable {pattern : CommentPattern} {blockTextMatch : CString → Option (Nat × Nat)}
  {text rest result : CString}
  {start stop n count fuel fuel' : Nat}

namespace CommentPattern.Leftmost

theorem eq_none (h : pattern.Leftmost blockTextMatch) (hfree : pattern.Free text) :
    blockTextMatch text = none := by
  cases hmatch : blockTextMatch text with
  | none => rfl
  | some position => exact absurd (h.isMatch hmatch) (hfree _ _)

theorem closeStringHole_eq (h : pattern.Leftmost blockTextMatch)
    (hmatch : blockTextMatch text = some (start, stop)) :
    closeStringHole text start stop = text.take start ++ text.drop stop := by
  have hlt := pattern.start_lt (h.isMatch hmatch)
  rw [closeStringHole, if_neg (by omega)]

/-- Each removal leaves less of the text. -/
theorem length_lt (h : pattern.Leftmost blockTextMatch)
    (hmatch : blockTextMatch text = some (start, stop)) :
    (text.take start ++ text.drop stop).length < text.length := by
  have hlt := pattern.start_lt (h.isMatch hmatch)
  have hle := pattern.stop_le (h.isMatch hmatch)
  rw [List.length_append, List.length_take, List.length_drop]
  omega

end CommentPattern.Leftmost

theorem removeMatches_none (hmatch : blockTextMatch text = none) :
    removeMatches blockTextMatch (n + 1) text = none := by
  rw [removeMatches, hmatch]

theorem removeMatches_succ (hmatch : blockTextMatch text = some (start, stop)) :
    removeMatches blockTextMatch (n + 1) text =
      removeMatches blockTextMatch n (text.take start ++ text.drop stop) := by
  rw [removeMatches, hmatch]

/-- A text with a match is stripped by stripping what is left when that is removed. -/
theorem stripped_step (h : pattern.Leftmost blockTextMatch)
    (hmatch : blockTextMatch text = some (start, stop)) :
    Stripped pattern blockTextMatch text result ↔
      Stripped pattern blockTextMatch (text.take start ++ text.drop stop) result := by
  refine and_congr_left fun hfree => ⟨fun ⟨n, hn⟩ => ?_, fun ⟨n, hn⟩ => ⟨n + 1, ?_⟩⟩
  · cases n with
    | zero =>
      cases hn
      exact absurd (h.isMatch hmatch) (hfree _ _)
    | succ n => exact ⟨n, removeMatches_succ hmatch ▸ hn⟩
  · rw [removeMatches_succ hmatch, hn]

/-- The loop does not run out of fuel, as each step shortens the text. -/
theorem stripPatterns_loop_fuel (h : pattern.Leftmost blockTextMatch) (hfuel : text.length < fuel)
    (hfuel' : text.length < fuel') :
    stripPatterns.loop blockTextMatch fuel count text = stripPatterns.loop blockTextMatch fuel'
      count text := by
  induction fuel generalizing count text fuel' with
  | zero => exact absurd hfuel (Nat.not_lt_zero _)
  | succ fuel ih =>
    cases fuel' with
    | zero => exact absurd hfuel' (Nat.not_lt_zero _)
    | succ fuel' =>
      cases hmatch : blockTextMatch text with
      | none => rw [stripPatterns.loop, stripPatterns.loop, hmatch]
      | some position =>
        obtain ⟨start, stop⟩ := position
        have hlt := h.length_lt hmatch
        rw [stripPatterns.loop, stripPatterns.loop, hmatch]
        simp only [h.closeStringHole_eq hmatch]
        split
        · rfl
        · exact ih (by omega) (by omega)

/-- What the loop makes of the text from a count on: it does not stop early as long as each text
with a match left is not shorter than the count is by then. -/
theorem stripped_loop_iff (h : pattern.Leftmost blockTextMatch) (hfuel : text.length < fuel) :
    Stripped pattern blockTextMatch text (stripPatterns.loop blockTextMatch fuel count text) ↔
      ∀ n rest, removeMatches blockTextMatch (n + 1) text = some rest → ¬ pattern.Free rest →
        count + n ≤ rest.length := by
  induction fuel generalizing count text with
  | zero => exact absurd hfuel (Nat.not_lt_zero _)
  | succ fuel ih =>
    rw [stripPatterns.loop]
    cases hmatch : blockTextMatch text with
    | none =>
      refine iff_of_true ⟨⟨0, rfl⟩, h.free hmatch⟩ fun n rest hrest => ?_
      rw [removeMatches_none hmatch] at hrest
      cases hrest
    | some position =>
      obtain ⟨start, stop⟩ := position
      have hlt := h.length_lt hmatch
      simp only [h.closeStringHole_eq hmatch, stripped_step h hmatch, removeMatches_succ hmatch]
      generalize text.take start ++ text.drop stop = left at hlt ⊢
      split
      · rename_i hcount
        constructor
        · rintro ⟨-, hfree⟩ n rest hrest hmatch
          cases n with
          | zero =>
            cases hrest
            exact absurd hfree hmatch
          | succ n =>
            rw [removeMatches_none (h.eq_none hfree)] at hrest
            cases hrest
        · refine fun hle => ⟨⟨0, rfl⟩, ?_⟩
          by_contra hfree
          have := hle 0 left rfl hfree
          omega
      · rename_i hcount
        rw [ih (by omega)]
        constructor
        · intro hle n rest hrest hfree
          cases n with
          | zero =>
            cases hrest
            omega
          | succ n =>
            have := hle n rest hrest hfree
            omega
        · intro hle n rest hrest hfree
          have := hle (n + 1) rest hrest hfree
          omega

/-- Stripping ends and is complete just if no match is left in a text that is shorter than the
number of matches removed in front of the last one. -/
theorem stripsComments_iff (pattern : CommentPattern)
    (blockTextMatch : CString → Option (Nat × Nat)) (h : pattern.Leftmost blockTextMatch)
    (text : CString) :
    ((∀ fuel > text.length,
        stripPatterns.loop blockTextMatch fuel 0 text = stripPatterns (some blockTextMatch) text) ∧
        Stripped pattern blockTextMatch text (stripPatterns (some blockTextMatch) text)) ↔
      ∀ n rest, removeMatches blockTextMatch (n + 1) text = some rest → ¬ pattern.Free rest →
        n ≤ rest.length := by
  have hends : ∀ fuel > text.length,
      stripPatterns.loop blockTextMatch fuel 0 text = stripPatterns (some blockTextMatch) text :=
    fun fuel hfuel => stripPatterns_loop_fuel h hfuel (by omega)
  rw [and_iff_right hends, stripPatterns, stripped_loop_iff h (by omega)]
  simp only [Nat.zero_add]

/-- The pattern `#`. -/
def hashPattern : CommentPattern where
  isMatch text start stop := text[start]? = some '#' ∧ stop = start + 1
  start_lt h := by omega
  stop_le h := by
    have := (List.getElem?_eq_some_iff.mp h.1).1
    omega

def hashMatch (text : CString) : Option (Nat × Nat) :=
  (text.findIdx? (· = '#')).map fun start => (start, start + 1)

theorem leftmost_hashMatch : hashPattern.Leftmost hashMatch where
  free {text} h start stop hmatch := by
    have hnone := List.findIdx?_eq_none_iff.mp (Option.map_eq_none_iff.mp h)
    have := hnone _ (List.mem_of_getElem? hmatch.1)
    simp at this
  isMatch {text start stop} h := by
    obtain ⟨i, hi, hposition⟩ := Option.map_eq_some_iff.mp h
    cases hposition
    obtain ⟨hlt, hhash, -⟩ := List.findIdx?_eq_some_iff_getElem.mp hi
    exact ⟨List.getElem?_eq_some_iff.mpr ⟨hlt, of_decide_eq_true hhash⟩, rfl⟩
  start_le {text start stop start' stop'} h hmatch := by
    obtain ⟨i, hi, hposition⟩ := Option.map_eq_some_iff.mp h
    cases hposition
    obtain ⟨hlt, -, hbefore⟩ := List.findIdx?_eq_some_iff_getElem.mp hi
    by_contra hstart
    obtain ⟨_, hhash⟩ := List.getElem?_eq_some_iff.mp hmatch.1
    exact hbefore start' (by omega) (decide_eq_true hhash)

/-- One comment is stripped. -/
theorem stripsComments_one :
    (∀ fuel > 3, stripPatterns.loop hashMatch fuel 0 "a#b".toList = stripPatterns (some hashMatch)
      "a#b".toList) ∧
      Stripped hashPattern hashMatch "a#b".toList
        (stripPatterns (some hashMatch) "a#b".toList) := by
  refine (stripsComments_iff hashPattern hashMatch leftmost_hashMatch "a#b".toList).mpr
    fun n rest hrest _ => ?_
  cases n with
  | zero => exact Nat.zero_le _
  | succ n => cases hrest

/-- Of four comments, the last is kept. -/
theorem not_stripped_hashes :
    ¬ Stripped hashPattern hashMatch "####".toList
      (stripPatterns (some hashMatch) "####".toList) := by
  rintro ⟨-, hfree⟩
  exact hfree 0 1 ⟨rfl, rfl⟩

end Cfengine
