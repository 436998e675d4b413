import Cfengine.StringLib

/-!
# Slices of strings

`StringSubstring` counts from the end where the start or the length is negative, as a slice does.
The last character of its result is computed before the start is, and one character is nothing:
`substring_clips_iff` is where it returns the slice.
-/

namespace Cfengine

variable {source : CString} {start len s e : Int}

/-! ## Slices -/

/-- Where a slice starts. -/
def sliceStart (n start : Int) : Int := if start < 0 then n + start else start

/-- Where it ends. -/
def sliceEnd (n start len : Int) : Int :=
  if 0 < len then min n (sliceStart n start + len) else n + len

/-- The slice; nothing if it is empty. -/
def clippedSlice (source : CString) (start len : Int) : Option CString :=
  let s := sliceStart source.length start
  let e := sliceEnd source.length start len
  if s < e then some ((source.drop s.toNat).take (e - s).toNat) else none

/-- What is returned from this start up to this last character. -/
def substringTo (source : CString) (start : Int) («end» : Nat) : Except Fault (Option CString) :=
  if «end» ≤ toSizeT start then .ok none
  else if start < 0 ∨ source.length < start then .error .outOfBounds
  else .ok (some ((source.drop start.toNat).take («end» - start.toNat + 1)))

/-- The last character, as the code computes it. -/
def substringEnd (n start len : Int) : Nat :=
  min (toSizeT (if len < 0 then n + len - 1 else start + len - 1)) (toSizeT (n - 1))

theorem toSizeT_of_nonneg {n : Int} (hn : 0 ≤ n) (hlt : n < 2 ^ 64) : toSizeT n = n.toNat := by
  rw [toSizeT, Int.emod_eq_of_lt hn hlt]

theorem toSizeT_of_neg {n : Int} (hn : n < 0) (hge : -2 ^ 64 ≤ n) :
    toSizeT n = (n + 2 ^ 64).toNat := by
  rw [toSizeT, ← Int.add_emod_right, Int.emod_eq_of_lt (by omega) (by omega)]

theorem stringSubstring_eq (hlen : len ≠ 0) (hover : 0 < len → start + len < 2 ^ 31) :
    stringSubstring source source.length start len =
      substringTo source (if start < 0 then (source.length + start).bmod (2 ^ 32) else start)
        (substringEnd source.length start len) := by
  rw [stringSubstring, if_neg hlen, substringEnd]
  by_cases hneg : len < 0
  · rw [if_pos hneg, if_pos hneg]
    rfl
  · have hfits : ¬ 2 ^ 31 ≤ start + len := not_le.mpr (hover (by omega))
    rw [if_neg hneg, if_neg hneg, if_neg hfits]
    rfl

theorem stringSubstring_overflow (hlen : 0 < len) (hover : 2 ^ 31 ≤ start + len) :
    stringSubstring source source.length start len = .error .intOverflow := by
  rw [stringSubstring, if_neg (by omega), if_neg (by omega), if_pos hover]
  rfl

/-- Where the slice starts at the right place, the last character decides. -/
theorem substringTo_eq_iff {n : Nat} («end» : Nat) (hn : source.length = n) (hsize : n < 2 ^ 64)
    (hs : 0 ≤ s) (hlt : s < n) (hend : «end» < n) (he : e ≤ n) :
    substringTo source s «end» =
        .ok (if s < e then some ((source.drop s.toNat).take (e - s).toNat) else none) ↔
      («end» ≤ s ∧ e ≤ s) ∨ (s < «end» ∧ e = «end» + 1) := by
  have hstart : (toSizeT s : Int) = s := by
    rw [toSizeT_of_nonneg hs (by omega), Int.toNat_of_nonneg hs]
  rw [substringTo]
  by_cases hnone : «end» ≤ toSizeT s
  · rw [if_pos hnone]
    by_cases hslice : s < e
    · rw [if_pos hslice]
      exact iff_of_false (fun h => by cases h) (by omega)
    · rw [if_neg hslice]
      exact iff_of_true rfl (by omega)
  · rw [if_neg hnone, if_neg (by omega)]
    by_cases hslice : s < e
    · rw [if_pos hslice, Except.ok.injEq, Option.some.injEq, List.take_eq_take_iff,
        List.length_drop]
      omega
    · rw [if_neg hslice]
      exact iff_of_false (fun h => by cases h) (by omega)

/-! ## Where the slice is returned -/

section
variable {n : Nat} (hn : 1 ≤ n) (hsize : n < 2 ^ 64) (hmin : -2 ^ 31 ≤ start) (hlen : len ≠ 0)
  (hlenMin : -2 ^ 31 ≤ len) (hlenMax : len < 2 ^ 31)
include hn hsize hmin hlen hlenMin hlenMax

/-- The last character, where it is not too far from the start of the source. -/
theorem substringEnd_eq (hfits : 0 ≤ start ∨ n + start < 2 ^ 31)
    (hover : 0 < len → start + len < 2 ^ 31) :
    (substringEnd n start len : Int) =
      (if len < 0 then if n + len ≤ 0 then n - 1 else n + len - 1
      else if start + len ≤ 0 then n - 1 else min (start + len - 1) (n - 1) : Int) := by
  have hlast : toSizeT ((n : Int) - 1) = n - 1 := by
    rw [toSizeT_of_nonneg (by omega) (by omega)]
    omega
  rw [substringEnd, hlast]
  by_cases hneg : len < 0
  · rw [if_pos hneg, if_pos hneg]
    by_cases hshort : n + len ≤ 0
    · rw [if_pos hshort, toSizeT_of_neg (by omega) (by omega)]
      omega
    · rw [if_neg hshort, toSizeT_of_nonneg (by omega) (by omega)]
      omega
  · rw [if_neg hneg, if_neg hneg]
    by_cases hshort : start + len ≤ 0
    · rw [if_pos hshort, toSizeT_of_neg (by omega) (by omega)]
      omega
    · rw [if_neg hshort, toSizeT_of_nonneg (by omega) (by omega)]
      omega

end

/-- The slice is returned, where the start is in the first 2 GiB. -/
def SliceClips (n start len : Int) : Prop :=
  if 0 ≤ start then
    if 0 < len then 1 < len ∧ start + 1 < n ∧ start + len < 2 ^ 31
    else if n + len ≤ 0 then start + 1 = n
    else start + 1 ≠ n + len
  else
    if 0 < len then start ≠ -1 ∧ (start + len = 0 ∨ n ≤ start + len)
    else if n + len ≤ 0 then start = -1
    else start + 1 ≠ len

theorem clips_near {n : Nat} (hn : source.length = n) (hone : 1 ≤ n) (hsize : n < 2 ^ 64)
    (hmin : -2 ^ 31 ≤ start) (hlt : start < n) (hge : -n ≤ start) (hlen : len ≠ 0)
    (hlenMin : -2 ^ 31 ≤ len) (hlenMax : len < 2 ^ 31) (hfits : 0 ≤ start ∨ n + start < 2 ^ 31) :
    stringSubstring source source.length start len = .ok (clippedSlice source start len) ↔
      SliceClips n start len := by
  rw [clippedSlice, SliceClips, hn]
  by_cases hover : 0 < len → start + len < 2 ^ 31
  · have hend := substringEnd_eq hone hsize hmin hlen hlenMin hlenMax hfits hover
    have hstart : (if start < 0 then ((n : Int) + start).bmod (2 ^ 32) else start) =
        sliceStart n start := by
      rw [sliceStart]
      by_cases hneg : start < 0
      · rw [if_pos hneg, if_pos hneg, Int.bmod_eq_of_le (by omega) (by omega)]
      · rw [if_neg hneg, if_neg hneg]
    have hs : 0 ≤ sliceStart n start ∧ sliceStart n start < n := by
      rw [sliceStart]
      split_ifs <;> omega
    have he : sliceEnd n start len ≤ n := by
      rw [sliceEnd]
      split_ifs <;> omega
    have hlast : substringEnd n start len < n := by
      split_ifs at hend <;> omega
    rw [← hn, stringSubstring_eq hlen hover, hn, hstart,
      substringTo_eq_iff (substringEnd n start len) hn hsize hs.1 hs.2 hlast he, hend]
    rw [sliceEnd, sliceStart]
    split_ifs <;> omega
  · obtain ⟨hpos, hover⟩ := Classical.not_imp.mp hover
    rw [← hn, stringSubstring_overflow hpos (not_lt.mp hover)]
    refine iff_of_false (fun h => by cases h) ?_
    rw [if_pos (by omega), if_pos hpos]
    omega

/-- The slice is returned, where the start does not fit in an `int`: it is empty, or the same
characters stand somewhere else. -/
def WrapClips (source : CString) (start len : Int) : Prop :=
  let wrapped := (source.length + start).bmod (2 ^ 32)
  if 0 < len then
    start ≠ -1 ∧ 0 ≤ wrapped ∧ start + len = wrapped - start ∧
      (source.drop wrapped.toNat).take (-start).toNat = source.drop (source.length + start).toNat
  else wrapped < 0 ∧ len ≤ start

/-- The last character, where the start is that far away. -/
theorem substringEnd_far {n : Nat} (hsize : n < 2 ^ 64) (hmin : -2 ^ 31 ≤ start) (hneg : start < 0)
    (hlenMin : -2 ^ 31 ≤ len) (hlenMax : len < 2 ^ 31) (hfar : 2 ^ 31 ≤ n + start) :
    (substringEnd n start len : Int) =
      (if len < 0 then n + len - 1
      else if start + len ≤ 0 then min (start + len - 1 + 2 ^ 64) (n - 1)
      else start + len - 1 : Int) := by
  have hlast : toSizeT ((n : Int) - 1) = n - 1 := by
    rw [toSizeT_of_nonneg (by omega) (by omega)]
    omega
  rw [substringEnd, hlast]
  by_cases hshorter : len < 0
  · rw [if_pos hshorter, if_pos hshorter, toSizeT_of_nonneg (by omega) (by omega)]
    omega
  · rw [if_neg hshorter, if_neg hshorter]
    by_cases hshort : start + len ≤ 0
    · rw [if_pos hshort, toSizeT_of_neg (by omega) (by omega)]
      omega
    · rw [if_neg hshort, toSizeT_of_nonneg (by omega) (by omega)]
      omega

/-- In front of the source there is nothing to return. -/
theorem substringTo_of_neg {text : CString} («end» : Nat) (hs : s < 0) :
    substringTo source s «end» ≠ .ok (some text) := by
  have hfront : s < 0 ∨ (source.length : Int) < s := .inl hs
  rw [substringTo, if_pos hfront]
  split_ifs <;> exact fun h => by cases h

theorem clips_far {n : Nat} (hn : source.length = n) (hsize : n < 2 ^ 64) (hmin : -2 ^ 31 ≤ start)
    (hneg : start < 0) (hlen : len ≠ 0) (hlenMin : -2 ^ 31 ≤ len) (hlenMax : len < 2 ^ 31)
    (hfar : 2 ^ 31 ≤ n + start) :
    stringSubstring source source.length start len = .ok (clippedSlice source start len) ↔
      WrapClips source start len := by
  have hend := substringEnd_far hsize hmin hneg hlenMin hlenMax hfar
  obtain ⟨hlow, hhigh⟩ : -2 ^ 31 ≤ ((n : Int) + start).bmod (2 ^ 32) ∧
      ((n : Int) + start).bmod (2 ^ 32) < 2 ^ 31 :=
    ⟨Int.le_bmod (by decide), Int.bmod_lt (by decide)⟩
  obtain ⟨k, hk⟩ : ∃ k, (n : Int) + start = ((n : Int) + start).bmod (2 ^ 32) + 2 ^ 32 * k :=
    ⟨((n : Int) + start).bdiv (2 ^ 32), (Int.bmod_add_bdiv _ _).symm⟩
  rw [stringSubstring_eq hlen (by omega), if_pos hneg, WrapClips, clippedSlice, sliceEnd,
    sliceStart, if_pos hneg, hn]
  generalize ((n : Int) + start).bmod (2 ^ 32) = wrapped at hlow hhigh hk ⊢
  generalize substringEnd n start len = «end» at hend ⊢
  by_cases hpos : 0 < len
  · rw [if_neg (by omega)] at hend
    rw [if_pos hpos, if_pos hpos, if_pos (by omega)]
    by_cases hwrapped : wrapped < 0
    · exact iff_of_false (substringTo_of_neg «end» hwrapped) fun h =>
        absurd h.2.1 (not_le.mpr hwrapped)
    · have hstart : toSizeT wrapped = wrapped.toNat := toSizeT_of_nonneg (by omega) (by omega)
      rw [substringTo, hstart, hn]
      by_cases hnone : «end» ≤ wrapped.toNat
      · rw [if_pos hnone]
        refine iff_of_false (fun h => by cases h) fun ⟨hlast, _, hsum, _⟩ => ?_
        rw [if_neg (by omega)] at hend
        omega
      · rw [if_neg hnone, if_neg (by omega), Except.ok.injEq, Option.some.injEq]
        by_cases hshort : start + len ≤ 0
        · rw [if_pos hshort] at hend
          refine iff_of_false (fun h => ?_) fun ⟨_, _, hsum, _⟩ => by omega
          have hlength := congrArg List.length h
          rw [List.length_take, List.length_take, List.length_drop, List.length_drop, hn] at hlength
          omega
        · rw [if_neg hshort] at hend
          have hall : (source.drop (n + start).toNat).take
            (min (n : Int) (n + start + len) - (n + start)).toNat =
              source.drop (n + start).toNat := by
            rw [List.take_of_length_le]
            rw [List.length_drop]
            omega
          have hcount : «end» - wrapped.toNat + 1 = (start + len - wrapped).toNat := by omega
          rw [hall, hcount]
          constructor
          · intro h
            have hlength := congrArg List.length h
            rw [List.length_take, List.length_drop, List.length_drop, hn] at hlength
            have hsum : start + len = wrapped - start := by omega
            have hwidth : start + len - wrapped = -start := by omega
            rw [hwidth] at h
            exact ⟨by omega, by omega, hsum, h⟩
          · rintro ⟨-, -, hsum, h⟩
            have hwidth : start + len - wrapped = -start := by omega
            rw [hwidth]
            exact h
  · rw [if_pos (by omega)] at hend
    rw [if_neg hpos, if_neg hpos, substringTo]
    by_cases hwrapped : wrapped < 0
    · have hstart : toSizeT wrapped = (wrapped + 2 ^ 64).toNat := toSizeT_of_neg hwrapped (by omega)
      by_cases hle : len ≤ start
      · rw [hstart, if_pos (by omega), if_neg (by omega)]
        exact iff_of_true rfl ⟨hwrapped, hle⟩
      · rw [if_pos (show (n : Int) + start < n + len by omega)]
        exact iff_of_false (substringTo_of_neg «end» hwrapped) fun h => hle h.2
    · have hstart : toSizeT wrapped = wrapped.toNat := toSizeT_of_nonneg (by omega) (by omega)
      rw [hstart, if_neg (by omega), if_neg (by omega), Except.ok.injEq]
      refine iff_of_false (fun h => ?_) fun h => hwrapped h.1
      by_cases hlt : (n : Int) + start < n + len
      · rw [if_pos hlt, Option.some.injEq] at h
        have hlength := congrArg List.length h
        rw [List.length_take, List.length_take, List.length_drop, List.length_drop, hn] at hlength
        omega
      · rw [if_neg hlt] at h
        cases h

/-- Where the slice is returned. -/
def Clips (source : CString) (start len : Int) : Prop :=
  if start < 0 ∧ 2 ^ 31 ≤ source.length + start then WrapClips source start len
  else SliceClips source.length start len

/-- Exactly where it is. -/
theorem substring_clips_iff (hone : 1 ≤ source.length) (hsize : source.length < 2 ^ 64)
    (hge : -(source.length : Int) ≤ start) (hlt : start < source.length) (hmin : -2 ^ 31 ≤ start)
    (hlen : len ≠ 0) (hlenMin : -2 ^ 31 ≤ len) (hlenMax : len < 2 ^ 31) :
    stringSubstring source source.length start len = .ok (clippedSlice source start len) ↔
      Clips source start len := by
  rw [Clips]
  by_cases hfar : start < 0 ∧ 2 ^ 31 ≤ source.length + start
  · rw [if_pos hfar]
    exact clips_far rfl hsize hmin hfar.1 hlen hlenMin hlenMax hfar.2
  · rw [if_neg hfar]
    exact clips_near rfl hone hsize hmin hlt hge hlen hlenMin hlenMax (by omega)

/-- The last but one and the one in front of it, of six characters. -/
theorem substring_clips_negative :
    stringSubstring "abcdef".toList "abcdef".toList.length (-3) (-1) =
      .ok (clippedSlice "abcdef".toList (-3) (-1)) := by
  refine (substring_clips_iff (by decide) (by decide) (by decide) (by decide) (by decide)
    (by decide) (by decide)
    (by decide)).mpr ?_
  rw [Clips, if_neg (by decide), SliceClips, if_neg (by decide), if_neg (by decide),
    if_neg (by decide)]
  decide

/-- One character. -/
theorem substring_not_clips_one :
    stringSubstring "abcdef".toList "abcdef".toList.length 0 1 ≠
      .ok (clippedSlice "abcdef".toList 0 1) := by
  decide

end Cfengine
