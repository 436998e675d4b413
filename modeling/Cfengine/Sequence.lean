import Cfengine.Defs

/-!
# Sorting sequences (`sequence.c`)

`SequenceSort` with the elements that a call gets as a list. Positions count from the first of them,
and the right one may come to be in front of it. With the sorted elements comes the greatest
`maxterm` of any call, which the assertion bounds.
-/

namespace Cfengine

variable {α : Type*}

/-- `SequenceItemComparator` with its `user_data`. -/
abbrev SequenceItemComparator (α : Type*) := α → α → Int

variable (compare : SequenceItemComparator α) (pivot : α)

/-- The scan from the left. -/
def quickSortRecursive.scanLeft (data : List α) (l : Nat) : Except Fault Nat :=
  if h : l < data.length then
    if compare data[l] pivot < 0 then scanLeft data (l + 1) else .ok l
  else .error .outOfBounds
termination_by data.length - l

/-- The scan from the right. -/
def quickSortRecursive.scanRight (data : List α) (r : Int) : Except Fault Int :=
  if h : 0 ≤ r ∧ r.toNat < data.length then
    if 0 < compare data[r.toNat] pivot then scanRight data (r - 1) else .ok r
  else .error .outOfBounds
termination_by (r + 1).toNat

/-- `Swap` -/
def swap (data : List α) (i j : Nat) : List α :=
  match data[i]?, data[j]? with
  | some x, some y => (data.set i y).set j x
  | _, _ => data

variable {compare pivot}

theorem le_of_scanLeft {data : List α} {l l' : Nat}
    (h : quickSortRecursive.scanLeft compare pivot data l = .ok l') :
    l ≤ l' ∧ l' < data.length := by
  fun_induction quickSortRecursive.scanLeft compare pivot data l with
  | case1 l _ _ ih => exact ⟨(Nat.le_succ l).trans (ih h).1, (ih h).2⟩
  | case2 l hl _ => cases h; exact ⟨Nat.le_refl _, hl⟩
  | case3 => cases h

theorem le_of_scanRight {data : List α} {r r' : Int}
    (h : quickSortRecursive.scanRight compare pivot data r = .ok r') : r' ≤ r ∧ 0 ≤ r' := by
  fun_induction quickSortRecursive.scanRight compare pivot data r with
  | case1 r _ _ ih => exact ⟨(ih h).1.trans (Int.sub_le_self r (by decide)), (ih h).2⟩
  | case2 r hr _ => cases h; exact ⟨Int.le_refl _, hr.1⟩
  | case3 => cases h

@[simp] theorem length_swap (data : List α) (i j : Nat) : (swap data i j).length = data.length := by
  rw [swap]
  split <;> simp

variable (compare pivot)

/-- The loop that moves the elements to the side of the pivot that they belong to. -/
def quickSortRecursive.partition (data : List α) (l : Nat) (r : Int) :
    Except Fault (List α × Nat × Int) :=
  if (l : Int) ≤ r then
    match _hl : scanLeft compare pivot data l, _hr : scanRight compare pivot data r with
    | .ok l', .ok r' =>
      if (l' : Int) ≤ r' then partition (swap data l' r'.toNat) (l' + 1) (r' - 1)
      else .ok (data, l', r')
    | .error fault, _ => .error fault
    | _, .error fault => .error fault
  else .ok (data, l, r)
termination_by (r - l + 1).toNat
decreasing_by
  have := le_of_scanLeft _hl
  have := le_of_scanRight _hr
  omega

variable {compare pivot}

theorem le_of_partition {data data' : List α} {l l' : Nat} {r r' : Int}
    (h : quickSortRecursive.partition compare pivot data l r = .ok (data', l', r')) :
    data'.length = data.length ∧ l ≤ l' ∧ r' ≤ r := by
  fun_induction quickSortRecursive.partition compare pivot data l r with
  | case1 data l r _ i j hl hr _ ih =>
    obtain ⟨hlength, hle, hle'⟩ := ih h
    rw [length_swap] at hlength
    have := le_of_scanLeft hl
    have := le_of_scanRight hr
    exact ⟨hlength, by omega, by omega⟩
  | case2 data l r _ i j hl hr _ =>
    cases h
    exact ⟨rfl, (le_of_scanLeft hl).1, (le_of_scanRight hr).1⟩
  | case3 => cases h
  | case4 => cases h
  | case5 => cases h; exact ⟨rfl, Nat.le_refl _, Int.le_refl _⟩

/-- When the positions have crossed, each has moved. -/
theorem lt_of_partition {data data' : List α} {l l' : Nat} {r r' : Int} (hle : (l : Int) ≤ r)
    (hr : r < data.length)
    (h : quickSortRecursive.partition compare pivot data l r = .ok (data', l', r')) :
    data'.length = data.length ∧ 0 < l' ∧ r' + 1 < data.length := by
  rw [quickSortRecursive.partition, if_pos hle] at h
  split at h
  · next i j hi hj =>
    have := le_of_scanLeft hi
    have := le_of_scanRight hj
    split_ifs at h with hswap
    · have hrest := le_of_partition h
      rw [length_swap] at hrest
      omega
    · cases h
      omega
  · cases h
  · cases h

variable (compare)

/-- `QuickSortRecursive` on `data[0..n-1]`. -/
def quickSortRecursive (data : List α) (maxterm : Nat) : Except Fault (List α × Nat) :=
  if hn : data.length < 2 then .ok (data, maxterm)
  else
    match _h : quickSortRecursive.partition compare data[data.length / 2] data 0
        (data.length - 1) with
    | .error fault => .error fault
    | .ok (data', l, r) => do
      let (first, maxFirst) ← quickSortRecursive (data'.take (r + 1).toNat) (maxterm + 1)
      let (last, maxLast) ← quickSortRecursive (data'.drop l) (maxterm + 1)
      return (first ++ (data'.take l).drop (r + 1).toNat ++ last, max maxFirst maxLast)
termination_by data.length
decreasing_by
  · obtain ⟨_, _, _⟩ := lt_of_partition (by omega) (by omega) _h
    rw [List.length_take]
    omega
  · obtain ⟨_, _, _⟩ := lt_of_partition (by omega) (by omega) _h
    rw [List.length_drop]
    omega

/-- A length as an `int`. -/
def intOfLength (length : Nat) : Int := Int.bmod length (2 ^ 32)

/-- `SequenceSort`. A negative number of elements is none. -/
def sequenceSort (data : List α) : Except Fault (List α × Nat) := do
  let n := (intOfLength data.length).toNat
  let (sorted, maxterm) ← quickSortRecursive compare (data.take n) 0
  return (sorted ++ data.drop n, maxterm)

end Cfengine
