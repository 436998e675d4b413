import Cfengine.Sequence

/-!
# Sorting sequences

The pivot, and then the elements that were moved last, stop the scans inside the elements of the
call. So `QuickSortRecursive` sorts them, and each call has fewer elements than the call it is made
from, by one only if the pivot is the greatest of them: there are inputs whose recursion is as deep
as they are long.
-/

namespace Cfengine
open quickSortRecursive

variable {α : Type*} {compare : SequenceItemComparator α} {pivot x y : α} {data data' : List α}
  {i j k l l' n maxterm : Nat} {r r' : Int}

/-- A comparator for a total preorder. -/
structure TotalPreorder (compare : SequenceItemComparator α) : Prop where
  swap : ∀ x y, 0 < compare x y ↔ compare y x < 0
  trans : ∀ x y z, compare x y ≤ 0 → compare y z ≤ 0 → compare x z ≤ 0

theorem TotalPreorder.refl (h : TotalPreorder compare) (x : α) : compare x x = 0 := by
  have := h.swap x x
  omega

/-! ## The elements after a swap -/

theorem getElem?_swap (hi : i < data.length) (hj : j < data.length) (k : Nat) :
    (swap data i j)[k]? = if k = j then data[i]? else if k = i then data[j]? else data[k]? := by
  rw [swap, List.getElem?_eq_getElem hi, List.getElem?_eq_getElem hj]
  dsimp only
  rw [List.getElem?_set, List.getElem?_set, List.length_set]
  grind

theorem perm_swap (data : List α) (i j : Nat) : (swap data i j).Perm data := by
  rw [swap]
  split
  · next x y hx hy =>
    obtain ⟨hi, rfl⟩ := List.getElem?_eq_some_iff.mp hx
    obtain ⟨hj, rfl⟩ := List.getElem?_eq_some_iff.mp hy
    exact List.set_set_perm hi hj
  · exact .refl _

/-! ## Scans -/

/-- The scan stops at the leftmost element that is not less than the pivot. -/
theorem scanLeft_eq_ok (h : scanLeft compare pivot data l = .ok k) :
    (∀ i, l ≤ i → i < k → ∀ x ∈ data[i]?, compare x pivot < 0) ∧
      ∃ x ∈ data[k]?, 0 ≤ compare x pivot := by
  fun_induction scanLeft compare pivot data l with
  | case1 l hl hlt ih =>
    obtain ⟨hbefore, hstop⟩ := ih h
    refine ⟨fun i hli hik x hx => ?_, hstop⟩
    rcases Nat.eq_or_lt_of_le hli with rfl | hgt
    · rw [List.getElem?_eq_getElem hl] at hx
      cases hx
      exact hlt
    · exact hbefore i hgt hik x hx
  | case2 l hl hge =>
    cases h
    exact ⟨fun i hli hil => absurd hli (Nat.not_le.mpr hil),
      _, List.getElem?_eq_getElem hl, Int.not_lt.mp hge⟩
  | case3 => cases h

theorem scanLeft_ne_error {fault : Fault} (hstop : ∃ i ≥ l, ∃ x ∈ data[i]?, 0 ≤ compare x pivot) :
    scanLeft compare pivot data l ≠ .error fault := by
  obtain ⟨i, hli, x, hx, hge⟩ := hstop
  fun_induction scanLeft compare pivot data l with
  | case1 l hl hlt ih =>
    refine ih (Nat.lt_of_le_of_ne hli ?_)
    rintro rfl
    rw [List.getElem?_eq_getElem hl] at hx
    cases hx
    omega
  | case2 => exact fun h => by cases h
  | case3 l hl =>
    have := (List.getElem?_eq_some_iff.mp hx).1
    omega

theorem scanLeft_of_lt (hlt : ∀ i, l ≤ i → i < k → ∀ x ∈ data[i]?, compare x pivot < 0)
    (hle : l ≤ k) (hx : x ∈ data[k]?) (hstop : 0 ≤ compare x pivot) :
    scanLeft compare pivot data l = .ok k := by
  cases h : scanLeft compare pivot data l with
  | error => exact absurd h (scanLeft_ne_error ⟨k, hle, x, hx, hstop⟩)
  | ok j =>
    obtain ⟨hbefore, y, hy, hge⟩ := scanLeft_eq_ok h
    have hlj := (le_of_scanLeft h).1
    rcases Nat.lt_trichotomy j k with hjk | rfl | hkj
    · exact absurd (hlt j hlj hjk y hy) (Int.not_lt.mpr hge)
    · rfl
    · exact absurd (hbefore k hle hkj x hx) (Int.not_lt.mpr hstop)

/-- The scan stops at the rightmost element that is not greater than the pivot. -/
theorem scanRight_eq_ok (h : scanRight compare pivot data r = .ok r') :
    (∀ i : Nat, r' < i → i ≤ r → ∀ x ∈ data[i]?, 0 < compare x pivot) ∧
      ∃ x ∈ data[r'.toNat]?, compare x pivot ≤ 0 := by
  fun_induction scanRight compare pivot data r with
  | case1 r hr hgt ih =>
    obtain ⟨hbehind, hstop⟩ := ih h
    refine ⟨fun i hi hir x hx => ?_, hstop⟩
    rcases Int.lt_or_eq_of_le hir with hlt | heq
    · exact hbehind i hi (by omega) x hx
    · obtain rfl : r.toNat = i := by omega
      rw [List.getElem?_eq_getElem hr.2] at hx
      cases hx
      exact hgt
  | case2 r hr hle =>
    cases h
    exact ⟨fun i hi hir => absurd hi (Int.not_lt.mpr hir),
      _, List.getElem?_eq_getElem hr.2, Int.not_lt.mp hle⟩
  | case3 => cases h

theorem scanRight_ne_error {fault : Fault} (hr : r < data.length)
    (hstop : ∃ i : Nat, i ≤ r ∧ ∃ x ∈ data[i]?, compare x pivot ≤ 0) :
    scanRight compare pivot data r ≠ .error fault := by
  obtain ⟨i, hir, x, hx, hle⟩ := hstop
  fun_induction scanRight compare pivot data r with
  | case1 r hr' hgt ih =>
    refine ih (by omega) ?_
    have hne : i ≠ r.toNat := by
      rintro rfl
      rw [List.getElem?_eq_getElem hr'.2] at hx
      cases hx
      omega
    omega
  | case2 => exact fun h => by cases h
  | case3 r hr' => omega

/-! ## Partitions -/

/-- The elements in front of `l` are not greater than the pivot, those behind `r` not less. -/
structure Partitioned (compare : SequenceItemComparator α) (pivot : α) (data : List α)
    (l : Nat) (r : Int) :
    Prop where
  left : ∀ i < l, ∀ x ∈ data[i]?, compare x pivot ≤ 0
  right : ∀ i : Nat, r < i → ∀ x ∈ data[i]?, 0 ≤ compare x pivot

/-- While the positions have not crossed, both scans are stopped. -/
structure Stopped (compare : SequenceItemComparator α) (pivot : α) (data : List α)
    (l : Nat) (r : Int) :
    Prop where
  right_lt : r < data.length
  left : ∃ i ≥ l, ∃ x ∈ data[i]?, 0 ≤ compare x pivot
  right : ∃ i : Nat, i ≤ r ∧ ∃ x ∈ data[i]?, compare x pivot ≤ 0

theorem Partitioned.scanned (h : Partitioned compare pivot data l r)
    (hi : scanLeft compare pivot data l = .ok i) (hj : scanRight compare pivot data r = .ok r') :
    Partitioned compare pivot data i r' := by
  constructor
  · intro k hk x hx
    rcases Nat.lt_or_ge k l with hlt | hge
    · exact h.left k hlt x hx
    · exact ((scanLeft_eq_ok hi).1 k hge hk x hx).le
  · intro k hk x hx
    rcases Int.lt_or_le r k with hlt | hge
    · exact h.right k hlt x hx
    · exact ((scanRight_eq_ok hj).1 k hk hge x hx).le

/-- The step of the loop. -/
theorem Partitioned.swapped (h : Partitioned compare pivot data l r)
    (hi : scanLeft compare pivot data l = .ok i) (hj : scanRight compare pivot data r = .ok r')
    (hr : r < data.length) (hle : (i : Int) ≤ r') :
    Partitioned compare pivot (swap data i r'.toNat) (i + 1) (r' - 1) ∧
      (((i + 1 : Nat) : Int) ≤ r' - 1 →
        Stopped compare pivot (swap data i r'.toNat) (i + 1) (r' - 1)) := by
  obtain ⟨j, rfl⟩ := Int.eq_ofNat_of_zero_le (le_of_scanRight hj).2
  have hscanned := h.scanned hi hj
  obtain ⟨-, x, hx, hxge⟩ := scanLeft_eq_ok hi
  obtain ⟨-, y, hy, hyle⟩ := scanRight_eq_ok hj
  have hilt := (le_of_scanLeft hi).2
  have hjlt : j < data.length := by
    have := (le_of_scanRight hj).1
    omega
  have hget (k : Nat) := getElem?_swap hilt hjlt k
  rw [Int.toNat_natCast] at hy ⊢
  have hstopped (hcross : ((i + 1 : Nat) : Int) ≤ (j : Int) - 1) :
      Stopped compare pivot (swap data i j) (i + 1) ((j : Int) - 1) := by
    refine ⟨?_, ⟨j, by omega, x, ?_, hxge⟩, ⟨i, by omega, y, ?_, hyle⟩⟩
    · rw [length_swap]
      omega
    · rwa [hget, if_pos rfl]
    · rwa [hget, if_neg (by omega), if_pos rfl]
  refine ⟨⟨fun k hk z hz => ?_, fun k hk z hz => ?_⟩, hstopped⟩
  · rw [hget] at hz
    split_ifs at hz with hkj hki
    · obtain rfl : i = j := by omega
      rw [hy] at hz
      cases hz
      exact hyle
    · rw [hy] at hz
      cases hz
      exact hyle
    · exact hscanned.left k (by omega) z hz
  · rw [hget] at hz
    split_ifs at hz with hkj hki
    · rw [hx] at hz
      cases hz
      exact hxge
    · omega
    · exact hscanned.right k (by omega) z hz

/-- The elements are moved to the side of the pivot that they belong to, and no scan leaves them. -/
theorem partition_spec (h : Partitioned compare pivot data l r)
    (hstopped : (l : Int) ≤ r → Stopped compare pivot data l r) :
    ∃ data' l' r', partition compare pivot data l r = .ok (data', l', r') ∧ data'.Perm data ∧
      Partitioned compare pivot data' l' r' ∧ r' < l' := by
  fun_induction partition compare pivot data l r with
  | case1 data l r hle i j hi hj hswap ih =>
    obtain ⟨hnext, hnextStopped⟩ := h.swapped hi hj (hstopped hle).right_lt hswap
    obtain ⟨data', l', r', heq, hperm, hpart, hlt⟩ := ih hnext hnextStopped
    exact ⟨data', l', r', heq, hperm.trans (perm_swap ..), hpart, hlt⟩
  | case2 data l r hle i j hi hj hcross =>
    exact ⟨data, i, j, rfl, .refl _, h.scanned hi hj, Int.not_le.mp hcross⟩
  | case3 data l r hle fault hi =>
    exact absurd hi (scanLeft_ne_error (hstopped hle).left)
  | case4 data l r hle fault hj =>
    exact absurd hj (scanRight_ne_error (hstopped hle).right_lt (hstopped hle).right)
  | case5 data l r hcross => exact ⟨data, l, r, rfl, .refl _, h, Int.not_le.mp hcross⟩

/-! ## Recursion -/

/-- The pivot stops the first scans. -/
theorem stopped_start (hcompare : TotalPreorder compare) (hi : i < data.length) :
    Stopped compare data[i] data 0 (data.length - 1) := by
  refine ⟨by omega, ⟨i, Nat.zero_le _, data[i], List.getElem?_eq_getElem hi, ?_⟩,
    ⟨i, by omega, data[i], List.getElem?_eq_getElem hi, ?_⟩⟩
  · exact (hcompare.refl _).ge
  · exact (hcompare.refl _).le

variable (pivot) in
theorem partitioned_start : Partitioned compare pivot data 0 (data.length - 1) := by
  constructor
  · exact fun i hi => absurd hi (Nat.not_lt_zero i)
  · intro i hi x hx
    have := (List.getElem?_eq_some_iff.mp hx).1
    omega

theorem Partitioned.compare_le (hcompare : TotalPreorder compare)
    (h : Partitioned compare pivot data l r) (hx : x ∈ data.take l)
    (hy : y ∈ data.drop (r + 1).toNat) : compare x y ≤ 0 := by
  obtain ⟨i, hi, rfl⟩ := List.mem_take_iff_getElem.mp hx
  obtain ⟨j, hj, rfl⟩ := List.mem_drop_iff_getElem.mp hy
  have hxle := h.left i (by omega) _ (List.getElem?_eq_getElem (by omega))
  have hyge := h.right ((r + 1).toNat + j) (by omega) _ (List.getElem?_eq_getElem (by omega))
  refine hcompare.trans _ pivot _ hxle (Int.not_lt.mp fun hlt => ?_)
  exact absurd ((hcompare.swap _ _).mp hlt) (Int.not_lt.mpr hyge)

/-- Sorted parts on both sides of elements that are equivalent to the pivot. -/
theorem sorted_parts (hcompare : TotalPreorder compare) {first last : List α}
    (h : Partitioned compare pivot data l r) (hlt : r < l)
    (hfirst : first.Perm (data.take (r + 1).toNat)) (hlast : last.Perm (data.drop l))
    (hfirstSorted : first.Pairwise fun x y => compare x y ≤ 0)
    (hlastSorted : last.Pairwise fun x y => compare x y ≤ 0) :
    (first ++ (data.take l).drop (r + 1).toNat ++ last).Perm data ∧
      (first ++ (data.take l).drop (r + 1).toNat ++ last).Pairwise fun x y => compare x y ≤ 0 := by
  have hle : (r + 1).toNat ≤ l := by omega
  have htake : data.take (r + 1).toNat ++ (data.take l).drop (r + 1).toNat = data.take l := by
    have := List.take_append_drop (r + 1).toNat (data.take l)
    rwa [List.take_take, Nat.min_eq_left hle] at this
  have hperm : (first ++ (data.take l).drop (r + 1).toNat).Perm (data.take l) := by
    have := hfirst.append_right ((data.take l).drop (r + 1).toNat)
    rwa [htake] at this
  have hmid : ∀ y ∈ (data.take l).drop (r + 1).toNat, y ∈ data.take l ∧
      y ∈ data.drop (r + 1).toNat := by
    intro y hy
    refine ⟨List.mem_of_mem_drop hy, ?_⟩
    rw [List.drop_take] at hy
    exact List.mem_of_mem_take hy
  constructor
  · have := hperm.append hlast
    rwa [List.take_append_drop] at this
  · refine List.pairwise_append.mpr ⟨List.pairwise_append.mpr ⟨hfirstSorted, ?_, ?_⟩, hlastSorted,
      ?_⟩
    · exact List.pairwise_of_forall_mem_list fun x hx y hy =>
        h.compare_le hcompare (hmid x hx).1 (hmid y hy).2
    · intro x hx y hy
      refine h.compare_le hcompare ?_ (hmid y hy).2
      exact List.mem_of_mem_take ((List.take_take ▸ Nat.min_eq_left hle ▸ hfirst.mem_iff.mp hx))
    · intro x hx y hy
      refine h.compare_le hcompare (hperm.mem_iff.mp hx) ?_
      exact List.drop_subset_drop_left data hle (hlast.mem_iff.mp hy)

theorem quickSortRecursive_of_partition (hn : 2 ≤ data.length)
    (h : partition compare data[data.length / 2] data 0 (data.length - 1) = .ok (data', l, r)) :
    quickSortRecursive compare data maxterm = do
      let first ← quickSortRecursive compare (data'.take (r + 1).toNat) (maxterm + 1)
      let last ← quickSortRecursive compare (data'.drop l) (maxterm + 1)
      return (first.1 ++ (data'.take l).drop (r + 1).toNat ++ last.1, max first.2 last.2) := by
  rw [quickSortRecursive, dif_neg (Nat.not_lt.mpr hn)]
  split
  · next heq => rw [h] at heq; cases heq
  · next heq =>
    rw [h] at heq
    cases heq
    rfl

/-- Within the elements, and no deeper than there are elements. -/
theorem quickSortRecursive_spec (hcompare : TotalPreorder compare) (data : List α) (maxterm : Nat) :
    ∃ sorted depth, quickSortRecursive compare data maxterm = .ok (sorted, depth) ∧
      sorted.Perm data ∧
      sorted.Pairwise (fun x y => compare x y ≤ 0) ∧ depth ≤ maxterm + (data.length - 1) := by
  induction hlength : data.length using Nat.strong_induction_on generalizing data maxterm with
  | _ n ih =>
    by_cases hshort : data.length < 2
    · rw [quickSortRecursive, dif_pos hshort]
      refine ⟨data, maxterm, rfl, .refl _, ?_, Nat.le_add_right _ _⟩
      exact List.pairwise_iff_getElem.mpr fun i j hi hj hij => by omega
    · obtain ⟨data', l, r, hpartition, hperm, hpart, hlt⟩ := partition_spec
        (partitioned_start data[data.length / 2])
        fun _ => stopped_start hcompare (by omega)
      have hbounds := lt_of_partition (by omega) (by omega) hpartition
      obtain ⟨first, depthFirst, hfirst, hfirstPerm, hfirstSorted, hfirstDepth⟩ :=
        ih _ (by rw [List.length_take]; omega) (data'.take (r + 1).toNat) (maxterm + 1) rfl
      obtain ⟨last, depthLast, hlast, hlastPerm, hlastSorted, hlastDepth⟩ :=
        ih _ (by rw [List.length_drop]; omega) (data'.drop l) (maxterm + 1) rfl
      obtain ⟨hall, hsorted⟩ := sorted_parts hcompare hpart hlt hfirstPerm hlastPerm hfirstSorted
        hlastSorted
      refine ⟨_, max depthFirst depthLast, ?_, hall.trans hperm, hsorted, ?_⟩
      · rw [quickSortRecursive_of_partition (Nat.not_lt.mp hshort) hpartition, hfirst, hlast]
        rfl
      · rw [List.length_take] at hfirstDepth
        rw [List.length_drop] at hlastDepth
        omega

/-- How many elements are sorted. -/
def sortedLength (data : List α) : Nat := (intOfLength data.length).toNat

theorem sequenceSort_eq (hcompare : TotalPreorder compare) (data : List α) :
    ∃ sorted depth, sequenceSort compare data =
      .ok (sorted ++ data.drop (sortedLength data), depth) ∧
      sorted.Perm (data.take (sortedLength data)) ∧ sorted.Pairwise (fun x y => compare x y ≤ 0) ∧
      depth ≤ sortedLength data - 1 := by
  obtain ⟨sorted, depth, heq, hperm, hsorted, hdepth⟩ :=
    quickSortRecursive_spec hcompare (data.take (sortedLength data)) 0
  refine ⟨sorted, depth, ?_, hperm, hsorted, ?_⟩
  · change ((quickSortRecursive compare (data.take (sortedLength data)) 0) >>= _) = _
    rw [heq]
    rfl
  · rw [List.length_take] at hdepth
    omega

/-- The elements in nondecreasing order, and no access outside. -/
def SortsSequence (compare : SequenceItemComparator α) (data : List α) : Prop :=
  ∃ sorted depth, sequenceSort compare data = .ok (sorted, depth) ∧ sorted.Perm data ∧
    sorted.Pairwise fun x y => compare x y ≤ 0

/-- The sequence is sorted exactly if what is behind the first `n` elements is in its place already,
as it is where nothing is. -/
theorem sortsSequence_iff (hcompare : TotalPreorder compare) (data : List α) :
    SortsSequence compare data ↔
      (data.drop (sortedLength data)).Pairwise (fun x y => compare x y ≤ 0) ∧
        ∀ x ∈ data.take (sortedLength data), ∀ y ∈ data.drop (sortedLength data),
          compare x y ≤ 0 := by
  obtain ⟨sorted, depth, heq, hperm, hsorted, -⟩ := sequenceSort_eq hcompare data
  have hall : (sorted ++ data.drop (sortedLength data)).Perm data := by
    have := hperm.append_right (data.drop (sortedLength data))
    rwa [List.take_append_drop] at this
  constructor
  · rintro ⟨sorted', depth', heq', -, hsorted'⟩
    rw [heq] at heq'
    cases heq'
    obtain ⟨-, hrest, hbetween⟩ := List.pairwise_append.mp hsorted'
    exact ⟨hrest, fun x hx y hy => hbetween x (hperm.mem_iff.mpr hx) y hy⟩
  · rintro ⟨hrest, hbetween⟩
    exact ⟨_, depth, heq, hall,
      List.pairwise_append.mpr
      ⟨hsorted, hrest, fun x hx y hy => hbetween x (hperm.mem_iff.mp hx) y hy⟩⟩

theorem sortedLength_of_lt (h : data.length < 2 ^ 31) : sortedLength data = data.length := by
  have hint : intOfLength data.length = data.length := by
    change Int.bmod (data.length : Int) (2 ^ 32) = data.length
    rw [Int.bmod_def]
    norm_num at h ⊢
    split_ifs <;> omega
  rw [sortedLength, hint, Int.toNat_natCast]

/-- Every sequence with a length that an `int` can hold is sorted. -/
theorem sortsSequence_of_length_lt (hcompare : TotalPreorder compare) (h : data.length < 2 ^ 31) :
    SortsSequence compare data := by
  obtain ⟨sorted, depth, heq, hperm, hsorted, -⟩ := sequenceSort_eq hcompare data
  rw [sortedLength_of_lt h, List.drop_length, List.append_nil] at heq
  rw [sortedLength_of_lt h, List.take_length] at hperm
  exact ⟨sorted, depth, heq, hperm, hsorted⟩

theorem totalPreorder_sub : TotalPreorder fun x y : Nat => (x : Int) - y :=
  ⟨fun _ _ => by omega, fun _ _ _ _ _ => by omega⟩

/-- Three elements. -/
theorem sortsSequence_three : SortsSequence (fun x y : Nat => (x : Int) - y) [3, 1, 2] ↔
    ([3, 1, 2].drop (sortedLength [3, 1, 2])).Pairwise (fun x y : Nat => (x : Int) - y ≤ 0) ∧
      ∀ x ∈ [3, 1, 2].take (sortedLength [3, 1, 2]), ∀ y ∈ [3, 1, 2].drop (sortedLength [3, 1, 2]),
        ((x : Nat) : Int) - (y : Nat) ≤ 0 :=
  sortsSequence_iff totalPreorder_sub _

/-- A length that is a negative `int`. -/
theorem sortsSequence_long :
    ¬ SortsSequence (fun x y : Nat => (x : Int) - y) (1 :: List.replicate (2 ^ 31 - 1) 0) := by
  have hlength : sortedLength (1 :: List.replicate (2 ^ 31 - 1) 0) = 0 := by
    rw [sortedLength, List.length_cons, List.length_replicate]
    decide
  rintro ⟨sorted, depth, heq, -, hsorted⟩
  obtain ⟨first, depth', heq', hperm, -⟩ :=
    sequenceSort_eq totalPreorder_sub (1 :: List.replicate (2 ^ 31 - 1) 0)
  rw [hlength, List.drop_zero] at heq'
  rw [heq'] at heq
  cases heq
  have hrest := (List.pairwise_append.mp hsorted).2.1
  have hle := (List.pairwise_cons.mp hrest).1 0 (List.mem_replicate.mpr ⟨by decide, rfl⟩)
  exact absurd hle (by decide)

/-! ## The depth of the recursion -/

/-- Elements whose middle one is the greatest, and so on for those that are left without it. -/
def deepSequence : Nat → List Nat
  | 0 => []
  | n + 1 =>
    match (deepSequence n)[(n + 1) / 2]? with
    | some x => (deepSequence n).set ((n + 1) / 2) n ++ [x]
    | none => deepSequence n ++ [n]

attribute [grind =] deepSequence

theorem scanRight_of_le (hk : k < data.length) (hstop : ∀ x ∈ data[k]?, compare x pivot ≤ 0) :
    scanRight compare pivot data k = .ok k := by
  have hle := hstop _ (List.getElem?_eq_getElem hk)
  rw [scanRight, dif_pos ⟨Int.natCast_nonneg k, hk⟩]
  exact if_neg (Int.not_lt.mpr hle)

theorem partition_of_scans (hle : (l : Int) ≤ r) (hi : scanLeft compare pivot data l = .ok i)
    (hj : scanRight compare pivot data r = .ok r') :
    partition compare pivot data l r =
      if (i : Int) ≤ r' then partition compare pivot (swap data i r'.toNat) (i + 1) (r' - 1)
      else .ok (data, i, r') := by
  rw [partition, if_pos hle]
  split
  · next hi' hj' =>
    rw [hi] at hi'
    rw [hj] at hj'
    cases hi'
    cases hj'
    rfl
  · next hi' => rw [hi] at hi'; cases hi'
  · next hj' _ => rw [hj] at hj'; cases hj'

/-- A pivot greater than all the other elements goes to the end, and all the others are left. -/
theorem partition_of_greatest (hcompare : TotalPreorder compare) (hn : data.length = n + 1)
    (hi : i < data.length) (hlt : ∀ j ≠ i, ∀ x ∈ data[j]?, compare x data[i] < 0) :
    ∃ l, partition compare data[i] data 0 n = .ok (swap data i n, l, n - 1) := by
  have hpivot : data[i] ∈ data[i]? := List.getElem?_eq_getElem hi
  have hpivotLe : compare data[i] data[i] = 0 := hcompare.refl _
  generalize data[i] = pivot at hpivot hpivotLe hlt ⊢
  have hleft : scanLeft compare pivot data 0 = .ok i :=
    scanLeft_of_lt (fun j _ hj => hlt j hj.ne) (Nat.zero_le i) hpivot hpivotLe.ge
  have hright : scanRight compare pivot data n = .ok n := by
    refine scanRight_of_le (by omega) fun x hx => ?_
    rcases eq_or_ne n i with rfl | hne
    · rw [hpivot] at hx
      cases hx
      exact hpivotLe.le
    · exact (hlt n hne x hx).le
  have hget (k : Nat) := getElem?_swap hi (show n < data.length by omega) k
  have hstep := partition_of_scans (Int.natCast_nonneg n) hleft hright
  rw [if_pos (by omega), Int.toNat_natCast] at hstep
  rw [hstep]
  by_cases hcross : ((i + 1 : Nat) : Int) ≤ (n : Int) - 1
  · obtain ⟨m, rfl⟩ : ∃ m, n = m + 1 := ⟨n - 1, by omega⟩
    have hlast : ((m + 1 : Nat) : Int) - 1 = m := by omega
    have hleft' : scanLeft compare pivot (swap data i (m + 1)) (i + 1) = .ok (m + 1) := by
      refine scanLeft_of_lt (fun j hij hj x hx => ?_) (by omega) (x := pivot) ?_ hpivotLe.ge
      · rw [hget, if_neg hj.ne, if_neg (by omega)] at hx
        exact hlt j (by omega) x hx
      · rwa [hget, if_pos rfl]
    have hright' : scanRight compare pivot (swap data i (m + 1)) m = .ok m := by
      refine scanRight_of_le (by rw [length_swap]; omega) fun x hx => ?_
      rw [hget, if_neg (by omega), if_neg (by omega)] at hx
      exact (hlt m (by omega) x hx).le
    rw [hlast] at hcross ⊢
    rw [partition_of_scans hcross hleft' hright', if_neg (by omega)]
    exact ⟨m + 1, rfl⟩
  · rw [partition, if_neg hcross]
    exact ⟨i + 1, rfl⟩

theorem length_deepSequence (n : Nat) : (deepSequence n).length = n := by
  induction n with
  | zero => rfl
  | succ n ih =>
    rw [deepSequence]
    split <;> simp [ih]

theorem lt_of_mem_deepSequence (n : Nat) : ∀ x ∈ deepSequence n, x < n := by
  induction n with
  | zero => exact fun x hx => absurd hx List.not_mem_nil
  | succ n ih =>
    intro x hx
    rw [deepSequence] at hx
    split at hx
    · next y hy =>
      rcases List.mem_append.mp hx with hx | hx
      · rcases List.mem_or_eq_of_mem_set hx with hx | rfl
        · exact Nat.lt_succ_of_lt (ih x hx)
        · exact Nat.lt_succ_self _
      · rw [List.mem_singleton.mp hx]
        exact Nat.lt_succ_of_lt (ih y (List.mem_of_getElem? hy))
    · rcases List.mem_append.mp hx with hx | hx
      · exact Nat.lt_succ_of_lt (ih x hx)
      · rw [List.mem_singleton.mp hx]
        exact Nat.lt_succ_self _

theorem getElem?_deepSequence_succ (n j : Nat) : (deepSequence (n + 1))[j]? =
    if j = (n + 1) / 2 then some n
    else if j = n then (deepSequence n)[(n + 1) / 2]? else (deepSequence n)[j]? := by
  have hlength := length_deepSequence n
  rw [deepSequence]
  split
  · next x hx =>
    have hi := (List.getElem?_eq_some_iff.mp hx).1
    rcases Nat.lt_trichotomy j n with hlt | rfl | hgt
    · rw [List.getElem?_append_left (by rw [List.length_set]; omega), List.getElem?_set,
        if_neg hlt.ne]
      by_cases hj : (n + 1) / 2 = j
      · rw [if_pos hj, if_pos hi, if_pos hj.symm]
      · rw [if_neg hj, if_neg (Ne.symm hj)]
    · rw [List.getElem?_append_right (by rw [List.length_set]; omega), List.length_set, hlength,
        Nat.sub_self, if_neg (by omega), if_pos rfl, hx]
      rfl
    · rw [List.getElem?_eq_none
        (by rw [List.length_append, List.length_set, List.length_singleton]; omega),
          if_neg (by omega), if_neg hgt.ne', List.getElem?_eq_none (by omega)]
  · next hnone =>
    have hi := List.getElem?_eq_none_iff.mp hnone
    rcases Nat.lt_trichotomy j n with hlt | rfl | hgt
    · rw [List.getElem?_append_left (by omega), if_neg (by omega), if_neg hlt.ne]
    · rw [List.getElem?_append_right (by omega), hlength, Nat.sub_self, if_pos (by omega)]
      rfl
    · rw [List.getElem?_eq_none (by rw [List.length_append, List.length_singleton]; omega),
        if_neg (by omega), if_neg hgt.ne', List.getElem?_eq_none (by omega)]

/-- The elements without the greatest one. -/
theorem take_swap_deepSequence (n : Nat) :
    (swap (deepSequence (n + 1)) ((n + 1) / 2) n).take n = deepSequence n := by
  have hlength := length_deepSequence (n + 1)
  refine List.ext_getElem? fun j => ?_
  rw [List.getElem?_take, getElem?_swap (by omega) (by omega)]
  rcases Nat.lt_or_ge j n with hlt | hge
  · rw [if_pos hlt, if_neg hlt.ne, getElem?_deepSequence_succ, getElem?_deepSequence_succ,
      if_pos rfl]
    by_cases hj : j = (n + 1) / 2
    · rw [if_pos hj, if_neg (by omega), ← hj]
    · rw [if_neg hj, if_neg hj, if_neg hlt.ne]
  · rw [if_neg (Nat.not_lt.mpr hge), List.getElem?_eq_none (by rw [length_deepSequence]; exact hge)]

/-- The greatest element is the pivot. -/
theorem exists_partition_deepSequence (n : Nat) (hmiddle : i = (n + 1) / 2)
    (hi : i < (deepSequence (n + 1)).length) :
    ∃ data' l, partition (fun x y : Nat => (x : Int) - y) (deepSequence (n + 1))[i]
      (deepSequence (n + 1)) 0 n = .ok (data', l, (n : Int) - 1) ∧
        data'.take n = deepSequence n := by
  subst hmiddle
  have hpivot : (deepSequence (n + 1))[(n + 1) / 2] = n := by
    have hget := getElem?_deepSequence_succ n ((n + 1) / 2)
    rw [if_pos rfl, List.getElem?_eq_getElem hi, Option.some.injEq] at hget
    exact hget
  have hlt : ∀ j ≠ (n + 1) / 2, ∀ x ∈ (deepSequence (n + 1))[j]?,
      (x : Int) - (deepSequence (n + 1))[(n + 1) / 2] < 0 := by
    intro j hj x hx
    rw [getElem?_deepSequence_succ, if_neg hj] at hx
    have hx' : x ∈ deepSequence n := by
      split_ifs at hx
      · exact List.mem_of_getElem? hx
      · exact List.mem_of_getElem? hx
    have := lt_of_mem_deepSequence n x hx'
    omega
  obtain ⟨l, hpartition⟩ :=
    partition_of_greatest totalPreorder_sub (length_deepSequence (n + 1)) hi hlt
  exact ⟨_, l, hpartition, take_swap_deepSequence n⟩

/-- The recursion on these elements goes down to the single ones. -/
theorem le_depth_deepSequence (n : Nat) : ∀ {maxterm depth : Nat} {sorted : List Nat},
    quickSortRecursive (fun x y : Nat => (x : Int) - y) (deepSequence (n + 1)) maxterm =
      .ok (sorted, depth) → maxterm + n ≤ depth := by
  induction n with
  | zero =>
    intro maxterm depth sorted h
    rw [quickSortRecursive, dif_pos (by rw [length_deepSequence]; omega)] at h
    cases h
    exact Nat.le_refl _
  | succ n ih =>
    intro maxterm depth sorted h
    have hlength := length_deepSequence (n + 1 + 1)
    have hmiddle : (deepSequence (n + 1 + 1)).length / 2 = (n + 1 + 1) / 2 := by rw [hlength]
    obtain ⟨data', l, hpartition, htake⟩ := exists_partition_deepSequence (n + 1) hmiddle (by omega)
    have hlast : ((deepSequence (n + 1 + 1)).length : Int) - 1 = (n + 1 : Nat) := by
      rw [hlength]
      omega
    have htoNat : (((deepSequence (n + 1 + 1)).length : Int) - 1 - 1 + 1).toNat = n + 1 := by omega
    rw [← hlast] at hpartition
    rw [quickSortRecursive_of_partition (by omega) hpartition, htoNat, htake] at h
    obtain ⟨first, depthFirst, hfirst, -⟩ :=
      quickSortRecursive_spec totalPreorder_sub (deepSequence (n + 1)) (maxterm + 1)
    obtain ⟨last, depthLast, hlast, -⟩ :=
      quickSortRecursive_spec totalPreorder_sub (data'.drop l) (maxterm + 1)
    have hdepth := ih hfirst
    rw [hfirst] at h
    change (quickSortRecursive _ (data'.drop l) (maxterm + 1) >>= _) = _ at h
    rw [hlast] at h
    cases h
    omega

/-- No call comes to the limit that the assertion sets. -/
def WithinLimit (compare : SequenceItemComparator α) (data : List α) : Prop :=
  ∃ sorted depth, sequenceSort compare data = .ok (sorted, depth) ∧ depth < 1000

theorem intOfLength_le (n : Nat) : intOfLength n ≤ n := by
  change Int.bmod (n : Int) (2 ^ 32) ≤ n
  rw [Int.bmod_def]
  norm_num
  split_ifs <;> omega

/-- A recursion that is too deep. -/
theorem not_withinLimit_deepSequence {m k : Nat} (hm : intOfLength (m + 1 + k) = (m + 1 : Nat))
    (hdeep : 1000 ≤ m) :
    ¬ WithinLimit (fun x y : Nat => (x : Int) - y)
      (deepSequence (m + 1) ++ List.replicate k 0) := by
  rintro ⟨sorted, depth, hsort, hdepth⟩
  have hlength : (intOfLength (deepSequence (m + 1) ++ List.replicate k 0).length).toNat =
      m + 1 := by
    rw [List.length_append, length_deepSequence, List.length_replicate, hm]
    rfl
  have htake : (deepSequence (m + 1) ++ List.replicate k 0).take (m + 1) =
      deepSequence (m + 1) := by
    nth_rewrite 1 [← length_deepSequence (m + 1)]
    exact List.take_left
  obtain ⟨first, depthFirst, hfirst, -⟩ :=
    quickSortRecursive_spec totalPreorder_sub (deepSequence (m + 1)) 0
  have hle := le_depth_deepSequence m hfirst
  rw [sequenceSort, hlength, htake, hfirst] at hsort
  cases hsort
  omega

/-- The limit is never hit at the lengths of which an `int` holds at most 1000. -/
theorem withinLimit_iff (n : Nat) :
    (∀ (α : Type) (compare : SequenceItemComparator α), TotalPreorder compare →
      ∀ data : List α, data.length = n → WithinLimit compare data) ↔ intOfLength n ≤ 1000 := by
  constructor
  · intro h
    by_contra hlarge
    obtain ⟨m, hm⟩ := Int.eq_ofNat_of_zero_le (show 0 ≤ intOfLength n by omega)
    have hle := intOfLength_le n
    obtain ⟨k, rfl⟩ := Nat.exists_eq_add_of_le (show m ≤ n by omega)
    obtain ⟨m, rfl⟩ := Nat.exists_eq_succ_of_ne_zero (show m ≠ 0 by omega)
    refine not_withinLimit_deepSequence hm (by omega) (h Nat _ totalPreorder_sub _ ?_)
    rw [List.length_append, length_deepSequence, List.length_replicate]
  · intro hle α compare hcompare data hdata
    obtain ⟨sorted, depth, heq, -, -, hdepth⟩ := sequenceSort_eq hcompare data
    refine ⟨_, depth, heq, ?_⟩
    rw [sortedLength, hdata] at hdepth
    omega

/-- One element too many. -/
theorem withinLimit_deepSequence :
    ¬ WithinLimit (fun x y : Nat => (x : Int) - y) (deepSequence 1001) := by
  have h := not_withinLimit_deepSequence (m := 1000) (k := 0) (by decide) (Nat.le_refl 1000)
  rwa [List.replicate_zero, List.append_nil] at h

end Cfengine
