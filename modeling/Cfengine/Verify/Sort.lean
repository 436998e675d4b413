import Cfengine.Sort
import Cfengine.ColumnEdits
import Cfengine.Theory.Segments

/-!
# Sorting linked lists

On the links of a list, `Sort` does what `sort` does on the list of its nodes (`sortList_segment`).
What comes of a merge depends on the two runs only through the comparisons of their elements, which
gives the order of the result (`pairwise_sort`), and that equivalent elements come out in reverse.
-/

namespace Cfengine
open Segments

variable {α : Type*} {less : α → α → Bool} {r before : α → α → Prop} {a b c d : α}
  {l l' p q run : List α} {insize n : Nat}

/-! ## SortedRuns -/

/-- Elements that `less` puts in the order of `r`, the first of them in front. -/
def Ordered (less : α → α → Bool) (r : α → α → Prop) (a b : α) : Prop :=
  (less a b = true → r a b) ∧ (less a b = false → r b a)

/-- A merge puts its elements in the order of `r`. -/
theorem pairwise_merge_of_ordered (htrans : ∀ a b c, r a b → r b c → r a c) (hp : p.Pairwise r)
    (hq : q.Pairwise r) (hpq : ∀ a ∈ p, ∀ b ∈ q, Ordered less r a b) :
    (p.merge q less).Pairwise r := by
  induction p generalizing q with
  | nil => rwa [List.nil_merge]
  | cons a p ihp =>
    induction q with
    | nil => rwa [List.merge_right]
    | cons b q ihq =>
      obtain ⟨hap, hp'⟩ := List.pairwise_cons.mp hp
      obtain ⟨hbq, hq'⟩ := List.pairwise_cons.mp hq
      have hab := hpq a List.mem_cons_self b List.mem_cons_self
      rw [List.cons_merge_cons]
      cases hless : less a b with
      | true =>
        rw [if_pos rfl, List.pairwise_cons]
        refine ⟨fun c hc => ?_, ihp hp' hq fun c hc => hpq c (List.mem_cons_of_mem _ hc)⟩
        rcases List.mem_merge.mp hc with hc | hc
        · exact hap c hc
        · rcases List.mem_cons.mp hc with rfl | hc
          · exact hab.1 hless
          · exact htrans _ _ _ (hab.1 hless) (hbq c hc)
      | false =>
        rw [if_neg Bool.false_ne_true, List.pairwise_cons]
        refine ⟨fun c hc => ?_, ihq hq' fun c hc d hd => hpq c hc d (List.mem_cons_of_mem _ hd)⟩
        rcases List.mem_merge.mp hc with hc | hc
        · rcases List.mem_cons.mp hc with rfl | hc
          · exact hab.2 hless
          · exact htrans _ _ _ (hab.2 hless) (hap c hc)
        · exact hbq c hc

/-- A list of runs of `n` elements, the last one perhaps shorter. -/
inductive SortedRuns (less : α → α → Bool) (r : α → α → Prop) (n : Nat) : List α → Prop
  | last {run : List α} : run.length ≤ n → run.Pairwise r → SortedRuns less r n run
  | cons {run l : List α} : run.length = n → run.Pairwise r →
      (∀ a ∈ run, ∀ b ∈ l, Ordered less r a b) →
    SortedRuns less r n l → SortedRuns less r n (run ++ l)

theorem sortedRuns_one (h : l.Pairwise (Ordered less r)) : SortedRuns less r 1 l := by
  induction l with
  | nil => exact .last (Nat.zero_le 1) .nil
  | cons a l ih =>
    obtain ⟨ha, hl⟩ := List.pairwise_cons.mp h
    change SortedRuns less r 1 ([a] ++ l)
    refine .cons rfl (List.pairwise_singleton _ _) (fun x hx b hb => ?_) (ih hl)
    obtain rfl := List.mem_singleton.mp hx
    exact ha b hb

theorem SortedRuns.pairwise (h : SortedRuns less r n l) (hlength : l.length ≤ n) :
    l.Pairwise r := by
  cases h with
  | last _ hrun => exact hrun
  | @cons run l heq hrun _ _ =>
    rw [List.length_append] at hlength
    rw [List.length_eq_zero_iff.mp (show l.length = 0 by omega), List.append_nil]
    exact hrun

/-- The first run, and the runs behind it. -/
theorem SortedRuns.split (h : SortedRuns less r n l) :
    (l.take n).Pairwise r ∧ SortedRuns less r n (l.drop n) ∧
    ∀ a ∈ l.take n, ∀ b ∈ l.drop n, Ordered less r a b := by
  cases h with
  | last hle hrun =>
    rw [List.take_of_length_le hle, List.drop_eq_nil_of_le hle]
    exact ⟨hrun, .last (Nat.zero_le n) .nil, fun _ _ _ hb => absurd hb List.not_mem_nil⟩
  | cons heq hrun hordered hl =>
    rw [← heq, List.take_left, List.drop_left, heq]
    exact ⟨hrun, hl, hordered⟩

/-- A pass makes one run of two. -/
theorem sortedRuns_pass (htrans : ∀ a b c, r a b → r b c → r a c) (hpos : 0 < n)
    (h : SortedRuns less r n l) :
    SortedRuns less r (n * 2) (sort.pass less n l).1 := by
  induction hlength : l.length using Nat.strong_induction_on generalizing l with
  | _ m ih =>
    by_cases hnil : l = []
    · rw [hnil, pass_nil]
      exact .last (Nat.zero_le _) .nil
    · obtain ⟨hfirst, hrest, hordered⟩ := h.split
      obtain ⟨hsecond, hrest, hordered'⟩ := hrest.split
      have hmerge := pairwise_merge_of_ordered htrans hfirst hsecond
        fun a ha b hb => hordered a ha b (List.mem_of_mem_take hb)
      have hperm := @perm_pass _ less n ((l.drop n).drop n)
      rw [pass_of_ne_nil hnil hpos]
      by_cases hlast : (l.drop n).drop n = []
      · rw [hlast, pass_nil, List.append_nil]
        refine .last ?_ hmerge
        rw [List.length_merge, List.length_take, List.length_take]
        omega
      · have hdrop := List.length_pos_of_ne_nil hlast
        rw [List.length_drop, List.length_drop] at hdrop
        refine .cons ?_ hmerge (fun a ha b hb => ?_) (ih _ ?_ hrest rfl)
        · rw [List.length_merge, List.length_take, List.length_take, List.length_drop]
          omega
        · rcases List.mem_merge.mp ha with ha | ha
          · exact hordered a ha b (List.mem_of_mem_drop (hperm.mem_iff.mp hb))
          · exact hordered' a ha b (hperm.mem_iff.mp hb)
        · rw [List.length_drop, List.length_drop]
          omega

variable (less) in
/-- Each merge takes up twice `n` elements, the last one perhaps fewer. -/
theorem pass_mul_lt (hpos : 0 < n) (hl : l ≠ []) :
    ((sort.pass less n l).2 - 1) * (n * 2) < l.length ∧
      l.length ≤ (sort.pass less n l).2 * (n * 2) := by
  induction hlength : l.length using Nat.strong_induction_on generalizing l with
  | _ m ih =>
    have hl' := List.length_pos_of_ne_nil hl
    rw [pass_of_ne_nil hl hpos]
    by_cases hlast : (l.drop n).drop n = []
    · have := List.drop_eq_nil_iff.mp (List.drop_drop ▸ hlast)
      rw [hlast, pass_nil, Nat.zero_add, Nat.sub_self, Nat.zero_mul]
      omega
    · have hdrop := List.length_pos_of_ne_nil hlast
      rw [List.length_drop, List.length_drop] at hdrop
      obtain ⟨hlt, hle⟩ := ih _ (by rw [List.length_drop, List.length_drop]; omega) hlast rfl
      rw [List.length_drop, List.length_drop] at hlt hle
      generalize (sort.pass less n ((l.drop n).drop n)).2 = k at hlt hle ⊢
      cases k with
      | zero =>
        rw [Nat.zero_mul] at hle
        omega
      | succ k =>
        rw [Nat.add_sub_cancel] at hlt
        rw [Nat.succ_mul] at hle
        change (k + 1) * (n * 2) < m ∧ m ≤ (k + 1 + 1) * (n * 2)
        rw [Nat.succ_mul (k + 1), Nat.succ_mul]
        omega

/-- The merges of a pass are counted without overflow. -/
theorem pass_le_intMax (hpos : 0 < n) (hl : l ≠ []) (hlength : l.length ≤ 2 ^ 31) :
    (sort.pass less n l).2 ≤ intMax := by
  have hlt := (pass_mul_lt less hpos hl).1
  have hmul := Nat.mul_le_mul_left ((sort.pass less n l).2 - 1) (show 2 ≤ n * 2 by omega)
  have hmax : intMax = 2 ^ 31 - 1 := rfl
  omega

/-- A pass with more than one merge was not the last one. -/
theorem mul_two_lt_of_one_lt_pass (hpos : 0 < n) (hl : l ≠ []) (h : 1 < (sort.pass less n l).2) :
    n * 2 < l.length := by
  have hmul := Nat.mul_le_mul_right (n * 2) (show 1 ≤ (sort.pass less n l).2 - 1 by omega)
  rw [Nat.one_mul] at hmul
  exact hmul.trans_lt (pass_mul_lt less hpos hl).1

theorem pairwise_sort_loop (htrans : ∀ a b c, r a b → r b c → r a c) (hpos : 0 < n)
    (h : SortedRuns less r n l) : (sort.loop less n l).Pairwise r := by
  fun_induction sort.loop less n l with
  | case1 n l hlast =>
    have hpass := sortedRuns_pass htrans hpos h
    refine hpass.pairwise ?_
    rw [(perm_pass n l).length_eq]
    by_cases hl : l = []
    · rw [hl]
      exact Nat.zero_le _
    · have hmul := Nat.mul_le_mul_right (n * 2) hlast
      rw [Nat.one_mul] at hmul
      exact (pass_mul_lt less hpos hl).2.trans hmul
  | case2 n l _ ih => exact ih (by omega) (sortedRuns_pass htrans hpos h)

/-- What the comparisons of the elements of a list put in order. -/
theorem pairwise_sort (htrans : ∀ a b c, r a b → r b c → r a c) (h : l.Pairwise (Ordered less r)) :
    (sort less l).Pairwise r :=
  pairwise_sort_loop htrans Nat.one_pos (sortedRuns_one h)

/-! ## Links -/

section
variable [DecidableEq α] {s s' : Links α} {next next' : α → Option α}
  {first second list e : Option α}
  {out : List α} {qsize fuel nmerges : Nat}

/-- The merged list is `out`, but for the link of its last element. -/
def Merged (s : Links α) (out : List α) : Prop :=
  out = [] ∧ s.list = none ∧ s.tail = none ∨
    ∃ init tail, out = init ++ [tail] ∧ Segment s.next s.list init (some tail) ∧ s.tail = some tail

/-- The links of the merged list are the only ones that are set. -/
theorem next_add (h : Merged s out) (ha : a ∉ out) (b : α) : (s.add b).next a = s.next a := by
  rcases h with ⟨-, -, htail⟩ | ⟨init, tail, rfl, -, htail⟩
  · rw [Links.add, htail]
  · rw [Links.add, htail]
    refine Function.update_of_ne ?_ _ _
    rintro rfl
    exact ha (List.mem_append_right _ List.mem_cons_self)

theorem merged_add (h : Merged s out) (hout : out.Nodup) (a : α) :
    Merged (s.add a) (out ++ [a]) := by
  rcases h with ⟨rfl, -, htail⟩ | ⟨init, tail, rfl, hlist, htail⟩
  · rw [Links.add, htail]
    exact .inr ⟨[], a, rfl, rfl, rfl⟩
  · refine .inr ⟨init ++ [tail], a, rfl, ?_, ?_⟩
    · rw [Links.add, htail]
      have hinit : ∀ b ∈ init, Function.update s.next tail (some a) b = s.next b := by
        intro b hb
        refine Function.update_of_ne ?_ _ _
        rintro rfl
        exact List.disjoint_of_nodup_append hout hb List.mem_cons_self
      exact (hlist.congr hinit).concat (Function.update_self ..)
    · rw [Links.add, htail]

/-- While two lists are merged. -/
structure Merging (s : Links α) (first second : Option α) (out p q : List α) : Prop where
  merged : Merged s out
  first : ∃ e, Segment s.next first p e
  second : Segment s.next second q none
  nodup : (out ++ p ++ q).Nodup

theorem Merging.takeFirst (h : Merging s first second out (a :: p) q) :
    Merging (s.add a) (s.next a) second (out ++ [a]) p q := by
  obtain ⟨hmerged, ⟨e, -, hfirst⟩, hsecond, hnodup⟩ := h
  have hsame (b : α) (hb : b ∈ a :: p ++ q) : (s.add a).next b = s.next b := by
    rw [List.append_assoc] at hnodup
    exact next_add hmerged (fun hout => List.disjoint_of_nodup_append hnodup hout hb) a
  refine ⟨merged_add hmerged hnodup.of_append_left.of_append_left a,
    ⟨e, hfirst.congr fun b hb => ?_⟩, hsecond.congr fun b hb => ?_, by simpa using hnodup⟩
  · exact hsame b (List.mem_append_left _ (List.mem_cons_of_mem _ hb))
  · exact hsame b (List.mem_append_right _ hb)

theorem Merging.takeSecond (h : Merging s first second out p (b :: q)) :
    Merging (s.add b) first (s.next b) (out ++ [b]) p q := by
  obtain ⟨hmerged, ⟨e, hfirst⟩, ⟨-, hsecond⟩, hnodup⟩ := h
  have hsame (c : α) (hc : c ∈ p ++ b :: q) : (s.add b).next c = s.next c := by
    rw [List.append_assoc] at hnodup
    exact next_add hmerged (fun hout => List.disjoint_of_nodup_append hnodup hout hc) b
  refine ⟨merged_add hmerged hnodup.of_append_left.of_append_left b,
    ⟨e, hfirst.congr fun c hc => ?_⟩, hsecond.congr fun c hc => ?_, ?_⟩
  · exact hsame c (List.mem_append_left _ hc)
  · exact hsame c (List.mem_append_right _ (List.mem_cons_of_mem _ hc))
  · refine (List.Perm.nodup_iff ?_).mpr hnodup
    rw [List.append_assoc, List.append_assoc, List.append_assoc]
    exact List.Perm.append_left _ (@List.perm_middle _ b p q).symm

omit [DecidableEq α] in
theorem Merging.second_eq_none_iff (h : Merging s first second out p q) : second = none ↔ q = [] :=
  h.second.eq_none_iff

variable (less qsize) in
/-- Two lists are merged, `qsize` elements of the second one. -/
theorem sortList_merge (h : Merging s first second out p q) :
    ∃ s' rest, sortList.merge less s p.length qsize first second = some (s', rest) ∧
      Merging s' none rest (out ++ p.merge (q.take qsize) less) [] (q.drop qsize) := by
  induction hn : p.length + qsize generalizing s first second out p q qsize with
  | zero =>
    obtain rfl : p = [] := List.length_eq_zero_iff.mp (by omega)
    obtain rfl : qsize = 0 := by omega
    refine ⟨s, second, ?_, ⟨?_, ⟨_, rfl⟩, h.second, ?_⟩⟩
    · rw [sortList.merge, if_neg (by simp)]
    · rw [List.take_zero, List.nil_merge, List.append_nil]
      exact h.merged
    · simpa using h.nodup
  | succ n ih =>
    cases p with
    | nil =>
      obtain rfl : qsize = n + 1 := by simpa using hn
      cases q with
      | nil =>
        refine ⟨s, second, ?_, ⟨?_, ⟨_, rfl⟩, h.second, ?_⟩⟩
        · rw [sortList.merge, if_neg (by simp [h.second_eq_none_iff])]
        · rw [List.take_nil, List.nil_merge, List.append_nil]
          exact h.merged
        · simpa using h.nodup
      | cons b q =>
        obtain ⟨s', rest, hs', hmerging⟩ := ih n h.takeSecond (Nat.zero_add n)
        refine ⟨s', rest, ?_, ?_⟩
        · rw [sortList.merge, if_pos (.inr ⟨Nat.succ_pos n, by simp [h.second_eq_none_iff]⟩),
            if_pos List.length_nil, h.second.1]
          exact hs'
        · rw [List.nil_merge] at hmerging ⊢
          rw [List.append_assoc] at hmerging
          exact hmerging
    | cons a p =>
      have hpos : 0 < (a :: p).length := Nat.succ_pos _
      obtain ⟨e, hfirst, -⟩ := h.first
      rw [sortList.merge, if_pos (.inl hpos), if_neg hpos.ne']
      by_cases hend : qsize = 0 ∨ second = none
      · have htake : q.take qsize = [] := by
          rcases hend with rfl | hnone
          · exact List.take_zero
          · rw [h.second_eq_none_iff.mp hnone, List.take_nil]
        obtain ⟨s', rest, hs', hmerging⟩ := ih qsize h.takeFirst
          (by rw [List.length_cons] at hn; omega)
        refine ⟨s', rest, ?_, ?_⟩
        · rw [if_pos hend, hfirst]
          exact hs'
        · rw [htake, List.merge_right] at hmerging ⊢
          rw [List.append_assoc] at hmerging
          exact hmerging
      · obtain ⟨hqsize, hsome⟩ := not_or.mp hend
        obtain ⟨m, rfl⟩ := Nat.exists_eq_succ_of_ne_zero hqsize
        cases q with
        | nil => exact absurd (h.second_eq_none_iff.mpr rfl) hsome
        | cons b q =>
          rw [if_neg hend, hfirst, h.second.1]
          cases hless : less a b with
          | true =>
            obtain ⟨s', rest, hs', hmerging⟩ := ih (m + 1) h.takeFirst
              (by rw [List.length_cons] at hn; omega)
            refine ⟨s', rest, ?_, ?_⟩
            · rw [h.second.1] at hs'
              exact (if_pos hless).trans hs'
            · rw [List.take_succ_cons, List.cons_merge_cons, if_pos hless]
              rw [List.append_assoc] at hmerging
              exact hmerging
          | false =>
            obtain ⟨s', rest, hs', hmerging⟩ := ih m h.takeSecond
              (by rw [List.length_cons] at hn ⊢; omega)
            rw [hfirst] at hs'
            refine ⟨s', rest, ?_, ?_⟩
            · exact (if_neg (by rw [hless]; exact Bool.false_ne_true)).trans hs'
            · rw [List.take_succ_cons, List.cons_merge_cons, hless, if_neg Bool.false_ne_true]
              rw [List.append_assoc] at hmerging
              exact hmerging

omit [DecidableEq α] in
/-- The first list of a merge ends after `insize` elements, or where there are no more. -/
theorem sortList_advance (h : Segment next (some a) l none) (insize : Nat) :
    ∃ q, sortList.advance next insize a = ((l.take insize).length, q) ∧
      Segment next (some a) (l.take insize) q ∧ Segment next q (l.drop insize) none := by
  induction insize generalizing a l with
  | zero => exact ⟨some a, rfl, rfl, h⟩
  | succ i ih =>
    cases l with
    | nil => cases h
    | cons b l =>
      obtain ⟨heq, hl⟩ := h
      cases heq
      rw [sortList.advance]
      cases hnext : next a with
      | none =>
        obtain rfl := hl.eq_none_iff.mp hnext
        exact ⟨none, by simp, ⟨rfl, by rw [List.take_nil]; exact hnext⟩,
          by rw [List.drop_succ_cons, List.drop_nil]; rfl⟩
      | some c =>
        rw [hnext] at hl
        obtain ⟨q, hadvance, htake, hdrop⟩ := ih hl
        refine ⟨q, ?_, ⟨rfl, hnext ▸ htake⟩, hdrop⟩
        simp only [hadvance, List.take_succ_cons, List.length_cons]

theorem sortList_pass_none (fuel : Nat) :
    sortList.pass less insize fuel s nmerges none = some (s, nmerges) := by
  cases fuel <;> rfl

variable (fuel) in
/-- One merge of a pass. -/
theorem sortList_pass_succ (h : Merging s none (some a) out [] l) (hmerges : nmerges ≠ intMax) :
    ∃ s' rest, sortList.pass less insize (fuel + 1) s nmerges (some a) =
        sortList.pass less insize fuel s' (nmerges + 1) rest ∧
      Merging s' none rest (out ++ (l.take insize).merge ((l.drop insize).take insize) less) []
        ((l.drop insize).drop insize) := by
  obtain ⟨q, hadvance, hfirst, hsecond⟩ := sortList_advance h.second insize
  have hmerging : Merging s (some a) q out (l.take insize) (l.drop insize) := by
    refine ⟨h.merged, ⟨q, hfirst⟩, hsecond, ?_⟩
    have hnodup := h.nodup
    rwa [List.append_nil, ← List.take_append_drop insize l, ← List.append_assoc] at hnodup
  obtain ⟨s', rest, hmerge, hnext⟩ := sortList_merge less insize hmerging
  refine ⟨s', rest, ?_, hnext⟩
  rw [sortList.pass, if_neg hmerges, hadvance]
  dsimp only
  rw [hmerge]
  rfl

variable (less fuel nmerges) in
/-- The merges of a pass, one for each of the runs that it makes. -/
theorem sortList_pass (h : Merging s none list out [] l) (hpos : 0 < insize) :
    (l.length ≤ fuel → nmerges + (sort.pass less insize l).2 ≤ intMax →
      sortList.pass less insize fuel s nmerges list ≠ none) ∧
    ∀ s' n, sortList.pass less insize fuel s nmerges list = some (s', n) →
      Merged s' (out ++ (sort.pass less insize l).1) ∧
        n = nmerges + (sort.pass less insize l).2 := by
  induction fuel generalizing s nmerges list out l with
  | zero =>
    cases list with
    | none =>
      obtain rfl := h.second_eq_none_iff.mp rfl
      rw [sortList_pass_none, pass_nil, List.append_nil]
      refine ⟨fun _ _ => Option.some_ne_none _, fun s' n heq => ?_⟩
      cases heq
      exact ⟨h.merged, rfl⟩
    | some a =>
      refine ⟨fun hle => ?_, fun s' n heq => by cases heq⟩
      rw [List.length_eq_zero_iff.mp (Nat.le_zero.mp hle)] at h
      cases h.second
  | succ fuel ih =>
    cases list with
    | none =>
      obtain rfl := h.second_eq_none_iff.mp rfl
      rw [sortList_pass_none, pass_nil, List.append_nil]
      refine ⟨fun _ _ => Option.some_ne_none _, fun s' n heq => ?_⟩
      cases heq
      exact ⟨h.merged, rfl⟩
    | some a =>
      have hl : l ≠ [] := fun hnil => Option.some_ne_none a (h.second_eq_none_iff.mpr hnil)
      have hlength := List.length_pos_of_ne_nil hl
      rw [pass_of_ne_nil hl hpos]
      by_cases hmerges : nmerges = intMax
      · refine ⟨fun _ hle => by omega, fun s' n heq => ?_⟩
        rw [sortList.pass, if_pos hmerges] at heq
        cases heq
      · obtain ⟨t, rest, hstep, hnext⟩ := sortList_pass_succ fuel h hmerges
        obtain ⟨htotal, hpartial⟩ := ih (nmerges + 1) hnext
        rw [hstep, ← List.append_assoc]
        refine ⟨fun hfuel hle => htotal ?_ (by omega), fun s' n heq => ?_⟩
        · rw [List.length_drop, List.length_drop]
          omega
        · obtain ⟨hmerged, hn⟩ := hpartial s' n heq
          exact ⟨hmerged, by omega⟩

/-- The merged list, with the link of its last element set to `NULL`. -/
theorem Merged.segment (h : Merged s out) (hout : out.Nodup) (hne : out ≠ []) :
    ∃ tail, s.tail = some tail ∧ Segment (Function.update s.next tail none) s.list out none := by
  rcases h with ⟨hnil, -⟩ | ⟨init, tail, rfl, hlist, htail⟩
  · exact absurd hnil hne
  · refine ⟨tail, htail, ?_⟩
    have hinit : ∀ b ∈ init, Function.update s.next tail none b = s.next b := by
      intro b hb
      refine Function.update_of_ne ?_ _ _
      rintro rfl
      exact List.disjoint_of_nodup_append hout hb List.mem_cons_self
    exact (hlist.congr hinit).concat (Function.update_self ..)

theorem sortList_loop_succ {tail : α}
    (hpass : sortList.pass less insize fuel ⟨next, none, none⟩ 0 list = some (s, nmerges))
    (htail : s.tail = some tail) : sortList.loop less (fuel + 1) insize next list =
      if nmerges ≤ 1 then some (Function.update s.next tail none, s.list)
      else if intMax < insize * 2 then none
      else sortList.loop less fuel (insize * 2) (Function.update s.next tail none) s.list := by
  rw [sortList.loop, hpass]
  change (s.tail.bind fun tail => if nmerges ≤ 1 then
    some (Function.update s.next tail none, s.list)
    else _) = _
  rw [htail]
  rfl

variable (less fuel) in
/-- The passes. They end if and only if `insize` never overflows. -/
theorem sortList_loop {k : Nat} (hk : k ≤ 30) (h : Segment next list l none) (hl : l ≠ [])
    (hnodup : l.Nodup) :
    (l.length + (l.length - 2 ^ k) < fuel → l.length ≤ 2 ^ 31 →
      sortList.loop less fuel (2 ^ k) next list ≠ none) ∧
    ∀ next' list', sortList.loop less fuel (2 ^ k) next list = some (next', list') →
      Segment next' list' (sort.loop less (2 ^ k) l) none ∧ l.length ≤ 2 ^ 31 := by
  induction fuel generalizing k next list l with
  | zero => exact ⟨fun hlt => absurd hlt (Nat.not_lt_zero _), fun _ _ heq => by cases heq⟩
  | succ fuel ih =>
    have hpos : 0 < 2 ^ k := Nat.two_pow_pos k
    have hmax : intMax = 2 ^ 31 - 1 := rfl
    have hstart : Merging ⟨next, none, none⟩ none list [] [] l :=
      ⟨.inl ⟨rfl, rfl, rfl⟩, ⟨none, rfl⟩, h, hnodup⟩
    obtain ⟨htotal, hpartial⟩ := sortList_pass less fuel 0 hstart hpos
    have hperm := @perm_pass _ less (2 ^ k) l
    have hne : (sort.pass less (2 ^ k) l).1 ≠ [] := fun hnil => hl (List.nil_perm.mp (hnil ▸ hperm))
    rw [sort.loop]
    cases hpass : sortList.pass less (2 ^ k) fuel ⟨next, none, none⟩ 0 list with
    | none =>
      rw [sortList.loop, hpass]
      refine ⟨fun hlt hlength => absurd hpass (htotal (by omega) ?_), fun _ _ heq => by cases heq⟩
      rw [Nat.zero_add]
      exact pass_le_intMax hpos hl hlength
    | some result =>
      obtain ⟨s, nmerges⟩ := result
      obtain ⟨hmerged, hn⟩ := hpartial s nmerges hpass
      rw [Nat.zero_add] at hn
      rw [List.nil_append] at hmerged
      obtain ⟨tail, htail, hsegment⟩ := hmerged.segment (hperm.nodup_iff.mpr hnodup) hne
      have hbound := (pass_mul_lt less hpos hl).2
      have hpow : 2 ^ k ≤ 2 ^ 30 := Nat.pow_le_pow_right Nat.two_pos hk
      rw [sortList_loop_succ hpass htail]
      by_cases hlast : nmerges ≤ 1
      · rw [if_pos hlast, if_pos (hn ▸ hlast)]
        refine ⟨fun _ _ => Option.some_ne_none _, fun next' list' heq => ?_⟩
        cases heq
        have hmul := Nat.mul_le_mul_right (2 ^ k * 2) (hn ▸ hlast)
        rw [Nat.one_mul] at hmul
        exact ⟨hsegment, hbound.trans (hmul.trans (by omega))⟩
      · have hmerges : ¬ (sort.pass less (2 ^ k) l).2 ≤ 1 := hn ▸ hlast
        have hlt := mul_two_lt_of_one_lt_pass hpos hl (Nat.not_le.mp hmerges)
        rw [if_neg hlast, if_neg hmerges]
        by_cases hover : intMax < 2 ^ k * 2
        · rw [if_pos hover]
          exact ⟨fun _ _ => by omega, fun _ _ heq => by cases heq⟩
        · rw [if_neg hover, ← Nat.pow_succ]
          have hk' : k + 1 ≤ 30 := by
            by_contra hlarge
            obtain rfl : k = 30 := by omega
            omega
          obtain ⟨htotal', hpartial'⟩ := ih hk' hsegment hne (hperm.nodup_iff.mpr hnodup)
          rw [hperm.length_eq] at htotal' hpartial'
          exact ⟨fun hfuel hlength => htotal' (by rw [Nat.pow_succ]; omega) hlength, hpartial'⟩

/-- `Sort` ends with a `NULL`-terminated list that is as it should be. -/
def Sorts (less : α → α → Bool) (next : α → Option α) (list : Option α)
    (P : List α → Prop) : Prop :=
  ∃ enough, ∀ fuel ≥ enough, ∃ next' list' l',
    sortList less fuel next list = some (next', list') ∧ Segment next' list' l' none ∧ P l'

/-- `Sort` on the links is `sort` on the list of the nodes, of which there must not be too many. -/
theorem sorts_iff (h : Segment next list l none) (hnodup : l.Nodup) {P : List α → Prop} :
    Sorts less next list P ↔ P (sort less l) ∧ l.length ≤ 2 ^ 31 := by
  cases list with
  | none =>
    obtain rfl := h.eq_none_iff.mp rfl
    have hsort : sort less ([] : List α) = [] := (perm_sort []).eq_nil
    rw [hsort]
    constructor
    · rintro ⟨enough, hall⟩
      obtain ⟨next', list', l', heq, hl', hP⟩ := hall enough (Nat.le_refl _)
      cases heq
      rw [hl'.eq_none_iff.mp rfl] at hP
      exact ⟨hP, Nat.zero_le _⟩
    · exact fun hP => ⟨0, fun fuel _ => ⟨next, none, [], rfl, rfl, hP.1⟩⟩
  | some a =>
    have hl : l ≠ [] := fun hnil => Option.some_ne_none a (h.eq_none_iff.mpr hnil)
    have hloop (fuel : Nat) := sortList_loop less fuel (Nat.zero_le 30) h hl hnodup
    constructor
    · rintro ⟨enough, hall⟩
      obtain ⟨next', list', l', heq, hl', hP⟩ := hall enough (Nat.le_refl _)
      obtain ⟨hsegment, hlength⟩ := (hloop enough).2 next' list' heq
      rw [hl'.unique hsegment] at hP
      exact ⟨hP, hlength⟩
    · rintro ⟨hP, hlength⟩
      refine ⟨l.length + l.length + 1, fun fuel hfuel => ?_⟩
      obtain ⟨⟨next', list'⟩, heq⟩ := Option.ne_none_iff_exists'.mp
        ((hloop fuel).1 (by omega) hlength)
      exact ⟨next', list', _, heq, ((hloop fuel).2 next' list' heq).1, hP⟩

/-! ## Orders -/

/-- A strict weak order. -/
structure StrictWeakOrder (less : α → α → Bool) : Prop where
  irrefl : ∀ a, less a a = false
  trans : ∀ a b c, less a b = true → less b c = true → less a c = true
  equiv_trans : ∀ a b c, less a b = false → less b a = false → less b c = false → less c b = false →
    less a c = false

omit [DecidableEq α] in
theorem StrictWeakOrder.asymm (h : StrictWeakOrder less) (hab : less a b = true) :
    less b a = false := by
  refine Bool.eq_false_iff.mpr fun hba => ?_
  have := h.trans a b a hab hba
  rw [h.irrefl] at this
  cases this

omit [DecidableEq α] in
theorem StrictWeakOrder.not_trans (h : StrictWeakOrder less) (hab : less a b = false)
    (hbc : less b c = false) : less a c = false := by
  refine Bool.eq_false_iff.mpr fun hac => ?_
  have hba : less b a = false := by
    refine Bool.eq_false_iff.mpr fun hba => ?_
    rw [h.trans b a c hba hac] at hbc
    cases hbc
  have hcb : less c b = false := by
    refine Bool.eq_false_iff.mpr fun hcb => ?_
    rw [h.trans a c b hac hcb] at hab
    cases hab
  rw [h.equiv_trans a b c hab hba hbc hcb] at hac
  cases hac

/-- The nodes, each of them once, and no later one less than an earlier one. -/
def SortedNodes (less : α → α → Bool) (l l' : List α) : Prop :=
  l'.Perm l ∧ l'.Pairwise fun a b => less b a = false

/-- `Sort` sorts exactly the lists for which `insize` does not overflow. -/
theorem sorts_sortedNodes_iff (hless : StrictWeakOrder less) (h : Segment next list l none)
    (hnodup : l.Nodup) : Sorts less next list (SortedNodes less l) ↔ l.length ≤ 2 ^ 31 := by
  rw [sorts_iff h hnodup, and_iff_right]
  refine ⟨perm_sort l, pairwise_sort (fun a b c hab hbc => hless.not_trans hbc hab) ?_⟩
  exact List.pairwise_of_forall fun a b => ⟨hless.asymm, id⟩

/-- Equivalent nodes keep their order. -/
def StableNodes (less : α → α → Bool) (l l' : List α) : Prop :=
  l'.Perm l ∧ ∀ a ∈ l, ∀ b ∈ l, less a b = false → less b a = false →
    l.idxOf a < l.idxOf b → l'.idxOf a < l'.idxOf b

theorem rel_of_idxOf_lt (hl : l.Pairwise r) (ha : a ∈ l) (hb : b ∈ l) (h : l.idxOf a < l.idxOf b) :
    r a b := by
  have hr := List.pairwise_iff_getElem.mp hl _ _ (List.idxOf_lt_length_of_mem ha)
    (List.idxOf_lt_length_of_mem hb) h
  rwa [List.getElem_idxOf, List.getElem_idxOf] at hr

theorem pairwise_idxOf_lt (hnodup : l.Nodup) : l.Pairwise fun a b => l.idxOf a < l.idxOf b := by
  refine List.pairwise_iff_getElem.mpr fun i j hi hj hij => ?_
  rwa [hnodup.idxOf_getElem, hnodup.idxOf_getElem]

/-- In the order of the result, or equivalent and in reverse. -/
def Reversed (less : α → α → Bool) (l : List α) (a b : α) : Prop :=
  less a b = true ∨ less b a = false ∧ l.idxOf b < l.idxOf a

/-- Of two equivalent nodes, the later one comes first. -/
theorem pairwise_sort_reversed (hless : StrictWeakOrder less) (hnodup : l.Nodup) :
    (sort less l).Pairwise (Reversed less l) := by
  refine pairwise_sort ?_ ((pairwise_idxOf_lt hnodup).imp fun hlt =>
    ⟨.inl, fun hab => .inr ⟨hab, hlt⟩⟩)
  rintro a b c (hab | ⟨hba, hidx⟩) (hbc | ⟨hcb, hidx'⟩)
  · exact .inl (hless.trans a b c hab hbc)
  · refine .inl (Bool.not_eq_false _ ▸ fun hac => ?_)
    rw [hless.not_trans hac hcb] at hab
    cases hab
  · refine .inl (Bool.not_eq_false _ ▸ fun hac => ?_)
    rw [hless.not_trans hba hac] at hbc
    cases hbc
  · exact .inr ⟨hless.not_trans hcb hba, hidx'.trans hidx⟩

theorem pairwise_of_stableNodes (hless : StrictWeakOrder less) (hnodup : l.Nodup)
    (hstable : StableNodes less l (sort less l)) :
    l.Pairwise fun a b => less a b = true ∨ less b a = true := by
  have hperm := hstable.1
  refine (pairwise_idxOf_lt hnodup).imp_of_mem fun {a b} ha hb hlt => ?_
  by_contra hequiv
  rw [not_or, Bool.not_eq_true, Bool.not_eq_true] at hequiv
  have hkept := hstable.2 a ha b hb hequiv.1 hequiv.2 hlt
  rcases rel_of_idxOf_lt (pairwise_sort_reversed hless hnodup) (hperm.mem_iff.mpr ha)
    (hperm.mem_iff.mpr hb) hkept with hab | ⟨-, hgt⟩
  · rw [hequiv.1] at hab
    cases hab
  · exact absurd hlt hgt.not_gt

/-- `Sort` is stable exactly for the lists that it sorts and that have no equivalent nodes. -/
theorem sorts_stableNodes_iff (hless : StrictWeakOrder less) (h : Segment next list l none)
    (hnodup : l.Nodup) : Sorts less next list (StableNodes less l) ↔
      l.Pairwise (fun a b => less a b = true ∨ less b a = true) ∧ l.length ≤ 2 ^ 31 := by
  rw [sorts_iff h hnodup]
  refine and_congr_left fun _ => ⟨pairwise_of_stableNodes hless hnodup,
    fun hdistinct => ⟨perm_sort l, ?_⟩⟩
  intro a ha b hb hab hba hlt
  rcases rel_of_idxOf_lt hdistinct ha hb hlt with h | h
  · rw [hab] at h
    cases h
  · rw [hba] at h
    cases h

end

/-! ## Numbered nodes -/

/-- Each of `n` nodes in front of the next one. -/
def numbered (n i : Nat) : Option Nat := if i + 1 < n then some (i + 1) else none

theorem segment_numbered (n : Nat) : ∀ m i, i + (m + 1) = n →
    Segment (numbered n) (some i) (List.range' i (m + 1)) none
  | 0, i, h => ⟨rfl, if_neg (by omega)⟩
  | m + 1, i, h => by
    have hnext : numbered n i = some (i + 1) := if_pos (by omega)
    exact ⟨rfl, hnext ▸ segment_numbered n m (i + 1) (by omega)⟩

theorem strictWeakOrder_lt : StrictWeakOrder fun a b : Nat => decide (a < b) := by
  constructor <;> intros <;> simp_all <;> omega

theorem strictWeakOrder_false : StrictWeakOrder fun _ _ : Nat => false :=
  ⟨fun _ => rfl, fun _ _ _ h _ => h, fun _ _ _ _ _ _ _ => rfl⟩

/-- Two nodes. -/
theorem sorts_sortedNodes_two :
    Sorts (fun a b : Nat => decide (a < b)) (numbered 2) (some 0)
      (SortedNodes (fun a b => decide (a < b)) (List.range' 0 2)) ↔
    (List.range' 0 2).length ≤ 2 ^ 31 :=
  sorts_sortedNodes_iff strictWeakOrder_lt (segment_numbered 2 1 0 rfl) (by decide)

/-- One node too many. -/
theorem sorts_sortedNodes_long :
    ¬ Sorts (fun a b : Nat => decide (a < b)) (numbered (2 ^ 31 + 1)) (some 0)
      (SortedNodes (fun a b => decide (a < b)) (List.range' 0 (2 ^ 31 + 1))) := by
  intro h
  have hsegment := segment_numbered (2 ^ 31 + 1) (2 ^ 31) 0 (Nat.zero_add _)
  have hlength := ((sorts_iff hsegment List.nodup_range').mp h).2
  rw [List.length_range'] at hlength
  exact absurd hlength (Nat.not_succ_le_self _)

/-- Two nodes that are not equivalent. -/
theorem sorts_stableNodes_two :
    Sorts (fun a b : Nat => decide (a < b)) (numbered 2) (some 0)
      (StableNodes (fun a b => decide (a < b)) (List.range' 0 2)) ↔
    (List.range' 0 2).Pairwise (fun a b => decide (a < b) = true ∨ decide (b < a) = true) ∧
      (List.range' 0 2).length ≤ 2 ^ 31 :=
  sorts_stableNodes_iff strictWeakOrder_lt (segment_numbered 2 1 0 rfl) (by decide)

/-- Two equivalent nodes. -/
theorem sorts_stableNodes_equiv :
    ¬ Sorts (fun _ _ : Nat => false) (numbered 2) (some 0)
      (StableNodes (fun _ _ => false) (List.range' 0 2)) := by
  intro h
  have hnodup : (List.range' 0 2).Nodup := by decide
  have hstable := ((sorts_iff (segment_numbered 2 1 0 rfl) hnodup).mp h).1
  exact absurd (pairwise_of_stableNodes strictWeakOrder_false hnodup hstable) (by decide)

end Cfengine
