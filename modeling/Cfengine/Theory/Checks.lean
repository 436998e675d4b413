import Mathlib.Data.List.Basic

/-!
# Checks that collect errors

A check appends what it finds to a sequence of errors, and returns whether it has found nothing.
Checks are put together one behind the other, so that all errors are found, and report together
whether each of their conditions holds.
-/

namespace Checks

universe u v

/-- The errors so far to whether the check has passed, and the errors afterwards. -/
def Check (ε : Type u) : Type u := List ε → Bool × List ε

variable {ε : Type u} {α : Type v} {c c' : Check ε} {P Q : Prop}

def passed : Check ε := fun errors => (true, errors)

def report (error : ε) : Check ε := fun errors => (false, errors ++ [error])

/-- The one check, and then the other one in any case. -/
def both (c c' : Check ε) : Check ε := fun errors =>
  let first := c errors
  let second := c' first.2
  (first.1 && second.1, second.2)

/-- The check of each element. -/
def each (f : α → Check ε) : List α → Check ε
  | [] => passed
  | a :: l => both (f a) (each f l)

/-- A check that reports an error if the condition does not hold. -/
def ensure (p : Bool) (error : ε) : Check ε := if p then passed else report error

/-- The check appends to the errors, and passes if and only if it appends nothing, which is if and
only if `P` holds. -/
def Decides (c : Check ε) (P : Prop) : Prop :=
  ∀ errors, ∃ found, (c errors).2 = errors ++ found ∧ ((c errors).1 = true ↔ P) ∧ (found = [] ↔ P)

theorem decides_passed : Decides (passed : Check ε) True := fun errors =>
  ⟨[], (List.append_nil errors).symm, iff_true_intro rfl, iff_true_intro rfl⟩

theorem decides_report (error : ε) : Decides (report error) False := fun _ =>
  ⟨[error], rfl, iff_false_intro Bool.false_ne_true, iff_false_intro (List.cons_ne_nil error [])⟩

theorem Decides.congr (h : Decides c P) (hPQ : P ↔ Q) : Decides c Q := fun errors => by
  obtain ⟨found, hfound, hpassed, hnil⟩ := h errors
  exact ⟨found, hfound, hpassed.trans hPQ, hnil.trans hPQ⟩

theorem Decides.both (h : Decides c P) (h' : Decides c' Q) :
    Decides (both c c') (P ∧ Q) := fun errors => by
  obtain ⟨found, hfound, hpassed, hnil⟩ := h errors
  obtain ⟨found', hfound', hpassed', hnil'⟩ := h' (c errors).2
  refine ⟨found ++ found', ?_, ?_, ?_⟩
  · rw [Checks.both, hfound', hfound, List.append_assoc]
  · rw [Checks.both, Bool.and_eq_true, hpassed, hpassed']
  · rw [List.append_eq_nil_iff, hnil, hnil']

theorem decides_each {f : α → Check ε} {P : α → Prop} {l : List α}
    (h : ∀ a ∈ l, Decides (f a) (P a)) :
    Decides (each f l) (∀ a ∈ l, P a) := by
  induction l with
  | nil => exact decides_passed.congr (by simp)
  | cons a l ih =>
    obtain ⟨ha, hl⟩ := List.forall_mem_cons.mp h
    exact (ha.both (ih hl)).congr List.forall_mem_cons.symm

theorem decides_ensure {p : Bool} (error : ε) : Decides (ensure p error) (p = true) := by
  cases p with
  | true => exact decides_passed.congr (iff_of_true trivial rfl)
  | false => exact (decides_report error).congr (iff_of_false not_false Bool.false_ne_true)

theorem Decides.ite {p : Prop} [Decidable p] (h : Decides c P) (h' : Decides c' Q) :
    Decides (if p then c else c') ((p → P) ∧ (¬ p → Q)) := by
  split
  · rename_i hp
    exact h.congr ⟨fun hP => ⟨fun _ => hP, fun hn => absurd hp hn⟩, fun hPQ => hPQ.1 hp⟩
  · rename_i hp
    exact h'.congr ⟨fun hQ => ⟨fun hn => absurd hn hp, fun _ => hQ⟩, fun hPQ => hPQ.2 hp⟩

/-! ## Pairs of different elements -/

/-- The check of each element with each other one. -/
def eachPair (f : α → α → Check ε) (l : List α) : Check ε :=
  each (fun a => each (fun b => if a.2 ≠ b.2 then f a.1 b.1 else passed) l.zipIdx) l.zipIdx

/-- For a condition of two elements in any order, it is enough that it holds for the pairs in the
order of the list. -/
theorem decides_eachPair {f : α → α → Check ε} {R : α → α → Prop} (hsymm : ∀ a b, R a b → R b a)
    {l : List α} (h : ∀ a b, Decides (f a b) (R a b)) : Decides (eachPair f l) (l.Pairwise R) := by
  have hinner : ∀ a : α × Nat,
    Decides (each (fun b => if a.2 ≠ b.2 then f a.1 b.1 else passed) l.zipIdx)
      (∀ b ∈ l.zipIdx, a.2 ≠ b.2 → R a.1 b.1) := fun a =>
    decides_each fun b _ => ((h a.1 b.1).ite decides_passed).congr (and_iff_left fun _ => trivial)
  refine (decides_each fun a _ => hinner a).congr ⟨fun hall => ?_, fun hpairs a ha b hb hne => ?_⟩
  · refine List.pairwise_iff_getElem.mpr fun i j hi hj hlt => ?_
    have hmem : ∀ {k : Nat} (hk : k < l.length), (l[k], k) ∈ l.zipIdx := fun hk =>
      List.mem_zipIdx_iff_getElem?.mpr (List.getElem?_eq_getElem hk)
    exact hall _ (hmem hi) _ (hmem hj) (Nat.ne_of_lt hlt)
  · have hget : ∀ c ∈ l.zipIdx, ∃ hc : c.2 < l.length, l[c.2] = c.1 := fun c hc =>
      List.getElem?_eq_some_iff.mp (List.mem_zipIdx_iff_getElem?.mp hc)
    obtain ⟨hi, ha⟩ := hget a ha
    obtain ⟨hj, hb⟩ := hget b hb
    have hpairs' := List.pairwise_iff_getElem.mp hpairs
    rw [← ha, ← hb]
    obtain hlt | hlt := Nat.lt_or_gt_of_ne hne
    · exact hpairs' _ _ hi hj hlt
    · exact hsymm _ _ (hpairs' _ _ hj hi hlt)

end Checks
