import Mathlib

/-!
# Running minima

A loop keeps the element with the least key so far, from a key to begin with (`improve`). Where the
order is a strict total one on the keys, the loop finds an element of the least key, if any key is
below the first one, and it picks an element of the *largest* key only by chance
(`foldl_improve_picksLargest_iff`).
-/

namespace RunningMinimum

universe u v

variable {α : Type u} {β : Type v}

/-- The relation is a strict total order on the elements of `S`. -/
structure StrictTotalOn (lt : β → β → Prop) (S : β → Prop) : Prop where
  irrefl : ∀ {x}, S x → ¬lt x x
  trans : ∀ {x y z}, S x → S y → S z → lt x y → lt y z → lt x z
  total : ∀ {x y}, S x → S y → x ≠ y → lt x y ∨ lt y x

/-- The element becomes the best one if its key is below the best key. -/
def improve (lt : β → β → Prop) [DecidableRel lt] (key : α → β) (best : β × Option α) (a : α) :
    β × Option α :=
  if lt (key a) best.1 then (key a, some a) else best

/-- The answer is an element of the largest key, and there is one if a key satisfies the request. -/
def PicksLargest (lt : β → β → Prop) (key : α → β) (request : β → Prop) (l : List α)
    (answer : Option α) : Prop :=
  (answer.isSome ↔ ∃ a ∈ l, request (key a)) ∧
    ∀ m, answer = some m → m ∈ l ∧ ∀ a ∈ l, ¬lt (key m) (key a)

variable {lt : β → β → Prop} {key : α → β} {S : β → Prop} {l : List α} {best : β × Option α}
  {request : β → Prop} {m : α}

theorem StrictTotalOn.asymm (h : StrictTotalOn lt S) {x y : β} (hx : S x) (hy : S y)
    (hxy : lt x y) : ¬lt y x := fun hyx => h.irrefl hx (h.trans hx hy hx hxy hyx)

/-- What is not below the least of three is not below a larger one. -/
theorem StrictTotalOn.not_lt_trans (h : StrictTotalOn lt S) {x y z : β} (hx : S x) (hy : S y)
    (hz : S z) (hxy : ¬lt x y) (hzy : lt z y) : ¬lt x z :=
  fun hxz => hxy (h.trans hx hz hy hxz hzy)

theorem picksLargest_none_iff :
    PicksLargest lt key request l none ↔ ∀ a ∈ l, ¬request (key a) := by
  constructor
  · intro h a ha hr
    exact Bool.false_ne_true (h.1.2 ⟨a, ha, hr⟩)
  · intro h
    refine ⟨⟨nofun, ?_⟩, nofun⟩
    rintro ⟨a, ha, hr⟩
    exact absurd hr (h a ha)

/-- An element of the least key is one of the largest key if all the keys are the same. -/
theorem picksLargest_least_iff (h : StrictTotalOn lt S) (hl : ∀ a ∈ l, S (key a)) (hm : m ∈ l)
    (hleast : ∀ a ∈ l, ¬lt (key a) (key m)) :
    PicksLargest lt key request l (some m) ↔ (∀ a ∈ l, key a = key m) ∧ request (key m) := by
  constructor
  · rintro ⟨hsome, hlargest⟩
    have hlargest := (hlargest m rfl).2
    have hall : ∀ a ∈ l, key a = key m := by
      intro a ha
      by_contra hne
      rcases h.total (hl a ha) (hl m hm) hne with hlt | hlt
      · exact hleast a ha hlt
      · exact hlargest a ha hlt
    obtain ⟨a, ha, hr⟩ := hsome.1 rfl
    exact ⟨hall, hall a ha ▸ hr⟩
  · rintro ⟨hall, hr⟩
    refine ⟨⟨fun _ => ⟨m, hm, hr⟩, fun _ => rfl⟩, fun m' hm' => ?_⟩
    obtain rfl := Option.some.inj hm'
    exact ⟨hm, fun a ha => (hall a ha).symm ▸ h.irrefl (hl m hm)⟩

variable [DecidableRel lt]

/-- The loop keeps what it began with, or it has an element of the least key. -/
theorem foldl_improve (h : StrictTotalOn lt S) (hl : ∀ a ∈ l, S (key a)) (best : β × Option α)
    (hbest : S best.1) :
    (l.foldl (improve lt key) best = best ∧ ∀ a ∈ l, ¬lt (key a) best.1) ∨
      ∃ m ∈ l, l.foldl (improve lt key) best = (key m, some m) ∧ lt (key m) best.1 ∧
        ∀ a ∈ l, ¬lt (key a) (key m) := by
  induction l generalizing best with
  | nil => exact .inl ⟨rfl, nofun⟩
  | cons a l ih =>
    have ha : S (key a) := hl a (List.mem_cons_self ..)
    have hl : ∀ b ∈ l, S (key b) := fun b hb => hl b (List.mem_cons_of_mem _ hb)
    rw [List.foldl_cons, improve]
    by_cases hlt : lt (key a) best.1
    · rw [if_pos hlt]
      right
      rcases ih hl (key a, some a) ha with ⟨heq, hnone⟩ | ⟨m, hm, heq, hma, hleast⟩
      · exact ⟨a, List.mem_cons_self .., heq, hlt, List.forall_mem_cons.2 ⟨h.irrefl ha, hnone⟩⟩
      · have hmbest := h.trans (hl m hm) ha hbest hma hlt
        exact ⟨m, List.mem_cons_of_mem _ hm, heq, hmbest,
          List.forall_mem_cons.2 ⟨h.asymm (hl m hm) ha hma, hleast⟩⟩
    · rw [if_neg hlt]
      rcases ih hl best hbest with ⟨heq, hnone⟩ | ⟨m, hm, heq, hmbest, hleast⟩
      · exact .inl ⟨heq, List.forall_mem_cons.2 ⟨hlt, hnone⟩⟩
      · have ham : ¬lt (key a) (key m) := h.not_lt_trans ha hbest (hl m hm) hlt hmbest
        exact .inr ⟨m, List.mem_cons_of_mem _ hm, heq, hmbest,
          List.forall_mem_cons.2 ⟨ham, hleast⟩⟩

/-- The loop has the key of its element. -/
theorem foldl_improve_key (hbest : ∀ m, best.2 = some m → best.1 = key m) :
    ∀ m, (l.foldl (improve lt key) best).2 = some m →
      (l.foldl (improve lt key) best).1 = key m := by
  induction l generalizing best with
  | nil => exact hbest
  | cons a l ih =>
    rw [List.foldl_cons]
    refine ih ?_
    rw [improve]
    split
    · intro m hm
      exact congrArg key (Option.some.inj hm)
    · exact hbest

/-- A running minimum picks an element of the largest key exactly if there is nothing to pick and
nothing below the first key, or all the keys are one that satisfies the request and is below. -/
theorem foldl_improve_picksLargest_iff (h : StrictTotalOn lt S) (hl : ∀ a ∈ l, S (key a))
    {first : β} (hfirst : S first) :
    PicksLargest lt key request l (l.foldl (improve lt key) (first, none)).2 ↔
      (∀ a ∈ l, ¬lt (key a) first ∧ ¬request (key a)) ∨
        ∃ w, l ≠ [] ∧ (∀ a ∈ l, key a = w) ∧ lt w first ∧ request w := by
  rcases foldl_improve h hl (first, none) hfirst with
    ⟨heq, hnone⟩ | ⟨m, hm, heq, hmfirst, hleast⟩
  · have hnever : ¬∃ w, l ≠ [] ∧ (∀ a ∈ l, key a = w) ∧ lt w first ∧ request w := by
      rintro ⟨w, hne, hall, hw, -⟩
      obtain ⟨a, ha⟩ := List.exists_mem_of_ne_nil l hne
      exact hnone a ha (hall a ha ▸ hw)
    rw [heq, picksLargest_none_iff, or_iff_left hnever]
    exact forall₂_congr fun a ha => (and_iff_right (hnone a ha)).symm
  · have hnever : ¬∀ a ∈ l, ¬lt (key a) first ∧ ¬request (key a) :=
      fun hall => (hall m hm).1 hmfirst
    rw [heq, picksLargest_least_iff h hl hm hleast, or_iff_right hnever]
    constructor
    · rintro ⟨hall, hr⟩
      exact ⟨key m, List.ne_nil_of_mem hm, hall, hmfirst, hr⟩
    · rintro ⟨w, -, hall, -, hr⟩
      exact ⟨fun a ha => (hall a ha).trans (hall m hm).symm, (hall m hm).symm ▸ hr⟩

end RunningMinimum
