import Mathlib

/-!
# Lists with distinct keys

A list of keyed elements in which no key occurs twice, where `equal` decides when two keys are the
same. A linear search for the first match then finds the only one, and removing or changing the
first match removes or changes exactly the elements with that key.
-/

namespace KeyedList

universe u v

variable {α : Type u} {K : Type v}

/-- `equal` decides an equivalence relation. -/
abbrev IsEquiv (equal : K → K → Bool) : Prop := Equivalence fun a b => equal a b = true

/-- No two elements of the list have equal keys. -/
def Distinct (equal : K → K → Bool) (key : α → K) (l : List α) : Prop :=
  l.Pairwise fun a b => equal (key a) (key b) = false

/-- Apply `f` to the first element that satisfies `p`. -/
def modifyFirst (p : α → Bool) (f : α → α) : List α → List α
  | [] => []
  | a :: l => if p a then f a :: l else a :: modifyFirst p f l

attribute [grind =] modifyFirst

variable {equal : K → K → Bool} {key : α → K} {l : List α} {a b : α} {k : K}

theorem IsEquiv.symm_eq (he : IsEquiv equal) (x y : K) : equal x y = equal y x :=
  Bool.eq_iff_iff.mpr ⟨he.symm, he.symm⟩

theorem Distinct.unique (he : IsEquiv equal) (hd : Distinct equal key l) (ha : a ∈ l) (hb : b ∈ l)
    (h : equal (key a) (key b) = true) : a = b := by
  by_contra hne
  have : Std.Symm fun a b : α => equal (key a) (key b) = false :=
    ⟨fun x y hxy => by rwa [he.symm_eq]⟩
  have hab := List.Pairwise.forall hd ha hb hne
  rw [h] at hab
  cases hab

theorem Distinct.cons (hd : Distinct equal key l)
    (hnew : ∀ b ∈ l, equal (key a) (key b) = false) : Distinct equal key (a :: l) :=
  List.pairwise_cons.mpr ⟨hnew, hd⟩

theorem Distinct.concat (hd : Distinct equal key l)
    (hnew : ∀ b ∈ l, equal (key b) (key a) = false) : Distinct equal key (l ++ [a]) :=
  List.pairwise_append.mpr ⟨hd, List.pairwise_singleton _ _, fun b hb c hc => by
    rw [List.mem_singleton.mp hc]; exact hnew b hb⟩

/-- A linear search finds the element with the key. -/
theorem Distinct.find?_eq_some (he : IsEquiv equal) (hd : Distinct equal key l) :
    l.find? (fun a => equal (key a) k) = some a ↔ a ∈ l ∧ equal (key a) k = true := by
  constructor
  · intro h
    exact ⟨List.mem_of_find?_eq_some h, List.find?_some (p := fun a => equal (key a) k) h⟩
  · rintro ⟨ha, hk⟩
    obtain ⟨b, hb⟩ : ∃ b, l.find? (fun a => equal (key a) k) = some b :=
      Option.isSome_iff_exists.mp (List.find?_isSome.mpr ⟨a, ha, hk⟩)
    have hbk := List.find?_some (p := fun a => equal (key a) k) hb
    rw [hb, hd.unique he (List.mem_of_find?_eq_some hb) ha (he.trans hbk (he.symm hk))]

theorem Distinct.eraseP (hd : Distinct equal key l) (p : α → Bool) :
    Distinct equal key (l.eraseP p) := hd.sublist List.eraseP_sublist

/-- Removing the first match removes the key. -/
theorem Distinct.mem_eraseP (he : IsEquiv equal) (hd : Distinct equal key l) :
    b ∈ l.eraseP (fun a => equal (key a) k) ↔ b ∈ l ∧ equal (key b) k = false := by
  induction l with
  | nil => simp
  | cons a l ih =>
    obtain ⟨hhead, hd⟩ := List.pairwise_cons.mp hd
    by_cases hk : equal (key a) k = true
    · rw [List.eraseP_cons_of_pos (p := fun a => equal (key a) k) hk, List.mem_cons]
      constructor
      · refine fun hb => ⟨.inr hb, ?_⟩
        by_contra hbk
        have := hhead b hb
        rw [he.trans hk (he.symm (Bool.not_eq_false _ ▸ hbk))] at this
        cases this
      · rintro ⟨rfl | hb, hbk⟩
        · rw [hk] at hbk; cases hbk
        · exact hb
    · rw [List.eraseP_cons_of_neg (p := fun a => equal (key a) k) hk, List.mem_cons, List.mem_cons,
        ih hd]
      constructor
      · rintro (rfl | ⟨hb, hbk⟩)
        · exact ⟨.inl rfl, by simpa using hk⟩
        · exact ⟨.inr hb, hbk⟩
      · rintro ⟨rfl | hb, hbk⟩
        · exact .inl rfl
        · exact .inr ⟨hb, hbk⟩

@[simp] theorem length_modifyFirst {p : α → Bool} {f : α → α} :
    (modifyFirst p f l).length = l.length := by
  induction l with
  | nil => rfl
  | cons a l ih =>
    rw [modifyFirst]
    split
    · rfl
    · rw [List.length_cons, ih, List.length_cons]

theorem map_modifyFirst {β : Type*} {g : α → β} {p : α → Bool} {f : α → α}
    (h : ∀ a, g (f a) = g a) : (modifyFirst p f l).map g = l.map g := by
  induction l with
  | nil => rfl
  | cons a l ih =>
    rw [modifyFirst]
    split
    · rw [List.map_cons, List.map_cons, h]
    · rw [List.map_cons, List.map_cons, ih]

/-- The change of the first match is the change of what a search for it finds. -/
theorem find?_modifyFirst_self {p : α → Bool} {f : α → α} (hf : ∀ a, p (f a) = p a) :
    (modifyFirst p f l).find? p = (l.find? p).map f := by
  induction l with
  | nil => rfl
  | cons a l ih =>
    rw [modifyFirst]
    cases ha : p a <;> simp [ha, hf, ih]

theorem find?_modifyFirst_of_ne {p q : α → Bool} {f : α → α}
    (hp : ∀ a, p a = true → q a = false) (hf : ∀ a, q (f a) = q a) :
    (modifyFirst p f l).find? q = l.find? q := by
  induction l with
  | nil => rfl
  | cons a l ih =>
    rw [modifyFirst]
    cases ha : p a with
    | true => simp [hf, hp a ha]
    | false => simp [List.find?_cons, ih]

/-- The first match and its change are exchanged. -/
theorem modifyFirst_eq_self {p : α → Bool} {f : α → α} (h : l.find? p = some a) (hf : f a = a) :
    modifyFirst p f l = l := by
  induction l with
  | nil => rfl
  | cons b l ih =>
    rw [modifyFirst]
    cases hp : p b with
    | true =>
      rw [List.find?_cons_of_pos hp] at h
      cases h
      rw [if_pos rfl, hf]
    | false =>
      rw [List.find?_cons_of_neg (by rw [hp]; exact Bool.false_ne_true)] at h
      rw [if_neg Bool.false_ne_true, ih h]

theorem perm_modifyFirst {p : α → Bool} {f : α → α} (h : l.find? p = some a) :
    (f a :: l).Perm (a :: modifyFirst p f l) := by
  induction l with
  | nil => cases h
  | cons b l ih =>
    rw [modifyFirst]
    cases hb : p b with
    | true =>
      rw [List.find?_cons_of_pos hb, Option.some_inj] at h
      rw [if_pos rfl, h]
      exact .swap _ _ _
    | false =>
      rw [List.find?_cons_of_neg (by simp [hb])] at h
      rw [if_neg Bool.false_ne_true]
      exact (List.Perm.swap _ _ _).trans (((ih h).cons b).trans (.swap _ _ _))

/-- The first match is taken out. -/
theorem perm_eraseP {p : α → Bool} (h : l.find? p = some a) : (a :: l.eraseP p).Perm l := by
  induction l with
  | nil => cases h
  | cons b l ih =>
    cases hb : p b with
    | true =>
      rw [List.find?_cons_of_pos hb, Option.some_inj] at h
      rw [List.eraseP_cons_of_pos hb, h]
    | false =>
      rw [List.find?_cons_of_neg (by simp [hb])] at h
      rw [List.eraseP_cons_of_neg (by simp [hb])]
      exact (List.Perm.swap _ _ _).trans ((ih h).cons b)

theorem distinct_iff_map :
    Distinct equal key l ↔ (l.map key).Pairwise fun x y => equal x y = false := by
  rw [List.pairwise_map, Distinct]

/-- A change that keeps the keys keeps them distinct. -/
theorem Distinct.modifyFirst (hd : Distinct equal key l) {p : α → Bool} {f : α → α}
    (h : ∀ a, key (f a) = key a) : Distinct equal key (modifyFirst p f l) := by
  rw [distinct_iff_map, map_modifyFirst h, ← distinct_iff_map]
  exact hd

/-- Changing the first match changes the element with the key. -/
theorem Distinct.mem_modifyFirst (he : IsEquiv equal) (hd : Distinct equal key l) {f : α → α} :
    b ∈ KeyedList.modifyFirst (fun a => equal (key a) k) f l ↔
      (∃ a ∈ l, equal (key a) k = true ∧ b = f a) ∨ b ∈ l ∧ equal (key b) k = false := by
  induction l with
  | nil => simp [KeyedList.modifyFirst]
  | cons a l ih =>
    obtain ⟨hhead, hd⟩ := List.pairwise_cons.mp hd
    have hothers : equal (key a) k = true → ∀ c ∈ l, equal (key c) k = false := by
      intro hk c hc
      by_contra hck
      have := hhead c hc
      rw [he.trans hk (he.symm (Bool.not_eq_false _ ▸ hck))] at this
      cases this
    rw [KeyedList.modifyFirst]
    split
    · rename_i hk
      rw [List.mem_cons]
      constructor
      · rintro (rfl | hb)
        · exact .inl ⟨a, List.mem_cons_self, hk, rfl⟩
        · exact .inr ⟨List.mem_cons_of_mem _ hb, hothers hk b hb⟩
      · rintro (⟨c, hc, hck, rfl⟩ | ⟨hb, hbk⟩)
        · rcases List.mem_cons.mp hc with rfl | hc
          · exact .inl rfl
          · rw [hothers hk c hc] at hck; cases hck
        · rcases List.mem_cons.mp hb with rfl | hb
          · rw [hk] at hbk; cases hbk
          · exact .inr hb
    · rename_i hk
      rw [List.mem_cons, ih hd]
      constructor
      · rintro (rfl | ⟨c, hc, hck, rfl⟩ | ⟨hb, hbk⟩)
        · exact .inr ⟨List.mem_cons_self, by simpa using hk⟩
        · exact .inl ⟨c, List.mem_cons_of_mem _ hc, hck, rfl⟩
        · exact .inr ⟨List.mem_cons_of_mem _ hb, hbk⟩
      · rintro (⟨c, hc, hck, rfl⟩ | ⟨hb, hbk⟩)
        · rcases List.mem_cons.mp hc with rfl | hc
          · exact absurd hck hk
          · exact .inr (.inl ⟨c, hc, hck, rfl⟩)
        · rcases List.mem_cons.mp hb with rfl | hb
          · exact .inl rfl
          · exact .inr (.inr ⟨hb, hbk⟩)

end KeyedList
