import Mathlib

/-!
# Open addressing with linear probing

A ring of `n` slots; an element lives on the probe path `home, home + 1, ...` (modulo `n`) of its
key. A search walks the path up to the first free slot, so the table represents a set of keyed
elements exactly when no element has a free slot before it on its path (`Reaches`) and no key is
stored twice (`Table.Wf`). `Table.Wf.place` and `Table.Wf.free_iff` say when storing and freeing a
slot keep this.
-/

namespace Probing

universe u v

/-- A slot of the ring: never used since it was last freed, marked as deleted, or taken. -/
inductive Slot (α : Type u) where
  | free
  | deleted
  | entry (a : α)

/-- The slot is free, so it ends every search. -/
def Slot.isFree {α : Type u} : Slot α → Bool
  | .free => true
  | _ => false

/-- There is an element in the slot. -/
def Slot.isEntry {α : Type u} : Slot α → Bool
  | .entry _ => true
  | _ => false

/-- The slots of the ring; only the indices below its size are used. -/
abbrev Table (α : Type u) := Nat → Slot α

/-- The slot reached from `home` after `d` probes. -/
def probe (n home d : Nat) : Nat := (home + d) % n

variable {n home d e i j k : Nat} {α : Type u}

theorem probe_lt (hn : 0 < n) : probe n home d < n := Nat.mod_lt _ hn

@[simp] theorem probe_zero (h : home < n) : probe n home 0 = home := Nat.mod_eq_of_lt h

theorem succ_probe_mod : (probe n home d + 1) % n = probe n home (d + 1) := by
  simp only [probe, Nat.mod_add_mod, Nat.add_assoc]

theorem probe_inj (hd : d < n) (he : e < n) (h : probe n home d = probe n home e) : d = e := by
  have : home + d ≡ home + e [MOD n] := h
  exact (Nat.ModEq.add_left_cancel' home this).eq_of_lt_of_lt hd he

/-- Every slot is on the probe path of every home. -/
theorem exists_probe (hj : j < n) (hh : home < n) : ∃ d < n, probe n home d = j := by
  refine ⟨(j + (n - home)) % n, Nat.mod_lt _ (by omega), ?_⟩
  rw [probe, Nat.add_mod_mod]
  have : home + (j + (n - home)) = j + n := by omega
  rw [this, Nat.add_mod_right, Nat.mod_eq_of_lt hj]

/-! ## The search -/

/-- The first slot on the path from `i`, within `k` probes, at which a search stops. -/
def firstStop (n : Nat) (t : Table α) (stops : Slot α → Bool) : Nat → Nat → Option Nat
  | 0, _ => none
  | k + 1, i => if stops (t i) then some i else firstStop n t stops k ((i + 1) % n)

variable {t : Table α} {stops : Slot α → Bool}

theorem firstStop_probe_eq_some :
    firstStop n t stops k (probe n home d) = some j ↔
      ∃ e, e < k ∧ j = probe n home (d + e) ∧ stops (t j) = true ∧
        ∀ e' < e, stops (t (probe n home (d + e'))) = false := by
  induction k generalizing d with
  | zero => simp [firstStop]
  | succ k ih =>
    rw [firstStop]
    split
    · rename_i hs
      constructor
      · rintro ⟨⟩
        exact ⟨0, by omega, rfl, hs, by simp⟩
      · rintro ⟨e, _, rfl, -, hbefore⟩
        cases e with
        | zero => rfl
        | succ e => simpa [hs] using hbefore 0 (by omega)
    · rename_i hs
      rw [succ_probe_mod, ih]
      constructor
      · rintro ⟨e, he, rfl, hstop, hbefore⟩
        refine ⟨e + 1, by omega, by rw [Nat.add_right_comm, Nat.add_assoc], hstop, fun e' he' => ?_⟩
        cases e' with
        | zero => simpa using hs
        | succ e' => simpa [Nat.add_assoc, Nat.add_comm 1] using hbefore e' (by omega)
      · rintro ⟨e, he, rfl, hstop, hbefore⟩
        cases e with
        | zero => exact absurd hstop hs
        | succ e =>
          refine ⟨e, by omega, by rw [Nat.add_right_comm, Nat.add_assoc], hstop, fun e' he' => ?_⟩
          simpa [Nat.add_assoc, Nat.add_comm 1] using hbefore (e' + 1) (by omega)

/-- A full round of the search stops at the first stopping slot of the probe path. -/
theorem firstStop_eq_some (hh : home < n) :
    firstStop n t stops n home = some j ↔
      ∃ d < n, j = probe n home d ∧ stops (t j) = true ∧
        ∀ e < d, stops (t (probe n home e)) = false := by
  have hprobe : firstStop n t stops n (probe n home 0) = some j ↔ _ := firstStop_probe_eq_some
  simpa only [probe_zero hh, Nat.zero_add] using hprobe

/-- A full round of the search finds nothing exactly when no slot stops it. -/
theorem firstStop_eq_none (hh : home < n) :
    firstStop n t stops n home = none ↔ ∀ j < n, stops (t j) = false := by
  constructor
  · intro h j hj
    by_contra hs
    have hne : ∃ d, d < n ∧ stops (t (probe n home d)) = true := by
      obtain ⟨d, hd, rfl⟩ := exists_probe hj hh
      exact ⟨d, hd, by simpa using hs⟩
    classical
    have hfirst := Nat.find_spec hne
    have hsome : firstStop n t stops n home = some (probe n home (Nat.find hne)) := by
      refine (firstStop_eq_some hh).mpr ⟨_, hfirst.1, rfl, hfirst.2, fun e he => ?_⟩
      have := Nat.find_min hne he
      have hlt : e < n := he.trans hfirst.1
      simpa [hlt] using this
    rw [h] at hsome
    cases hsome
  · intro h
    by_contra hs
    obtain ⟨j, hj⟩ := Option.ne_none_iff_exists'.mp hs
    obtain ⟨d, -, rfl, hstop, -⟩ := (firstStop_eq_some hh).mp hj
    simp [h _ (probe_lt (by omega))] at hstop

/-! ## Well-formed tables -/

/-- Slot `j` is reached from `home` without meeting a free slot before. -/
def Reaches (n : Nat) (t : Table α) (home j : Nat) : Prop :=
  ∃ d < n, j = probe n home d ∧ ∀ e < d, t (probe n home e) ≠ .free

/-- Slot `i` lies strictly before slot `j` on the probe path from `home`. -/
def Before (n home i j : Nat) : Prop :=
  ∃ d < n, j = probe n home d ∧ ∃ e < d, i = probe n home e

section
variable {K : Type v} (n : Nat) (hash : K → Nat) (key : α → K)

/-- The invariant of a table of keyed elements: nothing is marked as deleted, every element is
reached by the search for its key, and no key is stored twice. -/
structure Table.Wf (t : Table α) : Prop where
  noDeleted : ∀ i < n, t i ≠ .deleted
  reaches : ∀ {j a}, j < n → t j = .entry a → Reaches n t (hash (key a)) j
  unique : ∀ {i j a b}, i < n → j < n → t i = .entry a → t j = .entry b → key a = key b → i = j

/-- The element `a` is stored under `key a`. -/
def Table.Holds (t : Table α) (a : α) : Prop := ∃ j < n, t j = .entry a

end

theorem Table.Wf.empty {K : Type v} {hash : K → Nat} {key : α → K} :
    Table.Wf n hash key (fun _ => (.free : Slot α)) :=
  ⟨fun _ _ => nofun, fun _ => nofun, fun _ _ => nofun⟩

section
variable {K : Type v} {hash : K → Nat} {key : α → K} {t : Table α} {a b : α}

theorem Reaches.mono {t t' : Table α} (h : Reaches n t home j)
    (hle : ∀ i < n, t i ≠ .free → t' i ≠ .free) : Reaches n t' home j := by
  obtain ⟨d, hd, rfl, hpath⟩ := h
  exact ⟨d, hd, rfl, fun e he => hle _ (probe_lt (by omega)) (hpath e he)⟩

/-- A search that stops at the elements with the key of a stored element, and possibly at free
slots, finds this element. -/
theorem Table.Wf.firstStop_of_entry (h : t.Wf n hash key) (hh : ∀ k, hash k < n)
    (hstops : ∀ b, stops (.entry b) = true ↔ key b = key a)
    (hj : j < n) (hja : t j = .entry a) :
    firstStop n t stops n (hash (key a)) = some j := by
  obtain ⟨d, hd, rfl, hpath⟩ := h.reaches hj hja
  refine (firstStop_eq_some (hh _)).mpr ⟨d, hd, rfl, by rw [hja, hstops], fun e he => ?_⟩
  by_contra hs
  have hlt : probe n (hash (key a)) e < n := probe_lt (by omega)
  cases hslot : t (probe n (hash (key a)) e) with
  | free => exact hpath e he hslot
  | deleted => exact h.noDeleted _ hlt hslot
  | entry b =>
    rw [hslot, Bool.not_eq_false, hstops] at hs
    have := probe_inj (by omega) hd (h.unique hlt hj hslot hja hs)
    omega

/-- Storing a new key in the first free slot of its path keeps the invariant. -/
theorem Table.Wf.place (h : t.Wf n hash key) (hnew : ∀ b, t.Holds n b → key b ≠ key a)
    (hi : i < n) (hfree : t i = .free) (hreach : Reaches n t (hash (key a)) i) :
    Table.Wf n hash key (Function.update t i (.entry a)) := by
  have hmono : ∀ j < n, t j ≠ .free → Function.update t i (.entry a) j ≠ .free := by
    intro j _ hj
    rcases eq_or_ne j i with rfl | hne
    · simp
    · rwa [Function.update_of_ne hne]
  refine ⟨fun j hj => ?_, fun {j b} hj hb => ?_, fun {j j' b b'} hj hj' hb hb' hkey => ?_⟩
  · rcases eq_or_ne j i with rfl | hne
    · simp
    · rw [Function.update_of_ne hne]; exact h.noDeleted j hj
  · rcases eq_or_ne j i with rfl | hne
    · rw [Function.update_self] at hb
      cases hb
      exact hreach.mono hmono
    · rw [Function.update_of_ne hne] at hb
      exact (h.reaches hj hb).mono hmono
  · rcases eq_or_ne j i with hji | hne <;> rcases eq_or_ne j' i with hji' | hne'
    · rw [hji, hji']
    · rw [hji, Function.update_self] at hb
      rw [Function.update_of_ne hne'] at hb'
      cases hb
      exact absurd hkey.symm (hnew b' ⟨j', hj', hb'⟩)
    · rw [hji', Function.update_self] at hb'
      rw [Function.update_of_ne hne] at hb
      cases hb'
      exact absurd hkey (hnew b ⟨j, hj, hb⟩)
    · rw [Function.update_of_ne hne] at hb
      rw [Function.update_of_ne hne'] at hb'
      exact h.unique hj hj' hb hb' hkey

theorem Table.holds_update_entry (hi : i < n) (hfree : t i = .free) :
    Table.Holds n (Function.update t i (.entry a)) b ↔ b = a ∨ t.Holds n b := by
  constructor
  · rintro ⟨j, hj, hb⟩
    rcases eq_or_ne j i with rfl | hne
    · rw [Function.update_self] at hb
      cases hb
      exact .inl rfl
    · rw [Function.update_of_ne hne] at hb
      exact .inr ⟨j, hj, hb⟩
  · rintro (rfl | ⟨j, hj, hb⟩)
    · exact ⟨i, hi, Function.update_self ..⟩
    · have hne : j ≠ i := by rintro rfl; rw [hfree] at hb; cases hb
      exact ⟨j, hj, by rwa [Function.update_of_ne hne]⟩

/-- Freeing a slot keeps the invariant exactly when no other element has it on its path. -/
theorem Table.Wf.free_iff (h : t.Wf n hash key) (hi : i < n) (hia : t i = .entry a) :
    Table.Wf n hash key (Function.update t i .free) ↔
      ∀ {j b}, j < n → t j = .entry b → ¬ Before n (hash (key b)) i j := by
  constructor
  · intro h' j b hj hb
    rintro ⟨d, hd, rfl, e, he, hie⟩
    have hne : probe n (hash (key b)) d ≠ i := by
      intro heq
      have := probe_inj hd (by omega) (heq.trans hie)
      omega
    obtain ⟨d', hd', heq, hpath⟩ :=
      h'.reaches (a := b) hj (by rwa [Function.update_of_ne hne])
    cases probe_inj hd hd' heq
    exact hpath e he (by rw [← hie, Function.update_self])
  · intro hbefore
    refine ⟨fun j hj => ?_, fun {j b} hj hb => ?_, fun {j j' b b'} hj hj' hb hb' hkey => ?_⟩
    · rcases eq_or_ne j i with rfl | hne
      · simp
      · rw [Function.update_of_ne hne]; exact h.noDeleted j hj
    · have hne : j ≠ i := by rintro rfl; simp at hb
      rw [Function.update_of_ne hne] at hb
      obtain ⟨d, hd, rfl, hpath⟩ := h.reaches hj hb
      refine ⟨d, hd, rfl, fun e he => ?_⟩
      have hne' : probe n (hash (key b)) e ≠ i :=
        fun heq => hbefore hj hb ⟨d, hd, rfl, e, he, heq.symm⟩
      rw [Function.update_of_ne hne']
      exact hpath e he
    · have hne : j ≠ i := by rintro rfl; simp at hb
      have hne' : j' ≠ i := by rintro rfl; simp at hb'
      rw [Function.update_of_ne hne] at hb
      rw [Function.update_of_ne hne'] at hb'
      exact h.unique hj hj' hb hb' hkey

theorem Table.Wf.holds_update_free (h : t.Wf n hash key) (hi : i < n) (hia : t i = .entry a) :
    Table.Holds n (Function.update t i .free) b ↔ t.Holds n b ∧ key b ≠ key a := by
  constructor
  · rintro ⟨j, hj, hb⟩
    have hne : j ≠ i := by rintro rfl; simp at hb
    rw [Function.update_of_ne hne] at hb
    exact ⟨⟨j, hj, hb⟩, fun hkey => hne (h.unique hj hi hb hia hkey)⟩
  · rintro ⟨⟨j, hj, hb⟩, hkey⟩
    have hne : j ≠ i := by rintro rfl; rw [hia] at hb; cases hb; exact hkey rfl
    exact ⟨j, hj, by rwa [Function.update_of_ne hne]⟩

end

/-! ## Room in a table -/

/-- The number of slots with an element. -/
def Table.used (n : Nat) (t : Table α) : Nat :=
  ((Finset.range n).filter fun i => (t i).isEntry).card

section
variable {t : Table α} {slot : Slot α} {a b : α}

theorem Table.used_le : t.used n ≤ n :=
  (Finset.card_filter_le _ _).trans (Finset.card_range n).le

theorem Table.used_empty : Table.used n (fun _ => (.free : Slot α)) = 0 :=
  Finset.card_eq_zero.mpr (Finset.filter_false_of_mem fun _ _ => nofun)

theorem Table.used_update_le : Table.used n (Function.update t j slot) ≤ t.used n + 1 := by
  refine (Finset.card_le_card fun i hi => ?_).trans (Finset.card_insert_le j _)
  rw [Finset.mem_insert]
  rcases eq_or_ne i j with heq | hne
  · exact .inl heq
  · rw [Finset.mem_filter, Function.update_of_ne hne] at hi
    exact .inr (Finset.mem_filter.mpr hi)

/-- An element that takes the place of another one takes no room. -/
theorem Table.used_update_entry (hslot : t j = .entry b) :
    Table.used n (Function.update t j (.entry a)) = t.used n := by
  refine congrArg Finset.card (Finset.filter_congr fun i _ => ?_)
  rcases eq_or_ne i j with rfl | hne
  · rw [Function.update_self, hslot]
    rfl
  · rw [Function.update_of_ne hne]

theorem Table.exists_not_entry (h : t.used n < n) : ∃ i < n, (t i).isEntry = false := by
  by_contra hnone
  have hall : ∀ i ∈ Finset.range n, (t i).isEntry = true := fun i hi => by
    by_contra hi'
    exact hnone ⟨i, Finset.mem_range.mp hi, by simpa using hi'⟩
  rw [Table.used, Finset.filter_true_of_mem hall, Finset.card_range] at h
  exact lt_irrefl n h

/-- Elements with different keys are in as many slots. -/
theorem Table.length_le_used {K : Type v} [DecidableEq K] (key : α → K) {keys : List K}
    (hnodup : keys.Nodup) (hplace : ∀ k ∈ keys, ∃ i < n, ∃ a, t i = .entry a ∧ key a = k) :
    keys.length ≤ t.used n := by
  choose! i hi a hslot hkey using hplace
  rw [← List.toFinset_card_of_nodup hnodup]
  refine Finset.card_le_card_of_injOn i (fun k hk => ?_) fun k hk k' hk' h => ?_
  · have hk := List.mem_toFinset.mp hk
    refine Finset.mem_coe.mpr (Finset.mem_filter.mpr ⟨Finset.mem_range.mpr (hi k hk), ?_⟩)
    rw [hslot k hk]
    rfl
  · have hk := List.mem_toFinset.mp hk
    have hk' := List.mem_toFinset.mp hk'
    have heq := hslot k hk
    rw [h, hslot k' hk'] at heq
    rw [← hkey k hk, ← hkey k' hk', Slot.entry.inj heq]

end

end Probing
