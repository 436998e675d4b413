import Cfengine.Map
import Cfengine.Theory.Runs

/-!
# A map is one finite map in both representations

`Map.Wf` is the invariant of the two representations (no two stored keys are equal; in a `HashMap`
each key is in the chain of its own bucket) and `Map.Binds` the finite map that they stand for.
Each operation is specified once on `Binds`, whatever the representation before and after, and
`map_isMap` lifts this to runs.
-/

namespace Cfengine
open KeyedList

variable {K V : Type*}

section
variable (hashFn : K → Nat) (equalFn : K → K → Bool)

/-- The binding is in the map. -/
def Map.Stored : Map K V → MapKeyValue K V → Prop
  | .arraymap map, kv => kv ∈ map.values
  | .hashmap map, kv => kv ∈ map.buckets (hashMapGetBucket hashFn kv.key)

/-- The invariant of the hash table representation. -/
structure HashMap.Wf (map : HashMap K V) : Prop where
  distinct : ∀ i, Distinct equalFn MapKeyValue.key (map.buckets i)
  bucket : ∀ i, ∀ kv ∈ map.buckets i, hashMapGetBucket hashFn kv.key = i

def Map.Wf : Map K V → Prop
  | .arraymap map => Distinct equalFn MapKeyValue.key map.values
  | .hashmap map => map.Wf hashFn equalFn

/-- The value bound to a key that is equal to `key`. -/
def Map.Binds (map : Map K V) (key : K) (value : V) : Prop :=
  ∃ kv, map.Stored hashFn kv ∧ equalFn kv.key key = true ∧ kv.value = value

end

/-- What the operations need of the functions given to `MapNew`. -/
structure MapFns (hashFn : K → Nat) (equalFn : K → K → Bool) : Prop where
  equiv : IsEquiv equalFn
  hash : ∀ {a b}, equalFn a b = true → hashFn a = hashFn b

variable {hashFn : K → Nat} {equalFn : K → K → Bool} {map : Map K V} {key : K} {value : V}

theorem MapFns.bucket (hf : MapFns hashFn equalFn) {a b : K} (h : equalFn a b = true) :
    hashMapGetBucket hashFn a = hashMapGetBucket hashFn b := by
  rw [hashMapGetBucket, hf.hash h, hashMapGetBucket]

/-! ## Lookup -/

theorem mapGetRaw_eq_some (hf : MapFns hashFn equalFn) (h : map.Wf hashFn equalFn)
    {kv : MapKeyValue K V} :
    mapGetRaw hashFn equalFn map key = some kv ↔
      map.Stored hashFn kv ∧ equalFn kv.key key = true := by
  cases map with
  | arraymap map => exact Distinct.find?_eq_some hf.equiv h
  | hashmap map =>
    refine (Distinct.find?_eq_some hf.equiv (h.distinct _)).trans (and_congr_left fun hk => ?_)
    rw [← hf.bucket hk]
    rfl

theorem mapGet_eq_some (hf : MapFns hashFn equalFn) (h : map.Wf hashFn equalFn) :
    mapGet hashFn equalFn map key = some value ↔ map.Binds hashFn equalFn key value := by
  simp only [mapGet, Option.map_eq_some_iff, mapGetRaw_eq_some hf h, Map.Binds, and_assoc]

/-! ## Lists of bindings -/

/-- The bindings after an insertion into a list with distinct keys. -/
structure InsertedInto (equalFn : K → K → Bool) (key : K) (value : V)
    (l l' : List (MapKeyValue K V)) : Prop where
  distinct : Distinct equalFn MapKeyValue.key l'
  mem : ∃ key', equalFn key' key = true ∧
    ∀ kv, kv ∈ l' ↔ kv = ⟨key', value⟩ ∨ kv ∈ l ∧ equalFn kv.key key = false

theorem insertedInto_modifyFirst (he : IsEquiv equalFn) {l : List (MapKeyValue K V)}
    (hd : Distinct equalFn MapKeyValue.key l) {old : MapKeyValue K V}
    (hfind : l.find? (fun kv => equalFn kv.key key) = some old) :
    InsertedInto equalFn key value l
      (modifyFirst (fun kv => equalFn kv.key key) (fun kv => { kv with value }) l) := by
  obtain ⟨hold, hk⟩ := (hd.find?_eq_some he).mp hfind
  refine ⟨hd.modifyFirst fun _ => rfl, old.key, hk, fun kv => ?_⟩
  rw [hd.mem_modifyFirst he]
  refine or_congr_left ⟨?_, fun h => ⟨old, hold, hk, h⟩⟩
  rintro ⟨kv', hkv', hk', rfl⟩
  rw [hd.unique he hkv' hold (he.trans hk' (he.symm hk))]

theorem not_equal_of_find?_eq_none {l : List (MapKeyValue K V)}
    (hfind : l.find? (fun kv => equalFn kv.key key) = none) :
    ∀ kv ∈ l, equalFn kv.key key = false := by
  simpa using List.find?_eq_none.mp hfind

theorem insertedInto_concat (he : IsEquiv equalFn) {l : List (MapKeyValue K V)}
    (hd : Distinct equalFn MapKeyValue.key l)
    (hfind : l.find? (fun kv => equalFn kv.key key) = none) :
    InsertedInto equalFn key value l (l ++ [⟨key, value⟩]) := by
  have hnew := not_equal_of_find?_eq_none hfind
  refine ⟨hd.concat hnew, key, he.refl key, fun kv => ?_⟩
  rw [List.mem_append, List.mem_singleton, or_comm]
  exact or_congr_right ⟨fun h => ⟨h, hnew kv h⟩, And.left⟩

theorem insertedInto_cons (he : IsEquiv equalFn) {l : List (MapKeyValue K V)}
    (hd : Distinct equalFn MapKeyValue.key l)
    (hfind : l.find? (fun kv => equalFn kv.key key) = none) :
    InsertedInto equalFn key value l (⟨key, value⟩ :: l) := by
  have hnew := not_equal_of_find?_eq_none hfind
  refine ⟨hd.cons fun kv h => by rw [he.symm_eq]; exact hnew kv h, key, he.refl key, fun kv => ?_⟩
  rw [List.mem_cons]
  exact or_congr_right ⟨fun h => ⟨h, hnew kv h⟩, And.left⟩

/-! ## Changing one chain -/

/-- Replacing the chain of one bucket by bindings that belong there. -/
theorem HashMap.Wf.update {map : HashMap K V} (h : map.Wf hashFn equalFn) {bucket : Nat}
    {chain : List (MapKeyValue K V)} (hd : Distinct equalFn MapKeyValue.key chain)
    (hb : ∀ kv ∈ chain, hashMapGetBucket hashFn kv.key = bucket) :
    HashMap.Wf hashFn equalFn ⟨Function.update map.buckets bucket chain⟩ where
  distinct i := by
    change Distinct equalFn MapKeyValue.key (Function.update map.buckets bucket chain i)
    rcases eq_or_ne i bucket with rfl | hne
    · rw [Function.update_self]; exact hd
    · rw [Function.update_of_ne hne]; exact h.distinct i
  bucket i := by
    change ∀ kv ∈ Function.update map.buckets bucket chain i, _
    rcases eq_or_ne i bucket with rfl | hne
    · rw [Function.update_self]; exact hb
    · rw [Function.update_of_ne hne]; exact h.bucket i

variable (key value) in
theorem hashMapInsert_spec (hf : MapFns hashFn equalFn) {map : HashMap K V}
    (h : map.Wf hashFn equalFn) :
    HashMap.Wf hashFn equalFn (hashMapInsert hashFn equalFn map key value).2.1 ∧
      ∀ k v, (Map.hashmap (hashMapInsert hashFn equalFn map key value).2.1).Binds hashFn equalFn k v
        ↔ if equalFn key k = true then v = value
          else (Map.hashmap map).Binds hashFn equalFn k v := by
  obtain ⟨chain, heq, hins⟩ : ∃ chain,
      (hashMapInsert hashFn equalFn map key value).2.1 =
        ⟨Function.update map.buckets (hashMapGetBucket hashFn key) chain⟩ ∧
      InsertedInto equalFn key value (map.buckets (hashMapGetBucket hashFn key)) chain := by
    rw [hashMapInsert]
    cases hfind : (map.buckets (hashMapGetBucket hashFn key)).find?
        (fun kv => equalFn kv.key key) with
    | some old => exact ⟨_, rfl, insertedInto_modifyFirst hf.equiv (h.distinct _) hfind⟩
    | none => exact ⟨_, rfl, insertedInto_cons hf.equiv (h.distinct _) hfind⟩
  obtain ⟨hd, key', hk', hmem⟩ := hins
  rw [heq]
  refine ⟨h.update hd fun kv hkv => ?_, fun k v => ?_⟩
  · rcases (hmem kv).mp hkv with rfl | ⟨hkv, -⟩
    · exact hf.bucket hk'
    · exact h.bucket _ _ hkv
  · simp only [Map.Binds, Map.Stored]
    split
    · rename_i hk
      have hbucket := hf.bucket (hf.equiv.trans hk' hk)
      constructor
      · rintro ⟨kv, hkv, hkk, rfl⟩
        rw [hf.bucket hkk, ← hf.bucket hk, Function.update_self, hmem] at hkv
        rcases hkv with rfl | ⟨-, hne⟩
        · rfl
        · rw [hf.equiv.trans hkk (hf.equiv.symm hk)] at hne
          cases hne
      · rintro rfl
        refine ⟨⟨key', v⟩, ?_, hf.equiv.trans hk' hk, rfl⟩
        rw [hf.bucket hk', Function.update_self, hmem]
        exact .inl rfl
    · rename_i hk
      refine exists_congr fun kv => and_congr_left fun hkk => ?_
      have hne : equalFn kv.key key = false := by
        by_contra hne
        rw [Bool.not_eq_false] at hne
        exact hk (hf.equiv.trans (hf.equiv.symm hne) hkk.1)
      rcases eq_or_ne (hashMapGetBucket hashFn kv.key) (hashMapGetBucket hashFn key) with hb | hb
      · rw [hb, Function.update_self, hmem]
        constructor
        · rintro (rfl | ⟨hkv, -⟩)
          · rw [hk'] at hne; cases hne
          · exact hkv
        · exact fun hkv => .inr ⟨hkv, hne⟩
      · rw [Function.update_of_ne hb]

/-! ## The conversion -/

theorem HashMap.wf_new : HashMap.Wf hashFn equalFn (hashMapNew : HashMap K V) :=
  ⟨fun _ => List.Pairwise.nil, fun _ _ h => absurd h List.not_mem_nil⟩

theorem convertToHashMap_spec (hf : MapFns hashFn equalFn) {map : ArrayMap K V}
    (h : Distinct equalFn MapKeyValue.key map.values) :
    HashMap.Wf hashFn equalFn (convertToHashMap hashFn equalFn map).1 ∧
      ∀ k v, (Map.hashmap (convertToHashMap hashFn equalFn map).1).Binds hashFn equalFn k v ↔
        (Map.arraymap map).Binds hashFn equalFn k v := by
  obtain ⟨values, hsize⟩ := map
  simp only [convertToHashMap, Map.Binds, Map.Stored]
  replace h : Distinct equalFn MapKeyValue.key values := h
  clear hsize
  induction values using List.reverseRecOn with
  | nil => exact ⟨HashMap.wf_new, fun k v => by simp [hashMapNew]⟩
  | append_singleton values kv ih =>
    obtain ⟨hd, -, hnew⟩ := List.pairwise_append.mp h
    obtain ⟨hwf, hbinds⟩ := ih hd
    obtain ⟨hwf', hbinds'⟩ := hashMapInsert_spec kv.key kv.value hf hwf
    simp only [Map.Binds, Map.Stored] at hbinds'
    rw [List.foldl_concat]
    refine ⟨hwf', fun k v => (hbinds' k v).trans ?_⟩
    rw [hbinds]
    split
    · rename_i hk
      constructor
      · rintro rfl
        exact ⟨kv, by simp, hk, rfl⟩
      · rintro ⟨kv', hkv', hk', rfl⟩
        rcases List.mem_append.mp hkv' with hkv' | hkv'
        · have := hnew kv' hkv' kv (by simp)
          rw [hf.equiv.trans hk' (hf.equiv.symm hk)] at this
          cases this
        · rw [List.mem_singleton.mp hkv']
    · rename_i hk
      refine exists_congr fun kv' => and_congr_left fun hk' => ?_
      rw [List.mem_append, List.mem_singleton]
      refine ⟨.inl, ?_⟩
      rintro (hkv' | rfl)
      · exact hkv'
      · exact absurd hk'.1 hk

/-! ## The operations on either representation -/

variable (key value) in
theorem mapInsert_spec (hf : MapFns hashFn equalFn) (h : map.Wf hashFn equalFn) :
    (mapInsert hashFn equalFn map key value).1.Wf hashFn equalFn ∧
      ∀ k v, (mapInsert hashFn equalFn map key value).1.Binds hashFn equalFn k v ↔
        if equalFn key k = true then v = value else map.Binds hashFn equalFn k v := by
  cases map with
  | hashmap map => exact hashMapInsert_spec key value hf h
  | arraymap map =>
    by_cases hsize : map.values.length = arrayMapLimit
    · obtain ⟨hwf, hbinds⟩ := convertToHashMap_spec hf h
      obtain ⟨hwf', hbinds'⟩ := hashMapInsert_spec key value hf hwf
      simp only [mapInsert, arrayMapInsert, dif_pos hsize]
      exact ⟨hwf', fun k v => by rw [hbinds', hbinds]⟩
    · obtain ⟨map', heq, hins⟩ : ∃ map',
          (mapInsert hashFn equalFn (.arraymap map) key value).1 = .arraymap map' ∧
          InsertedInto equalFn key value map.values map'.values := by
        simp only [mapInsert, arrayMapInsert, dif_neg hsize]
        cases hfind : map.values.find? (fun kv => equalFn kv.key key) with
        | some old => exact ⟨_, rfl, insertedInto_modifyFirst hf.equiv h hfind⟩
        | none => exact ⟨_, rfl, insertedInto_concat hf.equiv h hfind⟩
      obtain ⟨hd, key', hk', hmem⟩ := hins
      rw [heq]
      refine ⟨hd, fun k v => ?_⟩
      simp only [Map.Binds, Map.Stored, hmem]
      split
      · rename_i hk
        constructor
        · rintro ⟨kv, rfl | ⟨-, hne⟩, hkk, rfl⟩
          · rfl
          · rw [hf.equiv.trans hkk (hf.equiv.symm hk)] at hne
            cases hne
        · rintro rfl
          exact ⟨⟨key', v⟩, .inl rfl, hf.equiv.trans hk' hk, rfl⟩
      · rename_i hk
        refine exists_congr fun kv => and_congr_left fun hkk => ?_
        constructor
        · rintro (rfl | ⟨hkv, -⟩)
          · exact absurd (hf.equiv.trans (hf.equiv.symm hk') hkk.1) hk
          · exact hkv
        · refine fun hkv => .inr ⟨hkv, ?_⟩
          by_contra hne
          rw [Bool.not_eq_false] at hne
          exact hk (hf.equiv.trans (hf.equiv.symm hne) hkk.1)

variable (key) in
theorem mapRemove_spec (hf : MapFns hashFn equalFn) (h : map.Wf hashFn equalFn) :
    (mapRemove hashFn equalFn map key).2.1.Wf hashFn equalFn ∧
      ((mapRemove hashFn equalFn map key).1 = true ↔ ∃ v, map.Binds hashFn equalFn key v) ∧
      ∀ kv, (mapRemove hashFn equalFn map key).2.1.Stored hashFn kv ↔
        map.Stored hashFn kv ∧ equalFn kv.key key = false := by
  cases map with
  | arraymap map =>
    simp only [mapRemove, arrayMapRemove]
    cases hfind : map.values.find? (fun kv => equalFn kv.key key) with
    | some kv =>
      obtain ⟨hkv, hk⟩ := (Distinct.find?_eq_some hf.equiv h).mp hfind
      exact ⟨h.eraseP _, ⟨fun _ => ⟨_, kv, hkv, hk, rfl⟩, fun _ => rfl⟩,
        fun kv => h.mem_eraseP hf.equiv⟩
    | none =>
      have hnone := not_equal_of_find?_eq_none hfind
      refine ⟨h, ⟨nofun, ?_⟩, fun kv => ⟨fun hkv => ⟨hkv, hnone kv hkv⟩, And.left⟩⟩
      rintro ⟨v, kv, hkv, hk, -⟩
      rw [hnone kv hkv] at hk
      cases hk
  | hashmap map =>
    simp only [mapRemove, hashMapRemove]
    cases hfind : (map.buckets (hashMapGetBucket hashFn key)).find?
        (fun kv => equalFn kv.key key) with
    | some kv =>
      have hd := h.distinct (hashMapGetBucket hashFn key)
      obtain ⟨hkv, hk⟩ := (hd.find?_eq_some hf.equiv).mp hfind
      refine ⟨h.update (hd.eraseP _) fun kv hkv => h.bucket _ _ (List.mem_of_mem_eraseP hkv),
        ⟨fun _ => ⟨_, kv, ?_, hk, rfl⟩, fun _ => rfl⟩, fun kv => ?_⟩
      · rw [← hf.bucket hk] at hkv
        exact hkv
      · simp only [Map.Stored]
        rcases eq_or_ne (hashMapGetBucket hashFn kv.key) (hashMapGetBucket hashFn key) with hb | hb
        · rw [hb, Function.update_self]
          exact hd.mem_eraseP hf.equiv
        · rw [Function.update_of_ne hb]
          refine ⟨fun hkv => ⟨hkv, ?_⟩, And.left⟩
          by_contra hne
          exact hb (hf.bucket (Bool.not_eq_false _ ▸ hne))
    | none =>
      have hnone : ∀ kv, (Map.hashmap map).Stored hashFn kv → equalFn kv.key key = false := by
        intro kv hkv
        by_contra hne
        rw [Bool.not_eq_false] at hne
        simp only [Map.Stored, hf.bucket hne] at hkv
        rw [not_equal_of_find?_eq_none hfind kv hkv] at hne
        cases hne
      refine ⟨h, ⟨nofun, ?_⟩, fun kv => ⟨fun hkv => ⟨hkv, hnone kv hkv⟩, And.left⟩⟩
      rintro ⟨v, kv, hkv, hk, -⟩
      rw [hnone kv hkv] at hk
      cases hk

theorem mapRemove_binds (hf : MapFns hashFn equalFn) (h : map.Wf hashFn equalFn) {k : K} {v : V} :
    (mapRemove hashFn equalFn map key).2.1.Binds hashFn equalFn k v ↔
      equalFn key k = false ∧ map.Binds hashFn equalFn k v := by
  obtain ⟨-, -, hstored⟩ := mapRemove_spec key hf h
  simp only [Map.Binds, hstored]
  constructor
  · rintro ⟨kv, ⟨hkv, hne⟩, hk, hv⟩
    refine ⟨?_, kv, hkv, hk, hv⟩
    by_contra hkey
    rw [hf.equiv.trans hk (hf.equiv.symm (Bool.not_eq_false _ ▸ hkey))] at hne
    cases hne
  · rintro ⟨hne, kv, hkv, hk, hv⟩
    refine ⟨kv, ⟨hkv, ?_⟩, hk, hv⟩
    by_contra hkey
    rw [hf.equiv.trans (hf.equiv.symm (Bool.not_eq_false _ ▸ hkey)) hk] at hne
    cases hne

variable (hashFn equalFn map) in
theorem mapClear_spec :
    (mapClear map).1.Wf hashFn equalFn ∧ ∀ kv, ¬ (mapClear map).1.Stored hashFn kv := by
  cases map with
  | arraymap map => exact ⟨List.Pairwise.nil, fun _ => List.not_mem_nil⟩
  | hashmap map => exact ⟨HashMap.wf_new, fun _ => List.not_mem_nil⟩

/-! ## Iteration -/

theorem MapIterator.Yields.congr {i i' : MapIterator K V} {l : List (MapKeyValue K V)}
    (h : mapIteratorNext i = mapIteratorNext i') (hl : i'.Yields l) : i.Yields l := by
  cases hl with
  | done hn => exact .done (h.trans hn)
  | next hn hl => exact .next (h.trans hn) hl

theorem arrayMapIterator_yields {map : ArrayMap K V} {l : List (MapKeyValue K V)} {pos : Nat}
    (hl : map.values.drop pos = l) : (MapIterator.arraymap ⟨map, pos⟩).Yields l := by
  induction l generalizing pos with
  | nil =>
    have hnone : map.values[pos]? = none :=
      List.getElem?_eq_none (List.drop_eq_nil_iff.mp hl)
    have hnext : mapIteratorNext (.arraymap ⟨map, pos⟩) = (none, .arraymap ⟨map, pos⟩) := by
      simp only [mapIteratorNext, arrayMapIteratorNext, hnone]
    exact .done hnext
  | cons kv l ih =>
    have hsome : map.values[pos]? = some kv := by
      rw [← List.head?_drop, hl, List.head?_cons]
    have hnext : mapIteratorNext (.arraymap ⟨map, pos⟩) = (some kv, .arraymap ⟨map, pos + 1⟩) := by
      simp only [mapIteratorNext, arrayMapIteratorNext, hsome]
    refine .next hnext (ih ?_)
    rw [← List.tail_drop, hl, List.tail_cons]

/-- The iteration yields the rest of the current chain and then the chains of the `n` buckets
after it. -/
theorem hashMapIterator_yields {map : HashMap K V} {n bucket : Nat}
    (hn : bucket + (n + 1) = hashMapBuckets) (cur : List (MapKeyValue K V)) :
    (MapIterator.hashmap ⟨map, cur, bucket⟩).Yields
      (cur ++ (List.range' (bucket + 1) n).flatMap map.buckets) := by
  induction n generalizing bucket cur with
  | zero =>
    induction cur with
    | nil =>
      have hlast : hashMapBuckets - bucket = 0 + 1 := by omega
      have hnext : mapIteratorNext (.hashmap ⟨map, [], bucket⟩) =
          (none, .hashmap ⟨map, [], bucket + 1⟩) := by
        simp only [mapIteratorNext, hashMapIteratorNext, hlast, hashMapIteratorNext.advance,
          if_pos hn.ge]
      exact .done hnext
    | cons kv cur ih =>
      refine .next ?_ ih
      simp only [mapIteratorNext, hashMapIteratorNext, hashMapIteratorNext.advance]
  | succ n ihn =>
    induction cur with
    | nil =>
      have hk : hashMapBuckets - bucket = (n + 1) + 1 := by omega
      have hk' : hashMapBuckets - (bucket + 1) = n + 1 := by omega
      have hmore : ¬ bucket + 1 ≥ hashMapBuckets := by omega
      rw [List.nil_append, List.range'_succ, List.flatMap_cons]
      have hrest : (MapIterator.hashmap ⟨map, map.buckets (bucket + 1), bucket + 1⟩).Yields _ :=
        ihn (by omega) (map.buckets (bucket + 1))
      refine .congr ?_ hrest
      simp only [mapIteratorNext, hashMapIteratorNext, hk, hk', hashMapIteratorNext.advance,
        if_neg hmore]
    | cons kv cur ih =>
      refine .next ?_ ih
      simp only [mapIteratorNext, hashMapIteratorNext, hashMapIteratorNext.advance]

/-- A fresh iterator of a map yields each of its bindings once. -/
theorem mapIteratorInit_yields (hf : MapFns hashFn equalFn) (h : map.Wf hashFn equalFn) :
    ∃ l, (mapIteratorInit map).Yields l ∧ Distinct equalFn MapKeyValue.key l ∧
      ∀ kv, kv ∈ l ↔ map.Stored hashFn kv := by
  cases map with
  | arraymap map => exact ⟨_, arrayMapIterator_yields rfl, h, fun kv => Iff.rfl⟩
  | hashmap map =>
    have hn : 0 + (hashMapBuckets - 1 + 1) = hashMapBuckets := rfl
    have hrange : map.buckets 0 ++ (List.range' (0 + 1) (hashMapBuckets - 1)).flatMap map.buckets =
        (List.range hashMapBuckets).flatMap map.buckets := by
      rw [← List.flatMap_cons, ← List.range'_succ, List.range_eq_range']
      rfl
    refine ⟨_, hrange ▸ hashMapIterator_yields hn (map.buckets 0), ?_, fun kv => ?_⟩
    · refine List.pairwise_flatMap.mpr ⟨fun i _ => h.distinct i, ?_⟩
      refine List.nodup_range.imp fun {i j} hij a ha b hb => ?_
      by_contra hab
      refine hij ?_
      rw [← h.bucket i a ha, ← h.bucket j b hb, hf.bucket (Bool.not_eq_false _ ▸ hab)]
    · rw [List.mem_flatMap]
      constructor
      · rintro ⟨i, -, hkv⟩
        have hi := h.bucket i kv hkv
        rw [← hi] at hkv
        exact hkv
      · intro hkv
        exact ⟨_, List.mem_range.mpr (Nat.mod_lt _ (by decide)), hkv⟩

/-! ## Runs -/

/-- The calls on one map. -/
inductive MapOp (K V : Type*) where
  | insert (key : K) (value : V)
  | remove (key : K)
  | clear
  | get (key : K)
  | hasKey (key : K)

def mapStep (hashFn : K → Nat) (equalFn : K → K → Bool) (map : Map K V) : MapOp K V → Map K V
  | .insert key value => (mapInsert hashFn equalFn map key value).1
  | .remove key => (mapRemove hashFn equalFn map key).2.1
  | .clear => (mapClear map).1
  | .get _ | .hasKey _ => map

/-- The abstract map that a map stands for. -/
abbrev MapModel (K V : Type*) := K → Option V

def MapModel.step (equalFn : K → K → Bool) (m : MapModel K V) : MapOp K V → MapModel K V
  | .insert key value => fun k => if equalFn key k then some value else m k
  | .remove key => fun k => if equalFn key k then none else m k
  | .clear => fun _ => none
  | .get _ | .hasKey _ => m

/-- Everything that the interface of a map shows is as the abstract map has it. -/
structure Map.IsMap (hashFn : K → Nat) (equalFn : K → K → Bool) (map : Map K V)
    (m : MapModel K V) : Prop where
  get : ∀ key, mapGet hashFn equalFn map key = m key
  hasKey : ∀ key, mapHasKey hashFn equalFn map key = (m key).isSome
  remove : ∀ key, (mapRemove hashFn equalFn map key).1 = (m key).isSome
  iterate : ∃ l, (mapIteratorInit map).Yields l ∧ Distinct equalFn MapKeyValue.key l ∧
    ∀ key value, m key = some value ↔ ∃ kv ∈ l, equalFn kv.key key = true ∧ kv.value = value

/-- The simulation relation. -/
structure Map.Models (hashFn : K → Nat) (equalFn : K → K → Bool) (map : Map K V)
    (m : MapModel K V) : Prop where
  wf : map.Wf hashFn equalFn
  binds : ∀ key value, map.Binds hashFn equalFn key value ↔ m key = some value

theorem Map.Models.step (hf : MapFns hashFn equalFn) {m : MapModel K V}
    (h : map.Models hashFn equalFn m) (op : MapOp K V) :
    (mapStep hashFn equalFn map op).Models hashFn equalFn (m.step equalFn op) := by
  cases op with
  | insert key value =>
    obtain ⟨hwf, hbinds⟩ := mapInsert_spec key value hf h.wf
    refine ⟨hwf, fun k v => (hbinds k v).trans ?_⟩
    change _ ↔ (if equalFn key k = true then some value else m k) = some v
    split
    · rw [Option.some_inj, eq_comm]
    · exact h.binds k v
  | remove key =>
    refine ⟨(mapRemove_spec key hf h.wf).1, fun k v => (mapRemove_binds hf h.wf).trans ?_⟩
    change _ ↔ (if equalFn key k = true then none else m k) = some v
    rw [h.binds]
    split
    · rename_i hk
      simp [hk]
    · rename_i hk
      simp [Bool.eq_false_iff.mpr hk]
  | clear =>
    obtain ⟨hwf, hempty⟩ := mapClear_spec hashFn equalFn map
    refine ⟨hwf, fun k v => ⟨?_, nofun⟩⟩
    rintro ⟨kv, hkv, -⟩
    exact absurd hkv (hempty kv)
  | get key => exact h
  | hasKey key => exact h

theorem Map.Models.isMap (hf : MapFns hashFn equalFn) {m : MapModel K V}
    (h : map.Models hashFn equalFn m) : map.IsMap hashFn equalFn m := by
  have hget : ∀ key, mapGet hashFn equalFn map key = m key := fun key =>
    Option.ext fun v => (mapGet_eq_some hf h.wf).trans (h.binds key v)
  refine ⟨hget, fun key => ?_, fun key => ?_, ?_⟩
  · rw [← hget, mapHasKey, mapGet, Option.isSome_map]
  · rw [Bool.eq_iff_iff, (mapRemove_spec key hf h.wf).2.1, Option.isSome_iff_exists]
    exact exists_congr (h.binds key)
  · obtain ⟨l, hl, hd, hmem⟩ := mapIteratorInit_yields hf h.wf
    refine ⟨l, hl, hd, fun key value => (h.binds key value).symm.trans ?_⟩
    exact exists_congr fun kv => and_congr_left fun _ => (hmem kv).symm

/-- In every run from a new map the map is the abstract map of that run. -/
theorem map_isMap (hf : MapFns hashFn equalFn) (ops : List (MapOp K V)) :
    (Runs.run (mapStep hashFn equalFn) mapNew ops).IsMap hashFn equalFn
      (Runs.run (MapModel.step equalFn) (fun _ => none) ops) := by
  have hnew : (mapNew : Map K V).Models hashFn equalFn fun _ => none := by
    refine ⟨List.Pairwise.nil, fun k v => ⟨?_, nofun⟩⟩
    rintro ⟨kv, hkv, -⟩
    exact absurd hkv List.not_mem_nil
  refine Map.Models.isMap hf (Runs.simulation (P := fun _ _ => True) hnew ?_ fun _ _ _ => trivial)
  exact fun map m op h _ => h.step hf op

/-- A run through the conversion, with colliding keys and keys that are equal but not identical. -/
theorem map_isMap_degenerate :
    (Runs.run (mapStep (fun k : Nat => k % 2) fun a b => a % 20 == b % 20) mapNew
        ((List.range 25).map (fun k => MapOp.insert k k) ++ [.remove 23])).IsMap
      (fun k => k % 2) (fun a b => a % 20 == b % 20)
      (Runs.run (MapModel.step fun a b => a % 20 == b % 20) (fun _ => none)
        ((List.range 25).map (fun k => MapOp.insert k k) ++ [.remove 23])) := by
  refine map_isMap ⟨⟨fun a => ?_, fun {a b} h => ?_, fun {a b c} h h' => ?_⟩, fun {a b} h => ?_⟩ _
  · simp
  · simp only [beq_iff_eq] at h ⊢
    exact h.symm
  · simp only [beq_iff_eq] at h h' ⊢
    exact h.trans h'
  · simp only [beq_iff_eq] at h
    omega

end Cfengine
