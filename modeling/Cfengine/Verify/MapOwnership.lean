import Cfengine.Theory.Custody
import Cfengine.Verify.Map

/-!
# Who owns the keys and the values of a map

Each call of a map passes to the destroy functions what it was given or what was in the map, and no
more than that (`accounts_mapCall`). So whatever was inserted is destroyed once, at the latest by
`MapDestroy`, and not while the map still has it.
-/

namespace Cfengine
open KeyedList Runs Custody

variable {K V : Type*} {hashFn : K → Nat} {equalFn : K → K → Bool} {l : List (MapKeyValue K V)}
  {kv old : MapKeyValue K V} {key : K} {value : V}

/-- What is in the map, as what can be destroyed. -/
def Map.owned : Map K V → List (Destroyed K V)
  | .arraymap map => map.values.flatMap MapKeyValue.destroyed
  | .hashmap map => (List.range hashMapBuckets).flatMap fun i =>
    (map.buckets i).flatMap MapKeyValue.destroyed

/-- What a call hands over to the map. -/
def MapOp.given : MapOp K V → List (Destroyed K V)
  | .insert key value => [.key key, .value value]
  | _ => []

/-- A call, with what is destroyed. -/
def mapCall (hashFn : K → Nat) (equalFn : K → K → Bool) (map : Map K V) :
    MapOp K V → Map K V × List (Destroyed K V)
  | .insert key value => mapInsert hashFn equalFn map key value
  | .remove key => (mapRemove hashFn equalFn map key).2
  | .clear => mapClear map
  | .get _ | .hasKey _ => (map, [])

/-! ## Lists of bindings -/

/-- The duplicate key and the old value are exchanged for the new value. -/
theorem perm_overwrite {p : MapKeyValue K V → Bool} (h : l.find? p = some old) :
    (Destroyed.key key :: .value old.value ::
      (modifyFirst p (fun kv => { kv with value }) l).flatMap MapKeyValue.destroyed).Perm
      (.key key :: .value value :: l.flatMap MapKeyValue.destroyed) := by
  have hmodify : (({ old with value } : MapKeyValue K V) :: l).Perm
      (old :: modifyFirst p (fun kv => { kv with value }) l) :=
    @perm_modifyFirst _ _ _ _ (fun kv => { kv with value }) h
  exact ((hmodify.flatMap_right MapKeyValue.destroyed).cons_inv.cons (.key key)).symm

theorem perm_removed {p : MapKeyValue K V → Bool} (h : l.find? p = some kv) :
    (kv.destroyed ++ (l.eraseP p).flatMap MapKeyValue.destroyed).Perm
      (l.flatMap MapKeyValue.destroyed) :=
  (perm_eraseP h).flatMap_right MapKeyValue.destroyed

/-! ## Chains -/

/-- One chain is exchanged for another. -/
theorem perm_flatMap_update {β : Type*} {n bucket : Nat} (hbucket : bucket < n)
    (buckets : Nat → List β) (chain : List β) :
    (buckets bucket ++ (List.range n).flatMap (Function.update buckets bucket chain)).Perm
      (chain ++ (List.range n).flatMap buckets) := by
  obtain ⟨front, back, hrange⟩ := List.append_of_mem (List.mem_range.mpr hbucket)
  have hnodup : (front ++ bucket :: back).Nodup := hrange ▸ List.nodup_range
  rw [List.nodup_middle, List.nodup_cons] at hnodup
  have hsame : ∀ m ⊆ front ++ back, m.flatMap (Function.update buckets bucket chain) =
      m.flatMap buckets := by
    refine fun m hm => List.flatMap_congr fun i hi => Function.update_of_ne ?_ _ _
    rintro rfl
    exact hnodup.1 (hm hi)
  rw [hrange, List.flatMap_append, List.flatMap_cons, List.flatMap_append, List.flatMap_cons,
    Function.update_self, hsame front (List.subset_append_left _ _),
      hsame back (List.subset_append_right _ _)]
  rw [← Multiset.coe_eq_coe]
  simp only [← Multiset.coe_add]
  abel

/-- What a table owns of its chains. -/
theorem owned_hashmap (map : HashMap K V) :
    (Map.hashmap map).owned =
      (List.range hashMapBuckets).flatMap fun i => (map.buckets i).flatMap MapKeyValue.destroyed :=
  rfl

theorem hashMapGetBucket_lt : hashMapGetBucket hashFn key < hashMapBuckets :=
  Nat.mod_lt _ (by decide)

/-- A change of one chain is accounted for if the change of the chain is. -/
theorem perm_owned_update {map : HashMap K V} {bucket : Nat} (hbucket : bucket < hashMapBuckets)
    {chain : List (MapKeyValue K V)} {given destroyed : List (Destroyed K V)}
    (h : (destroyed ++ chain.flatMap MapKeyValue.destroyed).Perm
      (given ++ (map.buckets bucket).flatMap MapKeyValue.destroyed)) :
    (destroyed ++ (Map.hashmap ⟨Function.update map.buckets bucket chain⟩).owned).Perm
      (given ++ (Map.hashmap map).owned) := by
  have hupdate :=
    perm_flatMap_update hbucket (fun i => (map.buckets i).flatMap MapKeyValue.destroyed)
    (chain.flatMap MapKeyValue.destroyed)
  have hbuckets :
    (fun i => (Function.update map.buckets bucket chain i).flatMap MapKeyValue.destroyed) =
      Function.update (fun i => (map.buckets i).flatMap MapKeyValue.destroyed) bucket
        (chain.flatMap MapKeyValue.destroyed) := by
    funext i
    exact Function.apply_update (fun _ l => List.flatMap MapKeyValue.destroyed l) map.buckets
      bucket chain i
  rw [owned_hashmap, owned_hashmap, hbuckets]
  rw [← Multiset.coe_eq_coe] at h hupdate ⊢
  simp only [← Multiset.coe_add] at h hupdate ⊢
  have hsum := congrArg₂ (· + ·) h hupdate
  have hcancel : ∀ a b c d e f g : Multiset (Destroyed K V),
      a + b + (c + d) = e + c + (b + f) → a + d = e + f := by
    intro a b c d e f g heq
    refine add_left_cancel (a := b + c) ?_
    calc b + c + (a + d) = a + b + (c + d) := by abel
      _ = e + c + (b + f) := heq
      _ = b + c + (e + f) := by abel
  exact hcancel _ _ _ _ _ _ 0 hsum

/-! ## The calls -/

variable (hashFn equalFn) in
theorem perm_hashMapInsert (map : HashMap K V) (key : K) (value : V) :
    ((hashMapInsert hashFn equalFn map key value).2.2 ++
      (Map.hashmap (hashMapInsert hashFn equalFn map key value).2.1).owned).Perm
      ([.key key, .value value] ++ (Map.hashmap map).owned) := by
  unfold hashMapInsert
  dsimp only
  split
  · rename_i old hfind
    exact perm_owned_update hashMapGetBucket_lt (perm_overwrite hfind)
  · exact perm_owned_update hashMapGetBucket_lt (.refl _)

/-- An association is moved to the hash map. -/
def convertStep (hashFn : K → Nat) (equalFn : K → K → Bool) (r : HashMap K V × List (Destroyed K V))
    (kv : MapKeyValue K V) : HashMap K V × List (Destroyed K V) :=
  ((hashMapInsert hashFn equalFn r.1 kv.key kv.value).2.1,
    r.2 ++ (hashMapInsert hashFn equalFn r.1 kv.key kv.value).2.2)

theorem perm_foldl_convertStep (l : List (MapKeyValue K V))
    (r : HashMap K V × List (Destroyed K V)) :
    ((l.foldl (convertStep hashFn equalFn) r).2 ++
      (Map.hashmap (l.foldl (convertStep hashFn equalFn) r).1).owned).Perm
        (r.2 ++ (Map.hashmap r.1).owned ++ l.flatMap MapKeyValue.destroyed) := by
  induction l generalizing r with
  | nil => exact .of_eq (List.append_nil _).symm
  | cons kv l ih =>
    rw [List.foldl_cons]
    refine (ih _).trans ?_
    have hinsert := (perm_hashMapInsert hashFn equalFn r.1 kv.key kv.value).append_left r.2
    rw [List.flatMap_cons, ← List.append_assoc]
    refine List.Perm.append_right _ ?_
    rw [convertStep, List.append_assoc]
    refine hinsert.trans ?_
    rw [List.append_assoc]
    exact List.perm_append_comm.append_left _

variable (hashFn equalFn) in
theorem perm_convertToHashMap (map : ArrayMap K V) :
    ((convertToHashMap hashFn equalFn map).2 ++
      (Map.hashmap (convertToHashMap hashFn equalFn map).1).owned).Perm
      (Map.arraymap map).owned := by
  have hnew : (Map.hashmap (hashMapNew : HashMap K V)).owned = [] := by
    refine List.flatMap_eq_nil_iff.mpr fun i _ => rfl
  refine (perm_foldl_convertStep map.values (hashMapNew, [])).trans (.of_eq ?_)
  rw [hnew]
  rfl

theorem perm_mapInsert (map : Map K V) (key : K) (value : V) :
    ((mapInsert hashFn equalFn map key value).2 ++
      (mapInsert hashFn equalFn map key value).1.owned).Perm
      ([.key key, .value value] ++ map.owned) := by
  cases map with
  | hashmap map => exact perm_hashMapInsert hashFn equalFn map key value
  | arraymap map =>
    unfold mapInsert arrayMapInsert
    by_cases hsize : map.values.length = arrayMapLimit
    · have hconvert := perm_convertToHashMap hashFn equalFn map
      have hinsert := perm_hashMapInsert hashFn equalFn
        (convertToHashMap hashFn equalFn map).1 key value
      simp only [dif_pos hsize, List.nil_append]
      rw [← Multiset.coe_eq_coe] at hconvert hinsert ⊢
      simp only [← Multiset.coe_add] at hconvert hinsert ⊢
      rw [add_assoc, hinsert, ← hconvert]
      abel
    · simp only [dif_neg hsize]
      cases hfind : map.values.find? fun kv => equalFn kv.key key with
      | some old => exact perm_overwrite hfind
      | none =>
        have howned : (map.values ++ [MapKeyValue.mk key value]).flatMap MapKeyValue.destroyed =
            map.values.flatMap MapKeyValue.destroyed ++ [.key key, .value value] := by
          rw [List.flatMap_append, List.flatMap_singleton, MapKeyValue.destroyed]
        exact (List.Perm.of_eq howned).trans List.perm_append_comm

theorem perm_mapRemove (map : Map K V) (key : K) :
    ((mapRemove hashFn equalFn map key).2.2 ++ (mapRemove hashFn equalFn map key).2.1.owned).Perm
      map.owned := by
  cases map with
  | arraymap map =>
    unfold mapRemove arrayMapRemove
    dsimp only
    split
    · rename_i kv hfind
      exact perm_removed hfind
    · exact .refl _
  | hashmap map =>
    unfold mapRemove hashMapRemove
    dsimp only
    split
    · rename_i kv hfind
      have hremoved := perm_removed hfind
      rw [← List.nil_append ((map.buckets _).flatMap _)] at hremoved
      have howned := perm_owned_update hashMapGetBucket_lt hremoved
      rw [List.nil_append] at howned
      exact howned
    · dsimp only
      rw [List.nil_append]

theorem perm_freeBucketListItem (chain : List (MapKeyValue K V)) :
    (freeBucketListItem chain).Perm (chain.flatMap MapKeyValue.destroyed) :=
  (List.reverse_perm chain).flatMap_right _

theorem perm_hashMapClear (map : HashMap K V) :
    (hashMapClear map).2.Perm (Map.hashmap map).owned := by
  rw [hashMapClear, owned_hashmap]
  dsimp only
  exact List.Perm.flatMap_left (List.range hashMapBuckets) fun i _ =>
    perm_freeBucketListItem (map.buckets i)

theorem owned_hashMapNew : (Map.hashmap (hashMapNew : HashMap K V)).owned = [] :=
  List.flatMap_eq_nil_iff.mpr fun _ _ => rfl

theorem perm_mapDestroy (map : Map K V) : (mapDestroy map).Perm map.owned := by
  cases map with
  | arraymap map => exact .refl _
  | hashmap map => exact perm_hashMapClear map

theorem owned_mapClear (map : Map K V) : (mapClear map).1.owned = [] := by
  cases map with
  | arraymap map => rfl
  | hashmap map => exact owned_hashMapNew

variable (hashFn equalFn) in
/-- Each call passes on what it was given or what was in the map. -/
theorem accounts_mapCall :
    @Accounts (Map K V) _ _ (mapCall hashFn equalFn) Map.owned MapOp.given := by
  intro map op
  cases op with
  | insert key value => exact perm_mapInsert map key value
  | remove key => exact perm_mapRemove map key
  | clear =>
    refine (List.Perm.of_eq ?_).trans (perm_mapDestroy map)
    exact (congrArg _ (owned_mapClear map)).trans (List.append_nil _)
  | get key => exact .of_eq (List.nil_append _)
  | hasKey key => exact .of_eq (List.nil_append _)

/-- What a lookup finds is in the map. -/
theorem destroyed_subset_owned {map : Map K V} (hget : mapGetRaw hashFn equalFn map key = some kv) :
    kv.destroyed ⊆ map.owned := by
  intro object hobject
  cases map with
  | arraymap map => exact List.mem_flatMap_of_mem (List.mem_of_find?_eq_some hget) hobject
  | hashmap map =>
    have hbucket : hashMapGetBucket hashFn key ∈ List.range hashMapBuckets :=
      List.mem_range.mpr hashMapGetBucket_lt
    exact List.mem_flatMap_of_mem hbucket
      (List.mem_flatMap_of_mem (List.mem_of_find?_eq_some hget) hobject)

/-! ## Runs -/

variable (hashFn equalFn)

/-- In every run, what was inserted is destroyed exactly once when the map is destroyed; and what a
lookup finds has not been destroyed, if no object is inserted twice. -/
theorem map_ownsOnce (ops : List (MapOp K V)) :
    let reached := run (collect (mapCall hashFn equalFn)) (mapNew, []) ops
    (reached.2 ++ mapDestroy reached.1).Perm (ops.flatMap MapOp.given) ∧
      ((ops.flatMap MapOp.given).Nodup → ∀ key kv, mapGetRaw hashFn equalFn reached.1 key =
        some kv →
        .key kv.key ∉ reached.2 ∧ .value kv.value ∉ reached.2) := by
  intro reached
  have haccounts := @accounts_mapCall K V hashFn equalFn
  refine ⟨((perm_mapDestroy reached.1).append_left _).trans (haccounts.perm mapNew ops), ?_⟩
  intro hnodup key kv hget
  have howned : ∀ object ∈ kv.destroyed, object ∉ reached.2 := by
    intro object hobject hdestroyed
    have hheld := @Accounts.not_mem_held _ _ _ _ _ _ mapNew _ _ haccounts hnodup hdestroyed
    exact hheld (destroyed_subset_owned hget hobject)
  exact ⟨howned _ List.mem_cons_self, howned _ (List.mem_cons_of_mem _ List.mem_cons_self)⟩

/-- A key that is equal to one of the map, and then its removal. -/
theorem map_ownsOnce_equalKeys :
    let ops : List (MapOp Nat Nat) := [.insert 1 10, .insert 21 20, .insert 2 30, .remove 41]
    let reached :=
      run (collect (mapCall (fun k => k % 20) fun a b => a % 20 == b % 20)) (mapNew, []) ops
    (reached.2 ++ mapDestroy reached.1).Perm (ops.flatMap MapOp.given) ∧
      ∀ key kv, mapGetRaw (fun k => k % 20) (fun a b => a % 20 == b % 20) reached.1 key = some kv →
        .key kv.key ∉ reached.2 ∧ .value kv.value ∉ reached.2 := by
  intro ops
  have howns := map_ownsOnce (fun k => k % 20) (fun a b => a % 20 == b % 20) ops
  exact ⟨howns.1, howns.2 (by simp [ops, MapOp.given])⟩

end Cfengine
