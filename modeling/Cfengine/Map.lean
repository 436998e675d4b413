import Cfengine.Theory.KeyedList

/-!
# Generic maps (`map.c`, `array_map.c`, `hash_map.c`)

A `Map` starts as an `ArrayMap`, which is searched linearly, and becomes a `HashMap` with separate
chaining when an insertion meets a full array. Keys and values are owned by the map: every
operation also returns what it hands to `destroy_key_fn` and `destroy_value_fn`, in that order.
A `BucketListItem` chain is a Lean list.
-/

namespace Cfengine
open KeyedList

structure MapKeyValue (K V : Type*) where
  key : K
  value : V

/-- A call of `destroy_key_fn` or `destroy_value_fn`. -/
inductive Destroyed (K V : Type*) where
  | key (key : K)
  | value (value : V)

/-- The destruction of a binding, key first. -/
def MapKeyValue.destroyed {K V : Type*} (kv : MapKeyValue K V) : List (Destroyed K V) :=
  [.key kv.key, .value kv.value]

section
variable {K V : Type*} (hashFn : K → Nat) (equalFn : K → K → Bool)

/-! ## `array_map.c` -/

/-- `TINY_LIMIT` -/
def arrayMapLimit : Nat := 14

/-- The used prefix of the array. -/
structure ArrayMap (K V : Type*) where
  values : List (MapKeyValue K V)
  size_le : values.length ≤ arrayMapLimit

def arrayMapNew : ArrayMap K V := ⟨[], Nat.zero_le _⟩

/-- Returns `false` if the limit of the array size has been reached. A duplicate of a present key
is destroyed together with the value it replaces. -/
def arrayMapInsert (map : ArrayMap K V) (key : K) (value : V) :
    Bool × ArrayMap K V × List (Destroyed K V) :=
  if hsize : map.values.length = arrayMapLimit then (false, map, [])
  else
    match map.values.find? (fun kv => equalFn kv.key key) with
    | some old =>
      (true,
        { values := modifyFirst (fun kv => equalFn kv.key key) (fun kv => { kv with value })
            map.values
          size_le := by rw [length_modifyFirst]; exact map.size_le },
        [.key key, .value old.value])
    | none =>
      (true,
        { values := map.values ++ [⟨key, value⟩]
          size_le := by
            have := map.size_le
            rw [List.length_append, List.length_singleton]
            omega },
        [])

def arrayMapRemove (map : ArrayMap K V) (key : K) : Bool × ArrayMap K V × List (Destroyed K V) :=
  match map.values.find? (fun kv => equalFn kv.key key) with
  | some kv =>
    (true,
      { values := map.values.eraseP (fun kv => equalFn kv.key key)
        size_le := Nat.le_trans List.length_eraseP_le map.size_le },
      kv.destroyed)
  | none => (false, map, [])

def arrayMapGet (map : ArrayMap K V) (key : K) : Option (MapKeyValue K V) :=
  map.values.find? (fun kv => equalFn kv.key key)

def arrayMapClear (map : ArrayMap K V) : ArrayMap K V × List (Destroyed K V) :=
  (arrayMapNew, map.values.flatMap MapKeyValue.destroyed)

structure ArrayMapIterator (K V : Type*) where
  map : ArrayMap K V
  pos : Nat

def arrayMapIteratorInit (map : ArrayMap K V) : ArrayMapIterator K V := ⟨map, 0⟩

def arrayMapIteratorNext (i : ArrayMapIterator K V) :
    Option (MapKeyValue K V) × ArrayMapIterator K V :=
  match i.map.values[i.pos]? with
  | none => (none, i)
  | some kv => (some kv, { i with pos := i.pos + 1 })

/-! ## `hash_map.c` -/

/-- `HASHMAP_BUCKETS` -/
def hashMapBuckets : Nat := 8192

structure HashMap (K V : Type*) where
  buckets : Nat → List (MapKeyValue K V)

def hashMapNew : HashMap K V := ⟨fun _ => []⟩

def hashMapGetBucket (key : K) : Nat := hashFn key % hashMapBuckets

/-- Returns `true` if the key was present. A new binding goes to the front of its chain. -/
def hashMapInsert (map : HashMap K V) (key : K) (value : V) :
    Bool × HashMap K V × List (Destroyed K V) :=
  let bucket := hashMapGetBucket hashFn key
  match (map.buckets bucket).find? (fun kv => equalFn kv.key key) with
  | some old =>
    (true,
      ⟨Function.update map.buckets bucket
        (modifyFirst (fun kv => equalFn kv.key key) (fun kv => { kv with value })
          (map.buckets bucket))⟩,
      [.key key, .value old.value])
  | none => (false, ⟨Function.update map.buckets bucket (⟨key, value⟩ :: map.buckets bucket)⟩, [])

def hashMapRemove (map : HashMap K V) (key : K) : Bool × HashMap K V × List (Destroyed K V) :=
  let bucket := hashMapGetBucket hashFn key
  match (map.buckets bucket).find? (fun kv => equalFn kv.key key) with
  | some kv =>
    (true,
      ⟨Function.update map.buckets bucket
        ((map.buckets bucket).eraseP (fun kv => equalFn kv.key key))⟩,
      kv.destroyed)
  | none => (false, map, [])

def hashMapGet (map : HashMap K V) (key : K) : Option (MapKeyValue K V) :=
  (map.buckets (hashMapGetBucket hashFn key)).find? (fun kv => equalFn kv.key key)

/-- `FreeBucketListItem` frees the rest of a chain before its head. -/
def freeBucketListItem (chain : List (MapKeyValue K V)) : List (Destroyed K V) :=
  chain.reverse.flatMap MapKeyValue.destroyed

def hashMapClear (map : HashMap K V) : HashMap K V × List (Destroyed K V) :=
  (hashMapNew, (List.range hashMapBuckets).flatMap fun i => freeBucketListItem (map.buckets i))

structure HashMapIterator (K V : Type*) where
  map : HashMap K V
  cur : List (MapKeyValue K V)
  bucket : Nat

def hashMapIteratorInit (map : HashMap K V) : HashMapIterator K V :=
  { map, cur := map.buckets 0, bucket := 0 }

/-- The `while (i->cur == NULL)` loop of `HashMapIteratorNext`. -/
def hashMapIteratorNext.advance (map : HashMap K V) :
    Nat → List (MapKeyValue K V) → Nat → List (MapKeyValue K V) × Nat
  | _, kv :: rest, bucket => (kv :: rest, bucket)
  | 0, [], bucket => ([], bucket)
  | k + 1, [], bucket =>
    if bucket + 1 ≥ hashMapBuckets then ([], bucket + 1)
    else advance map k (map.buckets (bucket + 1)) (bucket + 1)

def hashMapIteratorNext (i : HashMapIterator K V) :
    Option (MapKeyValue K V) × HashMapIterator K V :=
  match hashMapIteratorNext.advance i.map (hashMapBuckets - i.bucket) i.cur i.bucket with
  | ([], bucket) => (none, { i with cur := [], bucket })
  | (kv :: rest, bucket) => (some kv, { i with cur := rest, bucket })

/-! ## `map.c` -/

inductive Map (K V : Type*) where
  | arraymap (map : ArrayMap K V)
  | hashmap (map : HashMap K V)

def mapNew : Map K V := .arraymap arrayMapNew

/-- The bindings move to the new map; nothing is destroyed but what `HashMapInsert` destroys. -/
def convertToHashMap (map : ArrayMap K V) : HashMap K V × List (Destroyed K V) :=
  map.values.foldl (fun (hashmap, destroyed) kv =>
    let (_, hashmap, d) := hashMapInsert hashFn equalFn hashmap kv.key kv.value
    (hashmap, destroyed ++ d)) (hashMapNew, [])

def mapInsert (map : Map K V) (key : K) (value : V) : Map K V × List (Destroyed K V) :=
  match map with
  | .arraymap arraymap =>
    match arrayMapInsert equalFn arraymap key value with
    | (true, arraymap, destroyed) => (.arraymap arraymap, destroyed)
    | (false, arraymap, destroyed) =>
      let (hashmap, destroyed') := convertToHashMap hashFn equalFn arraymap
      let (_, hashmap, destroyed'') := hashMapInsert hashFn equalFn hashmap key value
      (.hashmap hashmap, destroyed ++ destroyed' ++ destroyed'')
  | .hashmap hashmap =>
    let (_, hashmap, destroyed) := hashMapInsert hashFn equalFn hashmap key value
    (.hashmap hashmap, destroyed)

def mapGetRaw (map : Map K V) (key : K) : Option (MapKeyValue K V) :=
  match map with
  | .arraymap arraymap => arrayMapGet equalFn arraymap key
  | .hashmap hashmap => hashMapGet hashFn equalFn hashmap key

def mapHasKey (map : Map K V) (key : K) : Bool := (mapGetRaw hashFn equalFn map key).isSome

/-- `none` is the `NULL` result. -/
def mapGet (map : Map K V) (key : K) : Option V :=
  (mapGetRaw hashFn equalFn map key).map MapKeyValue.value

def mapRemove (map : Map K V) (key : K) : Bool × Map K V × List (Destroyed K V) :=
  match map with
  | .arraymap arraymap =>
    let (found, arraymap, destroyed) := arrayMapRemove equalFn arraymap key
    (found, .arraymap arraymap, destroyed)
  | .hashmap hashmap =>
    let (found, hashmap, destroyed) := hashMapRemove hashFn equalFn hashmap key
    (found, .hashmap hashmap, destroyed)

def mapClear (map : Map K V) : Map K V × List (Destroyed K V) :=
  match map with
  | .arraymap arraymap =>
    let (arraymap, destroyed) := arrayMapClear arraymap
    (.arraymap arraymap, destroyed)
  | .hashmap hashmap =>
    let (hashmap, destroyed) := hashMapClear hashmap
    (.hashmap hashmap, destroyed)

/-- `MapDestroy`, which clears the map before it frees the memory. -/
def mapDestroy (map : Map K V) : List (Destroyed K V) := (mapClear map).2

inductive MapIterator (K V : Type*) where
  | arraymap (iter : ArrayMapIterator K V)
  | hashmap (iter : HashMapIterator K V)

def mapIteratorInit : Map K V → MapIterator K V
  | .arraymap arraymap => .arraymap (arrayMapIteratorInit arraymap)
  | .hashmap hashmap => .hashmap (hashMapIteratorInit hashmap)

def mapIteratorNext : MapIterator K V → Option (MapKeyValue K V) × MapIterator K V
  | .arraymap iter =>
    let (kv, iter) := arrayMapIteratorNext iter
    (kv, .arraymap iter)
  | .hashmap iter =>
    let (kv, iter) := hashMapIteratorNext iter
    (kv, .hashmap iter)

end

/-- Calling `MapIteratorNext` until it returns `NULL` gives the bindings `l`. -/
inductive MapIterator.Yields {K V : Type*} : MapIterator K V → List (MapKeyValue K V) → Prop
  | done {i i'} : mapIteratorNext i = (none, i') → Yields i []
  | next {i i' kv l} : mapIteratorNext i = (some kv, i') → Yields i' l → Yields i (kv :: l)

end Cfengine
