import Cfengine.Theory.Runs

/-!
# Memoised answers

A cache is a list of entries with keys, searched from its front. `ask` puts the entry that `make`
has for a key in front of the cache unless there is one already. After a run from the empty cache
there is an entry for a key just if it was asked for and `make` has one (`lookup_run`).
-/

namespace Memo
open Runs

variable {Key Entry : Type*} [DecidableEq Key] (key : Entry → Key) (make : Key → Option Entry)

/-- The first entry with the key. -/
def lookup (cache : List Entry) (k : Key) : Option Entry := cache.find? fun e => key e = k

def ask (cache : List Entry) (k : Key) : List Entry :=
  match lookup key cache k with
  | some _ => cache
  | none => (make k).toList ++ cache

/-- What is made for a key has that key. -/
def Keyed : Prop := ∀ k e, make k = some e → key e = k

variable {key make} {cache : List Entry} {k k' : Key} {ks : List Key} {e : Entry}

theorem lookup_ask_of_ne (hkeyed : Keyed key make) (hne : k' ≠ k) :
    lookup key (ask key make cache k') k = lookup key cache k := by
  rw [ask]
  split
  · rfl
  · cases hmake : make k' with
    | none => rfl
    | some e => exact List.find?_cons_of_neg (by simpa [hkeyed k' e hmake] using hne)

theorem lookup_ask_of_some (hfound : lookup key cache k = some e) :
    lookup key (ask key make cache k) k = some e := by
  rw [ask, hfound]
  exact hfound

theorem lookup_ask_of_none (hkeyed : Keyed key make) (hnone : lookup key cache k = none) :
    lookup key (ask key make cache k) k = make k := by
  rw [ask, hnone]
  cases hmake : make k with
  | none => exact hnone
  | some e => exact List.find?_cons_of_pos (by simpa using hkeyed k e hmake)

/-- There is an entry for what was asked. -/
theorem lookup_run (hkeyed : Keyed key make) (ks : List Key) (k : Key) :
    lookup key (run (ask key make) [] ks) k = if k ∈ ks then make k else none := by
  induction ks using List.reverseRecOn with
  | nil => rfl
  | append_singleton ks k' ih =>
    rw [run_concat]
    by_cases hk : k' = k
    · subst hk
      rw [if_pos (List.mem_append_right _ (List.mem_singleton_self _))]
      by_cases hmem : k' ∈ ks
      · rw [if_pos hmem] at ih
        cases hmake : make k' with
        | none => rw [lookup_ask_of_none hkeyed (ih.trans hmake), hmake]
        | some e => exact lookup_ask_of_some (ih.trans hmake)
      · rw [if_neg hmem] at ih
        exact lookup_ask_of_none hkeyed ih
    · rw [lookup_ask_of_ne hkeyed hk, ih]
      simp [Ne.symm hk]

end Memo
