import Cfengine.PersistentContext
import Cfengine.Theory.Expiry
import Cfengine.Theory.Runs

/-!
# How long persistent classes live

A load drops the entries that have expired and defines the classes of the others
(`lookup_loadPersistentContext`), so that the database agrees with one that keeps every entry. Where
no time wraps around in an `unsigned int`, a class is therefore defined as long as the entry is in
force that its `NewPersistentContext` calls leave.
-/

namespace Cfengine
open Expiry

variable {dbp : StateDb} {now : Nat} {key name ns : CString} {q : CfState}
  {call : CString × Option CString}

/-! ## One load -/

section
variable {e : Sigma fun _ : CString => CfState} {entries : List (Sigma fun _ : CString => CfState)}

theorem loadPersistentContext_loop_of_lt (h : e.2.expires < now) :
    loadPersistentContext.loop now (e :: entries) dbp =
      loadPersistentContext.loop now entries (dbp.erase e.1) := if_pos h

theorem loadPersistentContext_loop_of_le (h : now ≤ e.2.expires) :
    loadPersistentContext.loop now (e :: entries) dbp =
      (persistentClass e.1 :: (loadPersistentContext.loop now entries dbp).1,
        (loadPersistentContext.loop now entries dbp).2) := if_neg (Nat.not_lt.2 h)

theorem loadPersistentContext_loop_spec :
    (call ∈ (loadPersistentContext.loop now entries dbp).1 ↔
      ∃ e ∈ entries, now ≤ e.2.expires ∧ persistentClass e.1 = call) ∧
    (loadPersistentContext.loop now entries dbp).2.lookup key =
      if ∃ e ∈ entries, e.1 = key ∧ e.2.expires < now then none else dbp.lookup key := by
  induction entries generalizing dbp with
  | nil => simp [loadPersistentContext.loop]
  | cons e entries ih =>
    simp only [List.exists_mem_cons_iff]
    rcases Nat.lt_or_ge e.2.expires now with hexpired | hforce
    · rw [loadPersistentContext_loop_of_lt hexpired, ih.1, ih.2]
      refine ⟨?_, ?_⟩
      · simp only [Nat.not_le.2 hexpired, false_and, false_or]
      · by_cases hkey : e.1 = key
        · rw [← hkey, AList.lookup_erase, ite_self]
          exact (if_pos (.inl ⟨rfl, hexpired⟩)).symm
        · simp only [hkey, false_and, false_or, AList.lookup_erase_ne (Ne.symm hkey)]
    · rw [loadPersistentContext_loop_of_le hforce, List.mem_cons, ih.1, ih.2]
      refine ⟨?_, ?_⟩
      · simp only [hforce, true_and, eq_comm]
      · simp only [Nat.not_lt.2 hforce, and_false, false_or]

end

theorem mem_entries_iff :
    (⟨key, q⟩ : Sigma fun _ : CString => CfState) ∈ dbp.entries ↔ dbp.lookup key = some q :=
  AList.mem_lookup_iff.symm

/-- A load defines the classes of the entries that are in force. -/
theorem mem_loadPersistentContext :
    call ∈ (loadPersistentContext now dbp).1 ↔
      ∃ key q, dbp.lookup key = some q ∧ now ≤ q.expires ∧ persistentClass key = call := by
  rw [loadPersistentContext, (@loadPersistentContext_loop_spec dbp now [] call dbp.entries).1]
  constructor
  · rintro ⟨⟨key, q⟩, he, hforce, hcall⟩
    exact ⟨key, q, mem_entries_iff.1 he, hforce, hcall⟩
  · rintro ⟨key, q, he, hforce, hcall⟩
    exact ⟨⟨key, q⟩, mem_entries_iff.2 he, hforce, hcall⟩

/-- It drops the others. -/
theorem lookup_loadPersistentContext :
    (loadPersistentContext now dbp).2.lookup key = inForce CfState.expires now
      (dbp.lookup key) := by
  rw [loadPersistentContext,
    (@loadPersistentContext_loop_spec dbp now key ([], none) dbp.entries).2]
  cases hentry : dbp.lookup key with
  | none => exact ite_self _
  | some q =>
    rcases Nat.lt_or_ge q.expires now with hexpired | hforce
    · rw [inForce_some_of_lt hexpired]
      exact if_pos ⟨⟨key, q⟩, mem_entries_iff.2 hentry, rfl, hexpired⟩
    · rw [inForce_eq_some.2 ⟨rfl, hforce⟩]
      refine if_neg ?_
      rintro ⟨⟨key', q'⟩, he, rfl, hexpired⟩
      rw [mem_entries_iff.1 he, Option.some.injEq] at hentry
      rw [hentry] at hexpired
      exact absurd hexpired (Nat.not_lt.2 hforce)

/-! ## Names -/

/-- The name of a class and its namespace, as they are written to a key and read from it. -/
structure PersistentName (ns name : CString) : Prop where
  namespace_ne : ns ≠ []
  colon : ':' ∉ ns
  newline : '\n' ∉ name
  namespace_length : ns.length < cfMaxVarSize
  name_length : name.length < cfMaxVarSize

theorem PersistentName.key_eq (h : PersistentName ns name) :
    persistentName ns name = ns ++ ':' :: name := by
  have hns : ns.length < 1024 := h.namespace_length
  have hname : name.length < 1024 := h.name_length
  refine List.take_of_length_le ?_
  rw [List.length_append, List.length_cons]
  show _ ≤ 4095
  omega

/-- What is read from the key is what was written to it. -/
theorem PersistentName.persistentClass (h : PersistentName ns name) :
    persistentClass (persistentName ns name) = (name, some ns) := by
  have htake : (ns ++ ':' :: name).takeWhile (· ≠ ':') = ns := by
    have hcolon : ∀ c ∈ ns, decide (c ≠ ':') = true := fun c hc =>
      decide_eq_true fun heq => h.colon (heq ▸ hc)
    rw [List.takeWhile_append_of_pos hcolon, List.takeWhile_cons_of_neg (by decide),
      List.append_nil]
  have hname : name.takeWhile (· ≠ '\n') = name :=
    List.takeWhile_eq_self_iff.2 fun c hc => decide_eq_true fun heq : c = '\n' =>
      h.newline (heq ▸ hc)
  rw [h.key_eq, Cfengine.persistentClass, if_pos (by simp), htake]
  cases ns with
  | nil => exact absurd rfl h.namespace_ne
  | cons c ns =>
    dsimp only
    rw [List.cons_append, List.drop_succ_cons, List.drop_append, List.drop_of_length_le (by omega),
      Nat.add_sub_cancel_left, List.nil_append, List.drop_one, List.tail_cons, hname]

/-- Different classes have different keys. -/
theorem PersistentName.key_inj {ns' name' : CString} (h : PersistentName ns name)
    (h' : PersistentName ns' name') (hkey : persistentName ns name = persistentName ns' name') :
    ns = ns' ∧ name = name' := by
  have hclass := h.persistentClass
  rw [hkey, h'.persistentClass, Prod.mk.injEq, Option.some.injEq] at hclass
  exact ⟨hclass.2.symm, hclass.1.symm⟩

/-! ## Histories -/

section
variable {ttl : Nat} {policy : StatePolicy} {entry : Option CfState} {calls : List PersistentCall}

/-- The entry that a `NewPersistentContext` call is to leave. -/
def renewed (now ttl : Nat) (policy : StatePolicy) : Option CfState → CfState
  | some state =>
    if state.policy = .cfpreserve ∧ now < state.expires then state else ⟨now + 60 * ttl, policy⟩
  | none => ⟨now + 60 * ttl, policy⟩

/-- The entry of a class that the calls are to leave, which has not to be removed. -/
def keptEntry (ns name : CString) (entry : Option CfState) : PersistentCall → Option CfState
  | .newPersistentContext now name' ns' ttl policy =>
    if ns' = ns ∧ name' = name then some (renewed now ttl policy entry) else entry
  | .loadPersistentContext _ => entry

/-- The classes live as long as the entries are in force that the calls are to leave. A later load
drops the expired entries, and a later `NewPersistentContext` changes no other one. -/
def Lives (dbp : StateDb) (calls : List PersistentCall) : Prop :=
  ∀ t, (∀ call ∈ calls, call.now ≤ t) →
    (∀ ns name, PersistentName ns name →
      ((name, some ns) ∈ (loadPersistentContext t (Runs.run PersistentCall.run dbp calls)).1 ↔
        ∃ q, Runs.run (keptEntry ns name) (dbp.lookup (persistentName ns name)) calls = some q ∧
          t ≤ q.expires)) ∧
    (∀ key, (loadPersistentContext t (Runs.run PersistentCall.run dbp calls)).2.lookup key =
      inForce CfState.expires t ((Runs.run PersistentCall.run dbp calls).lookup key)) ∧
    ∀ ns name ttl policy key, key ≠ persistentName ns name →
      (newPersistentContext t name ns ttl policy (Runs.run PersistentCall.run dbp calls)).lookup
        key =
        (Runs.run PersistentCall.run dbp calls).lookup key

/-- The keys are those of classes. -/
def Named (dbp : StateDb) : Prop :=
  ∀ key ∈ dbp, ∃ ns name, PersistentName ns name ∧ key = persistentName ns name

/-- The class of the call has a name. -/
def PersistentCall.Named : PersistentCall → Prop
  | .newPersistentContext _ name ns _ _ => PersistentName ns name
  | .loadPersistentContext _ => True

/-- The minutes of the call do not overflow when they are seconds. -/
def PersistentCall.InRange : PersistentCall → Prop
  | .newPersistentContext _ _ _ ttl _ => ttl * 60 < 4294967296
  | .loadPersistentContext _ => True

/-- The end of the life of the class does not wrap around. -/
def PersistentCall.Fits : PersistentCall → Prop
  | .newPersistentContext now _ _ ttl _ => now + ttl * 60 < 4294967296
  | .loadPersistentContext _ => True

theorem newPersistentContext_lookup_self (h : now + ttl * 60 < 4294967296) :
    (newPersistentContext now name ns ttl policy dbp).lookup (persistentName ns name) =
      some (renewed now ttl policy (dbp.lookup (persistentName ns name))) := by
  have hexpires : toUnsigned (now + toUnsigned (ttl * 60)) = now + 60 * ttl := by
    rw [toUnsigned, toUnsigned]
    omega
  rw [newPersistentContext, hexpires]
  cases hentry : dbp.lookup (persistentName ns name) with
  | none => exact AList.lookup_insert _
  | some state =>
    have hpreserved : isPreserved now (some state) = true ↔
        state.policy = .cfpreserve ∧ now < state.expires := by
      rw [isPreserved, Bool.and_eq_true, decide_eq_true_eq, decide_eq_true_eq]
    by_cases hkept : state.policy = .cfpreserve ∧ now < state.expires
    · rw [if_pos (hpreserved.2 hkept), hentry, renewed, if_pos hkept]
    · rw [if_neg (mt hpreserved.1 hkept), AList.lookup_insert, renewed, if_neg hkept]

theorem newPersistentContext_lookup_of_ne (h : key ≠ persistentName ns name) :
    (newPersistentContext now name ns ttl policy dbp).lookup key = dbp.lookup key := by
  rw [newPersistentContext]
  split
  · rfl
  · exact AList.lookup_insert_ne h

theorem Named.run (h : Named dbp) {call : PersistentCall} (hcall : call.Named) :
    Named (call.run dbp) := by
  intro key hkey
  cases call with
  | newPersistentContext now name ns ttl policy =>
    by_cases hne : key = persistentName ns name
    · exact ⟨ns, name, hcall, hne⟩
    · rw [← AList.lookup_isSome, PersistentCall.run, newPersistentContext_lookup_of_ne hne,
        AList.lookup_isSome] at hkey
      exact h key hkey
  | loadPersistentContext now =>
    rw [← AList.lookup_isSome, PersistentCall.run, lookup_loadPersistentContext] at hkey
    obtain ⟨q, hq⟩ := Option.isSome_iff_exists.1 hkey
    exact h key (AList.lookup_isSome.1 (Option.isSome_iff_exists.2 ⟨q, (inForce_eq_some.1 hq).1⟩))

theorem Named.runs (h : Named dbp) (hcalls : ∀ call ∈ calls, call.Named) :
    Named (Runs.run PersistentCall.run dbp calls) := by
  induction calls using List.reverseRecOn with
  | nil => exact h
  | append_singleton calls call ih =>
    rw [Runs.run_concat]
    exact (ih fun other hother => hcalls other (List.mem_append_left _ hother)).run
      (hcalls call List.mem_concat_self)

/-- A class with a name is defined by a load exactly if its entry is in force. -/
theorem mem_loadPersistentContext_named (hdbp : Named dbp) {ns : CString}
    (hname : PersistentName ns name) {t : Nat} :
    (name, some ns) ∈ (loadPersistentContext t dbp).1 ↔
      ∃ q, dbp.lookup (persistentName ns name) = some q ∧ t ≤ q.expires := by
  rw [mem_loadPersistentContext]
  constructor
  · rintro ⟨key, q, hkey, hforce, hclass⟩
    obtain ⟨ns', name', hname', rfl⟩ :=
      hdbp key (AList.lookup_isSome.1 (Option.isSome_iff_exists.2 ⟨q, hkey⟩))
    rw [hname'.persistentClass, Prod.mk.injEq, Option.some.injEq] at hclass
    obtain ⟨rfl, rfl⟩ := hclass
    exact ⟨q, hkey, hforce⟩
  · rintro ⟨q, hkey, hforce⟩
    exact ⟨_, q, hkey, hforce, hname.persistentClass⟩

variable (dbp) in
/-- Both the database and a run that keeps the expired entries have the same ones in force. -/
theorem agrees_keptEntry (hcalls : ∀ call ∈ calls, call.Named) (hfits : ∀ call ∈ calls, call.Fits)
    (hsorted : (calls.map PersistentCall.now).Pairwise (· ≤ ·)) (hname : PersistentName ns name)
    {t : Nat} (ht : ∀ call ∈ calls, call.now ≤ t) :
    Agrees CfState.expires t
      ((Runs.run PersistentCall.run dbp calls).lookup (persistentName ns name))
      (Runs.run (keptEntry ns name) (dbp.lookup (persistentName ns name)) calls) := by
  induction calls using List.reverseRecOn generalizing t with
  | nil => exact .inl rfl
  | append_singleton calls call ih =>
    rw [List.map_append, List.pairwise_append] at hsorted
    have hbefore : ∀ other ∈ calls, other.now ≤ call.now := fun other hother =>
      hsorted.2.2 _ (List.mem_map_of_mem hother) _ (List.mem_singleton_self _)
    have hih := ih (fun other hother => hcalls other (List.mem_append_left _ hother))
      (fun other hother => hfits other (List.mem_append_left _ hother)) hsorted.1 hbefore
    rw [Runs.run_concat, Runs.run_concat]
    refine Agrees.mono ?_ (ht call List.mem_concat_self)
    have hfit := hfits call List.mem_concat_self
    have hvalid := hcalls call List.mem_concat_self
    cases call with
    | newPersistentContext now name' ns' ttl policy =>
      rw [PersistentCall.run, keptEntry]
      split
      · rename_i heq
        obtain ⟨rfl, rfl⟩ := heq
        rw [newPersistentContext_lookup_self hfit]
        refine .inl (congrArg some (hih.replace fun state hexpired => ?_))
        -- an expired entry is not preserved
        exact if_neg fun h => Nat.lt_asymm h.2 hexpired
      · rename_i hne
        rw [newPersistentContext_lookup_of_ne fun heq => hne (hvalid.key_inj hname heq.symm)]
        exact hih
    | loadPersistentContext now =>
      rw [PersistentCall.run, keptEntry, lookup_loadPersistentContext]
      exact hih.drop

/-- Where the ends of the lives of classes do not wrap around, classes live as long as promised. -/
theorem persistentCalls_live (dbp : StateDb) (hdbp : Named dbp) (calls : List PersistentCall)
    (hcalls : ∀ call ∈ calls, call.Named)
    (hsorted : (calls.map PersistentCall.now).Pairwise (· ≤ ·))
    (hfits : ∀ call ∈ calls, call.Fits) : Lives dbp calls := by
  refine fun t ht => ⟨fun ns name hname => ?_, fun key => lookup_loadPersistentContext,
    fun ns name ttl policy key hkey => newPersistentContext_lookup_of_ne hkey⟩
  have hforce := (agrees_keptEntry dbp hcalls hfits hsorted hname ht).inForce_eq
  rw [mem_loadPersistentContext_named (hdbp.runs hcalls) hname]
  simp only [← inForce_eq_some, hforce]

end

theorem named_empty : Named ∅ := fun _ hkey => absurd hkey (AList.notMem_empty _)

/-- A class that is preserved, and is defined for another ten minutes once it has expired. -/
def renewal : List PersistentCall :=
  [.newPersistentContext 1000 "updated".toList "default".toList 10 .cfpreserve,
    .newPersistentContext 1599 "updated".toList "default".toList 10 .cfpreserve,
    .loadPersistentContext 1600, .loadPersistentContext 1601,
    .newPersistentContext 1601 "updated".toList "default".toList 10 .cfpreserve]

theorem persistentName_updated : PersistentName "default".toList "updated".toList := by
  constructor <;> decide

theorem persistentCalls_live_renewal : Lives ∅ renewal := by
  refine persistentCalls_live ∅ named_empty renewal ?_ (by decide) ?_
  · intro call hcall
    fin_cases hcall <;> first | exact persistentName_updated | trivial
  · intro call hcall
    fin_cases hcall <;> first | (show _ < _; decide) | trivial

/-- A life of 114 years wraps around, and the class is expired at once. -/
theorem persistentCalls_wrap :
    ¬ ∀ (dbp : StateDb) (calls : List PersistentCall), Named dbp → (∀ call ∈ calls, call.Named) →
      (calls.map PersistentCall.now).Pairwise (· ≤ ·) → (∀ call ∈ calls, call.InRange) →
      Lives dbp calls := by
  intro h
  have hlives :=
    h ∅ [.newPersistentContext 1400000000 "updated".toList "default".toList 60000000 .cfreset]
    named_empty (List.forall_mem_singleton.2 persistentName_updated) (by simp)
    (List.forall_mem_singleton.2 (show _ < _ by decide)) 1400000060
    (List.forall_mem_singleton.2 (show _ ≤ _ by decide))
  have hdefined := (hlives.1 _ _ (persistentName_updated)).2
    ⟨⟨5000000000, .cfreset⟩, by decide, by decide⟩
  revert hdefined
  decide

end Cfengine
