import Cfengine.Verify.ClassHeaps
import Cfengine.Verify.PersistentContext

/-!
# Cancelled classes

`AddAllClasses` writes a class under its qualified name, to `VHEAP` and to the state database, and
`DeleteAllClasses` deletes the unqualified name from both and cancels it. In the default namespace
the heap has one name for both; elsewhere, and in the database always, what was added stays, and the
class of that name in the default namespace goes.
-/

namespace Cfengine
open Expiry

variable {f : CString → CString → Bool} {heaps heaps' : ClassHeaps} {dbp : StateDb}
  {name d s : CString} {ns ns' : Option CString}

/-! ## Namespaces -/

/-- The namespace, by its name. -/
def namespaceName (ns : Option CString) : CString := ns.getD "default".toList

/-- A namespace with a name that leaves space for a class in the buffers. -/
def NamespaceFits (ns : Option CString) : Prop :=
  NamespaceName ns ∧ (namespaceName ns).length < cfMaxVarSize - 1

theorem ClassName.qualifiedClass_default (hname : ClassName name)
    (hns : namespaceName ns = "default".toList) : qualifiedClass ns name = name := by
  rw [hname.qualifiedClass_eq]
  cases ns with
  | none => rfl
  | some ns => exact if_neg fun h => h hns

theorem ClassName.qualifiedClass_of_ne (hname : ClassName name) (hfits : NamespaceFits ns)
    (hns : namespaceName ns ≠ "default".toList) :
    ∃ rest, qualifiedClass ns name = namespaceName ns ++ ':' :: rest := by
  cases ns with
  | none => exact absurd rfl hns
  | some ns =>
    have hlength : ns.length < cfMaxVarSize - 1 := hfits.2
    obtain ⟨k, hk⟩ : ∃ k, cfMaxVarSize - 1 - ns.length = k + 1 :=
      ⟨cfMaxVarSize - 1 - ns.length - 1, by omega⟩
    refine ⟨name.take k, ?_⟩
    rw [hname.qualifiedClass_eq]
    dsimp only
    rw [if_pos (show ns ≠ _ from hns), List.take_append,
      List.take_of_length_le (Nat.le_of_lt hlength), hk, List.take_succ_cons]
    rfl

/-- The name in front of the colon, which no name of a namespace has. -/
theorem NamespaceFits.takeWhile (hfits : NamespaceFits ns) (rest : CString) :
    (namespaceName ns ++ ':' :: rest).takeWhile (· ≠ ':') = namespaceName ns := by
  have hchars : ∀ c ∈ namespaceName ns, decide (c ≠ ':') = true := by
    intro c hc
    refine decide_eq_true ?_
    cases ns with
    | none => rintro rfl; exact absurd hc (by decide)
    | some ns => exact ne_colon_of_isIdChar (hfits.1 ns rfl c hc)
  rw [List.takeWhile_append_of_pos hchars, List.takeWhile_cons_of_neg (by decide), List.append_nil]

/-- A class of another namespace than the default one has another name than any unqualified one. -/
theorem ClassName.qualifiedClass_ne_name (hname : ClassName name) (hd : ClassName d)
    (hfits : NamespaceFits ns) (hns : namespaceName ns ≠ "default".toList) :
    qualifiedClass ns name ≠ d := by
  obtain ⟨rest, hq⟩ := hname.qualifiedClass_of_ne hfits hns
  rintro rfl
  exact hd.colon (hq ▸ List.mem_append_right _ List.mem_cons_self)

/-- Classes of different namespaces have different names. -/
theorem ClassName.qualifiedClass_ne (hname : ClassName name) (hd : ClassName d)
    (hfits : NamespaceFits ns) (hfits' : NamespaceFits ns')
    (hne : namespaceName ns' ≠ namespaceName ns) :
    qualifiedClass ns' d ≠ qualifiedClass ns name := by
  by_cases hns : namespaceName ns = "default".toList
  · rw [hname.qualifiedClass_default hns]
    exact hd.qualifiedClass_ne_name hname hfits' fun h => hne (h.trans hns.symm)
  · by_cases hns' : namespaceName ns' = "default".toList
    · rw [hd.qualifiedClass_default hns']
      exact (hname.qualifiedClass_ne_name hd hfits hns).symm
    · obtain ⟨rest, hq⟩ := hname.qualifiedClass_of_ne hfits hns
      obtain ⟨rest', hq'⟩ := hd.qualifiedClass_of_ne hfits' hns'
      rw [hq, hq']
      intro heq
      have htake := congrArg (List.takeWhile (· ≠ ':')) heq
      rw [hfits.takeWhile, hfits'.takeWhile] at htake
      exact hne htake

/-! ## What the two functions leave -/

theorem ClassName.checkParseClass (hname : ClassName name) : checkParseClass name = true := by
  rw [Cfengine.checkParseClass, Bool.and_eq_true, decide_eq_true_eq, List.all_eq_true]
  refine ⟨hname.ne_nil, fun c hc => ?_⟩
  have hchar := hname.chars c hc
  rw [isIdChar, Bool.or_eq_true] at hchar
  rw [Bool.or_eq_true]
  refine hchar.imp_right fun h => ?_
  rw [of_decide_eq_true h]
  decide

/-- The heaps without the first item of this name, which is cancelled. -/
def cancel (heaps : ClassHeaps) (name : CString) : ClassHeaps :=
  { deleteFromAlphaList (deleteFromAlphaList heaps heaps.vheap name) heaps.vaddclasses name with
    vdelclasses := heaps.vdelclasses ++ [name] }

theorem ClassName.deleteAllClasses_eq (hname : ClassName name) :
    deleteAllClasses [name] (heaps, dbp) = (cancel heaps name, dbp.erase name) := by
  rw [deleteAllClasses, hname.checkParseClass, hname.canonifyName_eq]
  rfl

theorem ClassName.addAllClasses_eq_some (hname : ClassName name) {now persist : Nat}
    {policy : StatePolicy} {t : ClassHeaps × StateDb}
    (h : addAllClasses f now ns persist policy [name] (heaps, dbp) = some t) :
    (∃ flag, t.1 = (defineIn heaps heaps.vheap (qualifiedClass ns name)).flagged flag) ∧
    t.2 = if persist > 0 then
        newPersistentContext now name (ns.getD "(null)".toList) persist policy dbp
      else dbp := by
  rw [addAllClasses, hname.canonifyNameInPlace_eq, hname.canonifyName_eq] at h
  obtain ⟨next, hnew, h⟩ := Option.bind_eq_some_iff.1 h
  obtain rfl := Option.some.inj h
  rw [newClass_eq hname] at hnew
  exact ⟨defineClass_eq_some hname.qualifiedClass_ne_nil hnew, rfl⟩

/-! ## Ephemeral classes -/

/-- The class is not defined any more, and those of other namespaces are as they were. -/
def Cancelled (heaps heaps' : ClassHeaps) (ns : Option CString) (name : CString) : Prop :=
  isDefinedClass heaps'.context ns (some name) = false ∧
  ∀ ns' d, NamespaceFits ns' → ClassName d → namespaceName ns' ≠ namespaceName ns →
    isDefinedClass heaps'.context ns' (some d) = isDefinedClass heaps.context ns' (some d)

/-- A class with the same name in the same lists is as it was. -/
theorem ClassName.isDefinedClass_congr (hd : ClassName d) {context context' : ClassContext}
    (hneg : context'.vnegheap = context.vnegheap) (hhard : context'.vhardheap = context.vhardheap)
    (hdel : qualifiedClass ns d ∈ context'.vdelclasses ↔ qualifiedClass ns d ∈ context.vdelclasses)
    (hheap : context'.vheap.Has (qualifiedClass ns d) ↔ context.vheap.Has (qualifiedClass ns d))
    (hadd : context'.vaddclasses.Has (qualifiedClass ns d) ↔
      context.vaddclasses.Has (qualifiedClass ns d)) :
    isDefinedClass context' ns (some d) = isDefinedClass context ns (some d) := by
  rw [Bool.eq_iff_iff]
  by_cases hany : d = "any".toList
  · rw [hd.isDefinedClass_token, hd.isDefinedClass_token, evalTokenAsClass, evalTokenAsClass,
      if_pos hany, if_pos hany]
  · rw [hd.isDefinedClass_iff hany, hd.isDefinedClass_iff hany, hneg, hhard, hdel, hheap, hadd]

theorem has_setItems_delete {a b : Nat} {q : CString} (hq : q ≠ s) :
    ((deleteFromAlphaList heaps a s).items b).Has q ↔ (heaps.items b).Has q := by
  rw [deleteFromAlphaList_eq, setItems_items]
  by_cases hab : b = a
  · rw [hab, Function.update_self, AlphaList.has_delete_of_ne hq]
  · rw [Function.update_of_ne hab]

theorem has_cancel {b : Nat} {q : CString} (hq : q ≠ name) :
    ((cancel heaps name).items b).Has q ↔ (heaps.items b).Has q :=
  (has_setItems_delete hq).trans (has_setItems_delete hq)

theorem has_defineIn {a b : Nat} {q : CString} (hq : q ≠ s) :
    ((defineIn heaps a s).items b).Has q ↔ (heaps.items b).Has q := by
  rw [defineIn]
  split
  · rfl
  · rw [prependAlphaList_eq, setItems_items]
    by_cases hab : b = a
    · rw [hab, Function.update_self, AlphaList.has_prepend, or_iff_right hq]
    · rw [Function.update_of_ne hab]

theorem has_defineIn_self {a : Nat} (hs : s ≠ []) : ((defineIn heaps a s).items a).Has s := by
  rw [defineIn]
  split
  · rename_i hin
    exact (inAlphaList_iff hs).1 hin
  · rw [prependAlphaList_eq, setItems_items, Function.update_self, AlphaList.has_prepend]
    exact .inl rfl

/-- What is left of the heaps when a class has been added and cancelled. -/
def addedCancelled (heaps : ClassHeaps) (ns : Option CString) (name : CString) : ClassHeaps :=
  cancel (defineIn heaps heaps.vheap (qualifiedClass ns name)) name

theorem mem_vdelclasses_addedCancelled {q : CString} :
    q ∈ (addedCancelled heaps ns name).vdelclasses ↔ q ∈ heaps.vdelclasses ∨ q = name := by
  have hdel : (addedCancelled heaps ns name).vdelclasses = heaps.vdelclasses ++ [name] := by
    rw [addedCancelled, defineIn]
    split <;> rfl
  rw [hdel, List.mem_append, List.mem_singleton]

theorem addedCancelled_fixed (heaps : ClassHeaps) (ns : Option CString) (name : CString) :
    (addedCancelled heaps ns name).vnegheap = heaps.vnegheap ∧
    (addedCancelled heaps ns name).vhardheap = heaps.vhardheap ∧
    (addedCancelled heaps ns name).vheap = heaps.vheap ∧
    (addedCancelled heaps ns name).vaddclasses = heaps.vaddclasses := by
  rw [addedCancelled, defineIn]
  split <;> exact ⟨rfl, rfl, rfl, rfl⟩

/-- Every other name is in the same lists. -/
theorem isDefinedClass_addedCancelled (hd : ClassName d)
    (hq : qualifiedClass ns' d ≠ qualifiedClass ns name) (hne : qualifiedClass ns' d ≠ name) :
    isDefinedClass (addedCancelled heaps ns name).context ns' (some d) =
      isDefinedClass heaps.context ns' (some d) := by
  obtain ⟨hneg, hhard, hheap, hadd⟩ := addedCancelled_fixed heaps ns name
  have hhas (b : Nat) : ((addedCancelled heaps ns name).items b).Has (qualifiedClass ns' d) ↔
      (heaps.items b).Has (qualifiedClass ns' d) := (has_cancel hne).trans (has_defineIn hq)
  refine hd.isDefinedClass_congr hneg hhard ?_ ?_ ?_
  · exact mem_vdelclasses_addedCancelled.trans (or_iff_left hne)
  · show ((addedCancelled heaps ns name).items _).Has _ ↔ _
    rw [hheap]
    exact hhas _
  · show ((addedCancelled heaps ns name).items _).Has _ ↔ _
    rw [hadd]
    exact hhas _

/-- The unqualified name is cancelled. -/
theorem isDefinedClass_addedCancelled_default (hname : ClassName name) (hany : name ≠ "any".toList)
    (hns' : namespaceName ns' = "default".toList) :
    isDefinedClass (addedCancelled heaps ns name).context ns' (some name) = false := by
  rw [Bool.eq_false_iff, Ne, hname.isDefinedClass_iff hany, hname.qualifiedClass_default hns']
  exact fun h => h.2.1 (mem_vdelclasses_addedCancelled.2 (.inr rfl))

/-- The qualified name stays where it was added. -/
theorem isDefinedClass_addedCancelled_self (hname : ClassName name) (hany : name ≠ "any".toList)
    (hfits : NamespaceFits ns) (hns : namespaceName ns ≠ "default".toList) :
    isDefinedClass (addedCancelled heaps ns name).context ns (some name) = false ↔
      qualifiedClass ns name ∈ heaps.vnegheap ∨ qualifiedClass ns name ∈ heaps.vdelclasses := by
  have hne := hname.qualifiedClass_ne_name hname hfits hns
  obtain ⟨hneg, -, hheap, -⟩ := addedCancelled_fixed heaps ns name
  have hhas : ((addedCancelled heaps ns name).items heaps.vheap).Has (qualifiedClass ns name) :=
    (has_cancel hne).2 (has_defineIn_self hname.qualifiedClass_ne_nil)
  rw [← Bool.not_eq_true, hname.isDefinedClass_iff hany]
  have hcontext : (addedCancelled heaps ns name).context.vheap.Has (qualifiedClass ns name) := by
    show ((addedCancelled heaps ns name).items _).Has _
    rw [hheap]
    exact hhas
  have hdel : qualifiedClass ns name ∈ (addedCancelled heaps ns name).context.vdelclasses ↔
      qualifiedClass ns name ∈ heaps.vdelclasses :=
    mem_vdelclasses_addedCancelled.trans (or_iff_left hne)
  have hneg' : (addedCancelled heaps ns name).context.vnegheap = heaps.vnegheap := hneg
  rw [hneg', hdel]
  simp only [hcontext, true_or, or_true, and_true]
  tauto

theorem ClassName.isDefinedClass_default (hname : ClassName name) (hany : name ≠ "any".toList)
    {context : ClassContext} (hns : namespaceName ns = "default".toList) :
    isDefinedClass context ns (some name) = isDefinedClass context none (some name) := by
  rw [Bool.eq_iff_iff, hname.isDefinedClass_iff hany, hname.isDefinedClass_iff hany,
    hname.qualifiedClass_default hns, hname.qualifiedClass_default rfl]

/-- In the default namespace cancelling undoes a definition. Elsewhere it does so exactly if the
class is cancelled or negated already, and the one of that name in the default namespace is not
defined. -/
theorem addedCancelled_iff (hname : ClassName name) (hany : name ≠ "any".toList)
    (hfits : NamespaceFits ns) :
    Cancelled heaps (addedCancelled heaps ns name) ns name ↔
      namespaceName ns = "default".toList ∨
        (qualifiedClass ns name ∈ heaps.vnegheap ∨ qualifiedClass ns name ∈ heaps.vdelclasses) ∧
          isDefinedClass heaps.context none (some name) = false := by
  have hdefault : NamespaceFits none := ⟨fun s hs => (by cases hs), by decide⟩
  by_cases hns : namespaceName ns = "default".toList
  · refine iff_of_true ⟨isDefinedClass_addedCancelled_default hname hany hns, ?_⟩ (.inl hns)
    intro ns' d hfits' hd hother
    have hq := hname.qualifiedClass_ne hd hfits hfits' hother
    exact isDefinedClass_addedCancelled hd hq (hname.qualifiedClass_default hns ▸ hq)
  · rw [or_iff_right hns, Cancelled, isDefinedClass_addedCancelled_self hname hany hfits hns]
    refine and_congr_right fun _ => ⟨fun h => ?_, fun h ns' d hfits' hd hother => ?_⟩
    · rw [← h none name hdefault hname (Ne.symm hns)]
      exact isDefinedClass_addedCancelled_default hname hany rfl
    · have hq := hname.qualifiedClass_ne hd hfits hfits' hother
      by_cases hne : qualifiedClass ns' d = name
      · -- the class of that name in the default namespace
        have hns' : namespaceName ns' = "default".toList := by
          by_contra hns'
          exact hd.qualifiedClass_ne_name hname hfits' hns' hne
        obtain rfl : d = name := (hd.qualifiedClass_default hns').symm.trans hne
        rw [isDefinedClass_addedCancelled_default hname hany hns',
          hd.isDefinedClass_default hany hns', h]
      · exact isDefinedClass_addedCancelled hd hq hne

/-- `addedCancelled_iff` for what the two functions do. -/
theorem deleteAllClasses_cancelled_iff (f : CString → CString → Bool) (now : Nat)
    (policy : StatePolicy) (ns : Option CString) (name : CString) (hname : ClassName name)
    (hany : name ≠ "any".toList) (hfits : NamespaceFits ns) (heaps : ClassHeaps) (dbp : StateDb)
    (t : ClassHeaps × StateDb)
    (hadd : addAllClasses f now ns 0 policy [name] (heaps, dbp) = some t) :
    Cancelled heaps (deleteAllClasses [name] t).1 ns name ↔
      namespaceName ns = "default".toList ∨
        (qualifiedClass ns name ∈ heaps.vnegheap ∨ qualifiedClass ns name ∈ heaps.vdelclasses) ∧
          isDefinedClass heaps.context none (some name) = false := by
  obtain ⟨⟨flag, hflag⟩, -⟩ := hname.addAllClasses_eq_some hadd
  obtain ⟨added, dbp'⟩ := t
  obtain rfl : added = _ := hflag
  rw [hname.deleteAllClasses_eq, ← addedCancelled_iff hname hany hfits]
  exact Iff.rfl

theorem className_ready : ClassName "ready".toList :=
  ⟨by decide, by simp [isIdChar], by decide⟩

theorem namespaceFits_site : NamespaceFits (some "site".toList) := by
  refine ⟨fun s hs => ?_, by decide⟩
  cases hs
  simp [isIdChar]

/-- An agent with one hard class adds a class in a namespace. -/
def addedReady : Option (ClassHeaps × StateDb) :=
  addAllClasses (fun _ _ => false) 0 (some "site".toList) 0 .cfreset ["ready".toList] (hardLinux, ∅)

theorem exists_addedReady : ∃ t, addedReady = some t :=
  Option.isSome_iff_exists.1 (by decide)

theorem deleteAllClasses_cancelled_iff_ready : ∃ t, addedReady = some t ∧
    (Cancelled hardLinux (deleteAllClasses ["ready".toList] t).1 (some "site".toList)
      "ready".toList ↔
      namespaceName (some "site".toList) = "default".toList ∨
        (qualifiedClass (some "site".toList) "ready".toList ∈ hardLinux.vnegheap ∨
          qualifiedClass (some "site".toList) "ready".toList ∈ hardLinux.vdelclasses) ∧
          isDefinedClass hardLinux.context none (some "ready".toList) = false) := by
  obtain ⟨t, ht⟩ := exists_addedReady
  exact ⟨t, ht, deleteAllClasses_cancelled_iff (fun _ _ => false) 0 .cfreset (some "site".toList)
    "ready".toList className_ready (by decide) namespaceFits_site hardLinux ∅ t ht⟩

/-- In a namespace the class is still defined. -/
theorem deleteAllClasses_not_cancelled :
    ¬ ∀ (f : CString → CString → Bool) (now : Nat) (policy : StatePolicy) (ns : Option CString)
      (name : CString) (heaps : ClassHeaps) (dbp : StateDb) (t : ClassHeaps × StateDb),
      ClassName name → name ≠ "any".toList → ¬ heaps.vhardheap.Has name → NamespaceFits ns →
      addAllClasses f now ns 0 policy [name] (heaps, dbp) = some t →
      Cancelled heaps (deleteAllClasses [name] t).1 ns name := by
  intro h
  obtain ⟨t, ht⟩ := exists_addedReady
  have hcancelled := h _ _ _ _ _ _ _ t className_ready (by decide)
    (by unfold AlphaList.Has; decide) namespaceFits_site ht
  obtain ⟨⟨flag, hflag⟩, -⟩ := className_ready.addAllClasses_eq_some ht
  obtain ⟨added, dbp⟩ := t
  obtain rfl : added = _ := hflag
  rw [className_ready.deleteAllClasses_eq] at hcancelled
  have hiff := (addedCancelled_iff className_ready (by decide) namespaceFits_site).1 hcancelled
  revert hiff
  decide

/-! ## Persistent classes -/

/-- No load at this time or later defines the class. -/
def Undone (now : Nat) (dbp : StateDb) (ns name : CString) : Prop :=
  ∀ t, now ≤ t → (name, some ns) ∉ (loadPersistentContext t dbp).1

theorem ClassName.persistentName (hname : ClassName name) {ns : CString}
    (hfits : NamespaceFits (some ns)) (hns : ns ≠ []) : PersistentName ns name where
  namespace_ne := hns
  colon := fun hc => ne_colon_of_isIdChar (hfits.1 ns rfl _ hc) rfl
  newline := fun hc => absurd (hname.chars _ hc) (by decide)
  namespace_length := Nat.lt_of_lt_of_le hfits.2 (Nat.sub_le _ _)
  name_length := hname.length

variable (dbp name) in
/-- The entry of a class after `NewPersistentContext`. -/
theorem exists_lookup_newPersistentContext (ns : CString) (now ttl : Nat) (policy : StatePolicy) :
    ∃ q, (newPersistentContext now name ns ttl policy dbp).lookup (persistentName ns name) =
      some q ∧
      (q.expires < now ↔ isPreserved now (dbp.lookup (persistentName ns name)) = false ∧
        toUnsigned (now + toUnsigned (ttl * 60)) < now) := by
  rw [newPersistentContext]
  cases hpreserved : isPreserved now (dbp.lookup (persistentName ns name)) with
  | false =>
    rw [if_neg Bool.false_ne_true]
    exact ⟨_, AList.lookup_insert _, (and_iff_right rfl).symm⟩
  | true =>
    rw [if_pos rfl]
    cases hentry : dbp.lookup (persistentName ns name) with
    | none =>
      rw [hentry] at hpreserved
      cases hpreserved
    | some q =>
      rw [hentry, isPreserved, Bool.and_eq_true, decide_eq_true_eq, decide_eq_true_eq] at hpreserved
      exact ⟨q, rfl, iff_of_false (Nat.lt_asymm hpreserved.2) fun h => Bool.noConfusion h.1⟩

/-- `DeleteAllClasses` never deletes the entry, so that a class that was persistent is defined again
by the next load, unless the end of its life has wrapped around. -/
theorem deleteAllClasses_undone_iff (f : CString → CString → Bool) (now persist : Nat)
    (policy : StatePolicy) (ns name : CString) (hname : ClassName name)
    (hfits : NamespaceFits (some ns)) (hns : ns ≠ []) (heaps : ClassHeaps) (dbp : StateDb)
    (hdbp : Named dbp) (hpersist : 0 < persist) (t : ClassHeaps × StateDb)
    (hadd : addAllClasses f now (some ns) persist policy [name] (heaps, dbp) = some t) :
    Undone now (deleteAllClasses [name] t).2 ns name ↔
      isPreserved now (dbp.lookup (persistentName ns name)) = false ∧
        toUnsigned (now + toUnsigned (persist * 60)) < now := by
  have hpersistent := hname.persistentName hfits hns
  obtain ⟨-, hdb⟩ := hname.addAllClasses_eq_some hadd
  obtain ⟨added, dbp'⟩ := t
  obtain rfl : dbp' = newPersistentContext now name ns persist policy dbp := by
    rw [if_pos hpersist] at hdb
    exact hdb
  have hadded : Named ((PersistentCall.newPersistentContext now name ns persist policy).run dbp) :=
    hdbp.run hpersistent
  have hkey : persistentName ns name ≠ name := by
    intro heq
    have hcolon := hname.colon
    rw [← heq, hpersistent.key_eq] at hcolon
    exact hcolon (List.mem_append_right _ List.mem_cons_self)
  have herased : Named ((newPersistentContext now name ns persist policy dbp).erase name) :=
    fun key hmem => hadded key (AList.mem_erase.1 hmem).2
  obtain ⟨q, hq, hexpired⟩ := exists_lookup_newPersistentContext dbp name ns now persist policy
  rw [hname.deleteAllClasses_eq, ← hexpired, Undone]
  simp only [mem_loadPersistentContext_named herased hpersistent, AList.lookup_erase_ne hkey, hq,
    Option.some.injEq, exists_eq_left']
  constructor
  · exact fun h => Nat.lt_of_not_le (h now (Nat.le_refl _))
  · exact fun h t ht => Nat.not_le.2 (Nat.lt_of_lt_of_le h ht)

/-- An agent adds a class for ten minutes in the default namespace. -/
def persistentReady : Option (ClassHeaps × StateDb) :=
  addAllClasses (fun _ _ => false) 1000 (some "default".toList) 10 .cfreset ["ready".toList]
    (hardLinux, ∅)

theorem exists_persistentReady : ∃ t, persistentReady = some t :=
  Option.isSome_iff_exists.1 (by decide)

theorem namespaceFits_default : NamespaceFits (some "default".toList) := by
  refine ⟨fun s hs => ?_, by decide⟩
  cases hs
  simp [isIdChar]

theorem deleteAllClasses_undone_iff_ready : ∃ t, persistentReady = some t ∧
    (Undone 1000 (deleteAllClasses ["ready".toList] t).2 "default".toList "ready".toList ↔
      isPreserved 1000 ((∅ : StateDb).lookup (persistentName "default".toList "ready".toList)) =
      false ∧
        toUnsigned (1000 + toUnsigned (10 * 60)) < 1000) := by
  obtain ⟨t, ht⟩ := exists_persistentReady
  exact ⟨t, ht, deleteAllClasses_undone_iff (fun _ _ => false) 1000 10 .cfreset "default".toList
    "ready".toList className_ready namespaceFits_default (by decide) hardLinux ∅
    named_empty (by decide)
    t ht⟩

/-- The next load defines the class again. -/
theorem deleteAllClasses_not_undone :
    ¬ ∀ (f : CString → CString → Bool) (now persist : Nat) (policy : StatePolicy)
      (ns name : CString)
      (heaps : ClassHeaps) (dbp : StateDb) (t : ClassHeaps × StateDb), ClassName name →
      NamespaceFits (some ns) → ns ≠ [] → Named dbp → 0 < persist →
      addAllClasses f now (some ns) persist policy [name] (heaps, dbp) = some t →
      Undone now (deleteAllClasses [name] t).2 ns name := by
  intro h
  obtain ⟨t, ht⟩ := exists_persistentReady
  have hundone := h _ _ _ _ _ _ _ _ t className_ready namespaceFits_default (by decide) named_empty
    (by decide) ht 1000 (Nat.le_refl _)
  obtain ⟨-, hdb⟩ := className_ready.addAllClasses_eq_some ht
  obtain ⟨added, dbp⟩ := t
  obtain rfl : dbp = newPersistentContext 1000 "ready".toList "default".toList 10 .cfreset ∅ := hdb
  rw [className_ready.deleteAllClasses_eq] at hundone
  refine hundone ?_
  dsimp only
  decide

end Cfengine
