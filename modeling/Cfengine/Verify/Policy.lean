import Cfengine.Policy

/-!
# When a policy passes its check

`Policy.WellFormed` says what a policy must fulfil. `PolicyCheck` passes exactly the policies that
do, and appends an error to the others (`policyCheck_decides`).
-/

namespace Cfengine
open Checks

variable {syntaxTable : List (CString × CString)} {policy : Policy} {bundle : PolicyBundle}
  {subtype : SubType}
  {pp : Promise} {cp : Constraint} {conlist : List Constraint} {dataType : Option CString}

/-- A variable has at most one data type. -/
def Promise.HasOneDataType (pp : Promise) : Prop :=
  (pp.conlist.filter fun cp => isDataType cp.lval).length ≤ 1

/-- A call of a bundle of the policy has as many arguments as the bundle. -/
def Constraint.ArityFits (policy : Policy) (cp : Constraint) : Prop :=
  cp.lval = "usebundle".toList → ∀ name args, cp.rval = .fncall name args →
    ∀ callee, getBundle policy name "agent".toList = some callee → args.length = callee.args.length

/-- What holds of a promise of a certain type. -/
structure Promise.WellFormed (policy : Policy) (pp : Promise) : Prop where
  vars : pp.agentsubtype = "vars".toList → pp.HasOneDataType
  methods : pp.agentsubtype = "methods".toList → ∀ cp ∈ pp.conlist, cp.ArityFits policy

/-- The promise type is known, for this type of bundle or for all of them. -/
structure SubType.WellFormed (syntaxTable : List (CString × CString)) (policy : Policy)
    (bundle : PolicyBundle) (subtype : SubType) : Prop where
  known : ∃ name, subtype.name = some name ∧
    ((name, bundle.type) ∈ syntaxTable ∨ (name, "*".toList) ∈ syntaxTable)
  promises : ∀ pp ∈ subtype.promiselist, pp.WellFormed policy

structure PolicyBundle.WellFormed (syntaxTable : List (CString × CString)) (policy : Policy)
    (bundle : PolicyBundle) : Prop where
  name : bundle.name ∉ reservedNames
  subtypes : ∀ subtype ∈ bundle.subtypes, subtype.WellFormed syntaxTable policy bundle

/-- No two bundles, and no two bodies but those of files, have the same name and type, and each
bundle is well formed. -/
structure Policy.WellFormed (syntaxTable : List (CString × CString)) (policy : Policy) : Prop where
  bundleNames : (policy.bundles.map fun bundle => (bundle.name, bundle.type)).Nodup
  bundles : ∀ bundle ∈ policy.bundles, bundle.WellFormed syntaxTable policy
  bodyNames : ((policy.bodies.filter fun body => body.type ≠ "file".toList).map
    fun body => (body.name, body.type)).Nodup

/-! ## Promises -/

theorem decides_policyCheckPromiseVars_loop : Decides (policyCheckPromiseVars.loop dataType conlist)
    ((conlist.filter fun cp => isDataType cp.lval).length + dataType.toList.length ≤ 1) := by
  induction conlist generalizing dataType with
  | nil =>
    refine decides_passed.congr (iff_of_true trivial ?_)
    cases dataType <;> simp
  | cons cp conlist ih =>
    rw [policyCheckPromiseVars.loop]
    cases hcp : isDataType cp.lval with
    | false =>
      rw [if_neg Bool.false_ne_true,
        List.filter_cons_of_neg (by rw [hcp]; exact Bool.false_ne_true)]
      exact ih
    | true =>
      rw [if_pos rfl, List.filter_cons_of_pos (by rw [hcp]), List.length_cons]
      cases dataType with
      | none =>
        refine (decides_passed.both ih).congr ?_
        simp only [true_and, Option.toList_some, Option.toList_none, List.length_singleton,
          List.length_nil, Nat.add_zero]
      | some type =>
        refine ((decides_report _).both ih).congr (iff_of_false (fun h => h.1) ?_)
        simp only [Option.toList_some, List.length_singleton]
        omega

theorem decides_policyCheckPromiseVars : Decides (policyCheckPromiseVars pp) pp.HasOneDataType :=
  decides_policyCheckPromiseVars_loop

theorem decides_policyCheckUsebundle :
    Decides (policyCheckUsebundle policy cp) (cp.ArityFits policy) := by
  rw [policyCheckUsebundle]
  split
  · rename_i hlval
    split
    · rename_i name args hrval
      cases hcallee : getBundle policy name "agent".toList with
      | none =>
        refine decides_passed.congr (iff_of_true trivial fun _ name' args' hrval' callee hfound =>
          ?_)
        rw [hrval] at hrval'
        cases hrval'
        rw [hcallee] at hfound
        cases hfound
      | some callee =>
        refine (decides_ensure _).congr ⟨fun hlen _ name' args' hrval' callee' hfound => ?_,
          fun hfits => ?_⟩
        · rw [hrval] at hrval'
          cases hrval'
          rw [hcallee] at hfound
          cases hfound
          exact of_decide_eq_true hlen
        · exact decide_eq_true (hfits hlval name args hrval callee hcallee)
    · rename_i hrval
      exact decides_passed.congr (iff_of_true trivial fun _ name args h =>
        absurd h (hrval name args))
  · rename_i hlval
    exact decides_passed.congr (iff_of_true trivial fun h => absurd h hlval)

theorem decides_policyCheckPromise :
    Decides (policyCheckPromise policy pp) (pp.WellFormed policy) := by
  have hmethods : Decides (policyCheckPromiseMethods policy pp)
      (∀ cp ∈ pp.conlist, cp.ArityFits policy) :=
    decides_each fun _ _ => decides_policyCheckUsebundle
  have hne : "methods".toList ≠ "vars".toList := by decide
  refine (decides_policyCheckPromiseVars.ite (hmethods.ite decides_passed)).congr
    ⟨fun h => ⟨h.1, fun hm => ?_⟩, fun h => ?_⟩
  · exact (h.2 (hm ▸ hne)).1 hm
  · exact ⟨h.vars, fun _ => ⟨h.methods, fun _ => trivial⟩⟩

/-! ## Bundles -/

theorem subTypeSyntaxLookup_iff {name : Option CString} :
    subTypeSyntaxLookup syntaxTable bundle.type name = true ↔
    ∃ subtype, name = some subtype ∧
      ((subtype, bundle.type) ∈ syntaxTable ∨ (subtype, "*".toList) ∈ syntaxTable) := by
  rw [subTypeSyntaxLookup, List.any_eq_true]
  constructor
  · rintro ⟨⟨subtype, type⟩, hmem, hentry⟩
    simp only [Bool.and_eq_true, Bool.or_eq_true, decide_eq_true_eq] at hentry
    obtain ⟨rfl, rfl | rfl⟩ := hentry
    · exact ⟨subtype, rfl, .inl hmem⟩
    · exact ⟨subtype, rfl, .inr hmem⟩
  · rintro ⟨subtype, rfl, hmem | hmem⟩
    · exact ⟨_, hmem, by simp⟩
    · exact ⟨_, hmem, by simp⟩

theorem decides_policyCheckSubType :
    Decides (policyCheckSubType syntaxTable policy bundle subtype)
      (subtype.WellFormed syntaxTable policy bundle) := by
  have hpromises : Decides (each (policyCheckPromise policy) subtype.promiselist)
      (∀ pp ∈ subtype.promiselist, pp.WellFormed policy) :=
        decides_each fun _ _ => decides_policyCheckPromise
  refine ((decides_ensure _).both ((decides_ensure _).both hpromises)).congr
    ⟨fun h => ?_, fun h => ?_⟩
  · exact ⟨subTypeSyntaxLookup_iff.mp h.2.1, h.2.2⟩
  · refine ⟨?_, subTypeSyntaxLookup_iff.mpr h.known, h.promises⟩
    obtain ⟨name, hname, -⟩ := h.known
    rw [hname]
    rfl

theorem decides_policyCheckBundle :
    Decides (policyCheckBundle syntaxTable policy bundle)
      (bundle.WellFormed syntaxTable policy) := by
  have hsubtypes : Decides (each (policyCheckSubType syntaxTable policy bundle) bundle.subtypes)
      (∀ subtype ∈ bundle.subtypes, subtype.WellFormed syntaxTable policy bundle) :=
    decides_each fun _ _ => decides_policyCheckSubType
  refine ((decides_ensure _).both hsubtypes).congr ⟨fun h => ⟨?_, h.2⟩, fun h => ⟨?_, h.subtypes⟩⟩
  · simpa using h.1
  · simpa using h.name

/-! ## Names -/

theorem decides_policyCheckBundles : Decides (eachPair policyCheckBundles policy.bundles)
    (policy.bundles.map fun bundle => (bundle.name, bundle.type)).Nodup := by
  have hpair : ∀ bp bp2,
      Decides (policyCheckBundles bp bp2) ((bp.name, bp.type) ≠ (bp2.name, bp2.type)) :=
    fun bp bp2 => (decides_ensure _).congr (by simp [imp_iff_not_or])
  exact (decides_eachPair (fun _ _ h => h.symm) hpair).congr List.pairwise_map.symm

theorem decides_policyCheckBodies : Decides (eachPair policyCheckBodies policy.bodies)
    ((policy.bodies.filter fun body => body.type ≠ "file".toList).map fun body =>
      (body.name, body.type)).Nodup := by
  have hpair : ∀ bp bp2 : Body, Decides (policyCheckBodies bp bp2)
      (bp.type ≠ "file".toList → bp2.type ≠ "file".toList →
        (bp.name, bp.type) ≠ (bp2.name, bp2.type)) := fun bp bp2 => by
    refine (decides_ensure _).congr ⟨fun h hbp _ heq => ?_, fun h => ?_⟩
    · obtain ⟨hname, htype⟩ := Prod.mk.inj heq
      rw [decide_eq_true hname, decide_eq_true htype, decide_eq_true hbp] at h
      exact Bool.false_ne_true h
    · by_cases hfile : bp.type = "file".toList
      · simp [hfile]
      · by_cases hsame : bp.name = bp2.name ∧ bp.type = bp2.type
        · exact absurd (Prod.ext hsame.1 hsame.2) (h hfile (hsame.2 ▸ hfile))
        · rw [← Bool.decide_and, decide_eq_false hsame]
          rfl
  refine (decides_eachPair (fun _ _ h hbp hbp2 => (h hbp2 hbp).symm) hpair).congr ?_
  rw [List.Nodup, List.pairwise_map, List.pairwise_filter]
  simp only [decide_eq_true_eq]

/-- `PolicyCheck` passes exactly the policies that are well formed, and appends errors exactly to
those that are not. -/
theorem policyCheck_decides (syntaxTable : List (CString × CString)) (policy : Policy) :
    Decides (policyCheck syntaxTable policy) (policy.WellFormed syntaxTable) := by
  have hbundles : Decides (each (policyCheckBundle syntaxTable policy) policy.bundles)
      (∀ bundle ∈ policy.bundles, bundle.WellFormed syntaxTable policy) :=
    decides_each fun _ _ => decides_policyCheckBundle
  refine (decides_policyCheckBundles.both (hbundles.both decides_policyCheckBodies)).congr ?_
  exact ⟨fun h => ⟨h.1, h.2.1, h.2.2⟩, fun h => ⟨h.bundleNames, h.bundles, h.bodyNames⟩⟩

end Cfengine
