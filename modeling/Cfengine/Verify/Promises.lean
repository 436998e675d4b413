import Cfengine.Promises

/-!
# What a copy does to the promise

The arguments of a reference to a body are written to where a function call among them is
evaluated, or where the syntax checker rewrites a string. `deRefCopyPromise_leaves_iff` says that
the promise is left alone, and that later copies are not changed, exactly if no argument is written
to.
-/

namespace Cfengine
open Accum

namespace PolicyEnv

variable {env : PolicyEnv} {bodies : List Body} {fuel : Nat} {ns scopeid : CString}
  {s s' : VarState} {pp : Promise}

/-! ## Arguments -/

/-- A string is replaced by another one, or the elements of a list by others. -/
def Rewritten : Rval → Rval → Prop
  | .scalar item, .scalar item' => item' ≠ item
  | .list l, .list l' => l' ≠ l
  | _, _ => False

/-- The syntax checker comes to look for lists in a value that is passed to `AddVariableHash`, and
rewrites it. -/
structure RewritesInPlace (env : PolicyEnv) (scopeid : CString) (s : VarState) (lval : CString)
    (rval : Rval) : Prop where
  agent : s.agentIsCommon = true
  context : s.contextId ≠ "this".toList
  value : isNullItem rval = false
  name : lval.length ≤ cfMaxVarSize
  scope : (getScope s.vscope scopeid).isNone = false
  rewritten : Rewritten rval (env.mapIteratorsFromRval s rval)

/-- An argument is written to when its turn comes. -/
def WritesArg (env : PolicyEnv) (scopeid : CString) (s : VarState) (arg : Rval × CString) : Prop :=
  match arg.1 with
  | .fncall name args =>
    (env.evaluateFunctionCall s name args).1 ≠ none ∨
      (env.evaluateFunctionCall s name args).2.agentIsCommon = true ∧ appendedLists args ≠ args
  | rval => RewritesInPlace env scopeid s arg.2 rval

theorem passedRval_ne_iff {lval : CString} {rval : Rval} :
    env.passedRval s scopeid lval rval ≠ rval ↔ RewritesInPlace env scopeid s lval rval := by
  rw [passedRval.eq_def]
  by_cases hrefused : (isNullItem rval || decide (lval.length > cfMaxVarSize) ||
      (getScope s.vscope scopeid).isNone) = true
  · rw [if_pos hrefused]
    apply iff_of_false (not_not_intro rfl)
    intro h
    rw [h.value, h.scope, decide_eq_false (Nat.not_lt.mpr h.name)] at hrefused
    cases hrefused
  rw [if_neg hrefused]
  by_cases hchecked : s.agentIsCommon = true ∧ s.contextId ≠ "this".toList
  · have hmapped : s.mappedRval env.mapIteratorsFromRval rval = env.mapIteratorsFromRval s rval :=
      if_pos (by simpa using hchecked)
    have hrewrites : RewritesInPlace env scopeid s lval rval ↔
        Rewritten rval (env.mapIteratorsFromRval s rval) := by
      refine ⟨fun h => h.rewritten, fun h => ?_⟩
      simp only [Bool.or_eq_true, decide_eq_true_eq, not_or, Bool.not_eq_true] at hrefused
      exact ⟨hchecked.1, hchecked.2, hrefused.1.1, Nat.le_of_not_lt hrefused.1.2, hrefused.2, h⟩
    rw [hmapped, hrewrites]
    generalize env.mapIteratorsFromRval s rval = mapped
    cases rval <;> cases mapped <;> simp [Rewritten]
  · have hmapped : s.mappedRval env.mapIteratorsFromRval rval = rval :=
      if_neg (by simpa using hchecked)
    rw [hmapped]
    apply iff_of_false
    · cases rval <;> simp
    · exact fun h => hchecked ⟨h.agent, h.context⟩

theorem passedRval_scalar {lval item : CString} :
    ∃ item', env.passedRval s scopeid lval (.scalar item) = .scalar item' := by
  rw [passedRval.eq_def]
  generalize s.mappedRval env.mapIteratorsFromRval (.scalar item) = mapped
  by_cases hreached : (isNullItem (.scalar item) || decide (lval.length > cfMaxVarSize) ||
      (getScope s.vscope scopeid).isNone) = true
  · rw [if_pos hreached]
    exact ⟨item, rfl⟩
  · rw [if_neg hreached]
    cases mapped with
    | scalar item' => exact ⟨item', rfl⟩
    | list => exact ⟨item, rfl⟩
    | fncall => exact ⟨item, rfl⟩

theorem mapBodyArg_eq_iff {arg : Rval × CString} {give : Rval}
    (h : env.mapBodyArg scopeid s arg = some (give, s')) :
    give = arg.1 ↔ ¬ WritesArg env scopeid s arg := by
  obtain ⟨rpg, lval⟩ := arg
  rw [mapBodyArg] at h
  obtain ⟨dtg, _, h⟩ := Option.bind_eq_some_iff.mp h
  obtain ⟨dtt, _, h⟩ := Option.bind_eq_some_iff.mp h
  cases rpg with
  | scalar item =>
    obtain ⟨s₁, _, h⟩ := Option.bind_eq_some_iff.mp h
    cases h
    exact passedRval_ne_iff.not_right
  | list l =>
    obtain ⟨s₁, _, h⟩ := Option.bind_eq_some_iff.mp h
    cases h
    exact passedRval_ne_iff.not_right
  | fncall name args =>
    simp only at h
    change _ ↔ ¬ ((env.evaluateFunctionCall s name args).1 ≠ none ∨
      (env.evaluateFunctionCall s name args).2.agentIsCommon = true ∧ appendedLists args ≠ args)
    generalize env.evaluateFunctionCall s name args = result at h ⊢
    obtain ⟨res, s₁⟩ := result
    cases res with
    | none =>
      simp only at h ⊢
      cases hagent : s₁.agentIsCommon with
      | false =>
        rw [hagent] at h
        cases h
        simp
      | true =>
        rw [hagent] at h
        obtain ⟨s₂, _, h⟩ := Option.bind_eq_some_iff.mp h
        cases h
        simp
    | some value =>
      apply iff_of_false
      · cases value with
        | scalar item =>
          obtain ⟨s₂, _, h⟩ := Option.bind_eq_some_iff.mp h
          cases h
          obtain ⟨item', hitem⟩ := @passedRval_scalar env scopeid s₁ lval item
          rw [hitem]
          exact Rval.noConfusion
        | list l =>
          obtain ⟨s₂, _, h⟩ := Option.bind_eq_some_iff.mp h
          cases h
          exact Rval.noConfusion
      · simp

theorem mapBodyArgs_eq_iff {give give' : List Rval} {take : List CString}
    (h : env.mapBodyArgs s scopeid give take = some (give', s')) :
    give' = give ↔ (give.length = take.length →
      ∀ t arg, Meets (env.mapBodyArg scopeid) s (give.zip take) t arg →
        ¬ WritesArg env scopeid t arg) := by
  rw [mapBodyArgs] at h
  split at h
  · rename_i hlen
    cases h
    exact iff_of_true rfl (fun heq => absurd heq hlen)
  · rename_i hlen
    have hlen : give.length = take.length := not_not.mp hlen
    have hmap := mapAccum_map_eq_iff (f := id) (g := Prod.fst) h
    rw [List.map_id, List.map_fst_zip hlen.le] at hmap
    rw [hmap]
    constructor
    · intro hkept _ t arg hmeets
      obtain ⟨give₁, t', hstep⟩ := Meets.step_eq_some h hmeets
      exact (mapBodyArg_eq_iff hstep).mp (hkept t arg give₁ t' hmeets hstep)
    · intro hwrites t arg give₁ t' hmeets hstep
      exact (mapBodyArg_eq_iff hstep).mpr (hwrites hlen t arg hmeets)

/-! ## Constraints -/

/-- A reference to a body, of which an argument is written to. -/
def WritesConstraint (env : PolicyEnv) (bodies : List Body) (ns : CString) (s : VarState)
    (cp : Constraint) : Prop :=
  ∃ name args bp, cp.rval = .fncall name args ∧ isBody bodies ns name = some bp ∧
    args.length = bp.args.length ∧
    ∃ t arg, Meets (env.mapBodyArg bodyScope) (newScope s bodyScope) (args.zip bp.args) t arg ∧
      WritesArg env bodyScope t arg

theorem not_writesConstraint_of_bodyOf {cp : Constraint} (h : bodyOf bodies ns cp = none) :
    ¬ WritesConstraint env bodies ns s cp := by
  intro ⟨name, args, bp, hrval, hbody, _⟩
  rw [bodyOf, hrval] at h
  cases h.symm.trans hbody

theorem not_writesConstraint_of_nil {cp : Constraint} {name : CString}
    (h : cp.rval = .fncall name []) : ¬ WritesConstraint env bodies ns s cp := by
  intro ⟨name', args, bp, hrval, _, _, t, arg, hmeets, _⟩
  cases h.symm.trans hrval
  cases hmeets

theorem deRefConstraint_eq_iff {cp cp' : Constraint} {conlist : List Constraint}
    (h : env.deRefConstraint fuel bodies ns s cp = some ((conlist, cp'), s')) :
    cp' = cp ↔ ¬ WritesConstraint env bodies ns s cp := by
  rw [deRefConstraint] at h
  split at h
  · rename_i hbody
    cases h
    exact iff_of_true rfl (not_writesConstraint_of_bodyOf hbody)
  rename_i bp hbody
  simp only at h
  split at h
  · split at h
    · rename_i name arg args hrval
      rw [bodyOf, hrval] at hbody
      obtain ⟨⟨give, s₁⟩, hmap, h⟩ := Option.bind_eq_some_iff.mp h
      obtain ⟨attributes, _, h⟩ := Option.bind_eq_some_iff.mp h
      cases h
      have hrval' : { cp with rval := .fncall name give } = cp ↔ give = arg :: args := by
        obtain ⟨lval, rval, classes, referencesBody⟩ := cp
        simp only at hrval
        simp [hrval]
      rw [hrval', mapBodyArgs_eq_iff hmap]
      constructor
      · intro hkept ⟨name', args', bp', hrval₁, hbody₁, hlen, t, x, hmeets, hwrites⟩
        cases hrval.symm.trans hrval₁
        cases hbody.symm.trans hbody₁
        exact hkept hlen t x hmeets hwrites
      · intro hwrites hlen t x hmeets hx
        exact hwrites ⟨name, _, bp, hrval, hbody, hlen, t, x, hmeets, hx⟩
    · rename_i hnocall
      obtain ⟨attributes, _, h⟩ := Option.bind_eq_some_iff.mp h
      cases h
      apply iff_of_true rfl
      intro hwrites
      obtain ⟨name, args, _, hrval, _⟩ := id hwrites
      cases args with
      | nil => exact not_writesConstraint_of_nil hrval hwrites
      | cons arg args => exact hnocall name arg args hrval
  · rename_i hargs
    have hargs : bp.args = [] := not_not.mp hargs
    have hnone : ¬ WritesConstraint env bodies ns s cp := by
      intro hwrites
      obtain ⟨name, args, bp', hrval, hbody', hlen, _⟩ := id hwrites
      rw [bodyOf, hrval] at hbody
      cases hbody.symm.trans hbody'
      rw [hargs] at hlen
      rw [List.length_eq_zero_iff.mp hlen] at hrval
      exact not_writesConstraint_of_nil hrval hwrites
    split at h
    · cases h
      exact iff_of_true rfl hnone
    · cases h
      exact iff_of_true rfl hnone

/-! ## Promises -/

/-- The copy leaves the promise as it is, and in every other context the next copy is what it would
have been without this one. -/
def Leaves (bodies : List Body) (pp : Promise) (out : DeRefCopy) : Prop :=
  out.pp = pp ∧ ∀ (env : PolicyEnv) fuel s,
    (env.deRefCopyPromise fuel bodies s out.pp).map DeRefCopy.pcopy =
      (env.deRefCopyPromise fuel bodies s pp).map DeRefCopy.pcopy

/-- **When a copy leaves the promise alone.** -/
theorem deRefCopyPromise_leaves_iff {out : DeRefCopy}
    (h : env.deRefCopyPromise fuel bodies s pp = some out) :
    Leaves bodies pp out ↔
      ∀ t cp, Meets (env.deRefConstraint fuel bodies pp.namespace) s pp.conlist t cp →
        ¬ WritesConstraint env bodies pp.namespace t cp := by
  have hkept : Leaves bodies pp out ↔ out.pp = pp := by
    constructor
    · exact And.left
    · intro heq
      rw [Leaves, heq]
      exact ⟨rfl, fun _ _ _ => rfl⟩
  rw [hkept]
  rw [deRefCopyPromise] at h
  simp only at h
  split at h
  · cases h
  obtain ⟨⟨l, s₁⟩, hrun, h⟩ := Option.map_eq_some_iff.mp h
  subst h
  have hconlist : { pp with conlist := l.map Prod.snd } = pp ↔
      l.map Prod.snd = pp.conlist.map id := by
    rw [List.map_id]
    constructor
    · exact congrArg Promise.conlist
    · intro heq
      rw [heq]
  rw [hconlist, mapAccum_map_eq_iff hrun]
  constructor
  · intro hsame t cp hmeets
    obtain ⟨⟨conlist, cp'⟩, t', hstep⟩ := Meets.step_eq_some hrun hmeets
    exact (deRefConstraint_eq_iff hstep).mp (hsame t cp (conlist, cp') t' hmeets hstep)
  · intro hwrites t cp b t' hmeets hstep
    exact (deRefConstraint_eq_iff hstep).mpr (hwrites t cp hmeets)

/-! ## A function call as an argument -/

/-- `user` is the value of `getuser()`. -/
def userEnv (user : CString) : PolicyEnv where
  getHash := oatHash
  expandScalar := fun _ _ => none
  mapIteratorsFromRval := fun _ rval => rval
  cellText := fun _ => []
  evaluateFunctionCall := fun s name _ =>
    (if name = "getuser".toList then some (.scalar user) else none, s)
  functionReturnType := fun _ => .str

/-- No scopes. -/
def noScopes : VarState := { vscope := [], contextId := "main".toList, agentIsCommon := false }

/-- `body perms mog(user) { owners => "$(user)"; }` -/
def mogBody : Body where
  type := "perms".toList
  name := "mog".toList
  args := ["user".toList]
  conlist :=
    [{ lval := "owners".toList, rval := .scalar "$(user)".toList, classes := "any".toList,
       referencesBody := false }]

/-- A promise with the constraints `conlist`. -/
def filePromise (conlist : List Constraint) : Promise where
  promiser := "/etc/motd".toList
  promisee := none
  classes := some "any".toList
  bundletype := "agent".toList
  bundle := "main".toList
  «namespace» := "default".toList
  agentsubtype := "files".toList
  ref := none
  conlist := conlist

/-- `perms => mog(arg)` -/
def mogConstraint (arg : Rval) : Constraint where
  lval := "perms".toList
  rval := .fncall "mog".toList [arg]
  classes := "any".toList
  referencesBody := true

theorem deRefCopyPromise_leaves_iff_scalar :
    ∃ out, (userEnv []).deRefCopyPromise 1 [mogBody] noScopes
        (filePromise [mogConstraint (.scalar "root".toList)]) = some out ∧
      (Leaves [mogBody] (filePromise [mogConstraint (.scalar "root".toList)]) out ↔
        ∀ t cp, Meets ((userEnv []).deRefConstraint 1 [mogBody] "default".toList) noScopes
          [mogConstraint (.scalar "root".toList)] t cp →
            ¬ WritesConstraint (userEnv []) [mogBody] "default".toList t cp) :=
  ⟨_, rfl, deRefCopyPromise_leaves_iff rfl⟩

/-- The value that `getuser()` had for the first copy is written to the promise, and the next copy
has it too. -/
theorem deRefCopyPromise_evaluated :
    let call := filePromise [mogConstraint (.fncall "getuser".toList [])]
    let copy (user : CString) (pp : Promise) :=
      (userEnv user).deRefCopyPromise 1 [mogBody] noScopes pp
    ∃ out, copy "alice".toList call = some out ∧
      out.pp = filePromise [mogConstraint (.scalar "alice".toList)] ∧
      (copy "bob".toList out.pp).map DeRefCopy.pcopy ≠
        (copy "bob".toList call).map DeRefCopy.pcopy ∧
      ¬ Leaves [mogBody] call out := by
  intro call copy
  have hne : (copy "bob".toList (filePromise [mogConstraint (.scalar "alice".toList)])).map
      DeRefCopy.pcopy ≠ (copy "bob".toList call).map DeRefCopy.pcopy := by
    intro heq
    have hconlist := congrArg (Option.map fun pp => pp.conlist.map Constraint.rval) heq
    cases hconlist
  refine ⟨_, rfl, rfl, hne, ?_⟩
  intro h
  exact hne (h.2 (userEnv "bob".toList) 1 noScopes)

end PolicyEnv

end Cfengine
