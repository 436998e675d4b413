import Cfengine.Server.Access
import Cfengine.Verify.Server
import Cfengine.Verify.SplitRegex

/-!
# Which classes a client may define

`AuthorizeRoles` looks at the first classes of the list only, and one that a role permits makes up
for those that no role is about (`authorizeRoles_iff`).
-/

namespace Cfengine
open Pieces

/-- The separators of classes. -/
abbrev definesSep (c : Char) : Bool := isSep [',', ':', ';'] c

/-- The part of a list that ends with its last separator. -/
def closedText (sp : CString) : CString := sp.rdropWhile (!definesSep ·)

/-! ## The list of classes -/

theorem closedText_eq_nil {sp : CString} (h : ∀ c ∈ sp, definesSep c = false) :
    closedText sp = [] := by
  apply List.rdropWhile_eq_nil_iff.mpr
  intro c hc
  rw [h c hc]
  rfl

theorem closedText_append_cons {node rest : CString} {c : Char} (hc : definesSep c = true) :
    closedText (node ++ c :: rest) = node ++ c :: closedText rest := by
  induction rest using List.reverseRecOn with
  | nil =>
    apply List.rdropWhile_concat_neg
    simp [hc]
  | append_singleton rest d ih =>
    have hassoc : node ++ c :: (rest ++ [d]) = (node ++ c :: rest) ++ [d] := by simp
    rw [closedText] at ih
    rw [closedText, closedText, hassoc, List.rdropWhile_concat, List.rdropWhile_concat, ih]
    split
    · rfl
    · exact hassoc.symm

namespace splitDefines

/-- The classes are those of the list, as long as there is room. A class that is too long for the
buffer is cut off if it is the last one. -/
theorem loop_eq {fuel room : Nat} {sp : CString} (hfuel : sp.length < fuel) :
    loop fuel room sp =
      if ((pieces definesSep (closedText sp)).take room).any (cfMaxVarSize ≤ ·.length) then
        .error .bufferOverflow
      else .ok (((pieces definesSep sp).take room).map (·.take (cfMaxVarSize - 1))) := by
  induction fuel generalizing room sp with
  | zero => omega
  | succ fuel ih =>
    rw [loop]
    cases room with
    | zero => simp
    | succ room =>
      rw [if_neg (Nat.succ_ne_zero room)]
      have hnode : ∀ c ∈ sp.takeWhile (· ∉ [',', ':', ';']), definesSep c = false := by
        intro c hc
        simpa using List.mem_takeWhile_imp hc
      have hsp : sp.takeWhile (· ∉ [',', ':', ';']) ++ sp.dropWhile (· ∉ [',', ':', ';']) = sp :=
        List.takeWhile_append_dropWhile
      have hhead := List.head?_dropWhile_not (fun c => decide (c ∉ [',', ':', ';'])) sp
      generalize sp.takeWhile (· ∉ [',', ':', ';']) = node at *
      cases hrest : sp.dropWhile (· ∉ [',', ':', ';']) with
      | nil =>
        rw [hrest, List.append_nil] at hsp
        subst hsp
        rw [closedText_eq_nil hnode]
        simp only [pieces_nil, List.take_nil, List.any_nil, Bool.false_eq_true, if_false]
        cases node with
        | nil => rfl
        | cons c node =>
          rw [pieces_eq_singleton (List.cons_ne_nil c node) hnode]
          simp
      | cons c rest =>
        rw [hrest] at hsp hhead
        have hc : definesSep c = true := by simpa [imp_iff_not_or] using hhead
        subst hsp
        have hlen : rest.length < fuel := by
          simp only [List.length_append, List.length_cons] at hfuel
          omega
        rw [closedText_append_cons hc, pieces_append_cons hc, pieces_append_cons hc]
        simp only
        rw [ih hlen, ih hlen]
        cases node with
        | nil =>
          rw [if_neg (by decide), if_pos rfl]
          rfl
        | cons d node =>
          rw [pieces_eq_singleton (List.cons_ne_nil d node) hnode, if_neg (List.cons_ne_nil d node)]
          simp only [List.singleton_append, List.take_succ_cons, List.any_cons, List.map_cons,
            Nat.add_sub_cancel]
          by_cases hlong : (d :: node).length ≥ cfMaxVarSize
          · rw [if_pos hlong, decide_eq_true hlong, Bool.true_or, if_pos rfl]
          · have htake : (d :: node).take (cfMaxVarSize - 1) = d :: node :=
              List.take_of_length_le (by omega)
            rw [if_neg hlong, htake, decide_eq_false hlong, Bool.false_or]
            split
            · rfl
            · rfl

end splitDefines

/-- No class that a separator follows is too long for the buffer. -/
def FitsDefines (sp : CString) : Prop :=
  ∀ item ∈ (pieces definesSep (closedText sp)).take 99, item.length < cfMaxVarSize

/-- The classes that are looked at. -/
def checkedDefines (sp : CString) : List CString :=
  ((pieces definesSep sp).take 99).map (·.take (cfMaxVarSize - 1))

theorem splitDefines_eq_ok_iff {sp : CString} {defines : List CString} :
    splitDefines sp = .ok defines ↔ FitsDefines sp ∧ defines = checkedDefines sp := by
  rw [splitDefines, splitDefines.loop_eq (Nat.lt_succ_self _)]
  cases hlong : ((pieces definesSep (closedText sp)).take 99).any (cfMaxVarSize ≤ ·.length) with
  | true =>
    have hfits : ¬ FitsDefines sp := by
      obtain ⟨item, hitem, hlen⟩ := List.any_eq_true.mp hlong
      intro h
      exact absurd (h item hitem) (Nat.not_lt.mpr (of_decide_eq_true hlen))
    simp [hfits]
  | false =>
    have hfits : FitsDefines sp := by
      intro item hitem
      have := List.any_eq_false.mp hlong item hitem
      simpa using this
    rw [if_neg Bool.false_ne_true, Except.ok.injEq, and_iff_right hfits]
    exact eq_comm

/-! ## The roles -/

variable {env : ServerEnv} {fullTextMatch : CString → CString → Bool}
  {conn : ServerConnectionState} {roles : List Auth} {item args : CString} {permitted : Bool}

/-- A role is about the class. -/
def CoversRole (fullTextMatch : CString → CString → Bool) (roles : List Auth) (item : CString) :
    Bool :=
  roles.any fun ap => fullTextMatch ap.path item

/-- A role is about the class and does not admit the caller. -/
def RefusesRole (env : ServerEnv) (fullTextMatch : CString → CString → Bool)
    (conn : ServerConnectionState) (roles : List Auth) (item : CString) : Bool :=
  roles.any fun ap => fullTextMatch ap.path item && !isCallerIn env ap.accesslist conn

namespace authorizeRoles

theorem roles_eq : authorizeRoles.roles env fullTextMatch conn item roles permitted =
    if RefusesRole env fullTextMatch conn roles item then none
    else some (permitted || CoversRole fullTextMatch roles item) := by
  induction roles generalizing permitted with
  | nil => simp [authorizeRoles.roles, RefusesRole, CoversRole]
  | cons ap roles ih =>
    rw [RefusesRole, CoversRole] at ih
    rw [authorizeRoles.roles, RefusesRole, CoversRole, List.any_cons, List.any_cons, ih, ih]
    cases fullTextMatch ap.path item with
    | false => simp
    | true =>
      cases isCallerIn env ap.accesslist conn with
      | false => simp
      | true => simp

theorem loop_eq {defines : List CString} :
    loop env fullTextMatch roles conn defines permitted =
      (!defines.any (RefusesRole env fullTextMatch conn roles) &&
        (permitted || defines.any (CoversRole fullTextMatch roles))) := by
  induction defines generalizing permitted with
  | nil => simp [loop]
  | cons item defines ih =>
    rw [loop, roles_eq, List.any_cons, List.any_cons]
    cases RefusesRole env fullTextMatch conn roles item with
    | true => rfl
    | false => simp [ih, Bool.or_assoc]

end authorizeRoles

/-- Every class is covered by a role, and every role that covers one admits the caller. -/
def AuthorizesEach (env : ServerEnv) (fullTextMatch : CString → CString → Bool)
    (conn : ServerConnectionState) (roles : List Auth) (classes : List CString) : Prop :=
  ∀ item ∈ classes, (∃ ap ∈ roles, fullTextMatch ap.path item = true) ∧
    ∀ ap ∈ roles, fullTextMatch ap.path item = true → isCallerIn env ap.accesslist conn = true

theorem authorizesEach_iff {classes : List CString} :
    AuthorizesEach env fullTextMatch conn roles classes ↔
      ∀ item ∈ classes, CoversRole fullTextMatch roles item = true ∧
        RefusesRole env fullTextMatch conn roles item = false := by
  simp only [AuthorizesEach, CoversRole, RefusesRole, List.any_eq_true, List.any_eq_false,
    Bool.and_eq_true, Bool.not_eq_true', not_and, Bool.not_eq_false]

theorem authorizeRoles_eq_ok_iff :
    authorizeRoles env fullTextMatch roles conn args = .ok permitted ↔
      FitsDefines (definesOf args) ∧ permitted =
        (!(checkedDefines (definesOf args)).any (RefusesRole env fullTextMatch conn roles) &&
          (checkedDefines (definesOf args)).any (CoversRole fullTextMatch roles)) := by
  rw [authorizeRoles]
  cases hsplit : splitDefines (definesOf args) with
  | error f =>
    apply iff_of_false
    · intro h
      cases h
    · intro ⟨hfits, _⟩
      have hok := splitDefines_eq_ok_iff.mpr ⟨hfits, rfl⟩
      rw [hsplit] at hok
      cases hok
  | ok defines =>
    obtain ⟨hfits, rfl⟩ := splitDefines_eq_ok_iff.mp hsplit
    rw [and_iff_right hfits, Except.map, authorizeRoles.loop_eq, Bool.false_or, Except.ok.injEq]
    exact eq_comm

/-- Role activation is authorised class by class, unless a class that a role permits is among the
first ones and none of these is refused. -/
theorem authorizeRoles_iff :
    (∃ permitted, authorizeRoles env fullTextMatch roles conn args = .ok permitted ∧
        (permitted = true →
          AuthorizesEach env fullTextMatch conn roles (pieces definesSep (definesOf args)))) ↔
      FitsDefines (definesOf args) ∧
        ((checkedDefines (definesOf args)).any (CoversRole fullTextMatch roles) = true →
          (checkedDefines (definesOf args)).any (RefusesRole env fullTextMatch conn roles) = false →
          ∀ item ∈ pieces definesSep (definesOf args),
            CoversRole fullTextMatch roles item = true ∧
              RefusesRole env fullTextMatch conn roles item = false) := by
  rw [authorizesEach_iff]
  constructor
  · intro ⟨permitted, hok, h⟩
    obtain ⟨hfits, hpermitted⟩ := authorizeRoles_eq_ok_iff.mp hok
    refine ⟨hfits, ?_⟩
    intro hcovers hrefuses
    apply h
    rw [hpermitted, hcovers, hrefuses]
    rfl
  · intro ⟨hfits, h⟩
    refine ⟨_, authorizeRoles_eq_ok_iff.mpr ⟨hfits, rfl⟩, ?_⟩
    intro hpermitted
    rw [Bool.and_eq_true, Bool.not_eq_true'] at hpermitted
    exact h hpermitted.2 hpermitted.1

/-- Nobody may define `root`, and it is defined together with `web`. -/
theorem authorizeRoles_uncovered :
    let role : Auth := ⟨"web".toList, ["10.0.0.2".toList], [], 0, 0, 0, 0⟩
    let authorize args := authorizeRoles closedServer (fun pattern text => pattern = text) [role]
      verifiedConnection args
    authorize "-Dweb,root".toList = .ok true ∧ authorize "-Droot".toList = .ok false ∧
      "root".toList ∈ pieces definesSep (definesOf "-Dweb,root".toList) ∧
      ¬ AuthorizesEach closedServer (fun pattern text => pattern = text) verifiedConnection [role]
        (pieces definesSep (definesOf "-Dweb,root".toList)) := by
  intro role authorize
  have hmem : "root".toList ∈ pieces definesSep (definesOf "-Dweb,root".toList) := by decide
  refine ⟨rfl, rfl, hmem, ?_⟩
  intro h
  obtain ⟨⟨ap, hap, hpath⟩, _⟩ := h _ hmem
  rw [List.mem_singleton.mp hap] at hpath
  cases of_decide_eq_true hpath

end Cfengine
