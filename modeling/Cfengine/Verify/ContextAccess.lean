import Cfengine.Server.Access
import Cfengine.Verify.Server

/-!
# Contexts are decided one by one

The loop of `ContextAccessControl` keeps the decision about the candidate before. It makes a
difference for a candidate that is left open, about which no rule decides
(`contextAccessControl_eq_filter_iff`).
-/

namespace Cfengine

variable {env : ServerEnv} {fullTextMatch : CString → CString → Bool} {encrypt : Bool}
  {vadmits vdenies : List ContextAuth} {conn conn' : ServerConnectionState} {name : CString}
  {access : Bool} {classes : List CString} {input : CString}

/-- The same peer: what the access lists are matched with. -/
def SamePeer (conn conn' : ServerConnectionState) : Prop :=
  conn'.ipaddr = conn.ipaddr ∧ conn'.hostname = conn.hostname

theorem SamePeer.isHostIn (h : SamePeer conn conn') (list : List CString) :
    env.isHostIn list conn' = env.isHostIn list conn := by
  rw [ServerEnv.isHostIn, ServerEnv.isHostIn, h.1, h.2]

theorem SamePeer.denies (h : SamePeer conn conn') :
    contextAccessControl.denies env vdenies name conn' =
      contextAccessControl.denies env vdenies name conn := by
  rw [contextAccessControl.denies, contextAccessControl.denies]
  simp only [h.isHostIn]

/-! ## Rules -/

/-- The rules that match the context. -/
def contextRules (fullTextMatch : CString → CString → Bool) (vadmits : List ContextAuth)
    (name : CString) : List ContextAuth :=
  vadmits.filter fun ap => fullTextMatch ap.path name

/-- The rule wants an encrypted connection. -/
def ContextAuth.wantsEncrypt (encrypt : Bool) (ap : ContextAuth) : Bool :=
  ap.classpattern && (!encrypt && ap.encrypt.toInt = 1)

/-- A rule admits the host, and from there on all are for patterns. -/
def admitsHost (env : ServerEnv) (conn : ServerConnectionState) (rules : List ContextAuth) : Bool :=
  rules.tails.any fun tail =>
    tail.head?.any (env.isHostIn ·.accesslist conn) && tail.all ContextAuth.classpattern

/-- The context is granted if it is the only one. -/
def GrantsContext (env : ServerEnv) (fullTextMatch : CString → CString → Bool) (encrypt : Bool)
    (vadmits vdenies : List ContextAuth) (conn : ServerConnectionState) (name : CString) : Bool :=
  let rules := contextRules fullTextMatch vadmits name
  !rules.any (ContextAuth.wantsEncrypt encrypt) && admitsHost env conn rules &&
    !contextAccessControl.denies env vdenies name conn

/-- No rule decides about the context: each that matches is for patterns and does not admit the
host. -/
def LeftOpen (env : ServerEnv) (fullTextMatch : CString → CString → Bool) (encrypt : Bool)
    (vadmits vdenies : List ContextAuth) (conn : ServerConnectionState) (name : CString) : Bool :=
  let rules := contextRules fullTextMatch vadmits name
  !rules.any (ContextAuth.wantsEncrypt encrypt) && rules.all ContextAuth.classpattern &&
    !rules.any (env.isHostIn ·.accesslist conn) &&
    !contextAccessControl.denies env vdenies name conn

section
variable {ap : ContextAuth} {rules : List ContextAuth}

theorem contextRules_cons : contextRules fullTextMatch (ap :: vadmits) name =
    if fullTextMatch ap.path name then ap :: contextRules fullTextMatch vadmits name
    else contextRules fullTextMatch vadmits name :=
  List.filter_cons

theorem admitsHost_cons : admitsHost env conn (ap :: rules) =
    (env.isHostIn ap.accesslist conn && (ap.classpattern && rules.all ContextAuth.classpattern) ||
      admitsHost env conn rules) := by
  rw [admitsHost, List.tails_cons, List.any_cons, List.all_cons]
  rfl

theorem admitsHost_of_all (h : rules.all ContextAuth.classpattern = true) :
    admitsHost env conn rules = rules.any (env.isHostIn ·.accesslist conn) := by
  induction rules with
  | nil => rfl
  | cons ap rules ih =>
    rw [List.all_cons, Bool.and_eq_true] at h
    rw [admitsHost_cons, List.any_cons, h.1, h.2, ih h.2]
    simp

end

namespace contextAccessControl

/-! ## One candidate -/

theorem samePeer_admits (h : SamePeer conn conn') :
    SamePeer conn (admits env fullTextMatch encrypt name vadmits access conn').2 := by
  induction vadmits generalizing access conn' with
  | nil => exact h
  | cons ap rest ih =>
    rw [admits]
    split
    · exact ih h
    split
    · exact ih h
    split
    · exact h
    · exact ih ⟨h.1, h.2⟩

/-- What was decided before is kept if all rules that match are for patterns. -/
theorem admits_eq (h : SamePeer conn conn') :
    let rules := contextRules fullTextMatch vadmits name
    (admits env fullTextMatch encrypt name vadmits access conn').1 =
      (!rules.any (ContextAuth.wantsEncrypt encrypt) &&
        (admitsHost env conn rules || access && rules.all ContextAuth.classpattern)) := by
  induction vadmits generalizing access conn' with
  | nil => simp [admits, contextRules, admitsHost]
  | cons ap rest ih =>
    have hsame : SamePeer conn { conn' with
        maproot := conn'.maproot || env.isHostIn ap.maproot conn' } := ⟨h.1, h.2⟩
    simp only at ih ⊢
    rw [admits, h.isHostIn, contextRules_cons]
    cases fullTextMatch ap.path name with
    | false => exact ih h
    | true =>
      rw [if_pos rfl, List.any_cons, List.all_cons, admitsHost_cons, ContextAuth.wantsEncrypt]
      cases ap.classpattern with
      | false => simp [ih h]
      | true =>
        cases hencrypt : !encrypt && decide (ap.encrypt.toInt = 1) with
        | true => simp
        | false =>
          simp only [Bool.not_true, Bool.false_eq_true, if_false, Bool.and_false, Bool.true_and,
            Bool.false_or]
          rw [ih hsame]
          cases env.isHostIn ap.accesslist conn with
          | false => simp
          | true =>
            cases (contextRules fullTextMatch rest name).all ContextAuth.classpattern with
            | false => simp
            | true => simp

theorem access_eq (h : SamePeer conn conn') :
    ((admits env fullTextMatch encrypt name vadmits access conn').1 &&
        !denies env vdenies name conn') =
      (GrantsContext env fullTextMatch encrypt vadmits vdenies conn name ||
        access && LeftOpen env fullTextMatch encrypt vadmits vdenies conn name) := by
  rw [h.denies, admits_eq h, GrantsContext, LeftOpen]
  cases hall : (contextRules fullTextMatch vadmits name).all ContextAuth.classpattern with
  | false => simp
  | true =>
    rw [admitsHost_of_all hall]
    cases (contextRules fullTextMatch vadmits name).any (env.isHostIn ·.accesslist conn) with
    | false => simp [Bool.and_assoc, Bool.and_left_comm]
    | true => simp

/-- A candidate that is left open is not granted. -/
theorem grantsContext_of_leftOpen
    (h : LeftOpen env fullTextMatch encrypt vadmits vdenies conn name = true) :
    GrantsContext env fullTextMatch encrypt vadmits vdenies conn name = false := by
  simp only [LeftOpen, Bool.and_eq_true, Bool.not_eq_true'] at h
  obtain ⟨⟨⟨_, hall⟩, hhost⟩, _⟩ := h
  simp only [GrantsContext]
  rw [admitsHost_of_all hall, hhost, Bool.and_false, Bool.false_and]

/-! ## All candidates -/

theorem loop_cons {candidates : List CString} (h : SamePeer conn conn') :
    ∃ conn'', SamePeer conn conn'' ∧
      let access' := GrantsContext env fullTextMatch encrypt vadmits vdenies conn name ||
        access && LeftOpen env fullTextMatch encrypt vadmits vdenies conn name
      (loop env fullTextMatch encrypt vadmits vdenies (name :: candidates) access conn').1 =
        if access' then
          name :: (loop env fullTextMatch encrypt vadmits vdenies candidates access' conn'').1
        else (loop env fullTextMatch encrypt vadmits vdenies candidates access' conn'').1 := by
  have hsame : SamePeer conn (admits env fullTextMatch encrypt name vadmits access conn').2 :=
    samePeer_admits h
  refine ⟨_, hsame, ?_⟩
  have hdenies : denies env vdenies name
    (admits env fullTextMatch encrypt name vadmits access conn').2 =
      denies env vdenies name conn' := hsame.denies.trans h.denies.symm
  rw [loop]
  simp only [hdenies]
  rw [access_eq h]

/-- At least the granted candidates are found. -/
theorem length_filter_le_loop {candidates : List CString} (h : SamePeer conn conn') :
    (candidates.filter (GrantsContext env fullTextMatch encrypt vadmits vdenies conn)).length ≤
      (loop env fullTextMatch encrypt vadmits vdenies candidates access conn').1.length := by
  induction candidates generalizing access conn' with
  | nil => exact Nat.zero_le _
  | cons name candidates ih =>
    obtain ⟨conn'', hsame, hloop⟩ :=
      @loop_cons env fullTextMatch encrypt vadmits vdenies conn conn' name
      access candidates h
    simp only at hloop
    rw [hloop, List.filter_cons]
    cases hgrants : GrantsContext env fullTextMatch encrypt vadmits vdenies conn name with
    | true => simpa using ih hsame
    | false =>
      rw [if_neg Bool.false_ne_true]
      split
      · exact Nat.le_succ_of_le (ih hsame)
      · exact ih hsame

/-- The granted candidates are found, and no others, unless one that is left open comes behind one
that is granted. -/
theorem loop_eq_filter_iff {candidates : List CString} (h : SamePeer conn conn') :
    (loop env fullTextMatch encrypt vadmits vdenies candidates access conn').1 =
        candidates.filter (GrantsContext env fullTextMatch encrypt vadmits vdenies conn) ↔
      (∀ name ∈ candidates.head?, access = true →
        LeftOpen env fullTextMatch encrypt vadmits vdenies conn name = false) ∧
      candidates.IsChain fun previous name =>
        GrantsContext env fullTextMatch encrypt vadmits vdenies conn previous = true →
          LeftOpen env fullTextMatch encrypt vadmits vdenies conn name = false := by
  induction candidates generalizing access conn' with
  | nil => simp [loop]
  | cons name candidates ih =>
    obtain ⟨conn'', hsame, hloop⟩ :=
      @loop_cons env fullTextMatch encrypt vadmits vdenies conn conn' name
      access candidates h
    simp only at hloop
    rw [hloop, List.filter_cons, List.isChain_cons]
    cases hcarried : access && LeftOpen env fullTextMatch encrypt vadmits vdenies conn name with
    | false =>
      have hhead : ∀ name' ∈ (name :: candidates).head?, access = true →
          LeftOpen env fullTextMatch encrypt vadmits vdenies conn name' = false := by
        intro name' hname haccess
        cases hname
        rwa [haccess, Bool.true_and] at hcarried
      rw [Bool.or_false, and_iff_right hhead, ← ih hsame]
      cases GrantsContext env fullTextMatch encrypt vadmits vdenies conn name with
      | true => simp
      | false => simp
    | true =>
      rw [Bool.and_eq_true] at hcarried
      apply iff_of_false
      · rw [grantsContext_of_leftOpen hcarried.2]
        intro heq
        have hlen := congrArg List.length heq
        have hle :=
          @length_filter_le_loop env fullTextMatch encrypt vadmits vdenies conn conn'' true
          candidates hsame
        simp at hlen
        omega
      · intro hhead
        have hopen := hhead.1 name rfl hcarried.1
        rw [hcarried.2] at hopen
        cases hopen

/-- A candidate that is the only one is found if it is granted. -/
theorem loop_singleton :
    (loop env fullTextMatch encrypt vadmits vdenies [name] false conn).1 =
      if GrantsContext env fullTextMatch encrypt vadmits vdenies conn name then [name] else [] := by
  obtain ⟨_, _, hloop⟩ :=
    @loop_cons env fullTextMatch encrypt vadmits vdenies conn conn name false []
    ⟨rfl, rfl⟩
  rw [hloop, Bool.false_and, Bool.or_false]
  rfl

end contextAccessControl

/-- The classes that match the expression of the client. -/
def contextCandidates (env : ServerEnv) (fullTextMatch : CString → CString → Bool)
    (classes : List CString) (input : CString) : List CString :=
  classes.filter (fullTextMatch ((((scanLiteral "CONTEXT".toList input).bind scanLine).getD
    env.uninitialised).take 255))

/-- A class is returned if it is the only one. -/
def AloneReturns (env : ServerEnv) (fullTextMatch : CString → CString → Bool) (encrypt : Bool)
    (vadmits vdenies : List ContextAuth) (conn : ServerConnectionState)
    (input name : CString) : Prop :=
  (contextAccessControl env fullTextMatch [name] input conn encrypt vadmits vdenies).1 = [name]

instance : Decidable (AloneReturns env fullTextMatch encrypt vadmits vdenies conn input name) :=
  inferInstanceAs (Decidable (_ = _))

theorem aloneReturns_iff (h : name ∈ contextCandidates env fullTextMatch classes input) :
    AloneReturns env fullTextMatch encrypt vadmits vdenies conn input name ↔
      GrantsContext env fullTextMatch encrypt vadmits vdenies conn name = true := by
  have hmatch := (List.mem_filter.mp h).2
  rw [AloneReturns, contextAccessControl, List.filter_cons_of_pos hmatch, List.filter_nil,
    contextAccessControl.loop_singleton]
  cases GrantsContext env fullTextMatch encrypt vadmits vdenies conn name with
  | true => simp
  | false => simp

/-- Each class is decided as if it were the only one, unless a class that no rule decides about
comes right behind one that is granted. -/
theorem contextAccessControl_eq_filter_iff :
    (contextAccessControl env fullTextMatch classes input conn encrypt vadmits vdenies).1 =
        (contextCandidates env fullTextMatch classes input).filter
          (fun name => AloneReturns env fullTextMatch encrypt vadmits vdenies conn input name) ↔
      (contextCandidates env fullTextMatch classes input).IsChain fun previous name =>
        GrantsContext env fullTextMatch encrypt vadmits vdenies conn previous = true →
          LeftOpen env fullTextMatch encrypt vadmits vdenies conn name = false := by
  have hfilter : (contextCandidates env fullTextMatch classes input).filter
        (fun name => AloneReturns env fullTextMatch encrypt vadmits vdenies conn input name) =
      (contextCandidates env fullTextMatch classes input).filter
        (GrantsContext env fullTextMatch encrypt vadmits vdenies conn) := by
    apply List.filter_congr
    intro name hname
    rw [Bool.eq_iff_iff, decide_eq_true_iff]
    exact aloneReturns_iff hname
  have hstart : ∀ name ∈ (contextCandidates env fullTextMatch classes input).head?,
      false = true → LeftOpen env fullTextMatch encrypt vadmits vdenies conn name = false := by
    intro _ _ h
    cases h
  rw [hfilter, contextAccessControl]
  apply (contextAccessControl.loop_eq_filter_iff ⟨rfl, rfl⟩).trans
  exact and_iff_right hstart

/-- A rule that admits a host to a context. -/
def contextRule (path : String) (accesslist : List String) : ContextAuth where
  path := path.toList
  accesslist := accesslist.map String.toList
  maproot := []
  encrypt := 0
  read := 0
  write := 0
  execute := 0
  classpattern := true

/-- No rule is about the class `secret`, and it is returned behind `web`. -/
theorem contextAccessControl_carried_over :
    let fullTextMatch (pattern text : CString) := pattern = ".*".toList || pattern = text
    let query classes := (contextAccessControl closedServer fullTextMatch classes
      "CONTEXT .*".toList verifiedConnection false [contextRule "web" ["10.0.0.2"]] []).1
    query ["web".toList, "secret".toList] = ["web".toList, "secret".toList] ∧
      query ["secret".toList] = [] ∧ query ["web".toList] = ["web".toList] := by
  decide

end Cfengine
