import Cfengine.Frames

/-!
# Blocks restore the scope `this`

What is done to variables only writes to the hash table of their scope. Between a push and a pop
the new scope `this` is the first of the list, and what is below is the list with the saved scope
renamed (`Above`). `run_block` says that a block gives back the state that it found.
-/

namespace Cfengine
open KeyedList

variable {getHash : CString → Fin cfHashTableSize}
  {expandScalar : List Scope → CString → Option (CString × Bool)}
  {mapIteratorsFromRval : VarState → Rval → Rval} {cellText : Rval → CString}
  {scope lval : CString}

/-! ## What is written -/

/-- A property that no write to the table of a scope can break. -/
def KeptBy (scope : CString) (P : VarState → Prop) : Prop :=
  ∀ s hashtable, P s → P (s.setHashtable scope hashtable)

variable {P : VarState → Prop} {s s' : VarState}

theorem KeptBy.deleteScalar (hP : KeptBy scope P) (h : P s) :
    P (deleteScalar getHash s scope lval) := by
  rw [Cfengine.deleteScalar]
  split
  · exact h
  · exact hP _ _ h

theorem KeptBy.deleteFound (hP : KeptBy scope P) (h : P s)
    (hs : deleteFound getHash expandScalar s scope lval = some s') : P s' := by
  rw [Cfengine.deleteFound, Option.map_eq_some_iff] at hs
  obtain ⟨found, _, rfl⟩ := hs
  split
  · exact hP.deleteScalar h
  · exact h

theorem KeptBy.addVariableHash (hP : KeptBy scope P) (h : P s) {rval : Rval} {dtype : CfDataType}
    {ok : Bool} (hs : addVariableHash getHash expandScalar mapIteratorsFromRval cellText s scope
      lval rval dtype = some (ok, s')) : P s' := by
  rw [Cfengine.addVariableHash] at hs
  split at hs
  · cases hs
    exact h
  split at hs
  · cases hs
    exact h
  split at hs
  · cases hs
    exact h
  split at hs
  · cases hs
    exact h
  simp only at hs
  split at hs
  · split at hs
    · cases hs
      exact h
    · obtain ⟨unresolved, -, hres⟩ := Option.map_eq_some_iff.mp hs
      cases hres
      exact hP _ _ h
  · split at hs
    · cases hs
      exact hP _ _ h
    · cases hs

theorem KeptBy.newScalar (hP : KeptBy scope P) (h : P s) {rval : CString} {dtype : CfDataType}
    (hs : newScalar getHash expandScalar mapIteratorsFromRval cellText s scope lval rval dtype =
      some s') : P s' := by
  rw [Cfengine.newScalar] at hs
  split at hs
  · cases hs
    exact h
  · obtain ⟨s1, hdelete, hs⟩ := Option.bind_eq_some_iff.mp hs
    obtain ⟨⟨ok, s2⟩, hadd, hs⟩ := Option.bind_eq_some_iff.mp hs
    cases hs
    exact hP.addVariableHash (hP.deleteFound h hdelete) hadd

theorem KeptBy.newList (hP : KeptBy scope P) (h : P s) {rval : List Rval} {dtype : CfDataType}
    (hs : newList getHash expandScalar mapIteratorsFromRval cellText s scope lval rval dtype =
      some s') : P s' := by
  rw [Cfengine.newList] at hs
  obtain ⟨s1, hdelete, hs⟩ := Option.bind_eq_some_iff.mp hs
  obtain ⟨⟨ok, s2⟩, hadd, hs⟩ := Option.bind_eq_some_iff.mp hs
  cases hs
  exact hP.addVariableHash (hP.deleteFound h hdelete) hadd

theorem KeptBy.copyScope_loop (hP : KeptBy scope P) {fuel : Nat} {i : HashIterator} (h : P s) :
    P (copyScope.loop getHash expandScalar scope fuel i s) := by
  induction fuel generalizing s i with
  | zero => exact h
  | succ fuel ih =>
    rw [copyScope.loop]
    split
    · exact ih (hP _ _ h)
    · exact h

theorem KeptBy.copyScope (hP : KeptBy scope P) {oldScopename : CString} (h : P (newScope s scope)) :
    P (copyScope getHash expandScalar s scope oldScopename) := by
  rw [Cfengine.copyScope]
  split
  · exact h
  · exact hP.copyScope_loop h

/-! ## Renamed scopes -/

section
variable {addresses : List Nat} {vscope : List Scope} {op : Nat} {name name' : CString}

theorem renameScope_of_not_mem (h : op ∉ addresses) (hlen : addresses.length = vscope.length) :
    renameScope addresses vscope op name = vscope := by
  induction addresses generalizing vscope with
  | nil =>
    obtain rfl := List.length_eq_zero_iff.mp hlen.symm
    rfl
  | cons address addresses ih =>
    obtain ⟨cp, vscope, rfl⟩ :=
      List.exists_cons_of_length_pos (Nat.lt_of_lt_of_eq (Nat.succ_pos _) hlen)
    have hne := List.ne_of_not_mem_cons h
    have hnot := List.not_mem_of_not_mem_cons h
    rw [renameScope, List.zipWith_cons_cons, if_neg (Ne.symm hne)]
    exact congrArg (cp :: ·) (ih hnot (Nat.succ.inj hlen))

/-- A pointer to a scope of the list renames that scope. -/
theorem renameScope_split {l₁ l₂ : List Scope} {a₁ a₂ : List Nat} {cp : Scope}
    (hlen₁ : a₁.length = l₁.length) (hlen₂ : a₂.length = l₂.length) (h₁ : op ∉ a₁) (h₂ : op ∉ a₂) :
    renameScope (a₁ ++ op :: a₂) (l₁ ++ cp :: l₂) op name =
      l₁ ++ { cp with scope := name } :: l₂ := by
  have hinit := @renameScope_of_not_mem _ _ _ name h₁ hlen₁
  have hrest := @renameScope_of_not_mem _ _ _ name h₂ hlen₂
  rw [renameScope] at hinit hrest ⊢
  rw [List.zipWith_append hlen₁, List.zipWith_cons_cons, hinit, hrest, if_pos rfl]

end

/-! ## One scope `this` -/

/-- Every scope has an address of its own, and one of them is called `this`. -/
structure FrameState.Wf (s : FrameState) : Prop where
  length_eq : s.addresses.length = s.vars.vscope.length
  nodup : s.addresses.Nodup
  one : s.vars.vscope.countP (fun ptr => ptr.scope = thisScope) = 1

namespace FrameState

/-- The scopes around `this`, with their addresses. -/
structure Split (s : FrameState) where
  l₁ : List Scope
  l₂ : List Scope
  this : Scope
  a₁ : List Nat
  a₂ : List Nat
  op : Nat
  vscope : s.vars.vscope = l₁ ++ this :: l₂
  addresses : s.addresses = a₁ ++ op :: a₂
  length₁ : a₁.length = l₁.length
  length₂ : a₂.length = l₂.length
  named : this.scope = thisScope
  other₁ : ∀ cp ∈ l₁, cp.scope ≠ thisScope
  other₂ : ∀ cp ∈ l₂, cp.scope ≠ thisScope
  fresh₁ : op ∉ a₁
  fresh₂ : op ∉ a₂

theorem Wf.split {s : FrameState} (h : Wf s) : Nonempty (Split s) := by
  have hone := h.one
  rw [List.countP_eq_length_filter, List.length_eq_one_iff] at hone
  obtain ⟨this, hthis⟩ := hone
  obtain ⟨l₁, l₂, hvscope, h₁, hnamed, h₂⟩ := List.filter_eq_cons_iff.mp hthis
  have hlen := h.length_eq
  rw [hvscope, List.length_append, List.length_cons] at hlen
  obtain ⟨a₁, rest, haddresses, hlen₁⟩ : ∃ a₁ rest, s.addresses = a₁ ++ rest ∧
      a₁.length = l₁.length :=
    ⟨_, _, (List.take_append_drop l₁.length s.addresses).symm, List.length_take_of_le (by omega)⟩
  rw [haddresses, List.length_append, hlen₁] at hlen
  obtain ⟨op, a₂, rfl⟩ := List.exists_cons_of_length_pos (l := rest) (by omega)
  rw [List.length_cons] at hlen
  have hnodup := h.nodup
  rw [haddresses, List.nodup_middle, List.nodup_cons, List.mem_append, not_or] at hnodup
  exact ⟨
    { l₁, l₂, this, a₁, a₂, op
      vscope := hvscope
      addresses := haddresses
      length₁ := hlen₁
      length₂ := by omega
      named := of_decide_eq_true hnamed
      other₁ := fun cp hcp => by simpa using h₁ cp hcp
      other₂ := fun cp hcp => by simpa using List.filter_eq_nil_iff.mp h₂ cp hcp
      fresh₁ := hnodup.1.1
      fresh₂ := hnodup.1.2 }⟩

/-- The name of the next frame. -/
def frameName (s : FrameState) : CString :=
  ("this_".toList ++ Nat.toDigits 10 (s.cfStckFrame + 1)).take (cfMaxVarSize - 1)

theorem frameName_ne (s : FrameState) : s.frameName ≠ thisScope := by
  intro heq
  have hget : s.frameName[4]? = thisScope[4]? := congrArg (fun name : CString => name[4]?) heq
  rw [frameName, List.getElem?_take_of_lt (by decide)] at hget
  exact absurd hget (Option.some_ne_none '_')

namespace Split

variable {s : FrameState}

/-- The list of scopes after a push. -/
def renamed (h : Split s) : List Scope :=
  h.l₁ ++ { h.this with scope := s.frameName } :: h.l₂

theorem renamed_other (h : Split s) : ∀ cp ∈ h.renamed, cp.scope ≠ thisScope := by
  rw [renamed]
  intro cp hcp
  rcases List.mem_append.mp hcp with hcp | hcp
  · exact h.other₁ cp hcp
  · rcases List.mem_cons.mp hcp with rfl | hcp
    · exact s.frameName_ne
    · exact h.other₂ cp hcp

theorem pushThisScope (h : Split s) : s.pushThisScope =
    { s with
      cfStckFrame := s.cfStckFrame + 1
      cfStck := h.op :: s.cfStck
      vars := { s.vars with vscope := h.renamed } } := by
  have hfind : (s.addresses.zip s.vars.vscope).find? (fun c => c.2.scope = thisScope) =
      some (h.op, h.this) := by
    have hnone : (h.a₁.zip h.l₁).find? (fun c => c.2.scope = thisScope) = none := by
      rw [List.find?_eq_none]
      intro c hc
      simpa using h.other₁ c.2 (List.of_mem_zip hc).2
    rw [h.addresses, h.vscope, List.zip_append h.length₁, List.zip_cons_cons, List.find?_append,
      hnone, Option.none_or, List.find?_cons_of_pos (by simpa using h.named)]
  have hrename := @renameScope_split h.op s.frameName h.l₁ h.l₂ h.a₁ h.a₂ h.this h.length₁
    h.length₂ h.fresh₁ h.fresh₂
  rw [← h.vscope, ← h.addresses] at hrename
  rw [FrameState.pushThisScope, hfind]
  simp only
  rw [← frameName, hrename, renamed]

end Split

/-! ## Above a saved scope -/

/-- A scope `this` in front of the others. -/
def withThis (vars : VarState) (hashtable : AssocHashTable) : VarState :=
  { vars with vscope := ⟨thisScope, hashtable⟩ :: vars.vscope }

/-- The state `s` is `saved` with one more scope, `this`, at the head of the list. -/
structure Above (saved s : FrameState) : Prop where
  vars : ∃ hashtable, s.vars = withThis saved.vars hashtable
  addresses : ∃ address ∉ saved.addresses, s.addresses = address :: saved.addresses
  cfStck : s.cfStck = saved.cfStck
  cfStckFrame : s.cfStckFrame = saved.cfStckFrame

/-- A write to `this` stays at the head of the list. -/
theorem keptBy_above {vars : VarState} : KeptBy thisScope fun v =>
    ∃ hashtable, v = withThis vars hashtable := by
  intro s hashtable h
  obtain ⟨hashtable', rfl⟩ := h
  have hname : (⟨thisScope, hashtable'⟩ : Scope).scope = scopeName thisScope := rfl
  refine ⟨hashtable, ?_⟩
  rw [VarState.setHashtable, withThis, modifyFirst, if_pos (decide_eq_true hname)]
  rfl

theorem deleteScope_withThis (vars : VarState) (hashtable : AssocHashTable) :
    deleteScope (withThis vars hashtable) thisScope = vars := by
  simp [deleteScope, withThis]

theorem Above.setVars {saved s : FrameState} (h : Above saved s) {vars : VarState}
    (hvars : ∃ hashtable, vars = withThis saved.vars hashtable) : Above saved { s with vars } :=
  ⟨hvars, h.addresses, h.cfStck, h.cfStckFrame⟩

theorem malloc_not_mem (addresses : List Nat) : malloc addresses ∉ addresses := fun h =>
  absurd (List.le_sum_of_mem h) (Nat.not_le.mpr (Nat.lt_succ_self _))

/-- `CopyScope` to a scope `this` that does not exist. -/
theorem above_copyToThisScope {saved : FrameState} {oldScopename : CString}
    (h : ∀ cp ∈ saved.vars.vscope, cp.scope ≠ thisScope) :
    Above saved (ScopeStep.copyToThisScope getHash expandScalar saved oldScopename) := by
  have hany : (saved.vars.vscope.any fun ptr => ptr.scope = thisScope) = false := by
    rw [List.any_eq_false]
    exact fun cp hcp => by simpa using h cp hcp
  have hfresh := malloc_not_mem (saved.addresses ++ saved.cfStck)
  rw [List.mem_append, not_or] at hfresh
  refine ⟨keptBy_above.copyScope ⟨hashInit, ?_⟩, ⟨_, hfresh.1, ?_⟩, rfl, rfl⟩
  · rw [newScope, hany, if_neg Bool.false_ne_true]
    rfl
  · rw [ScopeStep.copyToThisScope]
    simp only [hany, Bool.false_eq_true, if_false]

/-- A state in which `this` is saved under another name. -/
structure Saved (s : FrameState) : Prop where
  length_eq : s.addresses.length = s.vars.vscope.length
  nodup : s.addresses.Nodup
  other : ∀ cp ∈ s.vars.vscope, cp.scope ≠ thisScope

theorem Above.wf {saved s : FrameState} (h : Above saved s) (hsaved : Saved saved) : Wf s := by
  obtain ⟨hashtable, hvars⟩ := h.vars
  obtain ⟨address, hfresh, haddresses⟩ := h.addresses
  refine ⟨?_, ?_, ?_⟩
  · rw [hvars, haddresses, withThis, List.length_cons, List.length_cons, hsaved.length_eq]
  · rw [haddresses]
    exact List.nodup_cons.mpr ⟨hfresh, hsaved.nodup⟩
  · have hzero : saved.vars.vscope.countP (fun ptr => ptr.scope = thisScope) = 0 := by
      rw [List.countP_eq_zero]
      exact fun cp hcp => by simpa using hsaved.other cp hcp
    rw [hvars, withThis, List.countP_cons, hzero]
    simp

theorem Above.deleteThisScope {saved s : FrameState} (h : Above saved s) :
    s.deleteThisScope = saved := by
  obtain ⟨hashtable, hvars⟩ := h.vars
  obtain ⟨address, _, haddresses⟩ := h.addresses
  have hname : (⟨thisScope, hashtable⟩ : Scope).scope = thisScope := rfl
  have hindex : s.vars.vscope.findIdx (fun ptr => ptr.scope = thisScope) = 0 := by
    rw [hvars, withThis, List.findIdx_cons, decide_eq_true hname]
    rfl
  rw [FrameState.deleteThisScope, hindex, hvars, deleteScope_withThis, haddresses,
    List.eraseIdx_cons_zero, h.cfStck, h.cfStckFrame]

namespace Split

variable {s : FrameState}

/-- A pop undoes a push. -/
theorem popThisScope (h : Split s) {s' : FrameState} (habove : Above s.pushThisScope s') :
    s'.popThisScope = some s := by
  have hframe : s'.cfStckFrame ≠ 0 := by
    rw [habove.cfStckFrame, h.pushThisScope]
    exact Nat.succ_ne_zero _
  have hmem : h.op ∈ s.addresses := by
    rw [h.addresses]
    exact List.mem_append_right _ List.mem_cons_self
  have hrename : renameScope s.addresses h.renamed h.op thisScope = s.vars.vscope := by
    rw [renamed, h.addresses, renameScope_split h.length₁ h.length₂ h.fresh₁ h.fresh₂, ← h.named,
      h.vscope]
  rw [FrameState.popThisScope, if_neg hframe]
  simp only [habove.deleteThisScope, h.pushThisScope, if_pos hmem, hrename, Nat.add_sub_cancel]

end Split

theorem Wf.saved {s : FrameState} (h : Wf s) : Saved s.pushThisScope := by
  obtain ⟨hsplit⟩ := h.split
  have hlen := h.length_eq
  rw [hsplit.vscope] at hlen
  rw [hsplit.pushThisScope]
  refine ⟨?_, h.nodup, hsplit.renamed_other⟩
  simpa [Split.renamed] using hlen

/-- What is kept with the names of the scopes. -/
theorem Wf.setVars {s : FrameState} (h : Wf s) {vars : VarState}
    (hnames : vars.vscope.map Scope.scope = s.vars.vscope.map Scope.scope) :
    Wf { s with vars } := by
  refine ⟨?_, h.nodup, ?_⟩
  · rw [h.length_eq]
    simpa using (congrArg List.length hnames).symm
  · have hcount := congrArg (List.countP fun name => name = thisScope) hnames
    rw [List.countP_map, List.countP_map] at hcount
    exact hcount.trans h.one

theorem keptBy_names {names : List CString} :
    KeptBy scope fun v => v.vscope.map Scope.scope = names := by
  intro s hashtable h
  have hname : ∀ cp : Scope, Scope.scope { cp with hashtable } = cp.scope := fun _ => rfl
  rw [VarState.setHashtable, map_modifyFirst hname, h]

end FrameState

/-! ## Runs of blocks -/

namespace ScopeStep
open FrameState

/-- In the run of the steps from `s`, a block leads from `t` to `t'`. -/
inductive Restores (getHash : CString → Fin cfHashTableSize)
    (expandScalar : List Scope → CString → Option (CString × Bool))
    (mapIteratorsFromRval : VarState → Rval → Rval) (cellText : Rval → CString) :
    FrameState → List ScopeStep → FrameState → FrameState → Prop
  | here {s s' oldScopename body steps} :
    run getHash expandScalar mapIteratorsFromRval cellText s (.block oldScopename body) = some s' →
    Restores getHash expandScalar mapIteratorsFromRval cellText s
      (.block oldScopename body :: steps)
      s s'
  | later {s s₁ x steps t t'} :
    run getHash expandScalar mapIteratorsFromRval cellText s x = some s₁ →
    Restores getHash expandScalar mapIteratorsFromRval cellText s₁ steps t t' →
    Restores getHash expandScalar mapIteratorsFromRval cellText s (x :: steps) t t'
  | inside {s oldScopename body steps t t'} :
    Restores getHash expandScalar mapIteratorsFromRval cellText
      (copyToThisScope getHash expandScalar s.pushThisScope oldScopename) body t t' →
    Restores getHash expandScalar mapIteratorsFromRval cellText s
      (.block oldScopename body :: steps)
      t t'

mutual

/-- A step does not change what is below the scope `this`. -/
theorem above_run {s s' saved : FrameState} (hsaved : Saved saved) (h : Above saved s) :
    ∀ x, run getHash expandScalar mapIteratorsFromRval cellText s x = some s' → Above saved s'
  | .newScalar lval rval dtype, hrun => by
    rw [run, Option.map_eq_some_iff] at hrun
    obtain ⟨vars, hvars, rfl⟩ := hrun
    exact h.setVars (keptBy_above.newScalar h.vars hvars)
  | .newList lval rval dtype, hrun => by
    rw [run, Option.map_eq_some_iff] at hrun
    obtain ⟨vars, hvars, rfl⟩ := hrun
    exact h.setVars (keptBy_above.newList h.vars hvars)
  | .deleteScalar lval, hrun => by
    rw [run] at hrun
    cases hrun
    exact h.setVars (keptBy_above.deleteScalar h.vars)
  | .block oldScopename body, hrun => by
    rw [run, Option.bind_eq_some_iff] at hrun
    obtain ⟨s₁, hbody, hpop⟩ := hrun
    have hwf := h.wf hsaved
    obtain ⟨hsplit⟩ := hwf.split
    have habove := above_runAll hwf.saved (above_copyToThisScope hwf.saved.other) body hbody
    rw [hsplit.popThisScope habove] at hpop
    cases hpop
    exact h

theorem above_runAll {s s' saved : FrameState} (hsaved : Saved saved) (h : Above saved s) :
    ∀ steps, runAll getHash expandScalar mapIteratorsFromRval cellText s steps = some s' →
      Above saved s'
  | [], hrun => by
    rw [runAll] at hrun
    cases hrun
    exact h
  | x :: steps, hrun => by
    rw [runAll, Option.bind_eq_some_iff] at hrun
    obtain ⟨s₁, hx, hrun⟩ := hrun
    exact above_runAll hsaved (above_run hsaved h x hx) steps hrun

end

variable {s s' : FrameState}

/-- A block gives back the state that it found. -/
theorem run_block (h : Wf s) {oldScopename : CString} {body : List ScopeStep}
    (hrun : run getHash expandScalar mapIteratorsFromRval cellText s (.block oldScopename body) =
      some s') : s' = s := by
  rw [run, Option.bind_eq_some_iff] at hrun
  obtain ⟨s₁, hbody, hpop⟩ := hrun
  obtain ⟨hsplit⟩ := h.split
  have habove := above_runAll h.saved (above_copyToThisScope h.saved.other) body hbody
  rw [hsplit.popThisScope habove] at hpop
  exact (Option.some.inj hpop).symm

theorem wf_run (h : Wf s) {x : ScopeStep}
    (hrun : run getHash expandScalar mapIteratorsFromRval cellText s x = some s') : Wf s' := by
  cases x with
  | newScalar lval rval dtype =>
    rw [run, Option.map_eq_some_iff] at hrun
    obtain ⟨vars, hvars, rfl⟩ := hrun
    exact h.setVars (keptBy_names.newScalar rfl hvars)
  | newList lval rval dtype =>
    rw [run, Option.map_eq_some_iff] at hrun
    obtain ⟨vars, hvars, rfl⟩ := hrun
    exact h.setVars (keptBy_names.newList rfl hvars)
  | deleteScalar lval =>
    rw [run] at hrun
    cases hrun
    exact h.setVars (keptBy_names.deleteScalar rfl)
  | block oldScopename body =>
    rw [run_block h hrun]
    exact h

/-- **Blocks restore the scope `this`**, at any depth and also in a run that exits later: what a
block leaves is what it found, with one scope `this`. -/
theorem restores_eq {steps : List ScopeStep} {t t' : FrameState} (h : Wf s)
    (hrun : Restores getHash expandScalar mapIteratorsFromRval cellText s steps t t') :
    t' = t ∧ t'.vars.vscope.countP (fun ptr => ptr.scope = thisScope) = 1 := by
  induction hrun with
  | here hblock =>
    rw [run_block h hblock]
    exact ⟨rfl, h.one⟩
  | later hx _ ih => exact ih (wf_run h hx)
  | inside _ ih => exact ih ((above_copyToThisScope h.saved.other).wf h.saved)

/-- Only the scope `this`, which is empty. -/
def onlyThis : FrameState where
  vars := { vscope := [⟨thisScope, hashInit⟩], contextId := thisScope, agentIsCommon := false }
  addresses := [1]
  cfStck := []
  cfStckFrame := 0

/-- A block that copies `this` to itself and sets `x`, also in a block inside. -/
def nestedBlocks : List ScopeStep :=
  [.newScalar ['x'] ['1'] .str, .block thisScope [.newScalar ['x'] ['2'] .str]]

theorem restores_eq_nested : ∃ t t',
    Restores (fun _ => ⟨0, by decide⟩) (fun _ _ => none) (fun _ rval => rval) (fun _ => []) onlyThis
        [.block thisScope nestedBlocks] t t' ∧
      t.cfStckFrame = 1 ∧ t' = t ∧
      t'.vars.vscope.countP (fun ptr => ptr.scope = thisScope) = 1 := by
  have hwf : Wf onlyThis := ⟨rfl, List.nodup_singleton 1, rfl⟩
  have hrun : Restores (fun _ => ⟨0, by decide⟩) (fun _ _ => none) (fun _ rval => rval)
    (fun _ => []) onlyThis
      [.block thisScope nestedBlocks] _ _ :=
    .inside (.later rfl (.here rfl))
  exact ⟨_, _, hrun, rfl, restores_eq hwf hrun⟩

end ScopeStep

end Cfengine
