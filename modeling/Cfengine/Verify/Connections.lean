import Cfengine.Server.Connections
import Cfengine.Theory.Runs

/-!
# Which connections the server accepts

`ServerEntryPoint` records a connection in its copy of `SV`, so the list that `DeleteConn` looks at
is always empty. `run_oneConnection_iff` says which runs make no difference.
-/

namespace Cfengine
open Runs

variable {isMatchItemIn : List CString → CString → Bool} {fullTextMatch : CString → CString → Bool}
  {s : Server} {ops : List ServerOp} {op : ServerOp}

/-! ## The list of connections -/

theorem ServerAccess.eq_of_nil {sv : ServerAccess} (h : sv.connectionlist = []) :
    { sv with connectionlist := [] } = sv := by
  cases sv
  cases h
  rfl

theorem step_sv (h : s.sv.connectionlist = []) :
    (s.step isMatchItemIn fullTextMatch op).sv = s.sv := by
  cases op with
  | accept ipaddr time newConn =>
    simp only [Server.step]
    split
    · rfl
    · rfl
  | terminate index =>
    rw [Server.step]
    split
    · rfl
    · rw [deleteConn, h]
      exact ServerAccess.eq_of_nil h
  | purge now =>
    rw [Server.step, h]
    exact ServerAccess.eq_of_nil h

/-- `SV` stays as it is. -/
theorem run_sv (h : s.sv.connectionlist = []) :
    (run (Server.step isMatchItemIn fullTextMatch) s ops).sv = s.sv := by
  induction ops using List.reverseRecOn with
  | nil => rfl
  | append_singleton ops op ih =>
    rw [run_concat, step_sv (ih ▸ h), ih]

/-! ## One connection -/

/-- No two connections of an address that may have one only. -/
def OneConnection (isMatchItemIn : List CString → CString → Bool) (s : Server) : Prop :=
  ∀ address, isMatchItemIn s.sv.multiconnlist address = false →
    s.live.countP (mapAddress · = address) ≤ 1

/-- A connection that ends takes exactly one entry of its address with it. -/
def DeletesOne (isMatchItemIn : List CString → CString → Bool)
    (fullTextMatch : CString → CString → Bool) (s : Server) : ServerOp → Prop
  | .terminate index => ∀ ipaddr, s.live[index]? = some ipaddr → ∃ before item after,
      s.sv.connectionlist = before ++ item :: after ∧ item.name = mapAddress ipaddr ∧
        (s.step isMatchItemIn fullTextMatch (.terminate index)).sv.connectionlist = before ++ after
  | _ => True

/-- The lists that are configured admit the address. -/
def Acceptable (isMatchItemIn : List CString → CString → Bool) (sv : ServerAccess)
    (address : CString) : Prop :=
  (sv.nonattackerlist = [] ∨ isMatchItemIn sv.nonattackerlist address = true) ∧
    isMatchItemIn sv.attackerlist address = false

/-- An address that may have one connection only has none. -/
def FirstConnection (isMatchItemIn : List CString → CString → Bool) (s : Server) :
    ServerOp → Prop
  | .accept ipaddr _ newConn => Acceptable isMatchItemIn s.sv (mapAddress ipaddr) →
      newConn = true → mapAddress ipaddr ≠ [] →
      isMatchItemIn s.sv.multiconnlist (mapAddress ipaddr) = false →
      ∀ other ∈ s.live, mapAddress other ≠ mapAddress ipaddr
  | _ => True

/-- No connection ends. -/
def NoneEnds (s : Server) : ServerOp → Prop
  | .terminate index => s.live.length ≤ index
  | _ => True

/-- A connection is accepted as if there was no other one. -/
theorem serverEntryPoint_iff {sv : ServerAccess} {ipaddr : CString} {time : Option Int}
    (h : sv.connectionlist = []) :
    (serverEntryPoint isMatchItemIn ipaddr time sv).1 = true ↔
      Acceptable isMatchItemIn sv (mapAddress ipaddr) ∧
        (isMatchItemIn sv.multiconnlist (mapAddress ipaddr) = true ∨ mapAddress ipaddr ≠ []) := by
  have hpurge : purgeOldConnections sv.connectionlist (time.getD 0) = [] := by rw [h]; rfl
  rw [serverEntryPoint]
  simp only [hpurge, List.map_nil, isItemIn, List.not_mem_nil, Acceptable]
  split
  · rename_i hdenied
    apply iff_of_false Bool.false_ne_true
    intro ⟨⟨hadmitted, _⟩, _⟩
    simp only [Bool.and_eq_true, decide_eq_true_eq, Bool.not_eq_true'] at hdenied
    cases hadmitted with
    | inl hnil => exact hdenied.1 hnil
    | inr hmatch => exact Bool.false_ne_true (hdenied.2.symm.trans hmatch)
  rename_i hadmitted
  have hadmitted : sv.nonattackerlist = [] ∨
      isMatchItemIn sv.nonattackerlist (mapAddress ipaddr) = true := by
    simpa [imp_iff_not_or] using hadmitted
  split
  · rename_i hattacker
    apply iff_of_false Bool.false_ne_true
    intro ⟨⟨_, hno⟩, _⟩
    exact Bool.false_ne_true (hno.symm.trans hattacker)
  rename_i hattacker
  rw [and_iff_right ⟨hadmitted, Bool.eq_false_of_not_eq_true hattacker⟩]
  cases isMatchItemIn sv.multiconnlist (mapAddress ipaddr) with
  | true => simp
  | false =>
    split
    · rename_i haddress
      simpa using haddress
    · rename_i haddress
      simpa using haddress

/-- One more connection of an address is one too many exactly if there is one. -/
theorem oneConnection_cons_iff {ipaddr : CString} (hs : OneConnection isMatchItemIn s) :
    OneConnection isMatchItemIn { s with live := ipaddr :: s.live } ↔
      (isMatchItemIn s.sv.multiconnlist (mapAddress ipaddr) = false →
        ∀ other ∈ s.live, mapAddress other ≠ mapAddress ipaddr) := by
  constructor
  · intro h hmulti other hother heq
    have hone : (ipaddr :: s.live).countP (mapAddress · = mapAddress ipaddr) ≤ 1 := h _ hmulti
    have hpos : 0 < s.live.countP (mapAddress · = mapAddress ipaddr) :=
      List.countP_pos_iff.mpr ⟨other, hother, decide_eq_true heq⟩
    rw [List.countP_cons_of_pos (by simp)] at hone
    omega
  · intro h address hmulti
    by_cases heq : mapAddress ipaddr = address
    · subst heq
      have hzero : s.live.countP (mapAddress · = mapAddress ipaddr) = 0 := by
        apply List.countP_eq_zero.mpr
        intro other hother heq
        exact h hmulti other hother (of_decide_eq_true heq)
      simp [hzero]
    · rw [List.countP_cons_of_neg (by simpa using heq)]
      exact hs address hmulti

/-- One step keeps to one connection exactly if the address that comes has none. -/
theorem step_oneConnection_iff (h : s.sv.connectionlist = []) (hs : OneConnection isMatchItemIn s) :
    OneConnection isMatchItemIn (s.step isMatchItemIn fullTextMatch op) ↔
      FirstConnection isMatchItemIn s op := by
  cases op with
  | accept ipaddr time newConn =>
    simp only [Server.step, FirstConnection]
    split
    · rename_i hspawned
      rw [Bool.and_eq_true, serverEntryPoint_iff h] at hspawned
      obtain ⟨⟨hacceptable, haddress⟩, hnew⟩ := hspawned
      rw [oneConnection_cons_iff hs]
      constructor
      · intro hfirst _ _ _
        exact hfirst
      · intro hfirst hmulti
        apply hfirst hacceptable hnew _ hmulti
        exact haddress.resolve_left (by simp [hmulti])
    · rename_i hspawned
      rw [Bool.and_eq_true, serverEntryPoint_iff h] at hspawned
      apply iff_of_true hs
      intro hacceptable hnew haddress
      exact absurd ⟨⟨hacceptable, .inr haddress⟩, hnew⟩ hspawned
  | terminate index =>
    apply iff_of_true _ trivial
    intro address hmulti
    rw [step_sv h] at hmulti
    rw [Server.step]
    split
    · exact hs address hmulti
    · exact Nat.le_trans ((List.eraseIdx_sublist s.live index).countP_le) (hs address hmulti)
  | purge now =>
    apply iff_of_true _ trivial
    intro address hmulti
    exact hs address hmulti

theorem deletesOne_iff (h : s.sv.connectionlist = []) :
    DeletesOne isMatchItemIn fullTextMatch s op ↔ NoneEnds s op := by
  cases op with
  | accept ipaddr time newConn => exact Iff.rfl
  | purge now => exact Iff.rfl
  | terminate index =>
    rw [NoneEnds, ← List.getElem?_eq_none_iff]
    constructor
    · intro hdeletes
      cases hlive : s.live[index]? with
      | none => rfl
      | some ipaddr =>
        obtain ⟨before, item, after, hlist, _⟩ := hdeletes ipaddr hlive
        rw [h] at hlist
        cases before with
        | nil => cases hlist
        | cons item' before => cases hlist
    · intro hnone ipaddr hlive
      rw [hnone] at hlive
      cases hlive

/-- A run keeps one connection for each address, and its list of them, exactly if no address that
may have one only comes a second time while it has one, and no connection ends. -/
theorem run_oneConnection_iff {nonattackerlist attackerlist multiconnlist : List CString} :
    let start := Server.start nonattackerlist attackerlist multiconnlist
    let step := Server.step isMatchItemIn fullTextMatch
    ((∀ pre, pre <+: ops → OneConnection isMatchItemIn (run step start pre)) ∧
        Along step (DeletesOne isMatchItemIn fullTextMatch) start ops) ↔
      Along step (FirstConnection isMatchItemIn) start ops ∧ Along step NoneEnds start ops := by
  intro start step
  have hsv (pre : List ServerOp) : (run step start pre).sv.connectionlist = [] := by
    rw [run_sv rfl]
    rfl
  have hnone : OneConnection isMatchItemIn start := by
    intro address _
    exact Nat.zero_le 1
  rw [always_iff_along hnone fun pre op hpre => step_oneConnection_iff (hsv pre) hpre,
    along_congr fun pre op => deletesOne_iff (hsv pre)]

/-- A second connection of an address is accepted. -/
theorem run_two_connections :
    let accept := ServerOp.accept "10.0.0.1".toList (some 1000) true
    let start := Server.start [] [] []
    let server := run (Server.step (fun list item => item ∈ list) fun regex text => regex = text)
      start [accept, accept]
    server.live = ["10.0.0.1".toList, "10.0.0.1".toList] ∧
      ¬ OneConnection (fun list item => item ∈ list) server := by
  intro accept start server
  have hlive : server.live = ["10.0.0.1".toList, "10.0.0.1".toList] := by decide
  refine ⟨hlive, ?_⟩
  intro h
  have hone := h "10.0.0.1".toList rfl
  rw [hlive] at hone
  exact absurd hone (by decide)

end Cfengine
