import Cfengine.Theory.Runs

/-!
# Objects in the custody of a machine

A machine is given objects, holds some of them and passes them out. If each step keeps the account
(what it passes out and what is held behind it is what it was given and what was held), then so does
a run: nothing is lost, nothing is passed out twice, and what is held has not been passed out.
-/

namespace Custody
open Runs

variable {S Op α : Type*}

/-- What a step passes out and what is held behind it is what it is given and what was held. -/
def Accounts (step : S → Op → S × List α) (held : S → List α) (given : Op → List α) : Prop :=
  ∀ s op, ((step s op).2 ++ held (step s op).1).Perm (given op ++ held s)

/-- A step of the machine, with all that has been passed out. -/
def collect (step : S → Op → S × List α) (s : S × List α) (op : Op) : S × List α :=
  ((step s.1 op).1, s.2 ++ (step s.1 op).2)

variable {step : S → Op → S × List α} {held : S → List α} {given : Op → List α} {s : S}
  {ops : List Op} {a : α}

theorem Accounts.perm (h : Accounts step held given) (s : S) (ops : List Op) :
    ((run (collect step) (s, []) ops).2 ++ held (run (collect step) (s, []) ops).1).Perm
      (held s ++ ops.flatMap given) := by
  induction ops using List.reverseRecOn with
  | nil => exact .of_eq (List.append_nil _).symm
  | append_singleton ops op ih =>
    rw [run_concat, List.flatMap_append, List.flatMap_singleton, ← List.append_assoc]
    generalize Runs.run (collect step) (s, []) ops = reached at ih ⊢
    have hstep := (h reached.1 op).append_left reached.2
    rw [← List.append_assoc] at hstep
    refine hstep.trans ?_
    have hgiven : (reached.2 ++ (given op ++ held reached.1)).Perm
        (reached.2 ++ held reached.1 ++ given op) := by
      rw [List.append_assoc]
      exact List.perm_append_comm.append_left _
    exact hgiven.trans (ih.append_right _)

/-- What is held has not been passed out, if no object is given twice. -/
theorem Accounts.not_mem_held (h : Accounts step held given)
    (hnodup : (held s ++ ops.flatMap given).Nodup) (ha : a ∈ (run (collect step) (s, []) ops).2) :
    a ∉ held (run (collect step) (s, []) ops).1 := by
  have hdisjoint := List.nodup_append.mp ((h.perm s ops).nodup_iff.mpr hnodup)
  exact fun hheld => hdisjoint.2.2 a ha a hheld rfl

end Custody
