import Mathlib

/-!
# Runs of a deterministic step function

A machine is a step function on states; a run folds it over a list of operations. `Along P` says
that every step of a run meets the side condition `P`, a condition on the state before the step
and the operation. Invariants and simulations are lifted from one step to whole runs here, once.
-/

namespace Runs

variable {S A Op : Type*}

/-- The state reached from `s` by the operations `ops`, the first one first. -/
def run (step : S → Op → S) (s : S) (ops : List Op) : S := ops.foldl step s

/-- Every step of the run meets `P`. -/
def Along (step : S → Op → S) (P : S → Op → Prop) (s : S) (ops : List Op) : Prop :=
  ∀ pre op, pre ++ [op] <+: ops → P (run step s pre) op

variable {step : S → Op → S} {astep : A → Op → A} {P Q : S → Op → Prop} {s : S} {a : A}

@[simp] theorem run_concat {ops : List Op} {op : Op} :
    run step s (ops ++ [op]) = step (run step s ops) op := by
  simp [run]

theorem Along.nil : Along step P s [] := by
  rintro pre op ⟨t, h⟩
  simp at h

theorem Along.of_prefix {pre ops : List Op} (h : Along step P s ops) (hp : pre <+: ops) :
    Along step P s pre := fun _ _ h' => h _ _ (h'.trans hp)

theorem Along.last {ops : List Op} {op : Op} (h : Along step P s (ops ++ [op])) :
    P (run step s ops) op := h _ _ (List.prefix_refl _)

theorem Along.and {ops : List Op} (hP : Along step P s ops) (hQ : Along step Q s ops) :
    Along step (fun s op => P s op ∧ Q s op) s ops := fun _ _ h => ⟨hP _ _ h, hQ _ _ h⟩

theorem along_concat {ops : List Op} {op : Op} :
    Along step P s (ops ++ [op]) ↔ Along step P s ops ∧ P (run step s ops) op := by
  constructor
  · exact fun h => ⟨h.of_prefix (List.prefix_append _ _), h.last⟩
  · rintro ⟨h, hop⟩ pre op' hp
    rcases List.prefix_concat_iff.mp hp with hp | hp
    · obtain ⟨rfl, rfl⟩ := List.append_inj' hp rfl |>.imp id List.singleton_inj.mp
      exact hop
    · exact h _ _ hp

theorem along_cons {ops : List Op} {op : Op} :
    Along step P s (op :: ops) ↔ P s op ∧ Along step P (step s op) ops := by
  constructor
  · refine fun h => ⟨h [] op ⟨ops, rfl⟩, fun pre op' hp => h (op :: pre) op' ?_⟩
    exact List.cons_prefix_cons.2 ⟨rfl, hp⟩
  · rintro ⟨h, hops⟩ pre op' hp
    cases pre with
    | nil => exact (List.cons_prefix_cons.1 hp).1 ▸ h
    | cons other pre =>
      obtain ⟨rfl, htail⟩ := List.cons_prefix_cons.1 hp
      exact hops pre op' htail

instance decidableAlong [∀ s op, Decidable (P s op)] (s : S) (ops : List Op) :
    Decidable (Along step P s ops) :=
  match ops with
  | [] => isTrue .nil
  | op :: ops =>
    have := decidableAlong (step s op) ops
    decidable_of_iff _ along_cons.symm

/-- An invariant of one step is an invariant of every run whose steps meet `P`. -/
theorem invariant {I : S → Prop} (h0 : I s) (hstep : ∀ s op, I s → P s op → I (step s op))
    {ops : List Op} (hP : Along step P s ops) : I (run step s ops) := by
  induction ops using List.reverseRecOn with
  | nil => exact h0
  | append_singleton ops op ih =>
    rw [along_concat] at hP
    rw [run_concat]
    exact hstep _ _ (ih hP.1) hP.2

/-- Conditions that agree in the states of a run. -/
theorem along_congr (h : ∀ pre op, P (run step s pre) op ↔ Q (run step s pre) op) {ops : List Op} :
    Along step P s ops ↔ Along step Q s ops :=
  ⟨fun hP pre op hp => (h pre op).mp (hP pre op hp), fun hQ pre op hp =>
    (h pre op).mpr (hQ pre op hp)⟩

/-- A relation that one step of both machines keeps exactly if it meets `P` holds throughout their
runs exactly if all steps meet `P`. -/
theorem simulation_iff_along {R : S → A → Prop} (h0 : R s a)
    (hstep : ∀ pre op, R (run step s pre) (run astep a pre) →
      (R (step (run step s pre) op) (astep (run astep a pre) op) ↔ P (run step s pre) op))
    {ops : List Op} :
    (∀ pre, pre <+: ops → R (run step s pre) (run astep a pre)) ↔ Along step P s ops := by
  constructor
  · intro h pre op hp
    have hlast := h _ hp
    rw [run_concat, run_concat] at hlast
    exact (hstep pre op (h pre ((List.prefix_append pre [op]).trans hp))).mp hlast
  · intro hP pre hpre
    induction pre using List.reverseRecOn with
    | nil => exact h0
    | append_singleton pre op ih =>
      rw [run_concat, run_concat]
      exact (hstep pre op (ih ((List.prefix_append pre [op]).trans hpre))).mpr (hP pre op hpre)

/-- What one step keeps exactly if it meets `P` holds throughout a run exactly if all its steps meet
`P`. -/
theorem always_iff_along {I : S → Prop} (h0 : I s)
    (hstep : ∀ pre op, I (run step s pre) → (I (step (run step s pre) op) ↔ P (run step s pre) op))
    {ops : List Op} : (∀ pre, pre <+: ops → I (run step s pre)) ↔ Along step P s ops :=
  @simulation_iff_along S S Op step step P s s (fun s _ => I s) h0 hstep ops

/-- A relation kept by one step of both machines relates the ends of their runs. -/
theorem simulation {R : S → A → Prop} (h0 : R s a)
    (hstep : ∀ s a op, R s a → P s op → R (step s op) (astep a op))
    {ops : List Op} (hP : Along step P s ops) : R (run step s ops) (run astep a ops) := by
  induction ops using List.reverseRecOn with
  | nil => exact h0
  | append_singleton ops op ih =>
    rw [along_concat] at hP
    rw [run_concat, run_concat]
    exact hstep _ _ _ (ih hP.1) hP.2

end Runs
