import Mathlib

/-!
# Paths as stacks

A path is resolved node by node: a node is skipped, goes up one level (which does nothing at the
root), or goes down to itself. What is reached is the stack of the nodes gone down to.
-/

namespace PathStack

section
variable {α : Type*} (skip up : α → Prop) [DecidablePred skip] [DecidablePred up]

/-- One node, from where the nodes before it lead. -/
def push (stack : List α) (node : α) : List α :=
  if skip node then stack else if up node then stack.dropLast else stack ++ [node]

def resolve (nodes : List α) : List α := nodes.foldl (push skip up) []

/-- A node that goes down. -/
def Ordinary (node : α) : Prop := ¬ skip node ∧ ¬ up node

end

variable {α : Type*} {skip up : α → Prop} [DecidablePred skip] [DecidablePred up]
  {stack nodes : List α} {node : α}

theorem push_of_skip (h : skip node) : push skip up stack node = stack := if_pos h

theorem push_of_up (hskip : ¬ skip node) (h : up node) :
    push skip up stack node = stack.dropLast := by
  rw [push, if_neg hskip, if_pos h]

theorem push_of_ordinary (h : Ordinary skip up node) :
    push skip up stack node = stack ++ [node] := by
  rw [push, if_neg h.1, if_neg h.2]

theorem foldl_push_of_ordinary (h : ∀ node ∈ nodes, Ordinary skip up node) :
    nodes.foldl (push skip up) stack = stack ++ nodes := by
  induction nodes generalizing stack with
  | nil => rw [List.foldl_nil, List.append_nil]
  | cons node nodes ih =>
    obtain ⟨hnode, hnodes⟩ := List.forall_mem_cons.mp h
    rw [List.foldl_cons, push_of_ordinary hnode, ih hnodes, List.append_assoc,
      List.singleton_append]

/-- What is gone down to is an ordinary node of the path. -/
theorem mem_foldl_push (h : node ∈ nodes.foldl (push skip up) stack) :
    node ∈ stack ∨ node ∈ nodes ∧ Ordinary skip up node := by
  induction nodes generalizing stack with
  | nil => exact .inl h
  | cons x nodes ih =>
    rcases ih h with hmem | ⟨hmem, hord⟩
    · by_cases hskip : skip x
      · rw [push_of_skip hskip] at hmem
        exact .inl hmem
      by_cases hup : up x
      · rw [push_of_up hskip hup] at hmem
        exact .inl (List.dropLast_subset _ hmem)
      · rw [push_of_ordinary ⟨hskip, hup⟩, List.mem_append, List.mem_singleton] at hmem
        refine hmem.imp_right ?_
        rintro rfl
        exact ⟨List.mem_cons_self, hskip, hup⟩
    · exact .inr ⟨List.mem_cons_of_mem _ hmem, hord⟩

theorem mem_resolve (h : node ∈ resolve skip up nodes) :
    node ∈ nodes ∧ Ordinary skip up node :=
  (mem_foldl_push h).resolve_left List.not_mem_nil

/-- A path of ordinary nodes is resolved to itself. -/
theorem resolve_of_ordinary (h : ∀ node ∈ nodes, Ordinary skip up node) :
    resolve skip up nodes = nodes := foldl_push_of_ordinary h

end PathStack
