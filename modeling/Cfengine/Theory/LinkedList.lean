import Mathlib

/-!
# Linked lists with addresses

The nodes of a linked list are told apart by their addresses, and a pointer is the address of a
node. A list only grows, by a node behind a given one or at an end, so its data stays a sublist.
What a pointer reaches is said of the list split at its node.
-/

namespace LinkedList

/-- A node. -/
structure Node (α : Type*) where
  address : Nat
  data : α
deriving DecidableEq

variable {α : Type*} {l before behind : List (Node α)} {node : Node α} {a : Nat} {d : α}

/-- The data in the list. -/
def contents (l : List (Node α)) : List α := l.map Node.data

/-- No two nodes have one address. -/
def Distinct (l : List (Node α)) : Prop := (l.map Node.address).Nodup

/-- An address that is not in use. -/
def fresh (l : List (Node α)) : Nat := (l.map Node.address).sum + 1

/-- The nodes from an address on. -/
def nodesFrom (l : List (Node α)) (a : Nat) : List (Node α) := l.dropWhile (·.address ≠ a)

/-- The nodes in front of an address. -/
def nodesBefore (l : List (Node α)) (a : Nat) : List (Node α) := l.takeWhile (·.address ≠ a)

/-- A new node behind the node at an address, or at the end if there is none. -/
def insertAfter (l : List (Node α)) (a : Nat) (d : α) : List (Node α) :=
  match nodesFrom l a with
  | [] => l ++ [⟨fresh l, d⟩]
  | node :: behind => nodesBefore l a ++ node :: ⟨fresh l, d⟩ :: behind

theorem contents_append : contents (before ++ behind) = contents before ++ contents behind :=
  List.map_append

theorem contents_cons : contents (node :: l) = node.data :: contents l := rfl

theorem nodesBefore_append_nodesFrom : nodesBefore l a ++ nodesFrom l a = l :=
  List.takeWhile_append_dropWhile

theorem fresh_not_mem : fresh l ∉ l.map Node.address := by
  intro h
  exact Nat.not_succ_le_self _ (List.le_sum_of_mem h)

/-! ## At a split -/

theorem Distinct.not_mem_before (h : Distinct (before ++ node :: behind)) :
    ∀ x ∈ before, x.address ≠ node.address := by
  intro x hx heq
  rw [Distinct, List.map_append, List.map_cons] at h
  exact List.disjoint_of_nodup_append h (List.mem_map_of_mem hx) (heq ▸ List.mem_cons_self)

theorem nodesFrom_split (h : Distinct (before ++ node :: behind)) :
    nodesFrom (before ++ node :: behind) node.address = node :: behind := by
  rw [nodesFrom, List.dropWhile_append_of_pos]
  · rw [List.dropWhile_cons_of_neg (by simp)]
  · intro x hx
    exact decide_eq_true (h.not_mem_before x hx)

theorem nodesBefore_split (h : Distinct (before ++ node :: behind)) :
    nodesBefore (before ++ node :: behind) node.address = before := by
  have happend := nodesBefore_append_nodesFrom (l := before ++ node :: behind) (a := node.address)
  rw [nodesFrom_split h] at happend
  exact List.append_cancel_right happend

theorem insertAfter_split (h : Distinct (before ++ node :: behind)) :
    insertAfter (before ++ node :: behind) node.address d =
      before ++ node :: ⟨fresh (before ++ node :: behind), d⟩ :: behind := by
  rw [insertAfter, nodesFrom_split h, nodesBefore_split h]

/-! ## Growth -/

/-- One new node somewhere in the list. -/
def Grown (l : List (Node α)) (d : α) (l' : List (Node α)) : Prop :=
  ∃ before behind, l = before ++ behind ∧ l' = before ++ ⟨fresh l, d⟩ :: behind

theorem grown_insertAfter : Grown l d (insertAfter l a d) := by
  rw [insertAfter]
  split
  · exact ⟨l, [], (List.append_nil l).symm, rfl⟩
  · rename_i node behind hfrom
    refine ⟨nodesBefore l a ++ [node], behind, ?_, by rw [List.append_assoc]; rfl⟩
    rw [List.append_assoc, List.singleton_append, ← hfrom, nodesBefore_append_nodesFrom]

theorem grown_cons : Grown l d (⟨fresh l, d⟩ :: l) := ⟨[], l, rfl, rfl⟩

theorem grown_concat : Grown l d (l ++ [⟨fresh l, d⟩]) := ⟨l, [], (List.append_nil l).symm, rfl⟩

theorem Grown.distinct {l' : List (Node α)} (h : Grown l d l') (hl : Distinct l) : Distinct l' := by
  obtain ⟨before, behind, rfl, rfl⟩ := h
  rw [Distinct, List.map_append, List.map_cons, List.nodup_middle, List.nodup_cons,
    ← List.map_append]
  exact ⟨fresh_not_mem, hl⟩

theorem Grown.sublist {l' : List (Node α)} (h : Grown l d l') :
    (contents l).Sublist (contents l') := by
  obtain ⟨before, behind, rfl, rfl⟩ := h
  rw [contents_append, contents_append, contents_cons]
  exact List.Sublist.append_left (List.sublist_cons_self _ _) _

theorem Grown.perm {l' : List (Node α)} (h : Grown l d l') :
    (contents l').Perm (d :: contents l) := by
  obtain ⟨before, behind, rfl, rfl⟩ := h
  rw [contents_append, contents_append, contents_cons]
  exact List.perm_middle

end LinkedList
