import Cfengine.FilesNames
import Cfengine.Theory.Joined
import Cfengine.Theory.PathStack

/-!
# `CompressPath` is lexical normalisation

`CompressPath` resolves the nodes of an absolute path on a stack, which it keeps as a string: the
nodes on the stack, each behind a `/`, or `/` alone at the root. `ChopLastNode` pops the stack,
and `AddSlash` with `JoinPath` pushes onto it, as long as there is room in the buffer
(`compressPath_resolve`). There has to be room at every node, not only at the last one:
`compressPath_no_room` is a path that leads back to `/` and fails on the way.
-/

namespace Cfengine
open PathStack

/-! ## The stack as a string -/

abbrev NodeSkip (node : CString) : Prop := node = [] ∨ node = ['.']

abbrev NodeUp (node : CString) : Prop := node = ['.', '.']

/-- Where a path of these nodes leads, from the root. -/
def resolvePath (nodes : List CString) : List CString := resolve NodeSkip NodeUp nodes

/-- `/`, followed by the nodes joined with `/`. -/
def pathText (stack : List CString) : CString := '/' :: ['/'].intercalate stack

/-- What the next node is appended to, behind a `/`. -/
def pathPrefix (stack : List CString) : CString := stack.flatMap ('/' :: ·)

/-- What the nodes on the stack are: not empty, and without separators. -/
def StackWf (stack : List CString) : Prop := ∀ node ∈ stack, node ≠ [] ∧ '/' ∉ node

/-- The text of the stack leaves the margin of the buffer free. -/
abbrev HasRoom (stack : List CString) : Prop :=
  (pathText stack).length ≤ cfBufSize - cfBufferMargin

variable {stack nodes : List CString} {node path sp : CString}

theorem pathText_of_ne_nil (h : stack ≠ []) : pathText stack = pathPrefix stack := by
  induction stack with
  | nil => exact absurd rfl h
  | cons node stack ih =>
    cases stack with
    | nil => simp [pathText, pathPrefix]
    | cons node' stack =>
      have hrest := ih (List.cons_ne_nil _ _)
      rw [pathText] at hrest
      rw [pathText, List.intercalate_cons_cons, pathPrefix, List.flatMap_cons, ← pathPrefix,
        ← hrest, List.append_assoc, List.singleton_append, List.cons_append]

theorem pathText_concat : pathText (stack ++ [node]) = pathPrefix stack ++ '/' :: node := by
  rw [pathText_of_ne_nil (by simp), pathPrefix, pathPrefix, List.flatMap_append]
  simp

theorem length_pathText_le (h : nodes <+: stack) :
    (pathText nodes).length ≤ (pathText stack).length := by
  obtain ⟨rest, rfl⟩ := h
  by_cases hnodes : nodes = []
  · subst hnodes
    exact Nat.succ_le_succ (Nat.zero_le _)
  · rw [pathText_of_ne_nil hnodes, pathText_of_ne_nil (List.append_ne_nil_of_left_ne_nil hnodes _)]
    simp [pathPrefix]

theorem StackWf.push (h : StackWf stack) (hnode : '/' ∉ node) :
    StackWf (push NodeSkip NodeUp stack node) := by
  by_cases hskip : NodeSkip node
  · rwa [push_of_skip hskip]
  by_cases hup : NodeUp node
  · rw [push_of_up hskip hup]
    exact fun node hmem => h node (List.dropLast_subset _ hmem)
  · rw [push_of_ordinary ⟨hskip, hup⟩]
    refine List.forall_mem_append.mpr ⟨h, List.forall_mem_singleton.mpr ⟨?_, hnode⟩⟩
    exact fun hnil => hskip (.inl hnil)

/-! ## The string operations on the stack -/

theorem lastFileSeparator.loop_append (h : '/' ∉ node) {j : Nat} (hj : j ≤ node.length) :
    loop (path ++ '/' :: node) (path.length + 1 + j) = some path.length := by
  induction j with
  | zero =>
    rw [Nat.add_zero, loop, List.getElem?_append_right (Nat.le_refl _), Nat.sub_self]
    rfl
  | succ j ih =>
    have hget : (path ++ '/' :: node)[path.length + 1 + j]? = some node[j] := by
      rw [List.getElem?_append_right (by omega),
        show path.length + 1 + j - path.length = j + 1 by omega, List.getElem?_cons_succ,
        List.getElem?_eq_getElem]
    have hsep : isFileSep node[j] = false :=
      decide_eq_false fun heq => h (heq ▸ List.getElem_mem _)
    rw [← Nat.add_assoc, loop, hget, Option.any_some, hsep, if_neg Bool.false_ne_true]
    exact ih (by omega)

theorem lastFileSeparator_append (h : '/' ∉ node) :
    lastFileSeparator (path ++ '/' :: node) = some path.length := by
  have hlen : (path ++ '/' :: node).length = path.length + 1 + node.length := by
    simp only [List.length_append, List.length_cons]
    omega
  rw [lastFileSeparator, hlen, lastFileSeparator.loop_append h (Nat.le_refl _)]

/-- `ChopLastNode` pops the stack, and stays at the root. -/
theorem chopLastNode_pathText (h : StackWf stack) :
    chopLastNode (pathText stack) = (true, pathText stack.dropLast) := by
  rcases List.eq_nil_or_concat' stack with rfl | ⟨stack, node, rfl⟩
  · rfl
  · have hnode := (h node (by simp)).2
    rw [pathText_concat, chopLastNode, lastFileSeparator_append hnode, List.dropLast_concat]
    simp only [List.take_left']
    by_cases hnil : stack = []
    · subst hnil
      rfl
    · have hne : pathPrefix stack ≠ [] := by
        obtain ⟨node', stack, rfl⟩ := List.exists_cons_of_ne_nil hnil
        exact List.cons_ne_nil _ _
      rw [if_neg hne, pathText_of_ne_nil hnil]

theorem addSlash_of_slash : addSlash (path ++ ['/']) = path ++ ['/'] := by
  simp [addSlash, isFileSep]

theorem addSlash_pathText (h : StackWf stack) :
    addSlash (pathText stack) = pathPrefix stack ++ ['/'] := by
  rcases List.eq_nil_or_concat' stack with rfl | ⟨stack, node, rfl⟩
  · rfl
  · obtain ⟨hne, hnode⟩ := h node (by simp)
    obtain ⟨init, c, rfl⟩ := (List.eq_nil_or_concat' node).resolve_left hne
    have hc : isFileSep c = false := decide_eq_false fun heq => hnode (by simp [heq])
    have hsplit : pathPrefix (stack ++ [init ++ [c]]) = pathPrefix stack ++ '/' :: init ++ [c] := by
      simp [pathPrefix]
    rw [pathText_of_ne_nil (by simp), addSlash, if_neg (by simp [pathPrefix])]
    have hslash : '/' ∈ pathPrefix (stack ++ [init ++ [c]]) := by simp [pathPrefix]
    simp only [hsplit, List.getLast?_concat, Option.any_some, hc, if_neg Bool.false_ne_true,
      hsplit ▸ hslash, true_and, not_true_eq_false, and_false, if_false, fileSeparatorStr, ite_self]

theorem chop_of_slash : chop (path ++ ['/']) = path ++ ['/'] := by
  rw [chop, List.rdropWhile_concat_neg _ _ _ (by decide), ite_self]

/-- `JoinPath` pushes onto the stack if there is room. -/
theorem joinPath_pathPrefix : joinPath (pathPrefix stack ++ ['/']) node =
    if HasRoom (stack ++ [node]) then some (pathText (stack ++ [node])) else none := by
  have heq : pathPrefix stack ++ ['/'] ++ node = pathText (stack ++ [node]) := by
    rw [pathText_concat, List.append_assoc, List.singleton_append]
  rw [joinPath, chop_of_slash, addSlash_of_slash, ← List.length_append, heq]
  by_cases hroom : HasRoom (stack ++ [node])
  · rw [if_pos hroom]
    exact if_neg (Nat.not_lt.mpr hroom)
  · rw [if_neg hroom]
    exact if_pos (Nat.lt_of_not_le hroom)

/-! ## The loop -/

theorem push_nil : push NodeSkip NodeUp stack [] = stack := push_of_skip (.inl rfl)

theorem splitOn_slash : ('/' :: sp).splitOn '/' = [] :: sp.splitOn '/' :=
  List.splitOn_append_cons_self_of_not_mem (List.not_mem_nil (a := '/')) sp

/-- A node, and the nodes behind it. -/
theorem splitOn_node (hnode : '/' ∉ node) (hsp : sp = [] ∨ sp.head? = some '/') :
    ∃ rest, (node ++ sp).splitOn '/' = node :: rest ∧ sp.splitOn '/' = [] :: rest := by
  rcases hsp with rfl | hsp
  · exact ⟨[], by rw [List.append_nil, List.splitOn_eq_singleton hnode], List.splitOn_nil _⟩
  · obtain ⟨sp, rfl⟩ := List.head?_eq_some_iff.mp hsp
    exact ⟨sp.splitOn '/', List.splitOn_append_cons_self_of_not_mem hnode sp, splitOn_slash⟩

/-- There is room for what each initial part of the nodes leads to. -/
def Fits (stack nodes : List CString) : Prop :=
  ∀ init, init <+: nodes → HasRoom (init.foldl (push NodeSkip NodeUp) stack)

theorem fits_nil : Fits stack [] ↔ HasRoom stack := by
  refine ⟨fun h => h [] List.nil_prefix, fun h init hinit => ?_⟩
  rw [List.prefix_nil.mp hinit]
  exact h

theorem fits_cons :
    Fits stack (node :: nodes) ↔ HasRoom stack ∧ Fits (push NodeSkip NodeUp stack node) nodes := by
  constructor
  · exact fun h => ⟨h [] List.nil_prefix,
      fun init hinit => h (node :: init) (List.cons_prefix_cons.mpr ⟨rfl, hinit⟩)⟩
  · intro h init hinit
    cases init with
    | nil => exact h.1
    | cons node' init =>
      obtain ⟨rfl, hinit'⟩ := List.cons_prefix_cons.mp hinit
      exact h.2 init hinit'

theorem Fits.hasRoom (h : Fits stack nodes) : HasRoom stack := h [] List.nil_prefix

/-- An empty node makes no difference. -/
theorem fits_cons_nil : Fits stack ([] :: nodes) ↔ Fits stack nodes := by
  rw [fits_cons, push_nil]
  exact ⟨And.right, fun h => ⟨h.hasRoom, h⟩⟩

variable (sp) in
/-- What the loop takes for the next node. -/
theorem exists_node {c : Char} (hc : isFileSep c = false) :
    ∃ node next, (c :: sp).takeWhile (!isFileSep ·) = node ∧
      (c :: sp).dropWhile (!isFileSep ·) = next ∧ c :: sp = node ++ next ∧ node ≠ [] ∧
      '/' ∉ node ∧ (next = [] ∨ next.head? = some '/') := by
  refine ⟨_, _, rfl, rfl, List.takeWhile_append_dropWhile.symm, ?_, fun hmem => ?_, ?_⟩
  · simp [hc]
  · simpa [isFileSep] using List.mem_takeWhile_imp hmem
  · have hhead := List.head?_dropWhile_not (!isFileSep ·) (c :: sp)
    cases hnext : (c :: sp).dropWhile (!isFileSep ·) with
    | nil => exact .inl rfl
    | cons d next =>
      rw [hnext] at hhead
      exact .inr (by simpa [isFileSep] using hhead)

/-- One node: the loop goes on with the stack that it leads to if there is room for it. -/
theorem compressPath.loop_node (fuel : Nat) {c : Char} {next : CString} (hwf : StackWf stack)
    (hroom : HasRoom stack) (hc : isFileSep c = false)
    (htake : (c :: sp).takeWhile (!isFileSep ·) = node)
    (hdrop : (c :: sp).dropWhile (!isFileSep ·) = next) (hne : node ≠ [])
    (hlen : node.length ≤ cfMaxLinkSize) :
    ∃ dest, loop (fuel + 1) (c :: sp) (pathText stack) =
      if HasRoom (push NodeSkip NodeUp stack node) then
        loop fuel next (pathText (push NodeSkip NodeUp stack node))
      else (false, dest) := by
  rw [loop, hc, if_neg Bool.false_ne_true]
  simp only [htake, hdrop]
  rw [if_neg (by omega)]
  by_cases hdot : node = ['.']
  · rw [if_pos hdot, push_of_skip (.inr hdot)]
    exact ⟨[], (if_pos hroom).symm⟩
  have hskip : ¬ NodeSkip node := fun h => h.elim hne hdot
  rw [if_neg hdot]
  by_cases hup : NodeUp node
  · rw [if_pos hup, chopLastNode_pathText hwf, if_pos rfl, push_of_up hskip hup]
    have hpop : HasRoom stack.dropLast :=
      Nat.le_trans (length_pathText_le (List.dropLast_prefix stack)) hroom
    exact ⟨[], (if_pos hpop).symm⟩
  · rw [if_neg hup, addSlash_pathText hwf, joinPath_pathPrefix, push_of_ordinary ⟨hskip, hup⟩]
    refine ⟨pathPrefix stack ++ ['/'], ?_⟩
    by_cases hpush : HasRoom (stack ++ [node])
    · rw [if_pos hpush, if_pos hpush]
    · rw [if_neg hpush, if_neg hpush]

/-- The loop resolves the nodes from `sp` on, unless it runs out of space. -/
theorem compressPath.loop_pathText {fuel : Nat} (hfuel : sp.length ≤ fuel) (hwf : StackWf stack)
    (hroom : HasRoom stack) (hnodes : ∀ node ∈ sp.splitOn '/', node.length ≤ cfMaxLinkSize) :
    ((loop fuel sp (pathText stack)).1 = true ↔ Fits stack (sp.splitOn '/')) ∧
      (Fits stack (sp.splitOn '/') → (loop fuel sp (pathText stack)).2 =
        pathText ((sp.splitOn '/').foldl (push NodeSkip NodeUp) stack)) := by
  have hend : ∀ fuel, loop fuel [] (pathText stack) = (true, pathText stack) := fun fuel => by
    rw [loop]
  induction fuel generalizing sp stack with
  | zero =>
    obtain rfl := List.length_eq_zero_iff.mp (Nat.le_zero.mp hfuel)
    simp [hend, fits_cons_nil, fits_nil, hroom, push_nil]
  | succ fuel ih =>
    cases sp with
    | nil => simp [hend, fits_cons_nil, fits_nil, hroom, push_nil]
    | cons c sp =>
      cases hc : isFileSep c with
      | true =>
        obtain rfl : c = '/' := of_decide_eq_true hc
        have hlen : sp.length ≤ fuel := by simpa using hfuel
        rw [splitOn_slash] at hnodes ⊢
        rw [loop, if_pos hc, List.foldl_cons, push_nil, fits_cons_nil]
        exact ih hlen hwf hroom (List.forall_mem_cons.mp hnodes).2 fun fuel => by rw [loop]
      | false =>
        obtain ⟨node, next, htake, hdrop, hsp, hne, hslash, hnext⟩ := exists_node sp hc
        obtain ⟨rest, hsplit, hsplit'⟩ := splitOn_node hslash hnext
        have hlen : next.length ≤ fuel := by
          have hlensp := congrArg List.length hsp
          have hpos := List.length_pos_iff.mpr hne
          simp only [List.length_append, List.length_cons] at hlensp hfuel
          omega
        rw [hsp, hsplit] at hnodes
        obtain ⟨hnode, hrest⟩ := List.forall_mem_cons.mp hnodes
        obtain ⟨dest, hloop⟩ := loop_node fuel hwf hroom hc htake hdrop hne hnode
        rw [hloop, hsp, hsplit, fits_cons, List.foldl_cons, and_iff_right hroom]
        by_cases hpush : HasRoom (push NodeSkip NodeUp stack node)
        · -- after the node the loop goes on at the separator behind it, which is skipped
          have hnodes' : ∀ node ∈ next.splitOn '/', node.length ≤ cfMaxLinkSize := by
            rw [hsplit']
            exact List.forall_mem_cons.mpr ⟨Nat.zero_le _, hrest⟩
          have hcont := ih hlen (hwf.push hslash) hpush hnodes' fun fuel => by rw [loop]
          rw [hsplit', fits_cons_nil, List.foldl_cons, push_nil] at hcont
          rw [if_pos hpush]
          exact hcont
        · rw [if_neg hpush]
          exact ⟨⟨Bool.noConfusion, fun h => absurd h.hasRoom hpush⟩,
            fun h => absurd h.hasRoom hpush⟩

/-! ## `CompressPath` -/

theorem stackWf_resolvePath (h : ∀ node ∈ nodes, '/' ∉ node) : StackWf (resolvePath nodes) := by
  intro node hnode
  obtain ⟨hmem, hord⟩ := mem_resolve hnode
  exact ⟨fun hnil => hord.1 (.inl hnil), h node hmem⟩

/-- The nodes of the text of a stack. -/
theorem splitOn_pathText (h : StackWf stack) :
    (pathText stack).splitOn '/' = [] :: if stack = [] then [[]] else stack := by
  rw [pathText, splitOn_slash]
  split
  · rename_i hnil
    rw [hnil, List.intercalate_nil, List.splitOn_nil]
  · rename_i hne
    rw [List.splitOn_intercalate '/' (fun node hnode => (h node hnode).2) hne]

/-- An absolute path is resolved exactly if there is room for what each initial part of it leads
to. -/
theorem compressPath_absolute (sp : CString)
    (hnodes : ∀ node ∈ ('/' :: sp).splitOn '/', node.length ≤ cfMaxLinkSize) :
    ((compressPath ('/' :: sp)).1 = true ↔ Fits [] (('/' :: sp).splitOn '/')) ∧
      (Fits [] (('/' :: sp).splitOn '/') →
        (compressPath ('/' :: sp)).2 = pathText (resolvePath (('/' :: sp).splitOn '/'))) := by
  rw [splitOn_slash] at hnodes ⊢
  rw [fits_cons_nil, resolvePath, resolve, List.foldl_cons, push_nil]
  exact compressPath.loop_pathText (Nat.le_succ sp.length) (List.forall_mem_nil _)
    (show HasRoom [] by decide) (List.forall_mem_cons.mp hnodes).2

theorem compressPath_of_fits {src : CString} (habs : src.head? = some '/')
    (hnodes : ∀ node ∈ src.splitOn '/', node.length ≤ cfMaxLinkSize)
    (hfits : Fits [] (src.splitOn '/')) :
    compressPath src = (true, pathText (resolvePath (src.splitOn '/'))) := by
  obtain ⟨sp, rfl⟩ := List.head?_eq_some_iff.mp habs
  obtain ⟨hret, hdest⟩ := compressPath_absolute sp hnodes
  exact Prod.ext (hret.mpr hfits) (hdest hfits)

/-- **`CompressPath` is lexical normalisation** for an absolute path whose nodes are not too long,
as long as there is room for what each initial part of the path leads to: the result is the text
of the resolved path, which has no node that is empty, `.` or `..`, and is its own result. -/
theorem compressPath_resolve {src : CString} (habs : src.head? = some '/')
    (hnodes : ∀ node ∈ src.splitOn '/', node.length ≤ cfMaxLinkSize)
    (hfits : ∀ nodes, nodes <+: src.splitOn '/' →
      (pathText (resolvePath nodes)).length < cfBufSize - cfBufferMargin) :
    let stack := resolvePath (src.splitOn '/')
    compressPath src = (true, pathText stack) ∧
      (∀ node ∈ stack, node ≠ [] ∧ node ≠ ['.'] ∧ node ≠ ['.', '.'] ∧ '/' ∉ node) ∧
      compressPath (pathText stack) = (true, pathText stack) := by
  intro stack
  have hord : ∀ node ∈ stack, Ordinary NodeSkip NodeUp node := fun node hnode =>
    (mem_resolve hnode).2
  have hwf : StackWf stack :=
    stackWf_resolvePath fun node hnode => Joined.not_mem_of_mem_splitOn hnode
  refine ⟨compressPath_of_fits habs hnodes fun init hinit => Nat.le_of_lt (hfits init hinit),
    fun node hnode => ?_, ?_⟩
  · obtain ⟨hskip, hup⟩ := hord node hnode
    exact ⟨fun h => hskip (.inl h), fun h => hskip (.inr h), hup, (hwf node hnode).2⟩
  · -- every initial part of the result leads to an initial part of the stack
    have hsplit := splitOn_pathText hwf
    have hroom : HasRoom stack := Nat.le_of_lt (hfits _ List.prefix_rfl)
    have hself : resolvePath ((pathText stack).splitOn '/') = stack := by
      rw [hsplit]
      split
      · rename_i hnil
        rw [hnil]
        rfl
      · rw [resolvePath, resolve, List.foldl_cons, push_nil]
        exact resolve_of_ordinary hord
    have hfits' : Fits [] ((pathText stack).splitOn '/') := by
      rw [hsplit, fits_cons_nil]
      split
      · rw [fits_cons_nil, fits_nil]
        decide
      · intro init hinit
        rw [foldl_push_of_ordinary fun node hnode => hord node (hinit.subset hnode)]
        exact Nat.le_trans (length_pathText_le hinit) hroom
    have hnodes' : ∀ node ∈ (pathText stack).splitOn '/', node.length ≤ cfMaxLinkSize := by
      rw [hsplit]
      refine List.forall_mem_cons.mpr ⟨Nat.zero_le _, ?_⟩
      split
      · exact List.forall_mem_singleton.mpr (Nat.zero_le _)
      · exact fun node hnode => hnodes node (mem_resolve hnode).1
    rw [compressPath_of_fits (by rfl) hnodes' hfits', hself]

theorem compressPath_resolve_dots :
    compressPath "/a/../b/./c".toList = (true, "/b/c".toList) := by
  have hfits : ∀ nodes ∈ ("/a/../b/./c".toList.splitOn '/').inits,
      (pathText (resolvePath nodes)).length < cfBufSize - cfBufferMargin := by decide
  have habs : "/a/../b/./c".toList.head? = some '/' := rfl
  exact (compressPath_resolve habs (by decide)
    fun nodes hnodes => hfits nodes ((List.mem_inits _ _).mpr hnodes)).1

/-- Down 16 nodes of the greatest length, and back to the root. -/
def longWayBack : CString :=
  (List.replicate 16 ('/' :: List.replicate 256 'a')).flatten ++
    (List.replicate 16 ['/', '.', '.']).flatten

/-- The result would be `/`, but there is no room on the way. -/
theorem compressPath_no_room :
    longWayBack.head? = some '/' ∧
      (∀ node ∈ longWayBack.splitOn '/', node.length ≤ cfMaxLinkSize) ∧
      (pathText (resolvePath (longWayBack.splitOn '/'))).length < cfBufSize - cfBufferMargin ∧
      (compressPath longWayBack).1 = false := by
  have hnodes : ∀ node ∈ longWayBack.splitOn '/', node.length ≤ cfMaxLinkSize := by decide +kernel
  have hroom : ¬ HasRoom (resolvePath ((longWayBack.splitOn '/').take 17)) := by decide +kernel
  refine ⟨rfl, hnodes, by decide +kernel, Bool.eq_false_iff.mpr fun hret => ?_⟩
  have hfits := (compressPath_absolute longWayBack.tail hnodes).1.mp hret
  exact hroom (hfits _ (List.take_prefix _ _))

end Cfengine
