import Cfengine.FilesEditline
import Cfengine.Theory.Joined

/-!
# Lines inserted in a whole file

A run that inserts leaves every selected line of the chunk in the file, so a second run finds them
all and makes no edit (`editFile_convergent`). But the code first asks whether the lines at the
location match the chunk as a pattern, and does nothing where they do: the promised lines need not
be there (`selected_lines_kept_iff`).
-/

namespace Cfengine
open LinkedList

/-! ## The lines of a chunk -/

section
variable {buf line chunk rest : CString} {lines : List CString}

theorem readLines_loop_newline :
    readLines.loop buf (line ++ '\n' :: rest) = readLines.loop buf line ++ readLines rest := by
  induction line generalizing buf with
  | nil => simp [readLines.loop, readLines]
  | cons c line ih =>
    rw [List.cons_append, readLines.loop, readLines.loop, ih, ih]
    split
    · rfl
    · rfl

theorem readLines_loop_line (hnewline : '\n' ∉ line) (hlen : buf.length + line.length ≤ 2048) :
    readLines.loop buf line = [buf ++ line] := by
  induction line generalizing buf with
  | nil => rw [readLines.loop, List.append_nil]
  | cons c line ih =>
    rw [List.mem_cons, not_or] at hnewline
    rw [List.length_cons] at hlen
    have hfull : ¬ buf.length = 2048 := by omega
    rw [readLines.loop, if_neg (by simpa [hfull] using Ne.symm hnewline.1), ih hnewline.2,
      List.append_assoc, List.singleton_append]
    rw [List.length_append, List.length_singleton]
    omega

theorem readLines_intercalate (hlines : lines ≠ []) :
    readLines (['\n'].intercalate lines) = lines.flatMap readLines := by
  induction lines with
  | nil => exact absurd rfl hlines
  | cons line lines ih =>
    cases lines with
    | nil => simp
    | cons line' lines =>
      rw [List.intercalate_cons_cons, List.append_assoc, List.singleton_append, readLines,
        readLines_loop_newline, ih (List.cons_ne_nil _ _)]
      rfl

/-- The lines of a chunk are read one by one. -/
theorem readLines_eq_flatMap : readLines chunk = (chunk.splitOn '\n').flatMap readLines := by
  rw [← readLines_intercalate (List.splitOn_ne_nil '\n' chunk), List.intercalate_splitOn]

theorem readLines_line (hnewline : '\n' ∉ line) (hlen : line.length ≤ 2048) :
    readLines line = [line] :=
  readLines_loop_line hnewline (by rwa [List.length_nil, Nat.zero_add])

theorem readLines_eq_splitOn (h : ∀ line ∈ chunk.splitOn '\n', line.length ≤ 2048) :
    readLines chunk = chunk.splitOn '\n' := by
  have hread : ∀ line ∈ chunk.splitOn '\n', readLines line = [line] := fun line hline =>
    readLines_line (Joined.not_mem_of_mem_splitOn hline) (h line hline)
  rw [readLines_eq_flatMap, List.flatMap_congr hread, List.flatMap_singleton']

/-- A line that fits in the buffer is read as it is. -/
theorem mem_readLines (h : line ∈ chunk.splitOn '\n') (hlen : line.length ≤ 2048) :
    line ∈ readLines chunk := by
  rw [readLines_eq_flatMap, List.mem_flatMap]
  refine ⟨line, h, ?_⟩
  rw [readLines_line (Joined.not_mem_of_mem_splitOn h) hlen]
  exact List.mem_singleton_self line

theorem length_of_mem_readLines_loop (hbuf : buf.length ≤ 2048)
    (h : line ∈ readLines.loop buf chunk) : line.length ≤ 2048 := by
  induction chunk generalizing buf with
  | nil =>
    rw [readLines.loop, List.mem_singleton] at h
    exact h ▸ hbuf
  | cons c chunk ih =>
    rw [readLines.loop] at h
    split at h
    · rcases List.mem_cons.mp h with rfl | h
      · exact hbuf
      · exact ih (Nat.zero_le _) h
    · rename_i hfull
      refine ih ?_ h
      simp only [Bool.or_eq_true, decide_eq_true_eq, not_or] at hfull
      rw [List.length_append, List.length_singleton]
      omega

theorem length_of_mem_readLines (h : line ∈ readLines chunk) : line.length ≤ 2048 :=
  length_of_mem_readLines_loop (Nat.zero_le _) h

end

/-! ## Files and pointers into them -/

section
variable {lines : List CString} {line : CString} {file before behind : List FileItem} {p : FileItem}

theorem contents_loadFileAsItemList : contents (loadFileAsItemList lines) = lines := by
  refine List.ext_getElem (by simp [contents, loadFileAsItemList]) fun i h h' => ?_
  simp [contents, loadFileAsItemList]

theorem distinct_loadFileAsItemList : Distinct (loadFileAsItemList lines) := by
  have haddress : (loadFileAsItemList lines).map Node.address = List.range lines.length := by
    refine List.ext_getElem (by simp [loadFileAsItemList]) fun i h h' => ?_
    simp [loadFileAsItemList]
  rw [Distinct, haddress]
  exact List.nodup_range

@[simp] theorem items_null : ItemPtr.items file .null = [] := rfl

/-- The items from the first one on are the file. -/
theorem items_startPtr : (startPtr file).items file = file := by
  cases file with
  | nil => rfl
  | cons ip rest => rw [startPtr, ItemPtr.items, nodesFrom, List.dropWhile_cons_of_neg (by simp)]

theorem advance_split (h : Distinct (before ++ p :: behind)) :
    ItemPtr.advance (before ++ p :: behind) (.item p.address) = startPtr behind := by
  rw [ItemPtr.advance, ItemPtr.next, ItemPtr.items, nodesFrom_split h]
  rfl

/-- The pointer behind an item with a new line behind it. -/
theorem advance_insertAfter (h : Distinct (before ++ p :: behind)) :
    ItemPtr.advance (insertAfter (before ++ p :: behind) p.address line) (.item p.address) =
      .item (fresh (before ++ p :: behind)) := by
  have hgrown := (grown_insertAfter (a := p.address) (d := line)).distinct h
  rw [insertAfter_split h] at hgrown ⊢
  exact (advance_split hgrown).trans rfl

/-- The item behind which a search has come. -/
def ptrBehind (prev : ItemPtr) (file : List FileItem) : ItemPtr :=
  (file.getLast?.map fun ip => ItemPtr.item ip.address).getD prev

theorem ptrBehind_cons {prev : ItemPtr} {ip : FileItem} :
    ptrBehind prev (ip :: file) = ptrBehind (.item ip.address) file := by
  rw [ptrBehind, List.getLast?_cons]
  cases h : file.getLast? with
  | none => simp [ptrBehind, h]
  | some last => simp [ptrBehind, h]

end

/-! ## One line -/

section
variable {env : EditEnv} {a : InsertionAttributes} {newline line string : CString}
  {s : EditContext} {file : List FileItem} {location prev beginPtr endPtr : ItemPtr}

/-- The policy of the promise is `exact_match`. -/
def InsertionAttributes.ExactPolicy (a : InsertionAttributes) : Prop :=
  a.insertMatch = [] ∨ a.insertMatch.head? = some .exactMatch

theorem matchPolicy_exact (hexact : a.ExactPolicy) :
    matchPolicy env a newline line = decide (newline = line) := by
  rw [matchPolicy]
  rcases hexact with hnil | hhead
  · rw [hnil]
  · obtain ⟨rest, hcons⟩ := List.head?_eq_some_iff.mp hhead
    rw [hcons]

theorem items_suffix {ptr : ItemPtr} : ptr.items file <:+ file := by
  cases ptr with
  | null | undefined => exact List.nil_suffix
  | item address => exact List.dropWhile_suffix _

theorem mem_of_isItemInRegion (hexact : a.ExactPolicy)
    (h : isItemInRegion (matchPolicy env a) file line beginPtr endPtr = true) :
    line ∈ contents file := by
  obtain ⟨ip, hip, hmatch⟩ := List.any_eq_true.mp h
  rw [matchPolicy_exact hexact, decide_eq_true_eq] at hmatch
  exact hmatch ▸ List.mem_map_of_mem (items_suffix.subset (List.takeWhile_subset _ hip))

/-- The region is the file. -/
theorem isItemInRegion_whole (hexact : a.ExactPolicy) :
    isItemInRegion (matchPolicy env a) file line (startPtr file) .null =
      decide (line ∈ contents file) := by
  have hall : (file.takeWhile fun ip => ItemPtr.item ip.address ≠ .null) = file :=
    List.takeWhile_eq_self_iff.mpr fun ip _ => rfl
  rw [isItemInRegion, items_startPtr, hall, Bool.eq_iff_iff, List.any_eq_true, decide_eq_true_eq,
    contents, List.mem_map]
  refine exists_congr fun ip => and_congr_right fun hip => ?_
  rw [matchPolicy_exact hexact, decide_eq_true_eq, eq_comm]

theorem mem_of_neighbourItemMatches (hexact : a.ExactPolicy) {pos : CfEditOrder}
    (h : neighbourItemMatches (matchPolicy env a) location line pos file = true) :
    line ∈ contents file := by
  induction file with
  | nil => cases h
  | cons ip rest ih =>
    rw [contents_cons]
    cases pos with
    | before =>
      rw [neighbourItemMatches] at h
      split at h
      · rw [matchPolicy_exact hexact, decide_eq_true_eq] at h
        exact h ▸ List.mem_cons_self
      · exact List.mem_cons_of_mem _ (ih h)
    | after =>
      rw [neighbourItemMatches] at h
      split at h
      · cases rest with
        | nil => cases h
        | cons next rest =>
          have hnext : matchPolicy env a line next.data = true := h
          rw [matchPolicy_exact hexact, decide_eq_true_eq] at hnext
          rw [hnext, contents_cons]
          exact List.mem_cons_of_mem _ List.mem_cons_self
      · exact List.mem_cons_of_mem _ (ih h)

theorem grown_insertItemAfter {ptr : ItemPtr} :
    Grown file line (insertItemAfter file ptr line) := by
  cases ptr with
  | null | undefined => exact grown_concat
  | item address => exact grown_insertAfter

/-- The pointer behind which a line is inserted. -/
def insertionPtr (pos : CfEditOrder) (location prev : ItemPtr) : ItemPtr :=
  match pos with
  | .before => prev
  | .after => location

theorem insertLineAtLocation_behind {p : FileItem} (hwarn : a.warn = false)
    (hptr : insertionPtr a.location.beforeAfter location prev = .item p.address)
    (hneighbour : (!a.hasSourcetype "preserve_block" && neighbourItemMatches (matchPolicy env a)
      location line a.location.beforeAfter s.fileStart) = false) :
    insertLineAtLocation env a line s location prev =
      (true, s.edit (insertAfter s.fileStart p.address line)) := by
  rw [insertLineAtLocation, hneighbour, hwarn]
  cases hpos : a.location.beforeAfter with
  | before =>
    rw [hpos] at hptr
    have hprev : prev = .item p.address := hptr
    rw [hprev]
    rfl
  | after =>
    rw [hpos] at hptr
    have hlocation : location = .item p.address := hptr
    rw [hlocation]
    simp [insertItemAfter]

theorem insertLineAtLocation_neighbour (hblock : a.hasSourcetype "preserve_block" = false)
    (hprev : prev = .undefined → a.location.beforeAfter = .after)
    (hneighbour : neighbourItemMatches (matchPolicy env a) location line a.location.beforeAfter
      s.fileStart = true) :
    insertLineAtLocation env a line s location prev = (false, s) := by
  have hfirst : ¬ (decide (prev = .undefined) && decide (a.location.beforeAfter = .before)) =
      true := by
    intro h
    rw [Bool.and_eq_true, decide_eq_true_eq, decide_eq_true_eq] at h
    cases (hprev h.1).symm.trans h.2
  rw [insertLineAtLocation, hneighbour, hblock]
  dsimp only
  rw [if_neg hfirst]
  rfl

variable (env line s location prev) in
/-- Either nothing is done, as the line is there, or it is inserted. -/
theorem insertLineAtLocation_cases (hexact : a.ExactPolicy) (hwarn : a.warn = false) :
    (line ∈ contents s.fileStart ∧ insertLineAtLocation env a line s location prev = (false, s)) ∨
      ∃ file, Grown s.fileStart line file ∧
        insertLineAtLocation env a line s location prev = (true, s.edit file) := by
  have hinsert : ∀ file, Grown s.fileStart line file →
      ∃ file', Grown s.fileStart line file' ∧
        (if a.warn then (true, s) else (true, s.edit file)) = (true, s.edit file') :=
    fun file hgrown => ⟨file, hgrown, by rw [hwarn]; rfl⟩
  rw [insertLineAtLocation]
  dsimp only
  split
  · split
    · exact .inr (hinsert _ grown_cons)
    · rename_i start rest hstart
      split
      · exact .inr (hinsert _ grown_cons)
      · rename_i hfirst
        refine .inl ⟨?_, rfl⟩
        rw [hstart, contents_cons, not_not.mp hfirst]
        exact List.mem_cons_self
  · split
    · rename_i hneighbour
      rw [Bool.and_eq_true] at hneighbour
      exact .inl ⟨mem_of_neighbourItemMatches hexact hneighbour.2, rfl⟩
    · split
      · exact .inr (hinsert _ grown_insertItemAfter)
      · exact .inr (hinsert _ grown_insertItemAfter)

end

/-! ## The lines one after another -/

section
variable {env : EditEnv} {a : InsertionAttributes} {lines lines' : List CString} {line : CString}
  {s s' s'' : EditContext} {location prev beginPtr endPtr : ItemPtr} {result : Bool}

/-- Some of the lines were inserted, and the others stand where they stood. -/
structure Inserted (lines : List CString) (s s' : EditContext) : Prop where
  sublist : (contents s.fileStart).Sublist (contents s'.fileStart)
  added : ∃ added, (∀ line ∈ added, line ∈ lines) ∧
    (contents s'.fileStart).Perm (contents s.fileStart ++ added)

theorem Inserted.refl : Inserted lines s s :=
  ⟨List.Sublist.refl _, [], nofun, by rw [List.append_nil]⟩

theorem Inserted.trans (h : Inserted lines s s') (h' : Inserted lines s' s'') :
    Inserted lines s s'' := by
  obtain ⟨added, hadded, hperm⟩ := h.added
  obtain ⟨added', hadded', hperm'⟩ := h'.added
  refine ⟨h.sublist.trans h'.sublist, added ++ added', ?_, ?_⟩
  · intro line hline
    exact (List.mem_append.mp hline).elim (hadded line) (hadded' line)
  · rw [← List.append_assoc]
    exact hperm'.trans (hperm.append_right added')

theorem Inserted.mono (h : Inserted lines s s') (hsub : ∀ line ∈ lines, line ∈ lines') :
    Inserted lines' s s' := by
  obtain ⟨added, hadded, hperm⟩ := h.added
  exact ⟨h.sublist, added, fun line hline => hsub line (hadded line hline), hperm⟩

theorem Inserted.of_grown {file : List FileItem} (h : Grown s.fileStart line file) :
    Inserted [line] s (s.edit file) := by
  refine ⟨h.sublist, [line], fun line hline => hline, h.perm.trans ?_⟩
  exact @List.perm_append_comm _ [line] _

variable (env line s location prev) in
/-- A line that was to be inserted is there. -/
theorem insertLineAtLocation_inserted (hexact : a.ExactPolicy) (hwarn : a.warn = false) :
    Inserted [line] s (insertLineAtLocation env a line s location prev).2 ∧
      line ∈ contents (insertLineAtLocation env a line s location prev).2.fileStart := by
  rcases insertLineAtLocation_cases env line s location prev hexact hwarn with ⟨hmem, heq⟩
    | ⟨file, hgrown, heq⟩
  · rw [heq]
    exact ⟨Inserted.refl, hmem⟩
  · rw [heq]
    exact ⟨Inserted.of_grown hgrown, hgrown.perm.mem_iff.mpr List.mem_cons_self⟩

open insertCompoundLineAtLocation in
variable (env lines s location prev beginPtr endPtr result) in
theorem loop_inserted (hexact : a.ExactPolicy) (hwarn : a.warn = false) :
    Inserted lines s (loop env a beginPtr endPtr lines result s location prev).2 ∧
      ∀ line ∈ lines, selectLine env a line = true →
        line ∈ contents (loop env a beginPtr endPtr lines result s location prev).2.fileStart := by
  induction lines generalizing result s location prev with
  | nil => exact ⟨Inserted.refl, nofun⟩
  | cons buf lines ih =>
    have htail : ∀ line ∈ lines, line ∈ buf :: lines := fun line => List.mem_cons_of_mem buf
    rw [loop]
    split
    · rename_i hselect
      obtain ⟨hinserted, hmem⟩ := ih s location prev result
      refine ⟨hinserted.mono htail, List.forall_mem_cons.mpr ⟨fun h => ?_, hmem⟩⟩
      rw [h] at hselect
      cases hselect
    · split
      · rename_i hregion
        rw [Bool.and_eq_true] at hregion
        obtain ⟨hinserted, hmem⟩ :=
          ih s location prev result
        refine ⟨hinserted.mono htail, List.forall_mem_cons.mpr ⟨fun _ => ?_, hmem⟩⟩
        exact hinserted.sublist.subset (mem_of_isItemInRegion hexact hregion.2)
      · have hbuf := insertLineAtLocation_inserted env buf s location prev hexact hwarn
        generalize insertLineAtLocation env a buf s location prev = r at hbuf ⊢
        obtain ⟨inserted, s'⟩ := r
        have hhead : ∀ line ∈ [buf], line ∈ buf :: lines := fun line hline =>
          List.mem_singleton.mp hline ▸ List.mem_cons_self
        exact ⟨(hbuf.1.mono hhead).trans ((ih ..).1.mono htail),
          List.forall_mem_cons.mpr ⟨fun _ => (ih ..).1.sublist.subset hbuf.2, (ih ..).2⟩⟩

open insertCompoundLineAtLocation in
variable (env lines s location prev result) in
/-- Where every selected line is there, nothing is done. -/
theorem loop_settled (hpreserve : a.preserveBlock = false) (hexact : a.ExactPolicy)
    (hlines : ∀ line ∈ lines, selectLine env a line = true → line ∈ contents s.fileStart) :
    loop env a (startPtr s.fileStart) .null lines result s location prev = (result, s) := by
  induction lines with
  | nil => rfl
  | cons buf lines ih =>
    rw [List.forall_mem_cons] at hlines
    rw [loop, ih hlines.2, isItemInRegion_whole hexact, hpreserve]
    cases hselect : selectLine env a buf with
    | false => rfl
    | true => simp [hlines.1 hselect]

end

/-! ## A run -/

section
variable {env : EditEnv} {a : InsertionAttributes} {promiser line : CString} {lines : List CString}
  {s : EditContext} {file before : List FileItem} {location prev beginPtr endPtr : ItemPtr}

/-- Lines of the promiser are inserted in the whole file, and the policy is `exact_match`. -/
structure WholeFile (a : InsertionAttributes) : Prop where
  region : a.region = none
  preserveBlock : a.preserveBlock = false
  isFileInsert : a.isFileInsert = false
  exact : a.ExactPolicy
  warn : a.warn = false

/-- Where a run without a region inserts: the item and the one before it. -/
def insertionPoint (env : EditEnv) (a : InsertionAttributes) (file : List FileItem) :
    Option (ItemPtr × ItemPtr) :=
  match a.location.lineMatching with
  | some regex => selectItemMatching env.fullTextMatch file regex (startPtr file) .null
      a.location.firstLast
  | none =>
    match a.location.beforeAfter with
    | .before => some (startPtr file, .undefined)
    | .after => some (ptrBehind .null file, ptrBehind .undefined file.dropLast)

theorem findRegionEnd_append {endPtr : ItemPtr} {rest : List FileItem} (hbefore : before ≠ [])
    (hrest : startPtr rest = endPtr) (hne : ∀ ip ∈ before, .item ip.address ≠ endPtr) :
    findRegionEnd endPtr prev (before ++ rest) =
      some (ptrBehind .null before, ptrBehind prev before.dropLast) := by
  induction before generalizing prev with
  | nil => exact absurd rfl hbefore
  | cons ip before ih =>
    rw [List.cons_append, findRegionEnd]
    cases before with
    | nil =>
      rw [if_pos (by simp [hrest])]
      rfl
    | cons ip' before =>
      have hnext : ItemPtr.item ip'.address ≠ endPtr :=
        hne ip' (List.mem_cons_of_mem _ List.mem_cons_self)
      have hlast : ¬ (decide (ip' :: before ++ rest = []) ||
          decide (startPtr (ip' :: before ++ rest) = endPtr)) = true := by
        rw [List.cons_append, startPtr, decide_eq_false hnext]
        exact Bool.false_ne_true
      rw [if_neg hlast, ih (List.cons_ne_nil _ _) fun ip hip => hne ip (List.mem_cons_of_mem _ hip),
        List.dropLast_cons_cons, ptrBehind_cons, ptrBehind_cons, ptrBehind_cons, ptrBehind_cons]

/-- The edit that `VerifyLineInsertions` counts for a result. -/
def counted (result : Bool × EditContext) : EditContext :=
  if result.1 then { result.2 with numEdits := result.2.numEdits + 1 } else result.2

theorem insertMultipleLinesToRegion_before (hpos : a.location.beforeAfter = .before)
    (hstart : findRegionStart beginPtr .undefined s.fileStart = some (location, prev)) :
    insertMultipleLinesToRegion env a promiser s beginPtr endPtr =
      insertMultipleLinesAtLocation env a promiser s beginPtr endPtr location prev := by
  cases hfile : s.fileStart with
  | nil =>
    rw [hfile] at hstart
    cases hstart
  | cons start rest =>
    rw [hfile] at hstart
    rw [insertMultipleLinesToRegion, hfile, hpos]
    dsimp only
    rw [hstart]

theorem insertMultipleLinesToRegion_after (hpos : a.location.beforeAfter = .after)
    (hend : findRegionEnd endPtr .undefined s.fileStart = some (location, prev)) :
    insertMultipleLinesToRegion env a promiser s beginPtr endPtr =
      insertMultipleLinesAtLocation env a promiser s beginPtr endPtr location prev := by
  cases hfile : s.fileStart with
  | nil =>
    rw [hfile] at hend
    cases hend
  | cons start rest =>
    rw [hfile] at hend
    rw [insertMultipleLinesToRegion, hfile, hpos]
    dsimp only
    rw [hend]

theorem insertMultipleLinesToRegion_whole (hlocator : a.location.lineMatching = none)
    (hpoint : insertionPoint env a s.fileStart = some (location, prev)) :
    insertMultipleLinesToRegion env a promiser s (startPtr s.fileStart) .null =
      insertMultipleLinesAtLocation env a promiser s (startPtr s.fileStart) .null
        location prev := by
  rw [insertionPoint, hlocator] at hpoint
  cases hpos : a.location.beforeAfter with
  | before =>
    rw [hpos] at hpoint
    cases hpoint
    cases hstart : s.fileStart with
    | nil =>
      rw [insertMultipleLinesToRegion, hstart]
      rfl
    | cons start rest =>
      rw [← hstart]
      refine insertMultipleLinesToRegion_before hpos ?_
      rw [hstart, findRegionStart]
      exact if_pos rfl
  | after =>
    rw [hpos] at hpoint
    cases hpoint
    by_cases hnil : s.fileStart = []
    · rw [insertMultipleLinesToRegion, hnil]
      rfl
    · refine insertMultipleLinesToRegion_after hpos ?_
      have hend : findRegionEnd .null .undefined (s.fileStart ++ []) = _ :=
        findRegionEnd_append hnil rfl nofun
      rwa [List.append_nil] at hend

theorem verifyLineInsertions_eq (hregion : a.region = none) (hfile : a.isFileInsert = false) :
    verifyLineInsertions env a promiser s =
      if !sanityCheckInsertions a then s
      else match insertionPoint env a s.fileStart with
        | none => s
        | some (location, prev) => counted (insertCompoundLineAtLocation env a promiser s
            (startPtr s.fileStart) .null location prev) := by
  have hlines : ∀ location prev,
      insertMultipleLinesAtLocation env a promiser s (startPtr s.fileStart) .null location prev =
        insertCompoundLineAtLocation env a promiser s (startPtr s.fileStart) .null
          location prev := by
    intro location prev
    rw [insertMultipleLinesAtLocation, hfile]
    rfl
  rw [verifyLineInsertions, hregion]
  dsimp only
  refine if_congr Iff.rfl rfl ?_
  cases hlocator : a.location.lineMatching with
  | none =>
    dsimp only
    cases hpoint : insertionPoint env a s.fileStart with
    | none =>
      rw [insertionPoint, hlocator] at hpoint
      cases hpos : a.location.beforeAfter <;> rw [hpos] at hpoint <;> cases hpoint
    | some found =>
      rw [insertMultipleLinesToRegion_whole hlocator hpoint, hlines]
      rfl
  | some regex =>
    rw [insertionPoint, hlocator]
    dsimp only
    rcases Option.eq_none_or_eq_some (selectItemMatching env.fullTextMatch s.fileStart regex
      (startPtr s.fileStart) .null a.location.firstLast) with hfound | ⟨found, hfound⟩
    · simp only [hfound]
      rfl
    · simp only [hfound, hlines]
      rfl

theorem editFile_untouched
    (h : sanityCheckInsertions a = false ∨ insertionPoint env a (loadFileAsItemList lines) = none)
    (hregion : a.region = none) (hfile : a.isFileInsert = false) :
    editFile env a promiser lines = (lines, 0) := by
  rw [editFile, verifyLineInsertions_eq hregion hfile]
  dsimp only
  rcases h with hsanity | hpoint
  · rw [hsanity]
    simp [contents_loadFileAsItemList]
  · simp [hpoint, contents_loadFileAsItemList]

/-- A run that finds where to insert. -/
theorem editFile_at_point (hregion : a.region = none) (hfile : a.isFileInsert = false)
    (hsanity : sanityCheckInsertions a = true)
    (hpoint : insertionPoint env a (loadFileAsItemList lines) = some (location, prev)) :
    editFile env a promiser lines =
      let s := counted (insertCompoundLineAtLocation env a promiser ⟨loadFileAsItemList lines, 0⟩
        (startPtr (loadFileAsItemList lines)) .null location prev)
      (contents s.fileStart, s.numEdits) := by
  rw [editFile, verifyLineInsertions_eq hregion hfile, hsanity]
  simp only [hpoint]
  rfl

theorem editFile_of_matchRegion (hregion : a.region = none) (hfile : a.isFileInsert = false)
    (hsanity : sanityCheckInsertions a = true)
    (hpoint : insertionPoint env a (loadFileAsItemList lines) = some (location, prev))
    (hmatch : matchRegion env.fullTextMatch promiser (loadFileAsItemList lines) location .null =
      true) :
    editFile env a promiser lines = (lines, 0) := by
  rw [editFile_at_point hregion hfile hsanity hpoint, insertCompoundLineAtLocation, if_pos hmatch]
  exact Prod.ext contents_loadFileAsItemList rfl

theorem fileStart_counted {result : Bool × EditContext} :
    (counted result).fileStart = result.2.fileStart := by
  rw [counted]
  split
  · rfl
  · rfl

/-- What a run that inserts makes of the lines of a file. -/
structure RunInserts (env : EditEnv) (a : InsertionAttributes) (chunkLines lines r : List CString) :
    Prop where
  sublist : lines.Sublist r
  added : ∃ added, (∀ line ∈ added, line ∈ chunkLines) ∧ r.Perm (lines ++ added)
  settled : ∀ line ∈ chunkLines, selectLine env a line = true → line ∈ r

theorem editFile_of_not_matchRegion (h : WholeFile a) (hsanity : sanityCheckInsertions a = true)
    (hpoint : insertionPoint env a (loadFileAsItemList lines) = some (location, prev))
    (hmatch : matchRegion env.fullTextMatch promiser (loadFileAsItemList lines) location .null =
      false) :
    RunInserts env a (readLines promiser) lines (editFile env a promiser lines).1 := by
  rw [editFile_at_point h.region h.isFileInsert hsanity hpoint]
  dsimp only
  rw [fileStart_counted, insertCompoundLineAtLocation, if_neg (by simp [hmatch])]
  have hloop := loop_inserted env (readLines promiser) ⟨loadFileAsItemList lines, 0⟩ location prev
    (startPtr (loadFileAsItemList lines)) .null false h.exact h.warn
  have hcontents : contents (EditContext.mk (loadFileAsItemList lines) 0).fileStart = lines :=
    contents_loadFileAsItemList
  obtain ⟨⟨hsublist, hadded⟩, hsettled⟩ := hloop
  rw [hcontents] at hsublist hadded
  exact ⟨hsublist, hadded, hsettled⟩

variable (env promiser lines) in
/-- A run inserts, or it does nothing. -/
theorem editFile_cases (h : WholeFile a) :
    editFile env a promiser lines = (lines, 0) ∨
      RunInserts env a (readLines promiser) lines (editFile env a promiser lines).1 := by
  cases hsanity : sanityCheckInsertions a with
  | false => exact .inl (editFile_untouched (.inl hsanity) h.region h.isFileInsert)
  | true =>
    cases hpoint : insertionPoint env a (loadFileAsItemList lines) with
    | none => exact .inl (editFile_untouched (.inr hpoint) h.region h.isFileInsert)
    | some found =>
      cases hmatch : matchRegion env.fullTextMatch promiser (loadFileAsItemList lines)
          found.1 .null with
      | true => exact .inl (editFile_of_matchRegion h.region h.isFileInsert hsanity hpoint hmatch)
      | false => exact .inr (editFile_of_not_matchRegion h hsanity hpoint hmatch)

/-- Where every selected line is in the file, a run does nothing. -/
theorem editFile_settled (h : WholeFile a)
    (hlines : ∀ line ∈ readLines promiser, selectLine env a line = true → line ∈ lines) :
    editFile env a promiser lines = (lines, 0) := by
  cases hsanity : sanityCheckInsertions a with
  | false => exact editFile_untouched (.inl hsanity) h.region h.isFileInsert
  | true =>
    cases hpoint : insertionPoint env a (loadFileAsItemList lines) with
    | none => exact editFile_untouched (.inr hpoint) h.region h.isFileInsert
    | some found =>
      cases hmatch : matchRegion env.fullTextMatch promiser (loadFileAsItemList lines)
          found.1 .null with
      | true => exact editFile_of_matchRegion h.region h.isFileInsert hsanity hpoint hmatch
      | false =>
        have hsettled :=
          loop_settled env (readLines promiser) ⟨loadFileAsItemList lines, 0⟩ found.1 found.2
          false h.preserveBlock h.exact (by simpa only [contents_loadFileAsItemList] using hlines)
        rw [editFile_at_point h.region h.isFileInsert hsanity hpoint, insertCompoundLineAtLocation,
          if_neg (by simp [hmatch]), hsettled]
        exact Prod.ext contents_loadFileAsItemList rfl

/-- A run keeps the lines of the file in their order and adds only lines of the chunk, and a second
run makes no edit. -/
theorem editFile_convergent (h : WholeFile a)
    (hlen : ∀ line ∈ promiser.splitOn '\n', line.length ≤ 2048) :
    let r := (editFile env a promiser lines).1
    lines.Sublist r ∧
      (∃ added, (∀ line ∈ added, line ∈ promiser.splitOn '\n') ∧ r.Perm (lines ++ added)) ∧
      editFile env a promiser r = (r, 0) := by
  rcases editFile_cases env promiser lines h with heq | hrun
  · simp only [heq]
    exact ⟨List.Sublist.refl _, ⟨[], nofun, by rw [List.append_nil]⟩, trivial⟩
  · refine ⟨hrun.sublist, ?_, editFile_settled h hrun.settled⟩
    rw [← readLines_eq_splitOn hlen]
    exact hrun.added

end

/-! ## Literal patterns -/

/-- Regular expressions without metacharacters, apart from a `.*` at the end. -/
def literalEnv : EditEnv where
  regExMatchFullString regexp teststring :=
    if ".*".toList.isSuffixOf regexp then (regexp.take (regexp.length - 2)).isPrefixOf teststring
    else regexp = teststring
  blockTextMatch regexp teststring := regexp <:+: teststring
  whitespaceMatch _ camel haystack := camel = haystack
  fgets _ := none
  expandScalar string := string

/-- The attributes of a promise that gives a place and perhaps an insertion type. -/
def lineInsertion (pos : CfEditOrder) (sourcetype : Option CString) : InsertionAttributes where
  location := ⟨none, pos, none⟩
  sourcetype := sourcetype
  expandvars := false
  lineSelect := ⟨[], [], [], [], [], []⟩
  insertMatch := []
  region := none
  warn := false

theorem wholeFile_lineInsertion {pos : CfEditOrder} : WholeFile (lineInsertion pos none) :=
  ⟨rfl, rfl, rfl, .inl rfl, rfl⟩

theorem editFile_convergent_two_lines :
    let r := (editFile literalEnv (lineInsertion .after none) "b\na".toList ["a".toList]).1
    r = ["a".toList, "b".toList] ∧
      editFile literalEnv (lineInsertion .after none) "b\na".toList r = (r, 0) :=
  ⟨by decide, (editFile_convergent wholeFile_lineInsertion (by decide)).2.2⟩

/-! ## The lines at the location -/

section
variable {env : EditEnv} {a : InsertionAttributes} {promiser line : CString}
  {lines patterns : List CString} {file : List FileItem} {location prev : ItemPtr}

/-- There is a line for each pattern, and it matches. -/
def linesMatch (fullTextMatch : CString → CString → Bool) : List CString → List CString → Bool
  | [], _ => true
  | _ :: _, [] => false
  | pattern :: patterns, line :: lines =>
    fullTextMatch pattern line && linesMatch fullTextMatch patterns lines

/-- The lines from the place on where a run without a locator inserts: all, or the last. -/
def linesAtLocation (a : InsertionAttributes) (lines : List CString) : List CString :=
  match a.location.beforeAfter with
  | .before => lines
  | .after => lines.getLast?.toList

theorem matchRegion_loop_null :
    matchRegion.loop env.fullTextMatch .null patterns file =
      linesMatch env.fullTextMatch patterns (contents file) := by
  induction patterns generalizing file with
  | nil => rfl
  | cons pattern patterns ih =>
    cases file with
    | nil => rfl
    | cons ip rest =>
      rw [matchRegion.loop, ih, contents_cons, linesMatch]
      simp

theorem items_ptrBehind (h : Distinct file) :
    (ptrBehind .null file).items file = file.getLast?.toList := by
  rcases List.eq_nil_or_concat file with hnil | ⟨before, last, heq⟩
  · rw [hnil]
    rfl
  · subst heq
    rw [ptrBehind, List.concat_eq_append, List.getLast?_concat]
    exact nodesFrom_split (by rwa [List.concat_eq_append] at h)

variable (promiser) in
/-- What `MatchRegion` looks at where there is no locator. -/
theorem matchRegion_point (hlocator : a.location.lineMatching = none)
    (hpoint : insertionPoint env a (loadFileAsItemList lines) = some (location, prev)) :
    matchRegion env.fullTextMatch promiser (loadFileAsItemList lines) location .null =
      linesMatch env.fullTextMatch (promiser.splitOn '\n') (linesAtLocation a lines) := by
  rw [insertionPoint, hlocator] at hpoint
  rw [matchRegion, matchRegion_loop_null, linesAtLocation]
  cases hpos : a.location.beforeAfter with
  | before =>
    rw [hpos] at hpoint
    cases hpoint
    rw [items_startPtr, contents_loadFileAsItemList]
  | after =>
    rw [hpos] at hpoint
    cases hpoint
    have hcontents : contents (loadFileAsItemList lines).getLast?.toList =
        lines.getLast?.toList := by
      rw [contents, ← Option.toList_map, ← List.getLast?_map]
      exact congrArg (fun l => l.getLast?.toList) contents_loadFileAsItemList
    rw [items_ptrBehind distinct_loadFileAsItemList, hcontents]

variable (env file) in
theorem exists_insertionPoint (hlocator : a.location.lineMatching = none) :
    ∃ location prev, insertionPoint env a file = some (location, prev) := by
  rw [insertionPoint, hlocator]
  cases a.location.beforeAfter with
  | before => exact ⟨_, _, rfl⟩
  | after => exact ⟨_, _, rfl⟩

/-- Every selected line of the promise is in the file behind a run iff it was there, or it fits in
the buffer and the lines at the location do not match the promise as a pattern. -/
theorem selected_lines_kept_iff (h : WholeFile a) (hlocator : a.location.lineMatching = none)
    (hsanity : sanityCheckInsertions a = true) :
    (∀ line ∈ promiser.splitOn '\n', selectLine env a line = true →
        line ∈ (editFile env a promiser lines).1) ↔
      ∀ line ∈ promiser.splitOn '\n', selectLine env a line = true →
        line ∈ lines ∨ (line.length ≤ 2048 ∧
          linesMatch env.fullTextMatch (promiser.splitOn '\n') (linesAtLocation a lines) =
          false) := by
  obtain ⟨location, prev, hpoint⟩ :=
    exists_insertionPoint env (loadFileAsItemList lines) hlocator
  have hmatch := matchRegion_point promiser hlocator hpoint
  refine forall₃_congr fun line hline hselect => ?_
  cases hlines : linesMatch env.fullTextMatch (promiser.splitOn '\n') (linesAtLocation a lines) with
  | true =>
    rw [hlines] at hmatch
    rw [editFile_of_matchRegion h.region h.isFileInsert hsanity hpoint hmatch]
    simp
  | false =>
    rw [hlines] at hmatch
    have hrun := editFile_of_not_matchRegion h hsanity hpoint hmatch
    obtain ⟨added, hadded, hperm⟩ := hrun.added
    constructor
    · intro hmem
      rcases List.mem_append.mp (hperm.mem_iff.mp hmem) with hmem | hmem
      · exact .inl hmem
      · exact .inr ⟨length_of_mem_readLines (hadded line hmem), rfl⟩
    · intro hor
      rcases hor with hmem | ⟨hlen, -⟩
      · exact hrun.sublist.subset hmem
      · exact hrun.settled line (mem_readLines hline hlen) hselect

theorem selected_lines_kept_iff_two_lines :
    let r := (editFile literalEnv (lineInsertion .after none) "b\na".toList ["a".toList]).1
    r = ["a".toList, "b".toList] ∧ ∀ line ∈ "b\na".toList.splitOn '\n',
      selectLine literalEnv (lineInsertion .after none) line = true → line ∈ r :=
  ⟨by decide, (selected_lines_kept_iff wholeFile_lineInsertion rfl (by decide)).mpr (by decide)⟩

/-- The line `foobar` matches the promised line `foo.*`, which is not inserted. -/
theorem selected_lines_not_kept :
    ¬ ∀ line ∈ "foo.*".toList.splitOn '\n',
      selectLine literalEnv (lineInsertion .after none) line = true →
        line ∈ (editFile literalEnv (lineInsertion .after none) "foo.*".toList
          ["foobar".toList]).1 := by
  decide

end

end Cfengine
