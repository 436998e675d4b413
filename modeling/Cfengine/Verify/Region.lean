import Cfengine.Verify.MissingLines

/-!
# Regions of a file

Where `SelectRegion` finds the two delimiters, what `IsItemInRegion` and `NeighbourItemMatches` look
at there, and where a run that is given a region inserts (`editFile_region_eq`).
-/

namespace Cfengine
open LinkedList

/-! ## Steps of the loop -/

section
variable {env : EditEnv} {a : InsertionAttributes} {buf : CString} {lines : List CString}
  {s : EditContext} {location prev beginPtr endPtr : ItemPtr} {result : Bool}

/-- Lines of the promiser are inserted in a region, without a locator, and the policy is
`exact_match`. -/
structure RegionPromise (a : InsertionAttributes) (region : EditRegion) : Prop where
  region : a.region = some region
  locator : a.location.lineMatching = none
  preserveBlock : a.preserveBlock = false
  isFileInsert : a.isFileInsert = false
  exact : a.ExactPolicy

theorem RegionPromise.noBlock {region : EditRegion} (h : RegionPromise a region) :
    a.hasSourcetype "preserve_block" = false :=
  (Bool.or_eq_false_iff.mp h.preserveBlock).1

open insertCompoundLineAtLocation in
theorem loop_filter :
    loop env a beginPtr endPtr (lines.filter (selectLine env a)) result s location prev =
      loop env a beginPtr endPtr lines result s location prev := by
  induction lines generalizing result s location prev with
  | nil => rfl
  | cons buf lines ih =>
    cases hselect : selectLine env a buf with
    | false =>
      rw [List.filter_cons_of_neg (by simp [hselect]), loop, hselect, if_pos Bool.not_false, ih]
    | true =>
      rw [List.filter_cons_of_pos hselect, loop, loop, ih]
      split
      · rfl
      · split
        · rfl
        · exact ih

open insertCompoundLineAtLocation in
/-- A line that is in the region is left alone. -/
theorem loop_kept (hpreserve : a.preserveBlock = false)
    (hregion : isItemInRegion (matchPolicy env a) s.fileStart buf beginPtr endPtr = true) :
    loop env a beginPtr endPtr (buf :: lines) result s location prev =
      loop env a beginPtr endPtr lines result s location prev := by
  rw [loop, hpreserve, hregion]
  split
  · rfl
  · rfl

open insertCompoundLineAtLocation in
/-- A line that is missing goes to the location. -/
theorem loop_missing (hpreserve : a.preserveBlock = false) (hselect : selectLine env a buf = true)
    (hregion : isItemInRegion (matchPolicy env a) s.fileStart buf beginPtr endPtr = false) :
    loop env a beginPtr endPtr (buf :: lines) result s location prev =
      let r := insertLineAtLocation env a buf s location prev
      loop env a beginPtr endPtr lines (result || r.1) r.2 (location.advance r.2.fileStart)
        (prev.advance r.2.fileStart) := by
  rw [loop, hpreserve, hregion, hselect]
  rfl

open insertCompoundLineAtLocation in
theorem loop_all_kept (hpreserve : a.preserveBlock = false)
    (hregion : ∀ line ∈ lines,
      isItemInRegion (matchPolicy env a) s.fileStart line beginPtr endPtr = true) :
    loop env a beginPtr endPtr lines result s location prev = (result, s) := by
  induction lines with
  | nil => rfl
  | cons buf lines ih =>
    rw [List.forall_mem_cons] at hregion
    rw [loop_kept hpreserve hregion.1, ih hregion.2]

end

/-! ## The delimiters -/

section
variable {env : EditEnv} {a : InsertionAttributes} {s : EditContext} {line : CString}
  {above inner behind below before : List FileItem} {start stop p next : FileItem}
  {region : EditRegion}

/-- Where the delimiters of a region are. -/
structure Delimited (starts ends : CString → Bool) (above : List CString) (start : CString)
    (inner : List CString) (stop : CString) : Prop where
  above : ∀ line ∈ above, starts line = false
  start : starts start = true
  inner : ∀ line ∈ inner, ends line = false
  stop : ends stop = true

/-- The line matches `select_start`. -/
def EditRegion.starts (env : EditEnv) (region : EditRegion) (line : CString) : Bool :=
  region.selectStart.any fun regexp => env.fullTextMatch regexp line

/-- The line matches `select_end`. -/
def EditRegion.ends (env : EditEnv) (region : EditRegion) (line : CString) : Bool :=
  region.selectEnd.any fun regexp => env.fullTextMatch regexp line

variable (below) in
theorem findEnd_split (hinner : ∀ ip ∈ inner, region.ends env ip.data = false)
    (hstop : region.ends env stop.data = true) :
    selectRegion.findEnd env region (inner ++ stop :: below) = .item stop.address := by
  induction inner with
  | nil => exact if_pos hstop
  | cons ip inner ih =>
    rw [List.forall_mem_cons] at hinner
    rw [List.cons_append, selectRegion.findEnd]
    exact (if_neg (by simpa [EditRegion.ends] using hinner.1)).trans (ih hinner.2)

theorem selectRegion_split
    (h : Delimited (region.starts env) (region.ends env) (contents above) start.data
      (contents inner) stop.data) :
    selectRegion env region (above ++ start :: (inner ++ stop :: below)) =
      some (.item start.address, .item stop.address) := by
  obtain ⟨habove, hstart, hinner, hstop⟩ := h
  have hend := findEnd_split below (List.forall_mem_map.mp hinner) hstop
  cases hregexp : region.selectStart with
  | none => simp [EditRegion.starts, hregexp] at hstart
  | some regexp =>
    have hmatch : ∀ line, region.starts env line = env.fullTextMatch regexp line := fun line => by
      simp [EditRegion.starts, hregexp]
    rw [selectRegion, hregexp]
    dsimp only
    induction above with
    | nil =>
      rw [List.nil_append, selectRegion.findStart, if_pos (hmatch start.data ▸ hstart),
        if_neg (by simp), hend]
    | cons ip above ih =>
      rw [contents_cons, List.forall_mem_cons, hmatch] at habove
      rw [List.cons_append, selectRegion.findStart, habove.1]
      exact ih habove.2

/-- The region is what stands from its start on, in front of its end. -/
theorem isItemInRegion_split (hexact : a.ExactPolicy)
    (h : Distinct (above ++ start :: (inner ++ stop :: below))) :
    isItemInRegion (matchPolicy env a) (above ++ start :: (inner ++ stop :: below)) line
      (.item start.address) (.item stop.address) = (contents (start :: inner)).any (· = line) := by
  have hstop : Distinct ((above ++ start :: inner) ++ stop :: below) := by
    rwa [List.append_assoc]
  have hinside : ∀ ip ∈ start :: inner,
      decide (ItemPtr.item ip.address ≠ .item stop.address) = true := by
    intro ip hip
    refine decide_eq_true fun heq => ?_
    exact hstop.not_mem_before ip (List.mem_append_right _ hip) (ItemPtr.item.inj heq)
  have hregion : (start :: (inner ++ stop :: below)).takeWhile
      (fun ip => ItemPtr.item ip.address ≠ .item stop.address) = start :: inner := by
    rw [← List.cons_append, List.takeWhile_append_of_pos hinside,
      List.takeWhile_cons_of_neg (by simp), List.append_nil]
  rw [isItemInRegion, ItemPtr.items, nodesFrom_split h, hregion, contents, List.any_map]
  congr 1
  funext ip
  rw [matchPolicy_exact hexact]
  exact decide_eq_decide.mpr eq_comm

variable (env) in
theorem isItemInRegion_file (h : RegionPromise a region)
    (hdistinct : Distinct (above ++ start :: (inner ++ stop :: below)))
    (hfile : s.fileStart = above ++ start :: (inner ++ stop :: below)) (line : CString) :
    isItemInRegion (matchPolicy env a) s.fileStart line (.item start.address) (.item stop.address) =
      (contents (start :: inner)).any (· = line) := by
  rw [hfile]
  exact isItemInRegion_split h.exact hdistinct

variable (env line) in
/-- What stands in front of an item. -/
theorem neighbour_before (hexact : a.ExactPolicy)
    (h : Distinct (above ++ p :: next :: below)) :
    neighbourItemMatches (matchPolicy env a) (.item next.address) line .before
      (above ++ p :: next :: below) = decide (line = p.data) := by
  induction above with
  | nil =>
    rw [List.nil_append, neighbourItemMatches, if_pos (by simp [startPtr]),
      matchPolicy_exact hexact]
  | cons ip above ih =>
    have htail : Distinct (above ++ p :: next :: below) := (List.nodup_cons.mp h).2
    have hother : startPtr (above ++ p :: next :: below) ≠ .item next.address := by
      have hnext : Distinct ((above ++ [p]) ++ next :: below) := by
        rw [List.append_assoc]
        exact htail
      cases above with
      | nil => exact fun heq => hnext.not_mem_before p List.mem_cons_self (ItemPtr.item.inj heq)
      | cons ip' above =>
        exact fun heq => hnext.not_mem_before ip' List.mem_cons_self (ItemPtr.item.inj heq)
    rw [List.cons_append, neighbourItemMatches, if_neg (by simp [hother])]
    exact ih htail

variable (env line) in
/-- What stands behind an item. -/
theorem neighbour_after (hexact : a.ExactPolicy) (h : Distinct (above ++ p :: below)) :
    neighbourItemMatches (matchPolicy env a) (.item p.address) line .after (above ++ p :: below) =
      ((contents below).head?.any (line = ·)) := by
  induction above with
  | nil =>
    rw [List.nil_append, neighbourItemMatches, if_pos rfl, contents, List.head?_map]
    cases below with
    | nil => rfl
    | cons next below => exact matchPolicy_exact hexact
  | cons ip above ih =>
    have htail : Distinct (above ++ p :: below) := (List.nodup_cons.mp h).2
    have hother : ItemPtr.item ip.address ≠ .item p.address := fun heq =>
      h.not_mem_before ip List.mem_cons_self (ItemPtr.item.inj heq)
    rw [List.cons_append, neighbourItemMatches, if_neg hother]
    exact ih htail

variable (above start inner) in
theorem file_split {before : List FileItem} (hbelow : stop :: below = before ++ p :: behind) :
    above ++ start :: (inner ++ stop :: below) = (above ++ start :: (inner ++ before)) ++ p ::
      behind := by
  rw [hbelow, List.append_assoc, List.cons_append, List.append_assoc]

variable (above below) in
theorem file_split_end {before : List FileItem} (hinner : start :: inner = before ++ [p]) :
    above ++ start :: (inner ++ below) = (above ++ before) ++ p :: below := by
  rw [← List.cons_append, hinner, List.append_assoc, List.append_assoc]
  rfl

/-- The end of the region stays where it is when a line is inserted behind it. -/
theorem exists_below {before : List FileItem} (new : FileItem)
    (hbelow : stop :: below = before ++ p :: behind) :
    ∃ below', stop :: below' = before ++ p :: new :: behind := by
  cases before with
  | nil => exact ⟨new :: behind, by rw [List.nil_append, ← (List.cons.inj hbelow).1]⟩
  | cons ip before =>
    obtain ⟨hstop, -⟩ := List.cons.inj hbelow
    exact ⟨before ++ p :: new :: behind, by rw [hstop, List.cons_append]⟩

end

/-! ## Where a run inserts -/

section
variable {env : EditEnv} {a : InsertionAttributes} {s : EditContext} {promiser : CString}
  {lines : List CString} {above inner below before : List FileItem} {start stop p : FileItem}
  {prev : ItemPtr} {pos : CfEditOrder} {region : EditRegion}

theorem findRegionStart_split {prev : ItemPtr} (hdistinct : Distinct (above ++ start :: below)) :
    findRegionStart (.item start.address) prev (above ++ start :: below) =
      some (.item start.address, ptrBehind prev above) := by
  induction above generalizing prev with
  | nil => exact if_pos rfl
  | cons ip above ih =>
    have hother : ItemPtr.item ip.address ≠ .item start.address := fun heq =>
      hdistinct.not_mem_before ip List.mem_cons_self (ItemPtr.item.inj heq)
    rw [List.cons_append, findRegionStart, if_neg hother, ptrBehind_cons]
    exact ih (List.nodup_cons.mp hdistinct).2

/-- The item at which lines are inserted in a region, and the one before it. -/
def regionPoint (pos : CfEditOrder) (above : List FileItem) (start : FileItem)
    (inner : List FileItem) : ItemPtr × ItemPtr :=
  match pos with
  | .before => (.item start.address, ptrBehind .undefined above)
  | .after => (ptrBehind .null (above ++ start :: inner),
      ptrBehind .undefined (above ++ start :: inner).dropLast)

theorem insertMultipleLinesToRegion_split {s : EditContext}
    (hdistinct : Distinct (above ++ start :: (inner ++ stop :: below)))
    (hfile : s.fileStart = above ++ start :: (inner ++ stop :: below)) :
    let point := regionPoint a.location.beforeAfter above start inner
    insertMultipleLinesToRegion env a promiser s (.item start.address) (.item stop.address) =
      insertMultipleLinesAtLocation env a promiser s (.item start.address) (.item stop.address)
        point.1 point.2 := by
  dsimp only
  cases hpos : a.location.beforeAfter with
  | before =>
    refine insertMultipleLinesToRegion_before hpos ?_
    rw [hfile]
    exact findRegionStart_split hdistinct
  | after =>
    refine insertMultipleLinesToRegion_after hpos ?_
    have hsplit : above ++ start :: (inner ++ stop :: below) =
        (above ++ start :: inner) ++ stop :: below := by simp
    rw [hsplit] at hdistinct hfile
    rw [hfile]
    exact findRegionEnd_append (by simp) rfl fun ip hip heq =>
      hdistinct.not_mem_before ip hip (ItemPtr.item.inj heq)

/-- A run, where the region is found. -/
theorem editFile_region (h : RegionPromise a region) (hsanity : sanityCheckInsertions a = true)
    (hlines : loadFileAsItemList lines = above ++ start :: (inner ++ stop :: below))
    (hdelimited : Delimited (region.starts env) (region.ends env) (contents above) start.data
      (contents inner) stop.data) :
    let point := regionPoint a.location.beforeAfter above start inner
    (editFile env a promiser lines).1 =
      contents (insertCompoundLineAtLocation env a promiser ⟨loadFileAsItemList lines, 0⟩
        (.item start.address) (.item stop.address) point.1 point.2).2.fileStart := by
  have hdistinct : Distinct (loadFileAsItemList lines) := distinct_loadFileAsItemList
  rw [hlines] at hdistinct
  rw [editFile, verifyLineInsertions, hsanity, h.region, h.locator]
  simp only [hlines, Bool.not_true, Bool.false_eq_true, if_false]
  rw [selectRegion_split hdelimited]
  dsimp only
  rw [insertMultipleLinesToRegion_split hdistinct rfl, insertMultipleLinesAtLocation,
    h.isFileInsert, if_neg Bool.false_ne_true]
  exact congrArg contents fileStart_counted

theorem exists_concat {α : Type*} (x : α) (l : List α) : ∃ before last, x :: l = before ++ [last] :=
  ⟨_, _, (List.dropLast_append_getLast (List.cons_ne_nil x l)).symm⟩

theorem ptrBehind_region {above' inner' before : List FileItem} {start' p : FileItem}
    {prev : ItemPtr} (hinner : start' :: inner' = before ++ [p]) :
    ptrBehind prev (above' ++ start' :: inner') = .item p.address := by
  rw [hinner, ← List.append_assoc, ptrBehind, List.getLast?_concat]
  rfl

/-- The lines from the place on where a run inserts: from the region on, or from its last line
on. -/
def linesAtRegion (pos : CfEditOrder) (start : CString) (inner : List CString) (stop : CString)
    (below : List CString) : List CString :=
  match pos with
  | .before => start :: (inner ++ stop :: below)
  | .after => (start :: inner).getLast?.toList ++ stop :: below

theorem matchRegion_regionPoint {above' inner' below' : List FileItem} {start' stop' : FileItem}
    (hdistinct : Distinct (above' ++ start' :: (inner' ++ stop' :: below'))) {pos : CfEditOrder} :
    matchRegion env.fullTextMatch promiser (above' ++ start' :: (inner' ++ stop' :: below'))
        (regionPoint pos above' start' inner').1 .null =
      linesMatch env.fullTextMatch (promiser.splitOn '\n')
        (linesAtRegion pos start'.data (contents inner') stop'.data (contents below')) := by
  rw [matchRegion, matchRegion_loop_null]
  cases pos with
  | before =>
    rw [regionPoint, linesAtRegion, ItemPtr.items, nodesFrom_split hdistinct]
    simp [contents]
  | after =>
    obtain ⟨before, p, hinner⟩ := exists_concat start' inner'
    have hlast : (start'.data :: contents inner').getLast? = some p.data := by
      rw [← contents_cons, hinner, contents_append]
      exact List.getLast?_concat
    rw [file_split_end _ _ hinner] at hdistinct ⊢
    rw [regionPoint, linesAtRegion, hlast, ptrBehind_region hinner, ItemPtr.items,
      nodesFrom_split hdistinct]
    simp [contents]

end

section
variable {env : EditEnv} {a : InsertionAttributes} {promiser start stop : CString}
  {lines above inner below : List CString} {region : EditRegion}

theorem exists_nodes {file : List FileItem}
    (h : contents file = above ++ start :: (inner ++ stop :: below)) :
    ∃ above' start' inner' stop' below', file = above' ++ start' :: (inner' ++ stop' :: below') ∧
      contents above' = above ∧ start'.data = start ∧ contents inner' = inner ∧
      stop'.data = stop ∧ contents below' = below := by
  obtain ⟨above', behind, rfl, habove, hbehind⟩ := List.map_eq_append_iff.mp h
  obtain ⟨start', behind', rfl, hstart, hbehind'⟩ := List.map_eq_cons_iff.mp hbehind
  obtain ⟨inner', behind'', rfl, hinner, hbehind''⟩ := List.map_eq_append_iff.mp hbehind'
  obtain ⟨stop', below', rfl, hstop, hbelow⟩ := List.map_eq_cons_iff.mp hbehind''
  exact ⟨above', start', inner', stop', below', rfl, habove, hstart, hinner, hstop, hbelow⟩

/-- A run is what the insertion of the selected lines makes of the file, unless the lines at the
location match the chunk. -/
theorem editFile_region_eq (h : RegionPromise a region) (hsanity : sanityCheckInsertions a = true)
    (hdelimited : Delimited (region.starts env) (region.ends env) above start inner stop)
    (hmatch : linesMatch env.fullTextMatch (promiser.splitOn '\n')
      (linesAtRegion a.location.beforeAfter start inner stop below) = true →
        lines = above ++ start :: (inner ++ stop :: below))
    (hloop : linesMatch env.fullTextMatch (promiser.splitOn '\n')
      (linesAtRegion a.location.beforeAfter start inner stop below) = false →
      ∀ above' start' inner' stop' below', contents above' = above → start'.data = start →
      contents inner' = inner → stop'.data = stop → contents below' = below →
      Distinct (above' ++ start' :: (inner' ++ stop' :: below')) →
      let point := regionPoint a.location.beforeAfter above' start' inner'
      contents (insertCompoundLineAtLocation.loop env a (.item start'.address) (.item stop'.address)
        (selectedLines env a promiser) false ⟨above' ++ start' :: (inner' ++ stop' :: below'), 0⟩
        point.1 point.2).2.fileStart = lines) :
    (editFile env a promiser (above ++ start :: (inner ++ stop :: below))).1 = lines := by
  obtain ⟨above', start', inner', stop', below', hfile, rfl, rfl, rfl, rfl, rfl⟩ :=
    exists_nodes (@contents_loadFileAsItemList (above ++ start :: (inner ++ stop :: below)))
  have hdistinct := hfile ▸ distinct_loadFileAsItemList
  rw [editFile_region h hsanity hfile hdelimited, insertCompoundLineAtLocation, hfile,
    matchRegion_regionPoint hdistinct]
  split
  · rename_i hlines
    rw [hmatch hlines]
    simp [contents]
  · rename_i hlines
    rw [← loop_filter]
    exact hloop (Bool.eq_false_of_not_eq_true hlines) above' start' inner' stop' below' rfl rfl rfl
      rfl rfl hdistinct

end

end Cfengine
