import Cfengine.Verify.Region

/-!
# Lines inserted in a region

The region that is looked through for a line begins with its start delimiter. With location `before`
a line is inserted in front of that delimiter, where it is only found again next to it; with
location `after` it is inserted in front of the end delimiter, and becomes the end of the region
itself where it matches `select_end`. `region_convergent` says when a second run makes no edit all
the same.
-/

namespace Cfengine
open LinkedList

/-! ## Behind the location -/

section
variable {env : EditEnv} {a : InsertionAttributes} {line : CString} {inside acc : List CString}
  {s : EditContext} {above inner behind below : List FileItem} {start stop p : FileItem}
  {location prev beginPtr endPtr : ItemPtr} {result : Bool} {region : EditRegion}

variable (env line prev) in
/-- With location `after` a line either stands behind the location, or it is inserted there. -/
theorem insertLineAtLocation_after (hpos : a.location.beforeAfter = .after)
    (h : RegionPromise a region) (hwarn : a.warn = false)
    (hdistinct : Distinct (above ++ p :: behind))
    (hfile : s.fileStart = above ++ p :: behind) :
    (∃ next below, behind = next :: below ∧ next.data = line ∧
      insertLineAtLocation env a line s (.item p.address) prev = (false, s)) ∨
    ((contents behind).head? ≠ some line ∧
      insertLineAtLocation env a line s (.item p.address) prev =
        (true, s.edit (insertAfter s.fileStart p.address line))) := by
  have hneighbour := neighbour_after env line h.exact hdistinct
  rw [← hfile] at hneighbour
  by_cases hhead : (contents behind).head? = some line
  · left
    cases behind with
    | nil => cases hhead
    | cons next below =>
      refine ⟨next, below, rfl, Option.some.inj hhead, ?_⟩
      refine insertLineAtLocation_neighbour h.noBlock (fun _ => hpos) ?_
      rw [hpos, hneighbour, hhead]
      simp
  · right
    refine ⟨hhead, insertLineAtLocation_behind hwarn (by rw [hpos]; rfl) ?_⟩
    have hother : (contents behind).head?.any (line = ·) = false := by
      cases hcontents : (contents behind).head? with
      | none => rfl
      | some head =>
        rw [hcontents] at hhead
        exact decide_eq_false fun heq => hhead (congrArg some heq.symm)
    rw [hpos, hneighbour, hother, Bool.and_false]

open insertCompoundLineAtLocation in
/-- Where the missing lines stand one by one behind the location, nothing is done. -/
theorem loop_after_idle (hpos : a.location.beforeAfter = .after) (h : RegionPromise a region)
    (hwarn : a.warn = false) (hselect : ∀ line ∈ acc, selectLine env a line = true)
    (hregion : ∀ line, isItemInRegion (matchPolicy env a) s.fileStart line beginPtr endPtr =
      inside.any (· = line))
    (hdistinct : Distinct (above ++ p :: behind)) (hfile : s.fileStart = above ++ p :: behind)
    (hmissing : missingLines inside acc <+: contents behind) :
    loop env a beginPtr endPtr acc result s (.item p.address) prev = (result, s) := by
  induction acc generalizing above p behind result prev with
  | nil => rfl
  | cons buf acc ih =>
    rw [List.forall_mem_cons] at hselect
    cases hbuf : inside.any (· = buf) with
    | true =>
      rw [missingLines_cons_of_mem hbuf] at hmissing
      rw [loop_kept h.preserveBlock ((hregion buf).trans hbuf)]
      exact ih hselect.2 hdistinct hfile hmissing
    | false =>
      rw [missingLines_cons_of_not_mem hbuf] at hmissing
      rw [loop_missing h.preserveBlock hselect.1 ((hregion buf).trans hbuf)]
      rcases insertLineAtLocation_after env buf prev hpos h hwarn
        hdistinct hfile with ⟨next, below, rfl, hnext, heq⟩ | ⟨hhead, -⟩
      · rw [contents_cons, hnext, List.cons_prefix_cons] at hmissing
        have hadvance : ItemPtr.advance s.fileStart (.item p.address) = .item next.address := by
          rw [hfile]
          exact advance_split hdistinct
        rw [heq]
        dsimp only
        rw [hadvance, Bool.or_false]
        refine @ih (above ++ [p]) below _ _ _ hselect.2 ?_ ?_ hmissing.2
        · rwa [List.append_assoc]
        · rwa [List.append_assoc]
      · obtain ⟨rest, hrest⟩ := hmissing
        rw [← hrest] at hhead
        exact absurd rfl hhead

open insertCompoundLineAtLocation in
theorem loop_after_closed (hpos : a.location.beforeAfter = .after) (h : RegionPromise a region)
    (hwarn : a.warn = false) (hselect : ∀ line ∈ acc, selectLine env a line = true)
    (hdistinct : Distinct (above ++ start :: (inner ++ stop :: below)))
    (hfile : s.fileStart = above ++ start :: (inner ++ stop :: below))
    {before behind : List FileItem} (hbelow : stop :: below = before ++ p :: behind) :
    contents (loop env a (.item start.address) (.item stop.address) acc result s (.item p.address)
        prev).2.fileStart =
      contents above ++ contents (start :: inner) ++ contents (before ++ [p]) ++
        closedWalk (contents (start :: inner)) acc (contents behind) := by
  induction acc generalizing s below before p behind result prev with
  | nil =>
    rw [loop, hfile, file_split _ _ _ hbelow, closedWalk]
    simp [contents]
  | cons buf acc ih =>
    rw [List.forall_mem_cons] at hselect
    have hregion := isItemInRegion_file env h hdistinct hfile buf
    have hsplit := file_split above inner start hbelow
    rw [closedWalk]
    cases hbuf : (contents (start :: inner)).any (· = buf) with
    | true =>
      rw [loop_kept h.preserveBlock (hregion.trans hbuf), if_pos rfl]
      exact ih hselect.2 hdistinct hfile hbelow
    | false =>
      rw [loop_missing h.preserveBlock hselect.1 (hregion.trans hbuf), if_neg Bool.false_ne_true]
      have hdistinct' := hsplit ▸ hdistinct
      rcases insertLineAtLocation_after env buf prev hpos h hwarn
        hdistinct' (hfile.trans hsplit) with ⟨next, rest, rfl, hnext, heq⟩ | ⟨hhead, heq⟩
      · have hadvance : ItemPtr.advance s.fileStart (.item p.address) = .item next.address := by
          rw [hfile, hsplit]
          exact advance_split hdistinct'
        have hrest : linesBehindFirst buf (contents (next :: rest)) = contents rest := by
          rw [linesBehindFirst, contents_cons, hnext]
          exact if_pos rfl
        rw [heq]
        dsimp only
        have hbelow' : stop :: below = (before ++ [p]) ++ next :: rest := by
          rw [hbelow, List.append_assoc]
          rfl
        rw [hadvance, ih hselect.2 hdistinct hfile hbelow', hrest, ← hnext]
        simp [contents]
      · obtain ⟨below', hbelow'⟩ := exists_below ⟨fresh s.fileStart, buf⟩ hbelow
        have hfile' : (s.edit (insertAfter s.fileStart p.address buf)).fileStart =
            above ++ start :: (inner ++ stop :: below') := by
          rw [EditContext.edit, file_split _ _ _ hbelow', hfile, hsplit]
          exact insertAfter_split hdistinct'
        have hadvance : ItemPtr.advance (s.edit (insertAfter s.fileStart p.address buf)).fileStart
            (.item p.address) = .item (fresh s.fileStart) := by
          rw [EditContext.edit, hfile, hsplit]
          exact advance_insertAfter hdistinct'
        have hdistinct'' : Distinct (above ++ start :: (inner ++ stop :: below')) := by
          rw [← hfile']
          exact grown_insertAfter.distinct (hfile ▸ hdistinct)
        have hrest : linesBehindFirst buf (contents behind) = contents behind :=
          if_neg (Ne.symm hhead)
        rw [heq]
        dsimp only
        rw [List.append_cons] at hbelow'
        rw [hadvance, ih hselect.2 hdistinct'' hfile' hbelow', hrest]
        simp [contents]

open insertCompoundLineAtLocation in
/-- What the lines make of a file where they are inserted at the end of a region. -/
theorem loop_after_open (hpos : a.location.beforeAfter = .after) (h : RegionPromise a region)
    (hwarn : a.warn = false) (hselect : ∀ line ∈ acc, selectLine env a line = true)
    (hdistinct : Distinct (above ++ start :: (inner ++ stop :: below)))
    (hfile : s.fileStart = above ++ start :: (inner ++ stop :: below))
    {before : List FileItem} (hinner : start :: inner = before ++ [p]) :
    contents (loop env a (.item start.address) (.item stop.address) acc result s (.item p.address)
        prev).2.fileStart =
      contents above ++ contents (start :: inner) ++
        openWalk stop.data (contents below) (contents (start :: inner)) acc := by
  induction acc generalizing s inner before p result prev with
  | nil =>
    rw [loop, hfile, openWalk]
    simp [contents]
  | cons buf acc ih =>
    rw [List.forall_mem_cons] at hselect
    have hregion := isItemInRegion_file env h hdistinct hfile buf
    have hsplit := file_split_end above (stop :: below) hinner
    rw [openWalk]
    cases hbuf : (contents (start :: inner)).any (· = buf) with
    | true =>
      rw [loop_kept h.preserveBlock (hregion.trans hbuf), if_pos rfl]
      exact ih hselect.2 hdistinct hfile hinner
    | false =>
      rw [loop_missing h.preserveBlock hselect.1 (hregion.trans hbuf), if_neg Bool.false_ne_true]
      have hdistinct' := hsplit ▸ hdistinct
      rcases insertLineAtLocation_after env buf prev hpos h hwarn
        hdistinct' (hfile.trans hsplit) with ⟨next, rest, hbehind, hnext, heq⟩ | ⟨hhead, heq⟩
      · obtain ⟨rfl, rfl⟩ := List.cons.inj hbehind
        have hadvance : ItemPtr.advance s.fileStart (.item p.address) = .item stop.address := by
          rw [hfile, hsplit]
          exact advance_split hdistinct'
        rw [heq]
        dsimp only
        have hbelow : stop :: below = [] ++ stop :: below := rfl
        rw [hadvance, loop_after_closed hpos h hwarn hselect.2 hdistinct hfile hbelow,
          if_pos hnext.symm]
        simp [contents]
      · have hfile' : (s.edit (insertAfter s.fileStart p.address buf)).fileStart =
            above ++ start :: ((inner ++ [⟨fresh s.fileStart, buf⟩]) ++ stop :: below) := by
          rw [List.append_assoc inner, file_split_end _ _ hinner, EditContext.edit, hfile, hsplit]
          exact insertAfter_split hdistinct'
        have hadvance : ItemPtr.advance (s.edit (insertAfter s.fileStart p.address buf)).fileStart
            (.item p.address) = .item (fresh s.fileStart) := by
          rw [EditContext.edit, hfile, hsplit]
          exact advance_insertAfter hdistinct'
        have hdistinct'' :
            Distinct (above ++ start ::
              ((inner ++ [⟨fresh s.fileStart, buf⟩]) ++ stop :: below)) := by
          rw [← hfile']
          exact grown_insertAfter.distinct (hfile ▸ hdistinct)
        have hother : buf ≠ stop.data := fun heq => hhead (congrArg some heq.symm)
        rw [heq]
        dsimp only
        have hinner' : start :: (inner ++ [⟨fresh s.fileStart, buf⟩]) =
            (before ++ [p]) ++ [⟨fresh s.fileStart, buf⟩] := by
          rw [← List.cons_append, hinner]
        rw [hadvance, ih hselect.2 hdistinct'' hfile' hinner', if_neg hother]
        simp [contents]

end

/-! ## In front of the location -/

section
variable {env : EditEnv} {a : InsertionAttributes} {line : CString} {inside acc : List CString}
  {s : EditContext} {above inner behind below : List FileItem} {start stop p : FileItem}
  {location prev beginPtr endPtr : ItemPtr} {result : Bool} {region : EditRegion}

variable (env) in
/-- With location `before` a line either stands in front of the region, or it is inserted there. -/
theorem insertLineAtLocation_before (hpos : a.location.beforeAfter = .before)
    (h : RegionPromise a region) (hwarn : a.warn = false)
    (hdistinct : Distinct (above ++ start :: below)) (hfile : s.fileStart = above ++ start :: below)
    (hstart : start.data ≠ line) :
    ((contents above).getLast? = some line ∧ insertLineAtLocation env a line s (.item start.address)
      (ptrBehind .undefined above) = (false, s)) ∨
    ((contents above).getLast? ≠ some line ∧ ∃ new : FileItem, new.data = line ∧
      (insertLineAtLocation env a line s (.item start.address)
        (ptrBehind .undefined above)).2.fileStart = (above ++ [new]) ++ start :: below ∧
      Distinct ((above ++ [new]) ++ start :: below)) := by
  rcases List.eq_nil_or_concat above with rfl | ⟨above', p, rfl⟩
  · refine .inr ⟨nofun, ⟨fresh s.fileStart, line⟩, rfl, ?_, ?_⟩
    · rw [insertLineAtLocation, hpos, hwarn, hfile]
      simp [ptrBehind, hstart, EditContext.edit, prependItemList]
    · rw [hfile]
      exact (grown_cons (d := line)).distinct hdistinct
  · rw [List.concat_eq_append] at hdistinct hfile ⊢
    have hsplit : (above' ++ [p]) ++ start :: below = above' ++ p :: start :: below :=
      List.append_assoc ..
    have hprev : ptrBehind .undefined (above' ++ [p]) = .item p.address := by
      rw [ptrBehind, List.getLast?_concat]
      rfl
    have hlast : (contents (above' ++ [p])).getLast? = some p.data := by
      rw [contents_append]
      exact List.getLast?_concat
    have hneighbour := neighbour_before env line h.exact (hsplit ▸ hdistinct)
    rw [← hsplit, ← hfile] at hneighbour
    rw [hprev, hlast]
    by_cases heq : line = p.data
    · refine .inl ⟨congrArg some heq.symm, insertLineAtLocation_neighbour h.noBlock (by simp) ?_⟩
      rw [hpos, hneighbour, decide_eq_true heq]
    · have hnew := (grown_insertAfter (a := p.address) (d := line)).distinct (hsplit ▸ hdistinct)
      rw [insertAfter_split (hsplit ▸ hdistinct)] at hnew
      refine .inr ⟨fun hsome => heq (Option.some.inj hsome).symm, ⟨fresh s.fileStart, line⟩, rfl,
        ?_, ?_⟩
      · rw [insertLineAtLocation_behind hwarn (p := p) (by rw [hpos]; rfl)
          (by rw [hpos, hneighbour, decide_eq_false heq, Bool.and_false]), EditContext.edit, hfile,
          hsplit, insertAfter_split (hsplit ▸ hdistinct)]
        simp
      · rw [hfile, hsplit]
        simpa using hnew

/-- At most the line above the region is missing. -/
def AtMostAbove (inside acc above : List CString) : Prop :=
  missingLines inside acc = [] ∨ ∃ line, missingLines inside acc = [line] ∧
    above.getLast? = some line

open insertCompoundLineAtLocation in
theorem loop_before_idle (hpos : a.location.beforeAfter = .before) (h : RegionPromise a region)
    (hwarn : a.warn = false) (hselect : ∀ line ∈ acc, selectLine env a line = true)
    (hdistinct : Distinct (above ++ start :: (inner ++ stop :: below)))
    (hfile : s.fileStart = above ++ start :: (inner ++ stop :: below))
    (hmissing : AtMostAbove (contents (start :: inner)) acc (contents above)) :
    loop env a (.item start.address) (.item stop.address) acc result s (.item start.address)
      (ptrBehind .undefined above) = (result, s) := by
  have hregion := isItemInRegion_file env h hdistinct hfile
  have hkept : missingLines (contents (start :: inner)) acc = [] → ∀ line ∈ acc,
      isItemInRegion (matchPolicy env a) s.fileStart line (.item start.address)
        (.item stop.address) = true := fun hnil line hline =>
    (hregion line).trans (mem_inside_of_missingLines_eq_nil hnil line hline)
  induction acc with
  | nil => rfl
  | cons buf acc ih =>
    rcases hmissing with hnil | ⟨line, hone, habove⟩
    · exact loop_all_kept h.preserveBlock (hkept hnil)
    · rw [List.forall_mem_cons] at hselect
      cases hbuf : (contents (start :: inner)).any (· = buf) with
      | true =>
        rw [missingLines_cons_of_mem hbuf] at hone hkept
        rw [loop_kept h.preserveBlock ((hregion buf).trans hbuf)]
        refine ih hselect.2 (.inr ⟨line, hone, habove⟩) fun hnil => ?_
        rw [hnil] at hone
        cases hone
      | false =>
        rw [missingLines_cons_of_not_mem hbuf, List.cons.injEq] at hone
        obtain ⟨rfl, hrest⟩ := hone
        have hstart : start.data ≠ buf := by
          rw [contents_cons, List.any_cons, Bool.or_eq_false_iff] at hbuf
          exact of_decide_eq_false hbuf.1
        rw [loop_missing h.preserveBlock hselect.1 ((hregion buf).trans hbuf)]
        rcases insertLineAtLocation_before env hpos h hwarn hdistinct hfile hstart with
          ⟨-, heq⟩ | ⟨hother, -⟩
        · rw [heq]
          dsimp only
          rw [Bool.or_false]
          exact loop_all_kept h.preserveBlock fun line hline =>
            (hregion line).trans (mem_inside_of_missingLines_eq_nil hrest line hline)
        · exact absurd habove hother

open insertCompoundLineAtLocation in
/-- The only missing line is inserted above the region. -/
theorem loop_before_one (hpos : a.location.beforeAfter = .before) (h : RegionPromise a region)
    (hwarn : a.warn = false) (hselect : ∀ line ∈ acc, selectLine env a line = true)
    (hdistinct : Distinct (above ++ start :: (inner ++ stop :: below)))
    (hfile : s.fileStart = above ++ start :: (inner ++ stop :: below))
    (hmissing : missingLines (contents (start :: inner)) acc = [line])
    (habove : (contents above).getLast? ≠ some line) :
    contents (loop env a (.item start.address) (.item stop.address) acc result s
        (.item start.address) (ptrBehind .undefined above)).2.fileStart =
      contents above ++ line :: contents (start :: (inner ++ stop :: below)) := by
  have hregion := isItemInRegion_file env h hdistinct hfile
  induction acc with
  | nil => cases hmissing
  | cons buf acc ih =>
    rw [List.forall_mem_cons] at hselect
    cases hbuf : (contents (start :: inner)).any (· = buf) with
    | true =>
      rw [missingLines_cons_of_mem hbuf] at hmissing
      rw [loop_kept h.preserveBlock ((hregion buf).trans hbuf)]
      exact ih hselect.2 hmissing
    | false =>
      rw [missingLines_cons_of_not_mem hbuf, List.cons.injEq] at hmissing
      obtain ⟨rfl, hrest⟩ := hmissing
      have hstart : start.data ≠ buf := by
        rw [contents_cons, List.any_cons, Bool.or_eq_false_iff] at hbuf
        exact of_decide_eq_false hbuf.1
      rw [loop_missing h.preserveBlock hselect.1 ((hregion buf).trans hbuf)]
      rcases insertLineAtLocation_before env hpos h hwarn hdistinct hfile hstart with
        ⟨hlast, -⟩ | ⟨-, new, hnew, hfile', hdistinct'⟩
      · exact absurd hlast habove
      · dsimp only
        rw [loop_all_kept h.preserveBlock fun line hline =>
          (isItemInRegion_file env h hdistinct' hfile' line).trans
            (mem_inside_of_missingLines_eq_nil hrest line hline), hfile', ← hnew]
        simp [contents]

/-- No line in front of the location is one of those that are still to be inserted: either there are
few enough of them for the location to stay in the region, or they stand nowhere else in the
file. -/
def Clear (location : ItemPtr) (above old : List FileItem) (stop : FileItem) (below : List FileItem)
    (inside acc : List CString) : Prop :=
  (∃ passed ahead, old = passed ++ ahead ∧ location = startPtr (ahead ++ stop :: below) ∧
    (newLines inside acc).length ≤ ahead.length + 1) ∨
  ∀ line ∈ missingLines inside acc, line ∉ contents above ++ contents (stop :: below)

theorem Clear.step {front old : List FileItem} {inside' : List CString}
    (h : Clear location above old stop below inside (line :: acc))
    (hline : inside.any (· = line) = false) (hinside : ∀ x, x ∈ inside ++ [line] ↔ x ∈ inside')
    (hdistinct : Distinct (front ++ (old ++ stop :: below))) :
    Clear (location.advance (front ++ (old ++ stop :: below))) above old stop below
      inside' acc := by
  rcases h with ⟨passed, ahead, rfl, rfl, hlen⟩ | hother
  · rw [newLines_cons_of_not_mem hline, newLines_congr hinside, List.length_cons] at hlen
    cases ahead with
    | nil =>
      have hnone : newLines inside' acc = [] :=
        List.eq_nil_of_length_eq_zero (Nat.le_zero.mp (Nat.le_of_succ_le_succ hlen))
      rw [Clear, missingLines_eq_nil_of_newLines hnone]
      exact .inr nofun
    | cons next ahead =>
      refine .inl ⟨passed ++ [next], ahead, by simp, ?_, Nat.le_of_succ_le_succ hlen⟩
      have hsplit : front ++ (passed ++ next :: ahead ++ stop :: below) =
          (front ++ passed) ++ next :: (ahead ++ stop :: below) := by simp
      rw [hsplit] at hdistinct ⊢
      exact advance_split hdistinct
  · refine .inr fun x hx => hother x ?_
    rw [mem_missingLines, ← hinside, List.mem_append, not_or] at hx
    exact mem_missingLines.mpr ⟨List.mem_cons_of_mem _ hx.1, hx.2.1⟩

variable (env) in
theorem neighbour_clear (hexact : a.ExactPolicy) {before old : List FileItem}
    (hdistinct : Distinct (above ++ start :: (inner ++ stop :: below)))
    (hinner : start :: inner = before ++ p :: old)
    (hline : (contents (start :: inner)).any (· = line) = false)
    (hclear : Clear location above old stop below (contents (start :: inner)) (line :: acc)) :
    neighbourItemMatches (matchPolicy env a) location line .before
      (above ++ start :: (inner ++ stop :: below)) = false := by
  rw [List.any_eq_false] at hline
  rcases hclear with ⟨passed, ahead, rfl, hlocation, -⟩ | hother
  · obtain ⟨next, rest, hnext⟩ := List.exists_cons_of_ne_nil
      (List.append_ne_nil_of_right_ne_nil ahead (List.cons_ne_nil stop below))
    have hpassed := List.dropLast_append_getLast (List.cons_ne_nil p passed)
    have hsplit : above ++ start :: (inner ++ stop :: below) =
        (above ++ before ++ (p :: passed).dropLast) ++
          (p :: passed).getLast (List.cons_ne_nil p passed) :: next :: rest := by
      rw [← hnext, List.append_cons _ _ (ahead ++ stop :: below),
        List.append_assoc (above ++ before), hpassed, ← List.cons_append, hinner]
      simp
    have hlast : (p :: passed).getLast (List.cons_ne_nil p passed) ∈ start :: inner := by
      rw [hinner, ← List.cons_append]
      exact List.mem_append_right _ (List.mem_append_left _ (List.getLast_mem _))
    rw [hsplit] at hdistinct ⊢
    rw [hlocation, hnext, startPtr, neighbour_before env line hexact hdistinct]
    refine decide_eq_false fun heq => ?_
    exact hline _ (List.mem_map_of_mem hlast) (decide_eq_true heq.symm)
  · refine Bool.eq_false_of_not_eq_true fun hmatch => ?_
    have hmissing : line ∈ missingLines (contents (start :: inner)) (line :: acc) :=
      mem_missingLines.mpr ⟨List.mem_cons_self, fun hmem => hline line hmem (decide_eq_true rfl)⟩
    have hmem := mem_of_neighbourItemMatches hexact hmatch
    rw [← List.cons_append, contents_append, contents_append, List.mem_append,
      List.mem_append] at hmem
    rcases hmem with hmem | hmem | hmem
    · exact hother line hmissing (List.mem_append_left _ hmem)
    · exact hline line hmem (decide_eq_true rfl)
    · exact hother line hmissing (List.mem_append_right _ hmem)

open insertCompoundLineAtLocation in
/-- Lines that are missing are inserted behind an item of the region. -/
theorem loop_before_inside (hpos : a.location.beforeAfter = .before) (h : RegionPromise a region)
    (hwarn : a.warn = false) (hselect : ∀ line ∈ acc, selectLine env a line = true)
    (hdistinct : Distinct (above ++ start :: (inner ++ stop :: below)))
    (hfile : s.fileStart = above ++ start :: (inner ++ stop :: below))
    {before old : List FileItem} (hinner : start :: inner = before ++ p :: old)
    (hclear : Clear location above old stop below (contents (start :: inner)) acc) :
    contents (loop env a (.item start.address) (.item stop.address) acc result s location
        (.item p.address)).2.fileStart =
      contents above ++ contents (before ++ [p]) ++ newLines (contents (start :: inner)) acc ++
        contents (old ++ stop :: below) := by
  induction acc generalizing s inner before p location result with
  | nil =>
    rw [loop, hfile, ← List.cons_append, hinner]
    simp [contents, newLines, admittedLines]
  | cons buf acc ih =>
    rw [List.forall_mem_cons] at hselect
    have hregion := isItemInRegion_file env h hdistinct hfile buf
    cases hbuf : (contents (start :: inner)).any (· = buf) with
    | true =>
      rw [loop_kept h.preserveBlock (hregion.trans hbuf), newLines_cons_of_mem hbuf]
      refine ih hselect.2 hdistinct hfile hinner ?_
      rwa [Clear, newLines_cons_of_mem hbuf, missingLines_cons_of_mem hbuf] at hclear
    | false =>
      have hneighbour := neighbour_clear env h.exact hdistinct hinner hbuf hclear
      rw [← hfile] at hneighbour
      rw [loop_missing h.preserveBlock hselect.1 (hregion.trans hbuf),
        newLines_cons_of_not_mem hbuf,
        insertLineAtLocation_behind hwarn (p := p) (by rw [hpos]; rfl)
          (by rw [hpos, hneighbour, Bool.and_false])]
      dsimp only
      obtain ⟨inner', hinner'⟩ := exists_below ⟨fresh s.fileStart, buf⟩ hinner
      have hsplit : above ++ start :: (inner ++ stop :: below) =
          (above ++ before) ++ p :: (old ++ stop :: below) := by
        rw [← List.cons_append, hinner]
        simp
      have hsplit' : above ++ start :: (inner' ++ stop :: below) =
          (above ++ before) ++ p :: ⟨fresh s.fileStart, buf⟩ :: (old ++ stop :: below) := by
        rw [← List.cons_append, hinner']
        simp
      have hfile' : (s.edit (insertAfter s.fileStart p.address buf)).fileStart =
          above ++ start :: (inner' ++ stop :: below) := by
        rw [hsplit', EditContext.edit, hfile, hsplit]
        exact insertAfter_split (hsplit ▸ hdistinct)
      have hadvance : ItemPtr.advance (s.edit (insertAfter s.fileStart p.address buf)).fileStart
          (.item p.address) = .item (fresh s.fileStart) := by
        rw [EditContext.edit, hfile, hsplit]
        exact advance_insertAfter (hsplit ▸ hdistinct)
      have hdistinct' : Distinct (above ++ start :: (inner' ++ stop :: below)) := by
        rw [← hfile']
        exact grown_insertAfter.distinct (hfile ▸ hdistinct)
      have hinside : ∀ x, x ∈ contents (start :: inner) ++ [buf] ↔
          x ∈ contents (start :: inner') := by
        intro x
        rw [hinner, hinner']
        simp only [contents_append, contents_cons, List.mem_append, List.mem_cons]
        tauto
      have hclear' : Clear
        (location.advance (s.edit (insertAfter s.fileStart p.address buf)).fileStart)
          above old stop below (contents (start :: inner')) acc := by
        have hfront : above ++ start :: (inner' ++ stop :: below) =
            (above ++ before ++ [p, ⟨fresh s.fileStart, buf⟩]) ++ (old ++ stop :: below) := by
          rw [hsplit', List.append_assoc (above ++ before)]
          rfl
        rw [hfile', hfront]
        exact hclear.step hbuf hinside (hfront ▸ hdistinct')
      rw [List.append_cons] at hinner'
      rw [hadvance, ih hselect.2 hdistinct' hfile' hinner' hclear', newLines_congr hinside]
      simp [contents]

open insertCompoundLineAtLocation in
/-- Where the first missing line stands above the region, the others are inserted behind the
start. -/
theorem loop_before_above (hpos : a.location.beforeAfter = .before) (h : RegionPromise a region)
    (hwarn : a.warn = false) (hselect : ∀ line ∈ acc, selectLine env a line = true)
    (hdistinct : Distinct (above ++ start :: (inner ++ stop :: below)))
    (hfile : s.fileStart = above ++ start :: (inner ++ stop :: below)) {rest : List CString}
    (hmissing : acc.dropWhile (fun x => (contents (start :: inner)).any (· = x)) = line :: rest)
    (habove : (contents above).getLast? = some line)
    (hclear : Clear (startPtr (inner ++ stop :: below)) above inner stop below
      (contents (start :: inner)) rest) :
    contents (loop env a (.item start.address) (.item stop.address) acc result s
        (.item start.address) (ptrBehind .undefined above)).2.fileStart =
      contents above ++ start.data :: (newLines (contents (start :: inner)) rest ++
        contents (inner ++ stop :: below)) := by
  have hregion := isItemInRegion_file env h hdistinct hfile
  induction acc with
  | nil => cases hmissing
  | cons buf acc ih =>
    rw [List.forall_mem_cons] at hselect
    cases hbuf : (contents (start :: inner)).any (· = buf) with
    | true =>
      rw [List.dropWhile_cons, if_pos hbuf] at hmissing
      rw [loop_kept h.preserveBlock ((hregion buf).trans hbuf)]
      exact ih hselect.2 hmissing
    | false =>
      rw [List.dropWhile_cons, if_neg (by simp [hbuf]), List.cons.injEq] at hmissing
      obtain ⟨rfl, rfl⟩ := hmissing
      have hstart : start.data ≠ buf := by
        rw [contents_cons, List.any_cons, Bool.or_eq_false_iff] at hbuf
        exact of_decide_eq_false hbuf.1
      rw [loop_missing h.preserveBlock hselect.1 ((hregion buf).trans hbuf)]
      rcases insertLineAtLocation_before env hpos h hwarn hdistinct hfile hstart with
        ⟨-, heq⟩ | ⟨hother, -⟩
      · have hlocation : ItemPtr.advance s.fileStart (.item start.address) =
            startPtr (inner ++ stop :: below) := by
          rw [hfile]
          exact advance_split hdistinct
        have hprev : (ptrBehind .undefined above).advance s.fileStart = .item start.address := by
          rcases List.eq_nil_or_concat above with rfl | ⟨above', p, rfl⟩
          · cases habove
          · rw [List.concat_eq_append] at hdistinct hfile ⊢
            rw [List.append_assoc] at hdistinct hfile
            rw [ptrBehind, List.getLast?_concat, hfile]
            exact advance_split hdistinct
        rw [heq]
        dsimp only
        have hinner : start :: inner = [] ++ start :: inner := rfl
        rw [hlocation, hprev, loop_before_inside hpos h hwarn hselect.2 hdistinct hfile hinner
          hclear]
        simp [contents]
      · exact absurd habove hother

end

/-! ## A run -/

section
variable {env : EditEnv} {a : InsertionAttributes} {promiser start stop line : CString}
  {lines above inner below rest : List CString} {region : EditRegion}

theorem select_of_mem_selectedLines :
    ∀ line ∈ selectedLines env a promiser, selectLine env a line = true :=
  fun _ hline => (List.mem_filter.mp hline).2

variable (promiser below) in
theorem editFile_region_idle (h : RegionPromise a region)
    (hidle : a.warn = true ∨ sanityCheckInsertions a = false)
    (hdelimited : Delimited (region.starts env) (region.ends env) above start inner stop) :
    (editFile env a promiser (above ++ start :: (inner ++ stop :: below))).1 =
      above ++ start :: (inner ++ stop :: below) := by
  cases hsanity : sanityCheckInsertions a with
  | false =>
    rw [editFile, verifyLineInsertions, hsanity]
    exact contents_loadFileAsItemList
  | true =>
    have hwarn : a.warn = true := hidle.resolve_right (by simp [hsanity])
    refine editFile_region_eq h hsanity hdelimited (fun _ => rfl) ?_
    rintro - above' start' inner' stop' below' rfl rfl rfl rfl rfl hdistinct
    dsimp only
    rw [loop_warn hwarn]
    simp [contents]

variable (env promiser inner below) in
theorem editFile_before_idle (hpos : a.location.beforeAfter = .before) (h : RegionPromise a region)
    (hwarn : a.warn = false) (hsanity : sanityCheckInsertions a = true)
    (hdelimited : Delimited (region.starts env) (region.ends env) above start inner stop)
    (hidle : linesMatch env.fullTextMatch (promiser.splitOn '\n')
        (start :: (inner ++ stop :: below)) = true ∨
      AtMostAbove (start :: inner) (selectedLines env a promiser) above) :
    (editFile env a promiser (above ++ start :: (inner ++ stop :: below))).1 =
      above ++ start :: (inner ++ stop :: below) := by
  refine editFile_region_eq h hsanity hdelimited (fun _ => rfl) fun hmatch => ?_
  rw [hpos, linesAtRegion] at hmatch
  have hmissing := hidle.resolve_left (by simp [hmatch])
  rintro above' start' inner' stop' below' rfl rfl rfl rfl rfl hdistinct
  rw [hpos, regionPoint]
  dsimp only
  rw [loop_before_idle hpos h hwarn select_of_mem_selectedLines hdistinct rfl hmissing]
  simp [contents]

theorem editFile_before_one (hpos : a.location.beforeAfter = .before) (h : RegionPromise a region)
    (hwarn : a.warn = false) (hsanity : sanityCheckInsertions a = true)
    (hdelimited : Delimited (region.starts env) (region.ends env) above start inner stop)
    (hmatch : linesMatch env.fullTextMatch (promiser.splitOn '\n')
      (start :: (inner ++ stop :: below)) = false)
    (hmissing : missingLines (start :: inner) (selectedLines env a promiser) = [line])
    (habove : above.getLast? ≠ some line) :
    (editFile env a promiser (above ++ start :: (inner ++ stop :: below))).1 =
      (above ++ [line]) ++ start :: (inner ++ stop :: below) := by
  refine editFile_region_eq h hsanity hdelimited ?_ ?_
  · intro hlines
    rw [hpos, linesAtRegion, hmatch] at hlines
    cases hlines
  · rintro - above' start' inner' stop' below' rfl rfl rfl rfl rfl hdistinct
    rw [hpos, regionPoint]
    refine (loop_before_one hpos h hwarn select_of_mem_selectedLines hdistinct rfl hmissing
      habove).trans ?_
    simp [contents]

theorem editFile_before_above (hpos : a.location.beforeAfter = .before) (h : RegionPromise a region)
    (hwarn : a.warn = false) (hsanity : sanityCheckInsertions a = true)
    (hdelimited : Delimited (region.starts env) (region.ends env) above start inner stop)
    (hmatch : linesMatch env.fullTextMatch (promiser.splitOn '\n')
      (start :: (inner ++ stop :: below)) = false)
    (hmissing : (selectedLines env a promiser).dropWhile
      (fun x => (start :: inner).any (· = x)) = line :: rest)
    (habove : above.getLast? = some line)
    (hclear : (newLines (start :: inner) rest).length ≤ inner.length + 1 ∨
      ∀ x ∈ missingLines (start :: inner) rest, x ∉ above ++ stop :: below) :
    (editFile env a promiser (above ++ start :: (inner ++ stop :: below))).1 =
      above ++ start :: ((newLines (start :: inner) rest ++ inner) ++ stop :: below) := by
  refine editFile_region_eq h hsanity hdelimited ?_ ?_
  · intro hlines
    rw [hpos, linesAtRegion, hmatch] at hlines
    cases hlines
  · rintro - above' start' inner' stop' below' rfl rfl rfl rfl rfl hdistinct
    have hclear' : Clear (startPtr (inner' ++ stop' :: below')) above' inner' stop' below'
        (contents (start' :: inner')) rest := by
      refine hclear.imp (fun hlen => ⟨[], inner', rfl, rfl, ?_⟩) id
      simpa [contents] using hlen
    rw [hpos, regionPoint]
    refine (loop_before_above hpos h hwarn select_of_mem_selectedLines hdistinct rfl hmissing habove
      hclear').trans ?_
    simp [contents]

variable (below) in
theorem editFile_after_idle (hpos : a.location.beforeAfter = .after) (h : RegionPromise a region)
    (hwarn : a.warn = false) (hsanity : sanityCheckInsertions a = true)
    (hdelimited : Delimited (region.starts env) (region.ends env) above start inner stop)
    (hidle : linesMatch env.fullTextMatch (promiser.splitOn '\n')
        (linesAtRegion .after start inner stop below) = true ∨
      missingLines (start :: inner) (selectedLines env a promiser) <+: stop :: below) :
    (editFile env a promiser (above ++ start :: (inner ++ stop :: below))).1 =
      above ++ start :: (inner ++ stop :: below) := by
  refine editFile_region_eq h hsanity hdelimited (fun _ => rfl) fun hmatch => ?_
  rw [hpos] at hmatch
  have hmissing := hidle.resolve_left (by simp [hmatch])
  rintro above' start' inner' stop' below' rfl rfl rfl rfl rfl hdistinct
  obtain ⟨before, p, hinner⟩ := exists_concat start' inner'
  have hregion := isItemInRegion_file env (s := ⟨_, 0⟩) h hdistinct rfl
  have hsplit := file_split_end above' (stop' :: below') hinner
  rw [hpos, regionPoint, ptrBehind_region hinner]
  dsimp only
  rw [loop_after_idle hpos h hwarn select_of_mem_selectedLines hregion (hsplit ▸ hdistinct) hsplit
    hmissing]
  simp [contents]

theorem editFile_after (hpos : a.location.beforeAfter = .after) (h : RegionPromise a region)
    (hwarn : a.warn = false) (hsanity : sanityCheckInsertions a = true)
    (hdelimited : Delimited (region.starts env) (region.ends env) above start inner stop)
    (hmatch : linesMatch env.fullTextMatch (promiser.splitOn '\n')
      (linesAtRegion .after start inner stop below) = false) :
    (editFile env a promiser (above ++ start :: (inner ++ stop :: below))).1 =
      above ++ start ::
        (inner ++ openWalk stop below (start :: inner) (selectedLines env a promiser)) := by
  refine editFile_region_eq h hsanity hdelimited ?_ ?_
  · intro hlines
    rw [hpos, hmatch] at hlines
    cases hlines
  · rintro - above' start' inner' stop' below' rfl rfl rfl rfl rfl hdistinct
    obtain ⟨before, p, hinner⟩ := exists_concat start' inner'
    rw [hpos, regionPoint, ptrBehind_region hinner]
    refine (loop_after_open hpos h hwarn select_of_mem_selectedLines hdistinct rfl hinner).trans ?_
    simp [contents]

/-- With location `before`, when a second run finds what the first one left. -/
inductive StaysBefore (env : EditEnv) (region : EditRegion) (chunk acc above : List CString)
    (start : CString) (inner : List CString) (stop : CString) (below : List CString) : Prop where
  /-- The lines from the region on match the chunk. -/
  | matched : linesMatch env.fullTextMatch chunk (start :: (inner ++ stop :: below)) = true →
      StaysBefore env region chunk acc above start inner stop below
  | nothing : missingLines (start :: inner) acc = [] →
      StaysBefore env region chunk acc above start inner stop below
  /-- One line is missing, and above the region it starts no region that the others are not in. -/
  | one (line : CString) : missingLines (start :: inner) acc = [line] →
      (region.starts env line = false ∨ region.ends env start = false ∨
        AtMostAbove [line] acc above ∨
        linesMatch env.fullTextMatch chunk (line :: start :: (inner ++ stop :: below)) = true) →
      StaysBefore env region chunk acc above start inner stop below
  /-- The first missing line stands above the region, and none of the others ends it. -/
  | above (line : CString) (rest : List CString) :
      acc.dropWhile (fun x => (start :: inner).any (· = x)) = line :: rest →
      above.getLast? = some line →
      (∀ x ∈ missingLines (start :: inner) rest, region.ends env x = false) →
      ((newLines (start :: inner) rest).length ≤ inner.length + 1 ∨
        ∀ x ∈ missingLines (start :: inner) rest, x ∉ above ++ stop :: below) →
      StaysBefore env region chunk acc above start inner stop below

/-- With location `after`, when a second run finds what the first one left. -/
def StaysAfter (env : EditEnv) (region : EditRegion) (chunk acc : List CString) (start : CString)
    (inner : List CString) (stop : CString) (below : List CString) : Prop :=
  linesMatch env.fullTextMatch chunk (linesAtRegion .after start inner stop below) = true ∨
    (missingLines ((start :: inner) ++ admittedLines (region.ends env) (start :: inner) acc)
      acc).Nodup

def RegionStays (env : EditEnv) (region : EditRegion) (pos : CfEditOrder)
    (chunk acc above : List CString) (start : CString) (inner : List CString) (stop : CString)
    (below : List CString) : Prop :=
  match pos with
  | .before => StaysBefore env region chunk acc above start inner stop below
  | .after => StaysAfter env region chunk acc start inner stop below

theorem region_convergent_after (hpos : a.location.beforeAfter = .after)
    (h : RegionPromise a region) (hwarn : a.warn = false) (hsanity : sanityCheckInsertions a = true)
    (hdelimited : Delimited (region.starts env) (region.ends env) above start inner stop)
    (hstays : StaysAfter env region (promiser.splitOn '\n') (selectedLines env a promiser) start
      inner stop below) :
    let r := (editFile env a promiser (above ++ start :: (inner ++ stop :: below))).1
    (editFile env a promiser r).1 = r := by
  dsimp only
  cases hmatch : linesMatch env.fullTextMatch (promiser.splitOn '\n')
      (linesAtRegion .after start inner stop below) with
  | true =>
    have hidle := editFile_after_idle below hpos h hwarn hsanity hdelimited (.inl hmatch)
    rw [hidle, hidle]
  | false =>
    have hnodup := hstays.resolve_left (by simp [hmatch])
    obtain ⟨stop', below', hwalk, hstop', hahead⟩ :=
      openWalk_split (start :: inner) (selectedLines env a promiser) below hdelimited.stop
    have hinner : ∀ line ∈ inner ++ admittedLines (region.ends env) (start :: inner)
        (selectedLines env a promiser), region.ends env line = false := by
      intro line hline
      exact (List.mem_append.mp hline).elim (hdelimited.inner line) ends_of_mem_admittedLines
    rw [editFile_after hpos h hwarn hsanity hdelimited hmatch, hwalk, ← List.append_assoc inner]
    exact editFile_after_idle _ hpos h hwarn hsanity
      ⟨hdelimited.above, hdelimited.start, hinner, hstop'⟩ (.inr (hahead hnodup))

theorem region_convergent_one (hpos : a.location.beforeAfter = .before) (h : RegionPromise a region)
    (hwarn : a.warn = false) (hsanity : sanityCheckInsertions a = true)
    (hdelimited : Delimited (region.starts env) (region.ends env) above start inner stop)
    (hmissing : missingLines (start :: inner) (selectedLines env a promiser) = [line])
    (hline : region.starts env line = false ∨ region.ends env start = false ∨
      AtMostAbove [line] (selectedLines env a promiser) above ∨
      linesMatch env.fullTextMatch (promiser.splitOn '\n')
        (line :: start :: (inner ++ stop :: below)) = true) :
    (editFile env a promiser (above ++ line :: start :: (inner ++ stop :: below))).1 =
      above ++ line :: start :: (inner ++ stop :: below) := by
  obtain ⟨habove, hstart, hinner, hstop⟩ := hdelimited
  cases hstarts : region.starts env line with
  | false =>
    have habove' : ∀ x ∈ above ++ [line], region.starts env x = false := by
      intro x hx
      rcases List.mem_append.mp hx with hx | hx
      · exact habove x hx
      · rwa [List.mem_singleton.mp hx]
    rw [List.append_cons]
    exact editFile_before_idle _ _ _ _ hpos h hwarn hsanity ⟨habove', hstart, hinner, hstop⟩
      (.inr (.inr ⟨line, hmissing, List.getLast?_concat⟩))
  | true =>
    cases hends : region.ends env start with
    | false =>
      have hinside : missingLines (line :: start :: inner) (selectedLines env a promiser) = [] := by
        refine List.eq_nil_iff_forall_not_mem.mpr fun x hx => ?_
        obtain ⟨hacc, hnot⟩ := mem_missingLines.mp hx
        rw [List.mem_cons, not_or] at hnot
        have hmem := mem_missingLines.mpr ⟨hacc, hnot.2⟩
        rw [hmissing, List.mem_singleton] at hmem
        exact hnot.1 hmem
      exact editFile_before_idle _ _ _ _ hpos h hwarn hsanity
        ⟨habove, hstarts, List.forall_mem_cons.mpr ⟨hends, hinner⟩, hstop⟩ (.inr (.inl hinside))
    | true =>
      have hidle := (hline.resolve_left (by simp [hstarts])).resolve_left (by simp [hends])
      exact editFile_before_idle _ _ [] _ hpos h hwarn hsanity ⟨habove, hstarts, nofun, hends⟩
        hidle.symm

theorem region_convergent_before (hpos : a.location.beforeAfter = .before)
    (h : RegionPromise a region) (hwarn : a.warn = false) (hsanity : sanityCheckInsertions a = true)
    (hdelimited : Delimited (region.starts env) (region.ends env) above start inner stop)
    (hstays : StaysBefore env region (promiser.splitOn '\n') (selectedLines env a promiser) above
      start inner stop below) :
    let r := (editFile env a promiser (above ++ start :: (inner ++ stop :: below))).1
    (editFile env a promiser r).1 = r := by
  dsimp only
  have hidle := editFile_before_idle env promiser inner below hpos h hwarn
    hsanity hdelimited
  cases hmatch : linesMatch env.fullTextMatch (promiser.splitOn '\n')
      (start :: (inner ++ stop :: below)) with
  | true => rw [hidle (.inl hmatch), hidle (.inl hmatch)]
  | false =>
    cases hstays with
    | matched hlines =>
      rw [hmatch] at hlines
      cases hlines
    | nothing hmissing => rw [hidle (.inr (.inl hmissing)), hidle (.inr (.inl hmissing))]
    | one line hmissing hline =>
      by_cases habove : above.getLast? = some line
      · have hstill := hidle (.inr (.inr ⟨line, hmissing, habove⟩))
        rw [hstill, hstill]
      · rw [editFile_before_one hpos h hwarn hsanity hdelimited hmatch hmissing habove,
          ← List.append_cons]
        exact region_convergent_one hpos h hwarn hsanity hdelimited hmissing hline
    | above line rest hmissing habove hends hclear =>
      rw [editFile_before_above hpos h hwarn hsanity hdelimited hmatch hmissing habove hclear]
      have hinner : ∀ x ∈ newLines (start :: inner) rest ++ inner, region.ends env x = false := by
        intro x hx
        rcases List.mem_append.mp hx with hx | hx
        · exact hends x (mem_newLines.mp hx)
        · exact hdelimited.inner x hx
      have hinside := missingLines_of_dropWhile
        (start :: (newLines (start :: inner) rest ++ inner)) hmissing
        (fun x hx => by
          rcases List.mem_cons.mp hx with rfl | hx
          · exact List.mem_cons_self
          · exact List.mem_cons_of_mem _ (List.mem_append_right _ hx))
        (fun x hx => by
          by_cases hin : x ∈ start :: inner
          · rcases List.mem_cons.mp hin with rfl | hin
            · exact List.mem_cons_self
            · exact List.mem_cons_of_mem _ (List.mem_append_right _ hin)
          · exact List.mem_cons_of_mem _ (List.mem_append_left _
              (mem_newLines.mpr (mem_missingLines.mpr ⟨hx, hin⟩))))
      exact editFile_before_idle _ _ _ _ hpos h hwarn hsanity
        ⟨hdelimited.above, hdelimited.start, hinner, hdelimited.stop⟩
        (.inr (hinside.imp id fun hone => ⟨line, hone, habove⟩))

/-- Where the region and what the first run leaves in it stay, a second run makes no edit. -/
theorem region_convergent (h : RegionPromise a region)
    (hdelimited : Delimited (region.starts env) (region.ends env) above start inner stop)
    (hstays : a.warn = true ∨ sanityCheckInsertions a = false ∨
      RegionStays env region a.location.beforeAfter (promiser.splitOn '\n')
        (selectedLines env a promiser) above start inner stop below) :
    let r := (editFile env a promiser (above ++ start :: (inner ++ stop :: below))).1
    (editFile env a promiser r).1 = r := by
  by_cases hidle : a.warn = true ∨ sanityCheckInsertions a = false
  · have hstill := editFile_region_idle promiser below h hidle hdelimited
    dsimp only
    rw [hstill, hstill]
  · obtain ⟨hwarn, hsanity⟩ := not_or.mp hidle
    have hregion := (hstays.resolve_left hwarn).resolve_left hsanity
    rw [Bool.not_eq_true] at hwarn
    rw [Bool.not_eq_false] at hsanity
    cases hpos : a.location.beforeAfter with
    | before =>
      rw [hpos] at hregion
      exact region_convergent_before hpos h hwarn hsanity hdelimited hregion
    | after =>
      rw [hpos] at hregion
      exact region_convergent_after hpos h hwarn hsanity hdelimited hregion

end

/-! ## Two lines -/

/-- The region from a line `S` to a line `E`. -/
def sampleRegion : EditRegion := ⟨some ['S'], some ['E'], false⟩

def regionInsertion (pos : CfEditOrder) : InsertionAttributes :=
  { lineInsertion pos none with region := some sampleRegion }

theorem regionPromise_regionInsertion {pos : CfEditOrder} :
    RegionPromise (regionInsertion pos) sampleRegion := ⟨rfl, rfl, rfl, rfl, .inl rfl⟩

theorem delimited_sampleRegion : Delimited (sampleRegion.starts literalEnv)
    (sampleRegion.ends literalEnv) ["x".toList] ['S'] [] ['E'] :=
  ⟨by decide, by decide, by decide, by decide⟩

theorem region_convergent_two_lines :
    let a := regionInsertion .after
    let r := (editFile literalEnv a "a\nb".toList ["x".toList, ['S'], ['E']]).1
    r = ["x".toList, ['S'], "a".toList, "b".toList, ['E']] ∧
      (editFile literalEnv a "a\nb".toList r).1 = r :=
  ⟨by decide, @region_convergent literalEnv _ _ _ _ ["x".toList] [] [] _
    regionPromise_regionInsertion delimited_sampleRegion (.inr (.inr (.inr (by decide))))⟩

/-- Two lines are inserted in front of the region again. -/
theorem region_inserted_again :
    let a := regionInsertion .before
    let r := (editFile literalEnv a "a\nb".toList [['S'], ['E']]).1
    (∀ line ∈ "a\nb".toList.splitOn '\n', PlainLine line) ∧
      r = ["a".toList, "b".toList, ['S'], ['E']] ∧
      (editFile literalEnv a "a\nb".toList r).1 ≠ r := by
  decide

end Cfengine
