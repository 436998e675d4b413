import Cfengine.Verify.InsertLines

/-!
# Blocks that are inserted again

With `preserve_block` no line is looked for on its own: a run inserts the selected lines as one
block unless the lines at the location match the chunk. Behind the end of a file that place is the
last line alone, so a block of several lines is appended by every run (`block_convergent_iff`).
-/

namespace Cfengine
open LinkedList

section
variable {env : EditEnv} {a : InsertionAttributes} {promiser line : CString}
  {lines patterns acc : List CString} {s : EditContext} {file before behind : List FileItem}
  {p ip : FileItem} {location prev beginPtr endPtr : ItemPtr} {result : Bool}

/-- The lines of the promiser are inserted as one block, without a region or a locator. -/
structure BlockPromise (a : InsertionAttributes) : Prop where
  sourcetype : a.sourcetype = some "preserve_block".toList
  region : a.region = none
  locator : a.location.lineMatching = none

/-- The lines that a run may insert. -/
def selectedLines (env : EditEnv) (a : InsertionAttributes) (chunk : CString) : List CString :=
  (readLines chunk).filter (selectLine env a)

theorem BlockPromise.preserveBlock (h : BlockPromise a) : a.preserveBlock = true := by
  rw [InsertionAttributes.preserveBlock, InsertionAttributes.hasSourcetype, h.sourcetype]
  rfl

theorem BlockPromise.isFileInsert (h : BlockPromise a) : a.isFileInsert = false := by
  rw [InsertionAttributes.isFileInsert, InsertionAttributes.hasSourcetype,
    InsertionAttributes.hasSourcetype, h.sourcetype]
  decide

/-! ## One line -/

variable (env line s location prev) in
/-- A promise that only warns leaves the file as it is. -/
theorem insertLineAtLocation_warn (hwarn : a.warn = true) :
    (insertLineAtLocation env a line s location prev).2 = s := by
  rw [insertLineAtLocation]
  simp only [hwarn, if_true]
  repeat' split
  all_goals rfl

theorem insertLineAtLocation_block (h : BlockPromise a) (hwarn : a.warn = false)
    (hptr : insertionPtr a.location.beforeAfter location prev = .item p.address) :
    insertLineAtLocation env a line s location prev =
      (true, s.edit (insertAfter s.fileStart p.address line)) := by
  refine insertLineAtLocation_behind hwarn hptr ?_
  rw [InsertionAttributes.hasSourcetype, h.sourcetype]
  rfl

/-! ## The loop -/

open insertCompoundLineAtLocation in
theorem loop_warn (hwarn : a.warn = true) :
    (loop env a beginPtr endPtr lines result s location prev).2 = s := by
  induction lines generalizing result location prev with
  | nil => rfl
  | cons buf lines ih =>
    rw [loop]
    split
    · exact ih
    · split
      · exact ih
      · have hline := insertLineAtLocation_warn env buf s location prev hwarn
        generalize insertLineAtLocation env a buf s location prev = r at hline ⊢
        obtain ⟨inserted, s'⟩ := r
        obtain rfl : s' = s := hline
        exact ih

open insertCompoundLineAtLocation in
/-- Behind an item, the selected lines are inserted one behind another. -/
theorem loop_block (h : BlockPromise a) (hwarn : a.warn = false) (hdistinct : Distinct s.fileStart)
    (hfile : s.fileStart = before ++ p :: behind)
    (hptr : insertionPtr a.location.beforeAfter location prev = .item p.address) :
    contents (loop env a beginPtr endPtr lines result s location prev).2.fileStart =
      contents before ++ p.data :: lines.filter (selectLine env a) ++ contents behind := by
  induction lines generalizing s before p result location prev with
  | nil => rw [loop, hfile, contents_append, contents_cons, List.filter_nil, List.append_assoc]; rfl
  | cons buf lines ih =>
    rw [loop]
    cases hselect : selectLine env a buf with
    | false =>
      rw [if_pos Bool.not_false, List.filter_cons_of_neg (by simp [hselect])]
      exact ih hdistinct hfile hptr
    | true =>
      rw [if_neg (by simp), h.preserveBlock, if_neg (by simp),
        insertLineAtLocation_block h hwarn hptr, List.filter_cons_of_pos hselect]
      dsimp only
      rw [hfile] at hdistinct
      have hfile' : (s.edit (insertAfter s.fileStart p.address buf)).fileStart =
          (before ++ [p]) ++ ⟨fresh s.fileStart, buf⟩ :: behind := by
        rw [EditContext.edit, hfile, insertAfter_split hdistinct, List.append_assoc]
        rfl
      have hdistinct' : Distinct ((before ++ [p]) ++ ⟨fresh s.fileStart, buf⟩ :: behind) := by
        rw [← hfile']
        exact grown_insertAfter.distinct (hfile ▸ hdistinct)
      rw [@ih _ (before ++ [p]) _ _ _ _ (hfile' ▸ hdistinct') hfile']
      · rw [contents_append, List.append_assoc (contents before)]
        rfl
      · have hadvance : ItemPtr.advance (s.edit (insertAfter s.fileStart p.address buf)).fileStart
            (.item p.address) = .item (fresh s.fileStart) := by
          rw [EditContext.edit, hfile]
          exact advance_insertAfter hdistinct
        cases hpos : a.location.beforeAfter with
        | before =>
          rw [hpos] at hptr
          have hprev : prev = .item p.address := hptr
          rw [hprev]
          exact hadvance
        | after =>
          rw [hpos] at hptr
          have hlocation : location = .item p.address := hptr
          rw [hlocation]
          exact hadvance

/-- What a run makes of the lines of a file when it inserts a block. -/
def blockInserted (pos : CfEditOrder) (acc lines : List CString) : List CString :=
  match pos with
  | .before => acc ++ if acc.head? = lines.head? then lines.tail else lines
  | .after => lines ++ acc

/-- The lines of a file behind a line that is made the first one. -/
def linesBehindFirst (line : CString) (lines : List CString) : List CString :=
  if some line = lines.head? then lines.tail else lines

theorem insertLineAtLocation_first (hwarn : a.warn = false)
    (hpos : a.location.beforeAfter = .before) (hdistinct : Distinct s.fileStart) :
    ∃ p behind, (insertLineAtLocation env a line s location .undefined).2.fileStart = p :: behind ∧
      p.data = line ∧ Distinct (p :: behind) ∧
      contents behind = linesBehindFirst line (contents s.fileStart) := by
  have hprepend := (grown_cons (d := line)).distinct hdistinct
  rw [insertLineAtLocation, hpos, hwarn]
  simp only [decide_true, Bool.and_self, if_true, Bool.false_eq_true, if_false]
  cases hfile : s.fileStart with
  | nil =>
    rw [hfile] at hprepend
    exact ⟨_, _, rfl, rfl, hprepend, rfl⟩
  | cons start rest =>
    rw [hfile] at hprepend hdistinct
    rw [linesBehindFirst, contents_cons, List.head?_cons, List.tail_cons]
    dsimp only
    split
    · rename_i hne
      rw [if_neg fun heq => hne (Option.some.inj heq).symm]
      exact ⟨_, _, rfl, rfl, hprepend, rfl⟩
    · rename_i heq
      rw [if_pos (congrArg some (not_not.mp heq).symm)]
      exact ⟨start, rest, hfile, not_not.mp heq, hdistinct, rfl⟩

theorem insertLineAtLocation_empty (h : BlockPromise a) (hwarn : a.warn = false)
    (hpos : a.location.beforeAfter = .after) (hfile : s.fileStart = []) :
    ∃ p behind, (insertLineAtLocation env a line s .null prev).2.fileStart = p :: behind ∧
      p.data = line ∧ Distinct (p :: behind) ∧ contents behind = [] := by
  refine ⟨⟨fresh ([] : List FileItem), line⟩, [], ?_, rfl, List.nodup_singleton _, rfl⟩
  rw [insertLineAtLocation, hpos, hwarn, InsertionAttributes.hasSourcetype, h.sourcetype, hfile]
  simp [EditContext.edit, insertItemAfter, appendItem]

open insertCompoundLineAtLocation in
/-- The first selected line becomes the first line of the file, and the others stand behind it. -/
theorem loop_first (h : BlockPromise a) (hwarn : a.warn = false) {rest : CString → List CString}
    (hfirst : ∀ buf, ∃ p behind,
      (insertLineAtLocation env a buf s location prev).2.fileStart = p :: behind ∧ p.data = buf ∧
        Distinct (p :: behind) ∧ contents behind = rest buf)
    (hptr : insertionPtr a.location.beforeAfter location prev = .null ∨
      insertionPtr a.location.beforeAfter location prev = .undefined) :
    contents (loop env a beginPtr endPtr lines result s location prev).2.fileStart =
      match lines.filter (selectLine env a) with
      | [] => contents s.fileStart
      | buf :: acc => buf :: acc ++ rest buf := by
  induction lines generalizing result with
  | nil => rfl
  | cons buf lines ih =>
    rw [loop]
    cases hselect : selectLine env a buf with
    | false =>
      rw [if_pos Bool.not_false, List.filter_cons_of_neg (by simp [hselect])]
      exact ih
    | true =>
      obtain ⟨p, behind, hfile, hdata, hdistinct, hrest⟩ := hfirst buf
      rw [if_neg (by simp), h.preserveBlock, if_neg (by simp), List.filter_cons_of_pos hselect]
      generalize insertLineAtLocation env a buf s location prev = r at hfile ⊢
      obtain ⟨inserted, s'⟩ := r
      have hfile' : s'.fileStart = [] ++ p :: behind := hfile
      have hadvance : ∀ ptr, ptr = .null ∨ ptr = .undefined →
          ItemPtr.advance s'.fileStart ptr = .item p.address := by
        intro ptr hptr
        rw [hfile']
        rcases hptr with rfl | rfl
        · rfl
        · rfl
      dsimp only
      rw [loop_block h hwarn (hfile ▸ hdistinct) hfile', hdata, hrest]
      · rfl
      · cases hpos : a.location.beforeAfter with
        | before =>
          rw [hpos] at hptr
          exact hadvance _ hptr
        | after =>
          rw [hpos] at hptr
          exact hadvance _ hptr

open insertCompoundLineAtLocation in
theorem loop_blockInserted (h : BlockPromise a) (hwarn : a.warn = false)
    (hdistinct : Distinct s.fileStart)
    (hpoint : insertionPoint env a s.fileStart = some (location, prev)) :
    contents (loop env a beginPtr endPtr lines result s location prev).2.fileStart =
      blockInserted a.location.beforeAfter (lines.filter (selectLine env a))
        (contents s.fileStart) := by
  rw [insertionPoint, h.locator] at hpoint
  cases hpos : a.location.beforeAfter with
  | before =>
    rw [hpos] at hpoint
    cases hpoint
    rw [loop_first h hwarn (fun buf => insertLineAtLocation_first hwarn hpos hdistinct)
      (.inr (by rw [hpos]; rfl)), blockInserted]
    cases lines.filter (selectLine env a) with
    | nil =>
      cases s.fileStart with
      | nil => rfl
      | cons start rest => rfl
    | cons buf acc => rfl
  | after =>
    rw [hpos] at hpoint
    cases hpoint
    rcases List.eq_nil_or_concat s.fileStart with hnil | ⟨before, last, hfile⟩
    · have hfirst : ∀ buf, ∃ p behind,
        (insertLineAtLocation env a buf s (ptrBehind .null s.fileStart)
          (ptrBehind .undefined s.fileStart.dropLast)).2.fileStart = p :: behind ∧ p.data = buf ∧
            Distinct (p :: behind) ∧ contents behind = [] := by
        intro buf
        rw [hnil]
        exact insertLineAtLocation_empty h hwarn hpos hnil
      rw [loop_first h hwarn hfirst (.inl (by rw [hpos, hnil]; rfl)), blockInserted, hnil]
      cases lines.filter (selectLine env a) with
      | nil => rfl
      | cons buf acc => simp [contents]
    · rw [List.concat_eq_append] at hfile
      rw [@loop_block _ _ _ _ before [] _ _ _ _ _ _ h hwarn hdistinct hfile, blockInserted, hfile,
        contents_append, List.append_assoc, List.append_assoc]
      · simp [contents]
      · rw [hpos, hfile, ptrBehind, List.getLast?_concat]
        rfl

/-! ## A run -/

/-- What a run makes of the lines of a file. -/
theorem editFile_block (h : BlockPromise a) (hwarn : a.warn = false)
    (hsanity : sanityCheckInsertions a = true) :
    (editFile env a promiser lines).1 =
      if linesMatch env.fullTextMatch (promiser.splitOn '\n') (linesAtLocation a lines) then lines
      else blockInserted a.location.beforeAfter (selectedLines env a promiser) lines := by
  obtain ⟨location, prev, hpoint⟩ :=
    exists_insertionPoint env (loadFileAsItemList lines) h.locator
  rw [← matchRegion_point promiser h.locator hpoint]
  cases hmatch : matchRegion env.fullTextMatch promiser (loadFileAsItemList lines)
      location .null with
  | true => rw [editFile_of_matchRegion h.region h.isFileInsert hsanity hpoint hmatch, if_pos rfl]
  | false =>
    rw [editFile_at_point h.region h.isFileInsert hsanity hpoint, if_neg Bool.false_ne_true]
    dsimp only
    rw [fileStart_counted, insertCompoundLineAtLocation, if_neg (by simp [hmatch]),
      loop_blockInserted h hwarn distinct_loadFileAsItemList hpoint, contents_loadFileAsItemList,
      selectedLines]

theorem editFile_block_idle (h : BlockPromise a)
    (hidle : a.warn = true ∨ sanityCheckInsertions a = false) :
    (editFile env a promiser lines).1 = lines := by
  cases hsanity : sanityCheckInsertions a with
  | false => rw [editFile_untouched (.inl hsanity) h.region h.isFileInsert]
  | true =>
    have hwarn : a.warn = true := hidle.resolve_right (by simp [hsanity])
    obtain ⟨location, prev, hpoint⟩ :=
      exists_insertionPoint env (loadFileAsItemList lines) h.locator
    rw [editFile_at_point h.region h.isFileInsert hsanity hpoint]
    dsimp only
    rw [fileStart_counted, insertCompoundLineAtLocation]
    split
    · exact contents_loadFileAsItemList
    · rw [loop_warn hwarn]
      exact contents_loadFileAsItemList

/-- The characters that are special outside of a character class. -/
def isMetacharacter (c : Char) : Bool :=
  ['\\', '^', '$', '.', '[', '|', '(', ')', '?', '*', '+', '\x7b'].any (· = c)

/-- A line without metacharacters. -/
def PlainLine (line : CString) : Prop := line.any isMetacharacter = false

instance {line : CString} : Decidable (PlainLine line) := inferInstanceAs (Decidable (_ = _))

/-- A pattern without metacharacters matches itself only. -/
def PlainMatches (env : EditEnv) : Prop :=
  ∀ regexp teststring, PlainLine regexp →
    env.regExMatchFullString regexp teststring = decide (regexp = teststring)

theorem linesMatch_plain (hregex : PlainMatches env) (hplain : ∀ p ∈ patterns, PlainLine p) :
    linesMatch env.fullTextMatch patterns lines = true ↔ patterns <+: lines := by
  induction patterns generalizing lines with
  | nil => simp [linesMatch]
  | cons pattern patterns ih =>
    rw [List.forall_mem_cons] at hplain
    cases lines with
    | nil => simp [linesMatch]
    | cons line lines =>
      rw [linesMatch, Bool.and_eq_true, ih hplain.2, EditEnv.fullTextMatch,
        hregex _ _ hplain.1, Bool.or_self, decide_eq_true_eq, List.cons_prefix_cons]

theorem blockInserted_before_eq_self {l : List CString} :
    blockInserted .before acc l = l ↔ acc = [] ∨ (acc.length = 1 ∧ acc.head? = l.head?) := by
  rw [blockInserted]
  cases acc with
  | nil =>
    cases l with
    | nil => simp
    | cons line l => simp
  | cons buf acc =>
    cases l with
    | nil => simp
    | cons line l =>
      simp only [List.head?_cons, Option.some_inj, List.tail_cons]
      split
      · rename_i heq
        rw [heq]
        simp
      · rename_i hne
        simp [hne]

/-- The block stands at the location behind the first run, or there is nothing to insert twice. -/
def BlockStays (pos : CfEditOrder) (chunk acc lines : List CString) : Prop :=
  match pos with
  | .before => acc.length ≤ 1 ∨ chunk <+: lines ∨ chunk <+: blockInserted .before acc lines
  | .after => acc = [] ∨ chunk = lines.getLast?.toList ∨ chunk = acc.getLast?.toList

/-- A run of a promise that inserts a block where it is not in the lines at the location. -/
def blockRun (pos : CfEditOrder) (chunk acc lines : List CString) : List CString :=
  if chunk <+: (match pos with | .before => lines | .after => lines.getLast?.toList) then lines
  else blockInserted pos acc lines

theorem prefix_getLast?_iff {chunk l : List CString} (hne : chunk ≠ []) :
    chunk <+: l.getLast?.toList ↔ chunk = l.getLast?.toList := by
  constructor
  · intro h
    refine h.eq_of_length_le ?_
    have hlen : l.getLast?.toList.length ≤ 1 := by cases l.getLast? <;> simp
    have hpos : 0 < chunk.length := List.length_pos_of_ne_nil hne
    omega
  · intro h
    exact h ▸ List.prefix_refl _

theorem blockRun_before_iff {chunk l : List CString} :
    blockRun .before chunk acc (blockRun .before chunk acc l) = blockRun .before chunk acc l ↔
      BlockStays .before chunk acc l := by
  rw [BlockStays]
  by_cases hthere : chunk <+: l
  · have hrun : blockRun .before chunk acc l = l := if_pos hthere
    rw [hrun, hrun]
    simp [hthere]
  · have hrun : blockRun .before chunk acc l = blockInserted .before acc l := if_neg hthere
    rw [hrun]
    by_cases hstays : chunk <+: blockInserted .before acc l
    · rw [blockRun, if_pos hstays]
      simp [hstays]
    · have hhead : acc ≠ [] → acc.head? = (blockInserted .before acc l).head? := by
        intro hne
        rw [blockInserted, List.head?_append_of_ne_nil _ hne]
      rw [blockRun, if_neg hstays, blockInserted_before_eq_self]
      simp only [hthere, hstays, or_false]
      constructor
      · rintro (hnil | ⟨hlen, -⟩)
        · simp [hnil]
        · exact hlen.le
      · intro hlen
        by_cases hnil : acc = []
        · exact .inl hnil
        · have hpos : 0 < acc.length := List.length_pos_of_ne_nil hnil
          exact .inr ⟨by omega, hhead hnil⟩

theorem blockRun_after_iff {chunk l : List CString} (hne : chunk ≠ []) :
    blockRun .after chunk acc (blockRun .after chunk acc l) = blockRun .after chunk acc l ↔
      BlockStays .after chunk acc l := by
  have hrun : ∀ l, blockRun .after chunk acc l =
      if chunk = l.getLast?.toList then l else l ++ acc := fun l =>
    if_congr (prefix_getLast?_iff hne) rfl rfl
  rw [BlockStays]
  by_cases hthere : chunk = l.getLast?.toList
  · rw [hrun l, if_pos hthere, hrun l, if_pos hthere]
    simp [hthere]
  · rw [hrun l, if_neg hthere, hrun]
    by_cases hnil : acc = []
    · rw [hnil]
      simp
    · have hlast : (l ++ acc).getLast? = acc.getLast? := List.getLast?_append_of_ne_nil _ hnil
      rw [hlast]
      by_cases hstays : chunk = acc.getLast?.toList
      · rw [if_pos hstays]
        simp [← hstays]
      · rw [if_neg hstays]
        simp [hnil, hthere, hstays]

theorem editFile_eq_blockRun (h : BlockPromise a) (hregex : PlainMatches env)
    (hplain : ∀ line ∈ promiser.splitOn '\n', PlainLine line) (hwarn : a.warn = false)
    (hsanity : sanityCheckInsertions a = true) :
    (editFile env a promiser lines).1 = blockRun a.location.beforeAfter (promiser.splitOn '\n')
      (selectedLines env a promiser) lines := by
  rw [editFile_block h hwarn hsanity, blockRun.eq_def, linesAtLocation]
  exact if_congr (linesMatch_plain hregex hplain) rfl rfl

/-- A second run makes no edit iff the promise makes none at all or the block stays. -/
theorem block_convergent_iff (h : BlockPromise a) (hregex : PlainMatches env)
    (hplain : ∀ line ∈ promiser.splitOn '\n', PlainLine line) :
    let r := (editFile env a promiser lines).1
    (editFile env a promiser r).1 = r ↔
      a.warn = true ∨ sanityCheckInsertions a = false ∨
        BlockStays a.location.beforeAfter (promiser.splitOn '\n') (selectedLines env a promiser)
          lines := by
  dsimp only
  by_cases hidle : a.warn = true ∨ sanityCheckInsertions a = false
  · rw [editFile_block_idle h hidle, editFile_block_idle h hidle]
    simp only [true_iff]
    exact hidle.imp_right .inl
  · obtain ⟨hwarn, hsanity⟩ := not_or.mp hidle
    rw [Bool.not_eq_true] at hwarn
    rw [Bool.not_eq_false] at hsanity
    rw [editFile_eq_blockRun h hregex hplain hwarn hsanity,
      editFile_eq_blockRun h hregex hplain hwarn hsanity, hwarn, hsanity]
    simp only [Bool.false_eq_true, Bool.true_eq_false, false_or]
    cases a.location.beforeAfter with
    | before => exact blockRun_before_iff
    | after => exact blockRun_after_iff (List.splitOn_ne_nil '\n' promiser)

end

/-! ## Two lines -/

theorem plainMatches_literalEnv : PlainMatches literalEnv := by
  intro regexp teststring hplain
  have hliteral : ¬ ".*".toList <:+ regexp := by
    intro hsuffix
    rw [PlainLine, List.any_eq_false] at hplain
    exact hplain '*' (hsuffix.subset (by decide)) (by decide)
  rw [← List.isSuffixOf_iff_suffix] at hliteral
  exact if_neg hliteral

theorem blockPromise_lineInsertion {pos : CfEditOrder} :
    BlockPromise (lineInsertion pos (some "preserve_block".toList)) := ⟨rfl, rfl, rfl⟩

theorem block_convergent_two_lines :
    let a := lineInsertion .before (some "preserve_block".toList)
    let r := (editFile literalEnv a "a\nb".toList ["x".toList]).1
    (editFile literalEnv a "a\nb".toList r).1 = r :=
  (block_convergent_iff blockPromise_lineInsertion plainMatches_literalEnv (by decide)).mpr
    (.inr (.inr (.inr (.inr (by decide)))))

/-- A block of two lines is appended a second time. -/
theorem block_appended_again :
    let a := lineInsertion .after (some "preserve_block".toList)
    let r := (editFile literalEnv a "a\nb".toList ["x".toList]).1
    (∀ line ∈ "a\nb".toList.splitOn '\n', PlainLine line) ∧
      (editFile literalEnv a "a\nb".toList r).1 ≠ r := by
  decide

end Cfengine
