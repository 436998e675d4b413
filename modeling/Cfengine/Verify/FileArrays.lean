import Cfengine.FileArrays
import Cfengine.Theory.Numerals
import Cfengine.Verify.FieldEdits
import Cfengine.Verify.NewScalar

/-!
# What is in an array from a file

With integer index and string type, `BuildLineArray` numbers the lines of the file that are not
empty, and sets an element for each of their fields (`ArrayEnv.loop_eq`), for lines that fit its
buffer. Where the scope has room for the elements, each is read as its field then
(`buildLineArray_holdsFile`).
-/

namespace Cfengine
open Occurrences

/-! ## The array of a text -/

/-- The lines that are not empty, without their carriage returns. -/
def arrayLines (text : CString) : List CString :=
  ((fields ['\n'] text).map ArrayEnv.chopReturn).filter (· ≠ [])

/-- The elements for the fields of a line. -/
def lineElements (arrayLval : CString) (c : Char) (line : CString)
    (i : Nat) : List (CString × CString) :=
  (fields [c] line).zipIdx.map fun field =>
    (ArrayEnv.elementName arrayLval (Nat.toDigits 10 i) field.2, field.1)

/-- The elements of the array, where the first line has the number `i`. -/
def arrayElements (arrayLval : CString) (c : Char) (lines : List CString)
    (i : Nat) : List (CString × CString) :=
  (lines.zipIdx i).flatMap fun line => lineElements arrayLval c line.1 line.2

/-- The elements are set in turn. -/
def ArrayEnv.setAll (env : ArrayEnv) (s : VarState)
    (elements : List (CString × CString)) : Option VarState :=
  elements.foldlM (fun s element => env.newScalar s element.1 element.2 .str) s

variable {env : ArrayEnv} {arrayLval split text sp line linebuf u v : CString}
  {lines : List CString} {c : Char}
  {maxent fuel hcount lcount vcount : Nat} {firstOne : CString} {s s' : VarState}

namespace ArrayEnv

theorem chopReturn_eq_nil (h : chopReturn linebuf = []) : linebuf = [] ∨ linebuf = ['\r'] := by
  rw [chopReturn] at h
  split at h
  · rename_i hreturn
    refine .inr ?_
    rw [← List.dropLast_append_getLast? _ hreturn, h, List.nil_append]
  · exact .inl h

theorem chopReturn_ne_nil (h : chopReturn linebuf ≠ []) : ¬ (linebuf = [] || linebuf = ['\r']) := by
  rintro hempty
  rw [Bool.or_eq_true, decide_eq_true_iff, decide_eq_true_iff] at hempty
  obtain rfl | rfl := hempty <;> exact h rfl

theorem setAll_append (front back : List (CString × CString)) :
    env.setAll s (front ++ back) = (env.setAll s front).bind fun s => env.setAll s back :=
  List.foldlM_append

/-! ## The fields of a line -/

theorem buildLineArray_fields_eq {newlist : List CString}
    (hshort : ∀ field ∈ newlist, field.length < cfMaxVarSize - 1) :
    buildLineArray.fields env arrayLval .str true hcount newlist vcount firstOne s =
      env.setAll s ((newlist.zipIdx vcount).map fun field =>
        (elementName arrayLval (Nat.toDigits 10 hcount) field.2, field.1)) := by
  induction newlist generalizing vcount firstOne s with
  | nil => rfl
  | cons field newlist ih =>
    rw [List.forall_mem_cons] at hshort
    rw [buildLineArray.fields, thisRval, if_pos hshort.1, setAll, List.zipIdx_cons, List.map_cons,
      List.foldlM_cons]
    exact Option.bind_congr fun s _ => ih hshort.2

/-- The fields that a line is split in are those between the separators. -/
theorem splitLine_eq (hlit : env.MatchesLiteral split [c])
    (hmax : (fields [c] line).length ≤ maxent)
    (hshort : ∀ field ∈ fields [c] line, field.length < cfMaxVarSize - 1) (hne : line ≠ []) :
    env.splitRegexAsRList split maxent true line = .ok (fields [c] line) := by
  have hfits : ∀ field ∈ fields [c] line, field.length < cfMaxVarSize := fun field hfield =>
    (hshort field hfield).trans (by decide)
  by_cases hsep : [c] <:+: line
  · exact splitRegexLoop_eq hlit (List.cons_ne_nil _ _) (by omega) hfits le_rfl (.inr hsep)
  · have hnone := find?_eq_none_iff.mpr hsep
    rw [fields_of_none hnone] at hmax hfits ⊢
    rw [RegEx.splitRegexAsRList, RegEx.splitRegexAsRList.loop, if_pos (show 0 < maxent from hmax),
      hlit, hnone]
    refine congrArg Except.ok ?_
    rw [RegEx.splitRegexAsRList.loop.last,
      List.take_of_length_le (Nat.le_sub_one_of_lt (hfits line (List.mem_singleton_self _)))]
    simp [hne]

/-! ## The lines -/

theorem loop_full (h : ¬ (hcount < maxent && sp ≠ [])) :
    buildLineArray.loop env arrayLval split maxent .str true fuel sp hcount lcount s =
      some (hcount, s) := by
  cases fuel with
  | zero => rfl
  | succ fuel => rw [buildLineArray.loop, if_neg h]

/-- At an empty line, one character is skipped. -/
theorem loop_empty (hmax : hcount < maxent) (hsp : sp ≠ [])
    (hline : chopReturn (scanLine sp) = []) :
    buildLineArray.loop env arrayLval split maxent .str true (fuel + 1) sp hcount lcount s =
      buildLineArray.loop env arrayLval split maxent .str true fuel (sp.drop 1) hcount
        lcount s := by
  have hempty := chopReturn_eq_nil hline
  rw [buildLineArray.loop, if_pos (by simp [hmax, hsp])]
  exact if_pos (by simpa using hempty)

/-- A line is split, its fields are set, and the cursor moves behind it. -/
theorem loop_line (hlit : env.MatchesLiteral split [c]) (hmax : hcount < maxent) (hsp : sp ≠ [])
    (hline : chopReturn (scanLine sp) = line) (hne : line ≠ []) (hlcount : lcount ≤ cfHashTableSize)
    (hfields : (fields [c] line).length ≤ maxent)
    (hshort : ∀ field ∈ fields [c] line, field.length < cfMaxVarSize - 1) :
    buildLineArray.loop env arrayLval split maxent .str true (fuel + 1) sp hcount lcount s =
      (env.setAll s (lineElements arrayLval c line hcount)).bind fun s =>
        if sp.drop (scanLine sp).length = [] then some (hcount + 1, s)
        else buildLineArray.loop env arrayLval split maxent .str true fuel
          ((sp.drop (scanLine sp).length).drop 1)
          (hcount + 1) (lcount + 1) s := by
  subst hline
  rw [buildLineArray.loop, if_pos (by simp [hmax, hsp])]
  dsimp only
  rw [if_neg (chopReturn_ne_nil hne), if_neg hlcount.not_gt, splitLine_eq hlit hfields hshort hne]
  exact congrArg (Option.bind · _) (buildLineArray_fields_eq hshort)

theorem scanLine_of_find?_none (h : find? ['\n'] sp = none) (hwidth : sp.length < cfMaxVarSize) :
    scanLine sp = sp := by
  rw [find?_eq_none_iff, List.singleton_infix_iff] at h
  rw [scanLine, List.takeWhile_eq_self_iff.mpr fun c hc =>
    decide_eq_true (ne_of_mem_of_not_mem hc h)]
  exact List.take_of_length_le (Nat.le_sub_one_of_lt hwidth)

theorem newline_not_mem_of_find? (h : find? ['\n'] (u ++ (['\n'] ++ v)) = some u.length) :
    '\n' ∉ u := by
  intro hmem
  obtain ⟨front, back, rfl⟩ := List.append_of_mem hmem
  obtain ⟨_, _, _, _, hnone⟩ := find?_eq_some_iff.mp h
  refine hnone front.length (by simp) ?_
  simp

theorem scanLine_of_newline (h : '\n' ∉ u) (hwidth : u.length < cfMaxVarSize) :
    scanLine (u ++ (['\n'] ++ v)) = u := by
  rw [scanLine, List.takeWhile_append_of_pos fun c hc => decide_eq_true (ne_of_mem_of_not_mem hc h)]
  simp [cfMaxVarSize] at hwidth ⊢
  omega

end ArrayEnv

theorem arrayLines_of_none (h : find? ['\n'] sp = none) (hempty : ArrayEnv.chopReturn sp = []) :
    arrayLines sp = [] := by
  rw [arrayLines, fields_of_none h, List.map_singleton, hempty]
  rfl

theorem arrayLines_of_line (h : find? ['\n'] sp = none) (hne : ArrayEnv.chopReturn sp ≠ []) :
    arrayLines sp = [ArrayEnv.chopReturn sp] := by
  rw [arrayLines, fields_of_none h, List.map_singleton, List.filter_cons,
    if_pos (decide_eq_true hne)]
  rfl

theorem arrayLines_skip (h : fields ['\n'] sp = u :: fields ['\n'] v)
    (hempty : ArrayEnv.chopReturn u = []) :
    arrayLines sp = arrayLines v := by
  rw [arrayLines, h, List.map_cons, hempty]
  rfl

theorem arrayLines_cons (h : fields ['\n'] sp = u :: fields ['\n'] v)
    (hne : ArrayEnv.chopReturn u ≠ []) :
    arrayLines sp = ArrayEnv.chopReturn u :: arrayLines v := by
  rw [arrayLines, h, List.map_cons, List.filter_cons, if_pos (decide_eq_true hne)]
  rfl

theorem arrayElements_cons (i : Nat) :
    arrayElements arrayLval c (line :: lines) i =
      lineElements arrayLval c line i ++ arrayElements arrayLval c lines (i + 1) := by
  rw [arrayElements, List.zipIdx_cons, List.flatMap_cons]
  rfl

namespace ArrayEnv

/-- An empty line is skipped. The newline behind a carriage return is read as an empty line of its
own. -/
theorem loop_skip (hmax : hcount < maxent) (hnewline : '\n' ∉ u) (hne : chopReturn u = [])
    (hfuel : (u ++ (['\n'] ++ v)).length < fuel) :
    ∃ fuel', v.length < fuel' ∧
      buildLineArray.loop env arrayLval split maxent .str true fuel (u ++ (['\n'] ++ v)) hcount
          lcount s =
        buildLineArray.loop env arrayLval split maxent .str true fuel' v hcount lcount s := by
  have hlength : (u ++ (['\n'] ++ v)).length = u.length + 1 + v.length := by
    simp
    omega
  have hnil : chopReturn (scanLine ([] ++ (['\n'] ++ v))) = [] := by
    rw [scanLine_of_newline List.not_mem_nil (by decide)]
    rfl
  obtain ⟨fuel, rfl⟩ := Nat.exists_eq_succ_of_ne_zero (Nat.ne_zero_of_lt hfuel)
  obtain rfl | rfl := chopReturn_eq_nil hne
  · rw [loop_empty hmax (by simp) hnil]
    exact ⟨fuel, by rw [List.length_nil] at hlength; omega, rfl⟩
  · have hreturn : chopReturn (scanLine (['\r'] ++ (['\n'] ++ v))) = [] := by
      rw [scanLine_of_newline hnewline (by decide), hne]
    rw [List.length_singleton] at hlength
    obtain ⟨fuel, rfl⟩ := Nat.exists_eq_succ_of_ne_zero (show fuel ≠ 0 by omega)
    rw [loop_empty hmax (by simp) hreturn]
    exact ⟨fuel, by omega, loop_empty hmax (by simp) hnil⟩

/-- From a line on, the loop numbers the lines that are left and sets their elements. -/
theorem loop_eq (hlit : env.MatchesLiteral split [c])
    (hwidth : ∀ line ∈ fields ['\n'] sp, line.length < cfMaxVarSize)
    (hfields : ∀ line ∈ arrayLines sp, (fields [c] line).length ≤ maxent)
    (hshort : ∀ line ∈ arrayLines sp, ∀ field ∈ fields [c] line, field.length < cfMaxVarSize - 1)
    (hmax : hcount + (arrayLines sp).length ≤ maxent)
    (hlcount : lcount + (arrayLines sp).length ≤ cfHashTableSize + 1) (hfuel : sp.length < fuel) :
    buildLineArray.loop env arrayLval split maxent .str true fuel sp hcount lcount s =
      (env.setAll s (arrayElements arrayLval c (arrayLines sp) hcount)).map fun s =>
        (hcount + (arrayLines sp).length, s) := by
  induction sp using fields_induction (List.cons_ne_nil '\n' []) generalizing fuel hcount
      lcount s with
  | none sp h =>
    rw [fields_of_none h] at hwidth
    have hscan := scanLine_of_find?_none h (hwidth sp (List.mem_singleton_self _))
    obtain ⟨fuel, rfl⟩ := Nat.exists_eq_succ_of_ne_zero (Nat.ne_zero_of_lt hfuel)
    by_cases hne : chopReturn sp = []
    · have hlines := arrayLines_of_none h hne
      rw [hlines]
      change _ = some (hcount, s)
      by_cases hsp : hcount < maxent && sp ≠ []
      · rw [Bool.and_eq_true, decide_eq_true_iff, decide_eq_true_iff] at hsp
        rw [loop_empty hsp.1 hsp.2 (by rw [hscan, hne])]
        refine loop_full ?_
        obtain rfl | rfl := chopReturn_eq_nil hne <;> simp
      · exact loop_full hsp
    · rw [arrayLines_of_line h hne] at hfields hshort hmax hlcount ⊢
      have hsp : sp ≠ [] := by
        rintro rfl
        exact hne rfl
      rw [loop_line hlit hmax hsp (by rw [hscan]) hne (Nat.le_of_succ_le_succ hlcount)
        (hfields _ (List.mem_singleton_self _)) (hshort _ (List.mem_singleton_self _)), hscan,
        List.drop_length, arrayElements_cons, setAll_append, Option.map_bind]
      rfl
  | some u v h hsplit ih =>
    have hnewline := newline_not_mem_of_find? h
    rw [hsplit, List.forall_mem_cons] at hwidth
    by_cases hne : chopReturn u = []
    · have hlines := arrayLines_skip hsplit hne
      rw [hlines] at hfields hshort hmax hlcount ⊢
      by_cases hlt : hcount < maxent
      · obtain ⟨fuel', hfuel', heq⟩ := loop_skip hlt hnewline hne hfuel
        rw [heq]
        exact ih hwidth.2 hfields hshort hmax hlcount hfuel'
      · have hnone : arrayLines v = [] := List.length_eq_zero_iff.mp (by omega)
        rw [loop_full (by simp [hlt]), hnone]
        rfl
    · have hscan := @scanLine_of_newline u v hnewline hwidth.1
      have hlength : (u ++ (['\n'] ++ v)).length = u.length + 1 + v.length := by
        simp
        omega
      obtain ⟨fuel, rfl⟩ := Nat.exists_eq_succ_of_ne_zero (Nat.ne_zero_of_lt hfuel)
      rw [arrayLines_cons hsplit hne] at hfields hshort hmax hlcount ⊢
      rw [List.forall_mem_cons] at hfields hshort
      rw [List.length_cons] at hmax hlcount ⊢
      rw [loop_line hlit (by omega) (by simp) (by rw [hscan]) hne (by omega) hfields.1 hshort.1,
        hscan, List.drop_left, arrayElements_cons, setAll_append, Option.map_bind]
      refine Option.bind_congr fun s _ => ?_
      rw [if_neg (by simp), show (['\n'] ++ v).drop 1 = v from rfl,
        ih hwidth.2 hfields.2 hshort.2 (by omega) (by omega) (by omega), Nat.add_assoc,
        Nat.add_comm 1]
      rfl

end ArrayEnv

/-! ## The names of the elements -/

theorem toDigits_inj {i j : Nat} (h : Nat.toDigits 10 i = Nat.toDigits 10 j) : i = j := by
  rw [← Numerals.value_toDigits (n := i), h, Numerals.value_toDigits]

theorem not_mem_toDigits {d : Char} (hd : Numerals.isDigit 10 d = false) {i : Nat} :
    d ∉ Nat.toDigits 10 i := fun hmem => by
  rw [Numerals.isDigit_of_mem_toDigits d hmem] at hd
  cases hd

namespace ArrayEnv

/-- What stands behind the name of the array in that of an element. -/
def elementIndex (i j : Nat) : CString :=
  '[' :: (Nat.toDigits 10 i ++ "][".toList ++ Nat.toDigits 10 j ++ [']'])

theorem elementName_eq {i j : Nat}
    (h : (elementName arrayLval (Nat.toDigits 10 i) j).length < cfMaxVarSize - 1) :
    elementName arrayLval (Nat.toDigits 10 i) j = arrayLval ++ elementIndex i j := by
  rw [elementName, List.length_take] at h
  rw [elementName, elementIndex, List.take_of_length_le (by omega)]

theorem length_elementName_le {i j k l : Nat} (hi : (Nat.toDigits 10 i).length ≤ k)
    (hj : (Nat.toDigits 10 j).length ≤ l) :
    (elementName arrayLval (Nat.toDigits 10 i) j).length ≤ arrayLval.length + 4 + k + l := by
  rw [elementName, List.length_take]
  simp only [List.length_append, List.length_cons, List.length_nil]
  change _ ⊓
    (arrayLval.length + ((Nat.toDigits 10 i).length + 2 + (Nat.toDigits 10 j).length + 1 + 1)) ≤ _
  omega

/-- The digits end at the first bracket. -/
theorem takeWhile_elementIndex (i : Nat) (rest : CString) :
    (Nat.toDigits 10 i ++ ']' :: rest).takeWhile (· ≠ ']') = Nat.toDigits 10 i := by
  have hdigits : ']' ∉ Nat.toDigits 10 i := not_mem_toDigits rfl
  rw [List.takeWhile_append_of_pos fun d hd => decide_eq_true (ne_of_mem_of_not_mem hd hdigits)]
  exact List.append_nil _

theorem elementIndex_inj {i j i' j' : Nat} (h : elementIndex i j = elementIndex i' j') :
    i = i' ∧ j = j' := by
  simp only [elementIndex, List.cons.injEq, true_and, List.append_assoc] at h
  change Nat.toDigits 10 i ++ ']' :: '[' :: (Nat.toDigits 10 j ++ [']']) =
    Nat.toDigits 10 i' ++ ']' :: '[' :: (Nat.toDigits 10 j' ++ [']']) at h
  have hfirst := congrArg (List.takeWhile (· ≠ ']')) h
  rw [takeWhile_elementIndex, takeWhile_elementIndex] at hfirst
  rw [hfirst] at h
  have hrest := (List.cons.inj (List.cons.inj (List.append_cancel_left h)).2).2
  exact ⟨toDigits_inj hfirst, toDigits_inj (List.append_inj' hrest rfl).1⟩

end ArrayEnv

theorem containsReference_append {a b : CString} (ha : containsReference a = false)
    (hb : '$' ∉ b) (hhead : startsWithBracket b = false) : containsReference (a ++ b) = false := by
  induction a with
  | nil =>
    clear hhead
    induction b with
    | nil => rfl
    | cons c b ih =>
      rw [List.mem_cons, not_or] at hb
      rw [List.nil_append, containsReference, Bool.or_eq_false_iff]
      exact ⟨by simp [Ne.symm hb.1], ih hb.2⟩
  | cons c a ih =>
    rw [containsReference, Bool.or_eq_false_iff] at ha
    rw [List.cons_append, containsReference, Bool.or_eq_false_iff]
    refine ⟨?_, ih ha.2⟩
    cases a with
    | nil => rw [List.nil_append, hhead, Bool.and_false]
    | cons d a => exact ha.1

theorem PlainName.append_elementIndex (h : PlainName arrayLval) (i j : Nat) :
    PlainName (arrayLval ++ ArrayEnv.elementIndex i j) := by
  have hnot {d : Char} (hd : Numerals.isDigit 10 d = false) (hbracket : d ≠ '[' ∧ d ≠ ']') :
      d ∉ ArrayEnv.elementIndex i j := by
    simp [ArrayEnv.elementIndex, hbracket, not_mem_toDigits hd]
  refine ⟨fun hmem => ?_, containsReference_append h.noReference (hnot rfl (by decide)) rfl⟩
  exact (List.mem_append.mp hmem).elim h.noDot (hnot rfl (by decide))

theorem mem_lineElements {element : CString × CString} {i : Nat} :
    element ∈ lineElements arrayLval c line i ↔ ∃ j field, (fields [c] line)[j]? = some field ∧
      element = (ArrayEnv.elementName arrayLval (Nat.toDigits 10 i) j, field) := by
  simp only [lineElements, List.mem_map, List.mem_zipIdx_iff_getElem?, Prod.exists]
  constructor
  · rintro ⟨field, j, hfield, rfl⟩
    exact ⟨j, field, hfield, rfl⟩
  · rintro ⟨j, field, hfield, rfl⟩
    exact ⟨field, j, hfield, rfl⟩

theorem mem_arrayElements {element : CString × CString} {i : Nat} :
    element ∈ arrayElements arrayLval c lines i ↔ ∃ k line, lines[k]? = some line ∧
      ∃ j field, (fields [c] line)[j]? = some field ∧
        element = (ArrayEnv.elementName arrayLval (Nat.toDigits 10 (i + k)) j, field) := by
  simp only [arrayElements, List.mem_flatMap, mem_lineElements,
    List.mem_zipIdx_iff_le_and_getElem?_sub, Prod.exists]
  constructor
  · rintro ⟨line, i', ⟨hle, hline⟩, j, field, hfield, rfl⟩
    exact ⟨i' - i, line, hline, j, field, hfield, by rw [Nat.add_sub_cancel' hle]⟩
  · rintro ⟨k, line, hline, j, field, hfield, rfl⟩
    exact ⟨line, i + k, ⟨Nat.le_add_right _ _, by rwa [Nat.add_sub_cancel_left]⟩, j, field, hfield,
      rfl⟩

/-- The names of the elements fit the buffer that they are made in. -/
def NamesFit (elements : List (CString × CString)) : Prop :=
  ∀ element ∈ elements, element.1.length < cfMaxVarSize - 1

theorem lineElements_names_nodup {i : Nat} (hfit : NamesFit (lineElements arrayLval c line i)) :
    ((lineElements arrayLval c line i).map Prod.fst).Nodup := by
  have hnodup : (fields [c] line).zipIdx.Nodup := .of_map _ (List.nodup_zipIdx_map_snd _)
  rw [lineElements, List.map_map]
  refine (List.nodup_map_iff_inj_on hnodup).mpr fun field hfield other hother hname => ?_
  have hfits := hfit _ (List.mem_map_of_mem hfield)
  have hfits' := hfit _ (List.mem_map_of_mem hother)
  rw [Function.comp_apply, Function.comp_apply, ArrayEnv.elementName_eq hfits,
    ArrayEnv.elementName_eq hfits'] at hname
  have hindex := (ArrayEnv.elementIndex_inj (List.append_cancel_left hname)).2
  rw [List.mem_zipIdx_iff_getElem?] at hfield hother
  rw [hindex, hother] at hfield
  exact Prod.ext (Option.some.inj hfield).symm hindex

/-- Different elements have different names. -/
theorem arrayElements_names_nodup {i : Nat} (hfit : NamesFit (arrayElements arrayLval c lines i)) :
    ((arrayElements arrayLval c lines i).map Prod.fst).Nodup := by
  induction lines generalizing i with
  | nil => exact List.nodup_nil
  | cons line lines ih =>
    rw [arrayElements_cons] at hfit ⊢
    have hline : NamesFit (lineElements arrayLval c line i) := fun element hmem =>
      hfit element (List.mem_append_left _ hmem)
    have hlines : NamesFit (arrayElements arrayLval c lines (i + 1)) := fun element hmem =>
      hfit element (List.mem_append_right _ hmem)
    rw [List.map_append, List.nodup_append']
    refine ⟨lineElements_names_nodup hline, ih hlines, ?_⟩
    intro name hmem hmem'
    obtain ⟨element, helement, rfl⟩ := List.mem_map.mp hmem
    obtain ⟨other, hother, hname⟩ := List.mem_map.mp hmem'
    have hfits := hline element helement
    have hfits' := hlines other hother
    obtain ⟨j, field, -, rfl⟩ := mem_lineElements.mp helement
    obtain ⟨k, line', -, j', field', -, rfl⟩ := mem_arrayElements.mp hother
    dsimp only at hname hfits hfits'
    rw [ArrayEnv.elementName_eq hfits, ArrayEnv.elementName_eq hfits'] at hname
    have hindex := (ArrayEnv.elementIndex_inj (List.append_cancel_left hname)).1
    omega

/-! ## Setting the elements -/

/-- The number of elements that are not in a table. -/
def newElements (getHash : CString → Fin cfHashTableSize) (t : AssocHashTable)
    (elements : List (CString × CString)) : Nat :=
  elements.countP fun element => (hashLookupElement getHash t element.1).isNone

/-- `NewScalar` can set the elements: their names are plain and fit its buffers, no value refers to
its own element, the agent is not the syntax checker, and there is a scope, whose variables have a
type and whose table has room for the elements that are not in it. -/
structure ArrayEnv.Settable (env : ArrayEnv) (arrayLval : CString)
    (elements : List (CString × CString)) (s : VarState) : Prop where
  plain : PlainName arrayLval
  scopeFits : env.thisBundle.length < cfMaxVarSize
  namesFit : NamesFit elements
  notItself : ∀ element ∈ elements, stringContainsVar element.1 element.2 = false
  unchecked : s.Unchecked
  room : ∃ ptr, getScope s.vscope env.thisBundle = some ptr ∧ SoundTable ptr.hashtable ∧
    ptr.hashtable.used + newElements env.getHash ptr.hashtable elements ≤ cfHashTableSize

/-- Where an element has been set, there is still room for the others. -/
theorem SetTo.room {getHash : CString → Fin cfHashTableSize} {t t' : AssocHashTable}
    {element : CString × CString} {elements : List (CString × CString)} {a : CfAssoc} {n : Nat}
    (hset : SetTo getHash t t' a) (hname : a.lval = element.1)
    (hnew : element.1 ∉ elements.map Prod.fst)
    (hroom : t.used + newElements getHash t (element :: elements) ≤ n) :
    t'.used + newElements getHash t' elements ≤ n := by
  have hless : newElements getHash t' elements ≤ newElements getHash t elements := by
    refine List.countP_mono_left fun other hother hnone => ?_
    have hne : other.1 ≠ a.lval := fun heq =>
      hnew (hname ▸ heq ▸ List.mem_map_of_mem hother)
    rw [Option.isNone_iff_eq_none] at hnone ⊢
    refine Option.eq_none_iff_forall_ne_some.mpr fun b hb => ?_
    rw [hset.kept other.1 hne b hb] at hnone
    cases hnone
  cases hfound : hashLookupElement getHash t element.1 with
  | none =>
    have hcount : newElements getHash t (element :: elements) =
        newElements getHash t elements + 1 :=
      List.countP_cons_of_pos (by rw [hfound]; rfl)
    have hused := hset.used
    omega
  | some b =>
    have hcount : newElements getHash t (element :: elements) = newElements getHash t elements :=
      List.countP_cons_of_neg (by rw [hfound]; exact Bool.false_ne_true)
    have hused := hset.used_found (by rw [hname, hfound]; exact Option.some_ne_none b)
    omega

/-- Elements with different names can be set in turn, and each is found then. -/
theorem setAll_spec {elements : List (CString × CString)} {ptr : Scope}
    (hread : ∀ element ∈ elements, ReadableName env.thisBundle element.1)
    (hitself : ∀ element ∈ elements, stringContainsVar element.1 element.2 = false)
    (hnodup : (elements.map Prod.fst).Nodup) (hunchecked : s.Unchecked)
    (hptr : getScope s.vscope env.thisBundle = some ptr) (hsound : SoundTable ptr.hashtable)
    (hroom : ptr.hashtable.used + newElements env.getHash ptr.hashtable elements ≤
      cfHashTableSize) :
    ∃ s' ptr', env.setAll s elements = some s' ∧
      getScope s'.vscope env.thisBundle = some ptr' ∧
      (∀ element ∈ elements, hashLookupElement env.getHash ptr'.hashtable element.1 =
        some ⟨element.1, .scalar element.2, .str⟩) ∧
      ∀ other ∉ elements.map Prod.fst, ∀ b,
        hashLookupElement env.getHash ptr.hashtable other = some b →
          hashLookupElement env.getHash ptr'.hashtable other = some b := by
  induction elements generalizing s ptr with
  | nil => exact ⟨s, ptr, rfl, hptr, nofun, fun _ _ _ hb => hb⟩
  | cons element elements ih =>
    rw [List.forall_mem_cons] at hread hitself
    rw [List.map_cons, List.nodup_cons] at hnodup
    have hroom₁ : hashLookupElement env.getHash ptr.hashtable element.1 = none →
        ptr.hashtable.used < cfHashTableSize := fun hnone => by
      have hcount : newElements env.getHash ptr.hashtable (element :: elements) =
          newElements env.getHash ptr.hashtable elements + 1 :=
        List.countP_cons_of_pos (by rw [hnone]; rfl)
      omega
    obtain ⟨s₁, ptr₁, hnew, hptr₁, hunchecked₁, hsound₁, hset⟩ := @newScalar_spec env.getHash
      element.1 .str env.expandScalar env.mapIteratorsFromRval env.cellText s env.thisBundle
      element.2 ptr hread.1 hunchecked hptr hsound hitself.1 hroom₁ nofun
    have hroom₂ := hset.room rfl hnodup.1 hroom
    obtain ⟨s', ptr', hall, hptr', hfound, hother⟩ :=
      ih hread.2 hitself.2 hnodup.2 hunchecked₁ hptr₁ hsound₁ hroom₂
    refine ⟨s', ptr', ?_, hptr', List.forall_mem_cons.mpr ⟨?_, hfound⟩, fun other hnot b hb => ?_⟩
    · rw [ArrayEnv.setAll, List.foldlM_cons]
      exact (congrArg (Option.bind · _) hnew).trans hall
    · exact hother element.1 hnodup.1 _ hset.lookup
    · rw [List.map_cons, List.mem_cons, not_or] at hnot
      exact hother other hnot.2 b (hset.kept other hnot.1 b hb)

/-! ## The array holds the file -/

/-- The numbers of lines and fields are at most `maxent`, and the fields fit where they are copied
to. -/
structure ArrayText (c : Char) (maxent : Int) (text : CString) : Prop where
  lines_le : (arrayLines text).length ≤ maxent
  fields_le : ∀ line ∈ arrayLines text, (fields [c] line).length ≤ maxent
  field_lt : ∀ line ∈ arrayLines text, ∀ field ∈ fields [c] line, field.length < cfMaxVarSize - 1

/-- The number of lines is returned, and their fields are read where the array has them. -/
def HoldsFile (env : ArrayEnv) (arrayLval split : CString) (c : Char) (maxent : Int)
    (text : CString) (s : VarState) : Prop :=
  ∃ s', env.buildLineArray arrayLval text split maxent .str true s =
      some ((arrayLines text).length, s') ∧
    ∀ i line, (arrayLines text)[i]? = some line →
      ∀ j field, (fields [c] line)[j]? = some field →
        getVariable env.getHash env.expandScalar s'.vscope env.thisBundle
          (ArrayEnv.elementName arrayLval (Nat.toDigits 10 i) j) = some (some (.scalar field, .str))

theorem readableName_of_mem {element : CString × CString}
    (hplain : PlainName arrayLval) (hscope : env.thisBundle.length < cfMaxVarSize)
    (hfit : NamesFit (arrayElements arrayLval c lines 0))
    (hmem : element ∈ arrayElements arrayLval c lines 0) :
    ReadableName env.thisBundle element.1 := by
  have hfits := hfit element hmem
  obtain ⟨i, line, -, j, field, -, rfl⟩ := mem_arrayElements.mp hmem
  refine ⟨?_, hfits, hscope⟩
  dsimp only at hfits ⊢
  rw [ArrayEnv.elementName_eq hfits]
  exact hplain.append_elementIndex _ _

/-- A line has a field at least. -/
theorem length_le_arrayElements {i : Nat} :
    lines.length ≤ (arrayElements arrayLval c lines i).length := by
  induction lines generalizing i with
  | nil => exact Nat.zero_le _
  | cons line lines ih =>
    have hline : 0 < (lineElements arrayLval c line i).length := by
      rw [lineElements, List.length_map, List.length_zipIdx]
      exact List.length_pos_of_ne_nil fields_ne_nil
    have hlines := @ih (i + 1)
    rw [arrayElements_cons, List.length_append, List.length_cons]
    omega

/-- Where the elements are found, there are not more of them than a table has buckets. -/
theorem length_arrayElements_le {getHash : CString → Fin cfHashTableSize} {t : AssocHashTable}
    (hfit : NamesFit (arrayElements arrayLval c lines 0))
    (hfound : ∀ element ∈ arrayElements arrayLval c lines 0,
      hashLookupElement getHash t element.1 ≠ none) :
    (arrayElements arrayLval c lines 0).length ≤ cfHashTableSize := by
  rw [← List.length_map Prod.fst]
  refine (@length_le_used getHash t _ (arrayElements_names_nodup hfit) fun name hname => ?_).trans
    used_le
  obtain ⟨element, hmem, rfl⟩ := List.mem_map.mp hname
  exact hfound element hmem

/-- What the array holds is not more than the table of a scope does. -/
theorem HoldsFile.length_le {maxent : Int} (h : HoldsFile env arrayLval split c maxent text s)
    (hplain : PlainName arrayLval) (hscope : env.thisBundle.length < cfMaxVarSize)
    (hfit : NamesFit (arrayElements arrayLval c (arrayLines text) 0)) :
    (arrayElements arrayLval c (arrayLines text) 0).length ≤ cfHashTableSize := by
  obtain ⟨s', -, hholds⟩ := h
  have hset : ∀ element ∈ arrayElements arrayLval c (arrayLines text) 0,
      s'.assoc env.getHash env.thisBundle element.1 ≠ none := fun element hmem hnone => by
    have hget := @ReadableName.getVariable env.getHash element.1 env.expandScalar s' env.thisBundle
      (readableName_of_mem hplain hscope hfit hmem)
    obtain ⟨i, line, hline, j, field, hfield, rfl⟩ := mem_arrayElements.mp hmem
    rw [Nat.zero_add] at hget hnone
    rw [hholds i line hline j field hfield, hnone] at hget
    cases hget
  cases hptr : getScope s'.vscope env.thisBundle with
  | none =>
    have hnil : arrayElements arrayLval c (arrayLines text) 0 = [] :=
      List.eq_nil_iff_forall_not_mem.mpr fun element hmem => hset element hmem (by
        rw [VarState.assoc, hptr]
        rfl)
    rw [hnil]
    exact Nat.zero_le _
  | some ptr =>
    refine @length_arrayElements_le _ _ _ env.getHash ptr.hashtable hfit fun element hmem => ?_
    rw [← assoc_of_getScope hptr rfl]
    exact hset element hmem

/-- The array holds the file, if its lines fit the buffer that they are read to and the elements can
be set. -/
theorem buildLineArray_holdsFile (env : ArrayEnv) (arrayLval split : CString) (c : Char)
    (maxent : Int) (text : CString) (s : VarState) (hlit : env.MatchesLiteral split [c])
    (htext : ArrayText c maxent text)
    (hwidth : ∀ line ∈ fields ['\n'] text, line.length < cfMaxVarSize)
    (hset : env.Settable arrayLval (arrayElements arrayLval c (arrayLines text) 0) s) :
    HoldsFile env arrayLval split c maxent text s := by
  obtain ⟨ptr, hptr, hsound, hroom⟩ := hset.room
  have hread := fun element hmem =>
    @readableName_of_mem env arrayLval (arrayLines text) c element hset.plain hset.scopeFits
      hset.namesFit hmem
  obtain ⟨s', ptr', hall, hptr', hfound, -⟩ := setAll_spec hread hset.notItself
    (arrayElements_names_nodup hset.namesFit) hset.unchecked hptr hsound hroom
  have hcount : (arrayLines text).length ≤ cfHashTableSize :=
    length_le_arrayElements.trans (length_arrayElements_le hset.namesFit fun element hmem => by
      rw [hfound element hmem]
      exact Option.some_ne_none _)
  have hlines := htext.lines_le
  have hfields : ∀ line ∈ arrayLines text, (fields [c] line).length ≤ maxent.toNat :=
    fun line hline => by
      have := htext.fields_le line hline
      omega
  refine ⟨s', ?_, fun i line hline j field hfield => ?_⟩
  · rw [ArrayEnv.buildLineArray, ArrayEnv.loop_eq hlit hwidth hfields htext.field_lt (by omega)
      (by omega) (Nat.lt_succ_self _), Nat.zero_add, hall]
    rfl
  · have hmem : (ArrayEnv.elementName arrayLval (Nat.toDigits 10 i) j, field) ∈
        arrayElements arrayLval c (arrayLines text) 0 :=
      mem_arrayElements.mpr ⟨i, line, hline, j, field, hfield, by rw [Nat.zero_add]⟩
    rw [(hread _ hmem).getVariable, assoc_of_getScope hptr' rfl, hfound _ hmem]
    rfl

/-! ## Examples -/

/-- The separator is taken literally. -/
def plainArrayEnv : ArrayEnv where
  toRegEx := literalRegEx
  getHash := oatHash
  expandScalar _ _ := none
  mapIteratorsFromRval _ rval := rval
  cellText _ := []
  str2Int _ := 0
  thisBundle := "main".toList

theorem fields_of_not_mem {d : Char} (h : d ∉ line) : fields [d] line = [line] :=
  fields_of_none (find?_eq_none_iff.mpr fun hinfix => h (List.singleton_infix_iff _ _ |>.mp hinfix))

theorem fields_append_of_not_mem {d : Char} (h : d ∉ u) :
    fields [d] (u ++ d :: v) = u :: fields [d] v := by
  have hfind : find? [d] (u ++ d :: v) = some u.length :=
    find?_eq_some_iff.mpr ⟨u, v, rfl, rfl, fun j hj hfirst => by
      rw [List.drop_append_of_le_length hj.le] at hfirst
      have hdrop : u.drop j ≠ [] := List.drop_eq_nil_iff.not.mpr (by omega)
      obtain ⟨e, w, hw⟩ := List.exists_cons_of_ne_nil hdrop
      rw [hw, List.cons_append, List.cons_prefix_cons] at hfirst
      have hmem : d ∈ u.drop j := by
        rw [hw, hfirst.1]
        exact List.mem_cons_self
      exact h (List.mem_of_mem_drop hmem)⟩
  rw [fields_of_some (List.cons_ne_nil _ _) hfind, List.take_left]
  simp

/-- Two lines, the first one with two fields and a carriage return. -/
theorem buildLineArray_holdsFile_lines :
    HoldsFile plainArrayEnv "services".toList [':'] ':' 10 "x:y\r\nz".toList (mainScope none) := by
  have hlines : fields ['\n'] "x:y\r\nz".toList = ["x:y\r".toList, ['z']] := by
    rw [show "x:y\r\nz".toList = "x:y\r".toList ++ '\n' :: ['z'] from rfl,
      fields_append_of_not_mem (by decide), fields_of_not_mem (by decide)]
  have harray : arrayLines "x:y\r\nz".toList = ["x:y".toList, ['z']] := by
    rw [arrayLines, hlines]
    rfl
  have hfirst : fields [':'] "x:y".toList = [['x'], ['y']] := by
    rw [show "x:y".toList = ['x'] ++ ':' :: ['y'] from rfl,
      fields_append_of_not_mem (by decide), fields_of_not_mem (by decide)]
  have hsecond : fields [':'] ['z'] = [['z']] := fields_of_not_mem (by decide)
  have helements : arrayElements "services".toList ':' ["x:y".toList, ['z']] 0 =
      [("services[0][0]".toList, ['x']), ("services[0][1]".toList, ['y']),
        ("services[1][0]".toList, ['z'])] := by
    rw [arrayElements_cons, arrayElements_cons, lineElements, lineElements, hfirst, hsecond]
    rfl
  refine buildLineArray_holdsFile plainArrayEnv "services".toList [':'] ':' 10 "x:y\r\nz".toList
    (mainScope none) (fun _ => rfl) ?_ ?_ ?_
  · constructor <;> rw [harray]
    · decide
    · simp only [List.forall_mem_cons, hfirst, hsecond]
      decide
    · simp only [List.forall_mem_cons, hfirst, hsecond]
      decide
  · rw [hlines]
    decide
  · rw [harray, helements]
    refine ⟨⟨by decide, rfl⟩, by decide, ?_, by decide, .inl rfl, _, rfl, ⟨trivial, nofun⟩, ?_⟩
    · rw [NamesFit]
      decide
    · exact (Nat.add_le_add_left List.countP_le_length _).trans (by decide)

/-! ### A line that is too long -/

/-- The character at the width of the buffer is lost, and what is behind it becomes a line. -/
theorem buildLineArray_wide {n : Nat} (hlength : u.length = 1022) (hnewline : '\n' ∉ u)
    (hcolon : ':' ∉ u)
    (h : plainArrayEnv.buildLineArray arrayLval (u ++ [':', 'y', 'z']) [':'] 10 .str true s =
      some (n, s')) : n = 2 := by
  have hlit : plainArrayEnv.MatchesLiteral [':'] [':'] := fun _ => rfl
  have hwhole : (u ++ [':', 'y', 'z']).takeWhile (· ≠ '\n') = u ++ [':', 'y', 'z'] := by
    rw [List.takeWhile_append_of_pos fun c hc => decide_eq_true (ne_of_mem_of_not_mem hc hnewline)]
    rfl
  have hscan : ArrayEnv.scanLine (u ++ [':', 'y', 'z']) = u ++ [':'] := by
    rw [ArrayEnv.scanLine, hwhole, cfMaxVarSize, show 1024 - 1 = u.length + 1 by omega,
      List.take_length_add_append]
    rfl
  have hchop : ArrayEnv.chopReturn (u ++ [':']) = u ++ [':'] := by
    rw [ArrayEnv.chopReturn, List.getLast?_concat, if_neg (by decide)]
  have hfields : fields [':'] (u ++ [':']) = [u, []] := by
    rw [fields_append_of_not_mem hcolon, fields_of_not_mem List.not_mem_nil]
  have hfields' : fields [':'] ['z'] = [['z']] := fields_of_not_mem (by decide)
  have hdrop : (u ++ [':', 'y', 'z']).drop (u ++ [':']).length = ['y', 'z'] := by
    rw [List.length_append, List.drop_length_add_append]
    rfl
  rw [ArrayEnv.buildLineArray, ArrayEnv.loop_line hlit (by decide) (by simp) (by rw [hscan, hchop])
    (by simp) (Nat.zero_le _) (by rw [hfields]; change 2 ≤ 10; decide)
    (by simp [hfields, hlength, cfMaxVarSize]), Option.bind_eq_some_iff] at h
  obtain ⟨s₁, -, h⟩ := h
  rw [hscan, hdrop, if_neg (by decide), List.length_append] at h
  change ArrayEnv.buildLineArray.loop plainArrayEnv arrayLval [':'] 10 .str true
    (u.length + 2 + 1) ['z'] 1 1 s₁ = _ at h
  have hline : ArrayEnv.chopReturn (ArrayEnv.scanLine ['z']) = ['z'] := rfl
  rw [ArrayEnv.loop_line hlit (by decide) (by simp) hline (by decide) (by decide)
    (by rw [hfields']; decide) (by rw [hfields']; decide), Option.bind_eq_some_iff] at h
  obtain ⟨s₂, -, h⟩ := h
  rw [if_pos (by rfl)] at h
  exact (Prod.ext_iff.mp (Option.some.inj h)).1.symm

theorem arrayLines_wide (hnewline : '\n' ∉ u) :
    arrayLines (u ++ [':', 'y', 'z']) = [u ++ [':', 'y', 'z']] := by
  have hchop : ArrayEnv.chopReturn (u ++ [':', 'y', 'z']) = u ++ [':', 'y', 'z'] := by
    rw [ArrayEnv.chopReturn, List.getLast?_append_of_ne_nil _ (by simp)]
    rfl
  rw [arrayLines_of_line (find?_eq_none_iff.mpr fun hinfix => ?_) (by simp [hchop]), hchop]
  have hmem := List.singleton_infix_iff _ _ |>.mp hinfix
  simp [hnewline] at hmem

/-! ### Too many lines -/

/-- A text of so many lines. -/
def manyLines : Nat → CString
  | 0 => []
  | n + 1 => 'x' :: '\n' :: manyLines n

theorem arrayLines_manyLines (n : Nat) : arrayLines (manyLines n) = List.replicate n ['x'] := by
  induction n with
  | zero => exact arrayLines_of_none rfl rfl
  | succ n ih =>
    have hfields : fields ['\n'] ('x' :: '\n' :: manyLines n) =
        ['x'] :: fields ['\n'] (manyLines n) :=
      @fields_append_of_not_mem ['x'] (manyLines n) '\n' (by decide)
    rw [manyLines, arrayLines_cons hfields (by decide), ih]
    rfl

/-- The table has no room for more lines than it has buckets. -/
theorem not_holdsFile_manyLines {n : Nat} {maxent : Int} (hn : cfHashTableSize < n)
    (hmax : n ≤ 9999) :
    ¬ HoldsFile plainArrayEnv "services".toList [':'] ':' maxent (manyLines n) s := by
  intro h
  have hlines := arrayLines_manyLines n
  have hle := h.length_le ⟨by decide, rfl⟩ (by decide) fun element hmem => ?_
  · have hlength := @length_le_arrayElements "services".toList (arrayLines (manyLines n)) ':' 0
    rw [hlines, List.length_replicate] at hlength
    rw [hlines] at hle
    omega
  · obtain ⟨i, line, hline, j, field, hfield, rfl⟩ := mem_arrayElements.mp hmem
    rw [hlines] at hline
    obtain ⟨hi, hline⟩ := List.getElem?_eq_some_iff.mp hline
    rw [List.length_replicate] at hi
    rw [List.getElem_replicate] at hline
    subst hline
    rw [fields_of_not_mem (by decide)] at hfield
    obtain ⟨hj, -⟩ := List.getElem?_eq_some_iff.mp hfield
    obtain rfl := Nat.lt_one_iff.mp hj
    have hdigits := (Nat.length_toDigits_le_iff (b := 10) (n := 0 + i) (k := 4) (by decide)
      (by decide)).mpr (by omega)
    refine Nat.lt_of_le_of_lt (ArrayEnv.length_elementName_le hdigits (Nat.le_refl 1)) ?_
    decide

/-! ### Elements that cannot be read -/

/-- A line that is one field sets one variable, in the table of the scope. -/
theorem buildLineArray_one (hnewline : '\n' ∉ line) (hcolon : ':' ∉ line)
    (hreturn : ArrayEnv.chopReturn line = line) (hne : line ≠ [])
    (hwidth : line.length < cfMaxVarSize - 1)
    (h : plainArrayEnv.buildLineArray arrayLval line [':'] 10 .str true s = some (hcount, s')) :
    plainArrayEnv.newScalar s (ArrayEnv.elementName arrayLval ['0'] 0) line .str = some s' := by
  have hlit : plainArrayEnv.MatchesLiteral [':'] [':'] := fun _ => rfl
  have hfields : fields [':'] line = [line] := fields_of_not_mem hcolon
  have hscan := ArrayEnv.scanLine_of_find?_none
    (find?_eq_none_iff.mpr fun hinfix => hnewline (List.singleton_infix_iff _ _ |>.mp hinfix))
    (hwidth.trans (by decide))
  rw [ArrayEnv.buildLineArray, ArrayEnv.loop_line hlit (by decide) hne (by rw [hscan, hreturn]) hne
    (Nat.zero_le _) (by rw [hfields, List.length_singleton]; decide)
    (by rw [hfields]; simpa using hwidth),
    Option.bind_eq_some_iff] at h
  obtain ⟨s₁, hset, h⟩ := h
  rw [hscan, List.drop_length, if_pos rfl] at h
  cases h
  rw [lineElements, hfields] at hset
  change (plainArrayEnv.newScalar s (ArrayEnv.elementName arrayLval ['0'] 0) line .str).bind some =
    some s' at hset
  rwa [Option.bind_fun_some] at hset

/-- A value that refers to the new variable is rejected. -/
theorem newScalar_itself {name item : CString} (hread : ReadableName env.thisBundle name)
    (habsent : s.assoc env.getHash env.thisBundle name = none)
    (hbundle : env.thisBundle ≠ "body".toList) (hitself : stringContainsVar name item = true)
    (hlength : ¬ name.length > cfMaxVarSize) : env.newScalar s name item .str = some s := by
  change (Assignment.scalar item).perform env.getHash env.expandScalar env.mapIteratorsFromRval
    env.cellText s env.thisBundle name .str = some s
  refine perform_of_rejected ?_ ?_
  · rw [deleteFound, hread.getVariable, habsent]
    rfl
  · rw [Assignment.rval, addVariableHash,
      if_neg (show ¬ isNullItem (.scalar item) = true from Bool.false_ne_true),
      if_neg hlength, if_pos ?_]
    · rfl
    · rw [Bool.and_eq_true]
      exact ⟨decide_eq_true hbundle, hitself⟩

/-- A field that refers to its own element is not set. -/
theorem not_holdsFile_itself :
    ¬ HoldsFile plainArrayEnv "services".toList [':'] ':' 10 "$(services[0][0])".toList
      (mainScope none) := by
  rintro ⟨s', hbuild, hholds⟩
  have hlines : arrayLines "$(services[0][0])".toList = ["$(services[0][0])".toList] :=
    arrayLines_of_line rfl (by decide)
  have hfields : fields [':'] "$(services[0][0])".toList = ["$(services[0][0])".toList] :=
    fields_of_not_mem (by decide)
  have hname : ArrayEnv.elementName "services".toList ['0'] 0 = "services[0][0]".toList := rfl
  have hread : ReadableName plainArrayEnv.thisBundle "services[0][0]".toList :=
    ⟨⟨by decide, rfl⟩, by decide, by decide⟩
  have hset := buildLineArray_one (by decide) (by decide) rfl (by decide) (by decide) hbuild
  rw [hname, newScalar_itself hread rfl (by decide) (by decide) (by decide)] at hset
  cases hset
  have hget := hholds 0 "$(services[0][0])".toList (by rw [hlines]; rfl) 0
    "$(services[0][0])".toList (by rw [hfields]; rfl)
  rw [show ArrayEnv.elementName "services".toList (Nat.toDigits 10 0) 0 = "services[0][0]".toList
    from rfl, hread.getVariable] at hget
  cases hget

/-- A name with a dot is looked up in the scope in front of it. -/
theorem getVariable_qualified (hscope : getScope s.vscope ['a'] = none) :
    getVariable oatHash (fun _ _ => none) s.vscope "main".toList "a.b[0][0]".toList =
      some none := by
  rw [getVariable, if_pos (by decide), getVariable.find, if_neg (by decide), if_pos (by decide),
    show (splitQualified "a.b[0][0]".toList).1 = ['a'] from rfl, hscope]
  dsimp only
  rw [if_neg (by decide)]

/-- An element of an array whose name has a dot is set in the scope as it is, and not found. -/
theorem not_holdsFile_qualified :
    ¬ HoldsFile plainArrayEnv "a.b".toList [':'] ':' 10 ['x'] (mainScope none) := by
  rintro ⟨s', hbuild, hholds⟩
  have hlines : arrayLines ['x'] = [['x']] := arrayLines_of_line rfl (by decide)
  have hfields : fields [':'] ['x'] = [['x']] := fields_of_not_mem (by decide)
  have hname : ArrayEnv.elementName "a.b".toList ['0'] 0 =
    "a.b[0][0]".toList := rfl
  have hset := buildLineArray_one (by decide) (by decide) rfl (by decide) (by decide) hbuild
  have hdelete : deleteFound oatHash (fun _ _ => none) (mainScope none) "main".toList
      "a.b[0][0]".toList = some (mainScope none) := by
    rw [deleteFound, getVariable_qualified rfl]
    rfl
  have hadd := @addVariableHash_of_absent oatHash _ "a.b[0][0]".toList .str (fun _ _ => none)
    (fun _ rval => rval) (fun _ => []) (mainScope none) "main".toList ['x'] _ (by decide) (.inl rfl)
    rfl rfl (by decide) rfl
  have hnew : ∃ t, plainArrayEnv.newScalar (mainScope none) "a.b[0][0]".toList ['x'] .str =
      some ((mainScope none).setHashtable "main".toList t) := by
    rw [ArrayEnv.newScalar, newScalar]
    exact ⟨_, Option.bind_eq_some_iff.mpr ⟨_, hdelete,
      Option.bind_eq_some_iff.mpr ⟨_, hadd, rfl⟩⟩⟩
  obtain ⟨t, hnew⟩ := hnew
  rw [hname, hnew] at hset
  cases hset
  have hget := hholds 0 ['x'] (by rw [hlines]; rfl) 0 ['x'] (by rw [hfields]; rfl)
  have hnone := @getVariable_qualified ((mainScope none).setHashtable "main".toList t) rfl
  cases hnone.symm.trans hget

/-- The array does not hold a line of 1025 characters, nor 8193 lines, nor a field that refers to
its own element, nor anything under a name with a dot. -/
theorem not_buildLineArray_holdsFile :
    ¬ (ArrayText ':' 10 (List.replicate 1022 'x' ++ [':', 'y', 'z']) →
        HoldsFile plainArrayEnv "services".toList [':'] ':' 10
          (List.replicate 1022 'x' ++ [':', 'y', 'z']) (mainScope none)) ∧
      ¬ (ArrayText ':' 9999 (manyLines 8193) →
        HoldsFile plainArrayEnv "services".toList [':'] ':' 9999 (manyLines 8193)
        (mainScope none)) ∧
      ¬ (ArrayText ':' 10 "$(services[0][0])".toList →
        HoldsFile plainArrayEnv "services".toList [':'] ':' 10 "$(services[0][0])".toList
          (mainScope none)) ∧
      ¬ (ArrayText ':' 10 ['x'] →
        HoldsFile plainArrayEnv "a.b".toList [':'] ':' 10 ['x'] (mainScope none)) := by
  refine ⟨fun h => ?_, fun h => ?_, fun h => ?_, fun h => not_holdsFile_qualified (h ?_)⟩
  · have hlength := @List.length_replicate _ 1022 'x'
    have hnewline : '\n' ∉ List.replicate 1022 'x' := fun hmem =>
      absurd (List.eq_of_mem_replicate hmem) (by decide)
    have hcolon : ':' ∉ List.replicate 1022 'x' := fun hmem =>
      absurd (List.eq_of_mem_replicate hmem) (by decide)
    generalize List.replicate 1022 'x' = u at h hlength hnewline hcolon
    have hlines := arrayLines_wide hnewline
    have hfields : fields [':'] (u ++ [':', 'y', 'z']) = [u, ['y', 'z']] := by
      rw [fields_append_of_not_mem hcolon, fields_of_not_mem (by decide)]
    have htext : ArrayText ':' 10 (u ++ [':', 'y', 'z']) := by
      constructor <;> simp [hlines, hfields, hlength, cfMaxVarSize]
    obtain ⟨s', hbuild, -⟩ := h htext
    rw [hlines] at hbuild
    have hcount := buildLineArray_wide hlength hnewline hcolon hbuild
    rw [List.length_singleton] at hcount
    omega
  · have hlines := arrayLines_manyLines 8193
    have hfields : fields [':'] ['x'] = [['x']] := fields_of_not_mem (by decide)
    have hmany : cfHashTableSize < 8193 ∧ 8193 ≤ 9999 := by decide
    generalize 8193 = n at h hlines hmany
    refine not_holdsFile_manyLines hmany.1 hmany.2 (h ?_)
    constructor
    · rw [hlines, List.length_replicate]
      exact_mod_cast hmany.2
    all_goals
      intro line hline
      rw [hlines] at hline
      rw [List.eq_of_mem_replicate hline, hfields]
      decide
  · refine not_holdsFile_itself (h ?_)
    have hlines : arrayLines "$(services[0][0])".toList = ["$(services[0][0])".toList] :=
      arrayLines_of_line rfl (by decide)
    have hfields : fields [':'] "$(services[0][0])".toList = ["$(services[0][0])".toList] :=
      fields_of_not_mem (by decide)
    constructor <;> rw [hlines]
    · decide
    all_goals
      rw [List.forall_mem_singleton, hfields]
      decide
  · have hlines : arrayLines ['x'] = [['x']] := arrayLines_of_line rfl (by decide)
    have hfields : fields [':'] ['x'] = [['x']] := fields_of_not_mem (by decide)
    constructor <;> rw [hlines]
    · decide
    all_goals
      rw [List.forall_mem_singleton, hfields]
      decide

end Cfengine
