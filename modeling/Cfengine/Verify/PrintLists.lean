import Cfengine.PrintLists

/-!
# Printing lists in their buffers

`JoinSilent` cuts a string to the size of the buffer less its margin, whatever the buffer holds
already, and `EndJoin` lets a string end where the buffer ends. `PrintItemList` never gets there.
`PrintRlist` stays in its buffer exactly if the item that it cuts does (`printsInBuffer_iff`).
-/

namespace Cfengine

variable {bufsize margin : Nat} {path leaf item text buffer : CString} {list : List CString}
  {next print : CString → Except Fault (CString × Bool)} {more : Bool}

/-! ## Joining -/

/-- The buffer holds a string, and `text` if the result is true. -/
def Printed (bufsize : Nat) (text : CString) (r : Except Fault (CString × Bool)) : Prop :=
  ∃ buffer result, r = .ok (buffer, result) ∧ buffer.length < bufsize ∧
    (result = true → buffer = text)

theorem printed_ok {result : Bool} : Printed bufsize text (.ok (buffer, result)) ↔
    buffer.length < bufsize ∧ (result = true → buffer = text) := by
  constructor
  · rintro ⟨_, _, h, hlt, htext⟩
    cases h
    exact ⟨hlt, htext⟩
  · exact fun ⟨hlt, htext⟩ => ⟨_, _, rfl, hlt, htext⟩

theorem not_printed_error {fault : Fault} : ¬ Printed bufsize text (.error fault) := by
  rintro ⟨_, _, h, -⟩
  cases h

theorem joinMargin_of_lt (h : bufsize - margin < path.length + leaf.length) :
    joinMargin path leaf bufsize margin = .ok (path, false) := by
  rw [joinMargin, if_pos h]

theorem joinMargin_of_le (h : path.length + leaf.length ≤ bufsize - margin)
    (hroom : path.length + leaf.length < bufsize) :
    joinMargin path leaf bufsize margin = .ok (path ++ leaf, true) := by
  rw [joinMargin, if_neg (Nat.not_lt.mpr h), strcat, if_neg (Nat.not_le.mpr hroom)]
  rfl

/-- A string that fills the buffer. -/
theorem endJoin_of_eq (h : path.length + leaf.length = bufsize) :
    endJoin path leaf bufsize = .error .bufferOverflow := by
  rw [endJoin, joinMargin, if_neg (by rw [h]; exact Nat.lt_irrefl _), strcat, if_pos h.ge]
  rfl

theorem ok_bind_orClose :
    ((.ok (path, true) : Except Fault (CString × Bool)) >>= orClose bufsize leaf next) =
      next path :=
  rfl

/-- The end of a list that is not complete. -/
theorem printed_orClose_false :
    Printed bufsize text (orClose bufsize leaf next (path, false)) ↔
      path.length < bufsize ∧ path.length + leaf.length ≠ bufsize := by
  change Printed bufsize text ((endJoin path leaf bufsize).map fun joined => (joined.1, false)) ↔ _
  rcases Nat.lt_trichotomy (path.length + leaf.length) bufsize with hlt | heq | hgt
  · rw [endJoin, joinMargin_of_le hlt.le hlt]
    have hpath : path.length < bufsize := by omega
    refine iff_of_true (printed_ok.mpr ⟨?_, fun h => by cases h⟩) ⟨hpath, hlt.ne⟩
    rwa [List.length_append]
  · rw [endJoin_of_eq heq]
    exact iff_of_false not_printed_error fun h => h.2 heq
  · rw [endJoin, joinMargin_of_lt hgt]
    exact printed_ok.trans (and_congr_right fun _ => iff_of_true (fun h => by cases h) hgt.ne')

section
variable (hsize : 2 * cfBufferMargin ≤ bufsize)
include hsize

theorem joinSilent_of_le (h : path.length + leaf.length ≤ bufsize - cfBufferMargin) :
    joinSilent path leaf bufsize = .ok (path ++ leaf, true) := by
  have hmargin : cfBufferMargin = 128 := rfl
  rw [joinSilent, if_neg (Nat.not_lt.mpr h), strcat, if_neg (by omega)]
  rfl

/-- The string with what was cut, of length `n`, and then the mark and the end of the list: neither
of them ends where the buffer ends. -/
def StaysInside (bufsize n leaf : Nat) : Prop :=
  n < bufsize ∧ n + 12 ≠ bufsize ∧ n + 12 + leaf ≠ bufsize ∧ n + leaf ≠ bufsize

omit hsize in
theorem printed_joinSilent_of_lt (h : bufsize - cfBufferMargin < path.length + item.length)
    (hleaf : leaf.length ≤ 2) :
    Printed bufsize text (joinSilent path item bufsize >>= orClose bufsize leaf next) ↔
      StaysInside bufsize (path.length + min (bufsize - cfBufferMargin) item.length)
        leaf.length := by
  rw [joinSilent, if_pos h, strcat, List.length_take]
  generalize hn : path.length + min (bufsize - cfBufferMargin) item.length = n
  have hpath : (path ++ item.take (bufsize - cfBufferMargin)).length = n := by
    rw [List.length_append, List.length_take, hn]
  generalize path ++ item.take (bufsize - cfBufferMargin) = cut at hpath ⊢
  have hmark : truncatedMark.length = 12 := rfl
  by_cases hroom : bufsize ≤ n
  · rw [if_pos hroom]
    exact iff_of_false not_printed_error fun h => absurd h.1 (Nat.not_lt.mpr hroom)
  rw [if_neg hroom]
  change Printed bufsize text ((endJoin cut truncatedMark bufsize >>= fun joined =>
    .ok (joined.1, false)) >>= orClose bufsize leaf next) ↔ _
  rcases Nat.lt_trichotomy (n + 12) bufsize with hlt | heq | hgt
  · rw [endJoin, joinMargin_of_le (by omega) (by omega)]
    change Printed bufsize text (orClose bufsize leaf next (cut ++ truncatedMark, false)) ↔ _
    rw [printed_orClose_false, List.length_append, hpath, hmark, StaysInside]
    omega
  · rw [endJoin_of_eq (by omega)]
    exact iff_of_false not_printed_error fun h => h.2.1 heq
  · rw [endJoin, joinMargin_of_lt (by omega)]
    change Printed bufsize text (orClose bufsize leaf next (cut, false)) ↔ _
    rw [printed_orClose_false, hpath, StaysInside]
    omega

/-- A quote or a comma that is cut. -/
theorem printed_joinSilent_char {c : Char} (hpath : path.length ≤ bufsize - cfBufferMargin)
    (h : bufsize - cfBufferMargin < path.length + 1) (hleaf : leaf.length ≤ 2) :
    Printed bufsize text (joinSilent path [c] bufsize >>= orClose bufsize leaf next) := by
  have hmargin : cfBufferMargin = 128 := rfl
  rw [printed_joinSilent_of_lt h hleaf, StaysInside, List.length_singleton]
  omega

/-! ## Items -/

/-- An item between quotes. -/
def quoted (item : CString) : CString := '\'' :: (item ++ ['\''])

/-- What is between an item and the next one. -/
def separator : Bool → CString
  | true => [',']
  | false => []

/-- Where there is no room for the first quote. -/
theorem printed_printQuoted_of_lt (hbuffer : buffer.length ≤ bufsize - cfBufferMargin)
    (h : bufsize - cfBufferMargin < buffer.length + 1) :
    Printed bufsize text (printQuoted bufsize print next more buffer) :=
  printed_joinSilent_char hsize hbuffer h (Nat.le_refl 2)

variable (print next more) in
/-- Behind the first quote. -/
theorem printQuoted_of_le (h : buffer.length + 1 ≤ bufsize - cfBufferMargin) :
    ∃ rest, printQuoted bufsize print next more buffer =
      print (buffer ++ ['\'']) >>= orClose bufsize ['\'', '}'] rest := by
  rw [printQuoted, joinSilent_of_le hsize h]
  exact ⟨_, rfl⟩

/-- With an item that fits, the list is right if what follows is, unless there is no room for the
last quote or the comma. -/
theorem printed_printQuoted_of_le
    (h : buffer.length + 1 + item.length ≤ bufsize - cfBufferMargin)
    (hprint : print (buffer ++ ['\'']) = .ok (buffer ++ ['\''] ++ item, true)) :
    Printed bufsize text (printQuoted bufsize print next more buffer) ↔
      ((buffer ++ quoted item ++ separator more).length ≤ bufsize - cfBufferMargin →
        Printed bufsize text (next (buffer ++ quoted item ++ separator more))) := by
  have hquoted : buffer ++ ['\''] ++ item ++ ['\''] = buffer ++ quoted item := by simp [quoted]
  have hlength : (buffer ++ quoted item).length = buffer.length + 1 + item.length + 1 := by
    simp only [← hquoted, List.length_append, List.length_singleton]
  have hbuffer : (buffer ++ ['\''] ++ item).length = buffer.length + 1 + item.length := by
    simp only [List.length_append, List.length_singleton]
  rw [printQuoted, joinSilent_of_le hsize (Nat.le_trans (Nat.le_add_right _ _) h), ok_bind_orClose,
    hprint, ok_bind_orClose]
  by_cases hquote : buffer.length + 1 + item.length + 1 ≤ bufsize - cfBufferMargin
  · rw [joinSilent_of_le hsize (by rw [hbuffer]; exact hquote), ok_bind_orClose, hquoted]
    cases more with
    | false =>
      rw [separator, List.append_nil, hlength, if_neg Bool.false_ne_true]
      exact ⟨fun hnext _ => hnext, fun hnext => hnext hquote⟩
    | true =>
      rw [separator, List.length_append, hlength, if_pos rfl]
      by_cases hcomma : buffer.length + 1 + item.length + 1 + 1 ≤ bufsize - cfBufferMargin
      · rw [joinSilent_of_le hsize (by rw [hlength]; exact hcomma), ok_bind_orClose]
        exact ⟨fun hnext _ => hnext, fun hnext => hnext hcomma⟩
      · refine iff_of_true ?_ fun hle => absurd hle hcomma
        exact printed_joinSilent_char hsize (hlength ▸ hquote) (by rw [hlength]; omega) (by decide)
  · refine iff_of_true ?_ fun hle => ?_
    · exact printed_joinSilent_char hsize (hbuffer ▸ h) (by rw [hbuffer]; omega) (by decide)
    · rw [List.length_append, hlength] at hle
      omega

theorem printed_printEnd (h : buffer.length ≤ bufsize - cfBufferMargin) :
    Printed bufsize (buffer ++ ['}']) (printEnd bufsize buffer) := by
  have hmargin : cfBufferMargin = 128 := rfl
  have hroom : buffer.length + ['}'].length < bufsize := by
    rw [List.length_singleton]
    omega
  rw [printEnd, endJoin, joinMargin_of_le hroom.le hroom]
  exact printed_ok.mpr ⟨by rwa [List.length_append], fun _ => rfl⟩

end

/-! ## Lists -/

/-- The items of the list, quoted and separated, and its end. -/
def printedItems : List CString → CString
  | [] => ['}']
  | item :: items => quoted item ++ separator (!items.isEmpty) ++ printedItems items

/-- The complete list. -/
def printedList (list : List CString) : CString := '\x7b' :: printedItems list

theorem append_printedItems_cons (buffer item : CString) (list : List CString) :
    buffer ++ printedItems (item :: list) =
      buffer ++ quoted item ++ separator (!list.isEmpty) ++ printedItems list := by
  simp only [printedItems, List.append_assoc]

theorem startJoin_eq (hsize : 2 * cfBufferMargin ≤ bufsize) :
    startJoin ['\x7b'] bufsize = .ok (['\x7b'], true) := by
  have hmargin : cfBufferMargin = 128 := rfl
  have hle : 1 ≤ bufsize - cfBufferMargin := by omega
  exact joinMargin_of_le hle (by rw [List.length_nil, List.length_singleton]; omega)

theorem printed_printItemList_loop (hsize : 2 * cfBufferMargin ≤ bufsize)
    (hbuffer : buffer.length ≤ bufsize - cfBufferMargin) :
    Printed bufsize (buffer ++ printedItems list) (printItemList.loop bufsize list buffer) := by
  have hmargin : cfBufferMargin = 128 := rfl
  induction list generalizing buffer with
  | nil => exact printed_printEnd hsize hbuffer
  | cons item list ih =>
    rw [append_printedItems_cons, printItemList.loop]
    by_cases hopen : buffer.length + 1 ≤ bufsize - cfBufferMargin
    · by_cases hitem : buffer.length + 1 + item.length ≤ bufsize - cfBufferMargin
      · have hlength : (buffer ++ ['\'']).length + item.length ≤ bufsize - cfBufferMargin := by
          rwa [List.length_append]
        rw [printed_printQuoted_of_le hsize hitem (joinMargin_of_le hlength (by omega))]
        exact fun hle => ih hle
      · obtain ⟨rest, hrest⟩ := printQuoted_of_le
          (printItemList.loop bufsize list)
          (fun buffer => joinMargin buffer item bufsize cfBufferMargin) (!list.isEmpty) hsize hopen
        rw [hrest, joinMargin_of_lt (by rw [List.length_append, List.length_singleton]; omega)]
        change Printed _ _ (orClose bufsize ['\'', '}'] rest (buffer ++ ['\''], false))
        rw [printed_orClose_false, List.length_append, List.length_singleton, List.length_cons,
          List.length_singleton]
        omega
    · exact printed_printQuoted_of_lt hsize hbuffer (Nat.not_le.mp hopen)

/-- The item that is cut, if there is one, stays inside. -/
def CutInside (bufsize : Nat) (buffer : CString) (list : List CString) : Prop :=
  ∀ front item back, list = front ++ item :: back →
    ∀ n, n = (buffer ++ front.flatMap (fun a => quoted a ++ [','])).length + 1 →
      n ≤ bufsize - cfBufferMargin → bufsize - cfBufferMargin < n + item.length →
      StaysInside bufsize (n + min (bufsize - cfBufferMargin) item.length) 2

theorem cutInside_nil : CutInside bufsize buffer [] := by
  intro front item back heq
  cases front <;> cases heq

theorem cutInside_of_lt (h : bufsize - cfBufferMargin < buffer.length + 1) :
    CutInside bufsize buffer list := by
  rintro front item back - n rfl hn
  rw [List.length_append] at hn
  omega

theorem cutInside_cons : CutInside bufsize buffer (item :: list) ↔
    (buffer.length + 1 ≤ bufsize - cfBufferMargin →
      bufsize - cfBufferMargin < buffer.length + 1 + item.length →
      StaysInside bufsize (buffer.length + 1 + min (bufsize - cfBufferMargin) item.length) 2) ∧
    CutInside bufsize (buffer ++ quoted item ++ [',']) list := by
  constructor
  · intro h
    refine ⟨h [] item list rfl _ (by rw [List.flatMap_nil, List.append_nil]), ?_⟩
    rintro front other back rfl n hn
    refine h (item :: front) other back rfl n (hn.trans ?_)
    rw [List.flatMap_cons, ← List.append_assoc, ← List.append_assoc]
  · rintro ⟨hitem, hlist⟩ front other back heq n hn
    cases front with
    | nil =>
      obtain ⟨rfl, rfl⟩ := List.cons_eq_cons.mp heq
      rw [List.flatMap_nil, List.append_nil] at hn
      rw [hn]
      exact hitem
    | cons a front =>
      obtain ⟨rfl, rfl⟩ := List.cons_eq_cons.mp heq
      refine hlist front other back rfl n (hn.trans ?_)
      rw [List.flatMap_cons, ← List.append_assoc, ← List.append_assoc]

theorem printed_printRlist_loop (hsize : 2 * cfBufferMargin ≤ bufsize)
    (hbuffer : buffer.length ≤ bufsize - cfBufferMargin) :
    Printed bufsize (buffer ++ printedItems list)
        (printRlist.loop bufsize (list.map .scalar) buffer) ↔
      CutInside bufsize buffer list := by
  induction list generalizing buffer with
  | nil =>
    rw [List.map_nil, printRlist.loop]
    exact iff_of_true (printed_printEnd hsize hbuffer) cutInside_nil
  | cons item list ih =>
    have hlength : (buffer ++ quoted item ++ [',']).length = buffer.length + item.length + 3 := by
      simp only [quoted, List.length_append, List.length_cons, List.length_nil]
      omega
    rw [append_printedItems_cons, List.map_cons, printRlist.loop, cutInside_cons]
    by_cases hopen : buffer.length + 1 ≤ bufsize - cfBufferMargin
    · by_cases hitem : buffer.length + 1 + item.length ≤ bufsize - cfBufferMargin
      · have hroom : (buffer ++ ['\'']).length + item.length ≤ bufsize - cfBufferMargin := by
          rwa [List.length_append]
        have hprint : printRval bufsize (.scalar item) (buffer ++ ['\'']) =
            .ok (buffer ++ ['\''] ++ item, true) := by
          rw [printRval]
          exact joinSilent_of_le hsize hroom
        rw [printed_printQuoted_of_le hsize hitem hprint, List.isEmpty_map,
          and_iff_right fun _ hlt => absurd hlt (Nat.not_lt.mpr hitem)]
        cases list with
        | nil => exact iff_of_true (fun hle => (ih hle).mpr cutInside_nil) cutInside_nil
        | cons other list =>
          constructor
          · intro h
            rcases Nat.lt_or_ge (bufsize - cfBufferMargin)
                (buffer ++ quoted item ++ [',']).length with
              hlt | hle
            · exact cutInside_of_lt (Nat.lt_succ_of_lt hlt)
            · exact (ih hle).mp (h hle)
          · exact fun h hle => (ih hle).mpr h
      · obtain ⟨rest, hrest⟩ := printQuoted_of_le (printRlist.loop bufsize (list.map .scalar))
          (printRval bufsize (.scalar item)) (!(list.map Rval.scalar).isEmpty) hsize hopen
        have hlast : CutInside bufsize (buffer ++ quoted item ++ [',']) list :=
          cutInside_of_lt (by rw [hlength]; omega)
        rw [hrest, printRval, printed_joinSilent_of_lt _ (by decide), and_iff_left hlast]
        · rw [List.length_append]
          exact ⟨fun h _ _ => h, fun h => h hopen (Nat.not_le.mp hitem)⟩
        · rw [List.length_append]
          exact Nat.not_le.mp hitem
    · refine iff_of_true (printed_printQuoted_of_lt hsize hbuffer (Nat.not_le.mp hopen))
        ⟨fun hle => absurd hle hopen, cutInside_of_lt (by rw [hlength]; omega)⟩

theorem length_start_le (hsize : 2 * cfBufferMargin ≤ bufsize) :
    ['\x7b'].length ≤ bufsize - cfBufferMargin := by
  have hmargin : cfBufferMargin = 128 := rfl
  rw [List.length_singleton]
  omega

theorem printed_printItemList (hsize : 2 * cfBufferMargin ≤ bufsize) (list : List CString) :
    Printed bufsize (printedList list) (printItemList bufsize list) := by
  rw [printItemList, startJoin_eq hsize]
  exact printed_printItemList_loop hsize (length_start_le hsize)

theorem printed_printRlist_iff (hsize : 2 * cfBufferMargin ≤ bufsize) (list : List CString) :
    Printed bufsize (printedList list) (printRlist bufsize (list.map .scalar)) ↔
      CutInside bufsize ['\x7b'] list := by
  rw [printRlist, startJoin_eq hsize]
  exact printed_printRlist_loop hsize (length_start_le hsize)

/-- Both stay in the buffer, which holds the complete list if the result is true. -/
def PrintsInBuffer (bufsize : Nat) (list : List CString) : Prop :=
  Printed bufsize (printedList list) (printRlist bufsize (list.map .scalar)) ∧
    Printed bufsize (printedList list) (printItemList bufsize list)

/-- They do exactly if the item that `PrintRlist` cuts stays inside. -/
theorem printsInBuffer_iff (hsize : 2 * cfBufferMargin ≤ bufsize) (list : List CString) :
    PrintsInBuffer bufsize list ↔ CutInside bufsize ['\x7b'] list := by
  rw [PrintsInBuffer, and_iff_left (printed_printItemList hsize list), printed_printRlist_iff hsize]

/-- Two short items. -/
theorem printsInBuffer_iff_two :
    PrintsInBuffer 256 [['a'], ['b']] ↔ CutInside 256 ['\x7b'] [['a'], ['b']] :=
  printsInBuffer_iff (by decide) _

/-- Behind an item of 200 characters, as much of the next one is joined as a buffer of 4096
characters has without its margin. -/
theorem printsInBuffer_long :
    ¬ PrintsInBuffer 4096 [List.replicate 200 'a', List.replicate 4000 'b'] := by
  have hfirst : (List.replicate 200 'a').length = 200 := List.length_replicate
  have hsecond : (List.replicate 4000 'b').length = 4000 := List.length_replicate
  generalize List.replicate 200 'a' = first at hfirst ⊢
  generalize List.replicate 4000 'b' = second at hsecond ⊢
  rintro ⟨h, -⟩
  have hmargin : cfBufferMargin = 128 := rfl
  have hsize : 2 * cfBufferMargin ≤ 4096 := by omega
  have hcut := (printed_printRlist_iff hsize _).mp h
  have hinside := hcut [first] second [] rfl 205 (by simp [quoted, hfirst]) (by omega) (by omega)
  have hlt := hinside.1
  omega

end Cfengine
