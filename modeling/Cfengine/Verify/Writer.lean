import Cfengine.Writer

/-!
# What a writer to memory holds

A `StringWriter` holds the texts that were written, with a NUL behind them
(`StringWriterImpl.Holds`). Each call keeps that and writes nowhere else, whatever the sizes are.
Only `WriterWrite` does not write all of its text if that is longer than an `int` can say
(`holdsTexts_iff`).
-/

namespace Cfengine

variable {memory : Allocator} {writer writer' : StringWriterImpl}
  {text str bytes data : List Char} {c : Char}
  {n len extraLength : Nat} {call : WriterCall} {calls front : List WriterCall}

/-- The buffer holds the text and its NUL, and there is room for these. -/
structure StringWriterImpl.Holds (writer : StringWriterImpl) (text : List Char) : Prop where
  data : (stringWriterData writer).take (writer.len + 1) = text ++ ['\x00']
  len : stringWriterLength writer = text.length
  fits : writer.len + 1 ≤ writer.allocated
  allocated : writer.data.length = writer.allocated
  allocated_lt : writer.allocated < 2 ^ 63

theorem sizeT_eq (h : n < 2 ^ 64) : sizeT n = n := Nat.mod_eq_of_lt h

theorem sizeT_le : sizeT n ≤ n := Nat.mod_le _ _

theorem holds_stringWriter : stringWriter.Holds [] := ⟨rfl, rfl, le_rfl, rfl, by decide⟩

/-! ## The buffer -/

theorem length_of_xrealloc (h : xrealloc memory data n = .ok bytes) : bytes.length = n := by
  rw [xrealloc] at h
  split at h
  · cases h
    rw [List.length_append, List.length_take, List.length_map, List.length_range]
    omega
  · cases h

theorem take_of_xrealloc (h : xrealloc memory data n = .ok bytes) (hlen : len ≤ n)
    (hdata : len ≤ data.length) :
    bytes.take len = data.take len := by
  rw [xrealloc] at h
  split at h
  · cases h
    rw [List.take_append_of_le_length (by rw [List.length_take]; omega), List.take_take,
      min_eq_left hlen]
  · cases h

/-- The new buffer has room for so many more characters and the NUL. -/
theorem StringWriterImpl.Holds.reallocate (h : writer.Holds text) (hextra : extraLength < 2 ^ 63) :
    stringWriterReallocate memory writer extraLength = .error .exit ∨
      ∃ writer', stringWriterReallocate memory writer extraLength = .ok writer' ∧
        writer'.Holds text ∧
        text.length + extraLength + 1 ≤ writer'.allocated := by
  have hlen : writer.len = text.length := h.len
  have hfits := h.fits
  have hlt := h.allocated_lt
  have hwanted : sizeT (writer.len + extraLength + 1) = writer.len + extraLength + 1 :=
    sizeT_eq (by omega)
  rw [stringWriterReallocate, hwanted]
  generalize hsize : max (sizeT (writer.allocated * 2)) (writer.len + extraLength + 1) = size
  cases hrealloc : xrealloc memory writer.data size with
  | error stop =>
    left
    rw [xrealloc] at hrealloc
    split at hrealloc
    · cases hrealloc
    · cases hrealloc
      rfl
  | ok bytes =>
    right
    have havailable : memory.available size = true := by
      rw [xrealloc] at hrealloc
      split at hrealloc
      · assumption
      · cases hrealloc
    have hle : writer.len + extraLength + 1 ≤ size := hsize ▸ le_max_right _ _
    have hlt' := memory.available_lt size havailable
    refine ⟨_, rfl, ⟨?_, hlen, ?_, length_of_xrealloc hrealloc, hlt'⟩, hlen ▸ hle⟩
    · have htake :=
        take_of_xrealloc hrealloc (by omega : writer.len + 1 ≤ size) (h.allocated ▸ hfits)
      exact htake.trans h.data
    · have hlt : writer.len + 1 ≤ writer.len + extraLength + 1 := by omega
      exact hlt.trans hle

/-- There is room for more characters, at once or in a new buffer. -/
theorem StringWriterImpl.Holds.makeRoom (h : writer.Holds text) (hextra : extraLength < 2 ^ 63)
    (hle : n ≤ extraLength) :
    makeRoom memory writer (text.length + n + 1) extraLength = .error .exit ∨
      ∃ writer', makeRoom memory writer (text.length + n + 1) extraLength = .ok writer' ∧
        writer'.Holds text ∧
        text.length + n + 1 ≤ writer'.allocated := by
  rw [Cfengine.makeRoom]
  by_cases hwanted : text.length + n + 1 > writer.allocated
  · rw [if_pos hwanted]
    obtain hexit | ⟨writer', hnew, hholds, hfits⟩ := @reallocate memory _ _ _ h hextra
    · exact .inl hexit
    · exact .inr ⟨writer', hnew, hholds, by omega⟩
  · rw [if_neg hwanted]
    exact .inr ⟨writer, rfl, h, by omega⟩

/-- Two writes next to each other are one. -/
theorem storeAt_append {data' : List Char} (h : storeAt data n (str ++ bytes) = .ok data') :
    ∃ first, storeAt data n str = .ok first ∧ storeAt first (n + str.length) bytes = .ok data' := by
  rw [storeAt, List.length_append] at h
  split at h
  · rename_i hroom
    cases h
    have hfirst : (data.take n ++ str).length = n + str.length := by
      rw [List.length_append, List.length_take]
      omega
    have hlength : (data.take n ++ str ++ data.drop (n + str.length)).length = data.length := by
      rw [List.length_append, hfirst, List.length_drop]
      omega
    refine ⟨_, if_pos (by omega), ?_⟩
    have hdrop : (data.take n ++ str ++ data.drop (n + str.length)).drop
      (n + str.length + bytes.length) =
        data.drop (n + (str.length + bytes.length)) := by
      rw [← List.drop_drop, List.drop_left' hfirst, List.drop_drop, Nat.add_assoc]
    rw [storeAt, if_pos (by omega), List.take_left' hfirst, hdrop, List.append_assoc (data.take n)]
  · cases h

/-- Characters and a NUL that there is room for are appended. -/
theorem StringWriterImpl.Holds.store (h : writer.Holds text)
    (hroom : text.length + bytes.length + 1 ≤ writer.allocated) :
    ∃ data, storeAt writer.data writer.len (bytes ++ ['\x00']) = .ok data ∧
      StringWriterImpl.Holds ⟨data, writer.len + bytes.length, writer.allocated⟩
        (text ++ bytes) := by
  have hlen : writer.len = text.length := h.len
  have hallocated := h.allocated
  have htext : writer.data.take writer.len = text := by
    have hdata := congrArg (List.take writer.len) h.data
    rw [stringWriterData, List.take_take, min_eq_left (Nat.le_succ _), hlen,
      List.take_left] at hdata
    rw [hlen, hdata]
  have hbytes : (bytes ++ ['\x00']).length = bytes.length + 1 := List.length_append
  rw [storeAt, if_pos (by omega)]
  refine ⟨_, rfl, ⟨?_, ?_, ?_, ?_, h.allocated_lt⟩⟩
  · have hwhole : (text ++ (bytes ++ ['\x00'])).length = writer.len + bytes.length + 1 := by
      rw [List.length_append, hbytes, hlen]
      omega
    rw [stringWriterData, htext, List.append_assoc text bytes]
    exact List.take_left' hwhole
  · exact (congrArg (· + bytes.length) hlen).trans List.length_append.symm
  · dsimp only
    omega
  · rw [htext, List.length_append, List.length_append, hbytes, List.length_drop]
    dsimp only
    omega

/-! ## The calls -/

/-- The call exits, or the buffer holds the text with what is appended. -/
def Appends (result : Except WriterStop (StringWriterImpl × Nat)) (text : List Char) : Prop :=
  result = .error .exit ∨ ∃ writer size, result = .ok (writer, size) ∧ writer.Holds text

variable (memory) in
theorem StringWriterImpl.Holds.writeLen (h : writer.Holds text) (hstr : str.length < 2 ^ 63)
    (len : Nat) :
    Appends (stringWriterWriteLen memory writer str len) (text ++ str.take len) := by
  have hlen : writer.len = text.length := h.len
  have hfits := h.fits
  have hlt := h.allocated_lt
  generalize hcount : min str.length len = count
  have hle : count ≤ str.length := hcount ▸ min_le_left _ _
  have hbytes : str.take count = str.take len := List.take_eq_take_iff.mpr (by omega)
  have hcopied : (str.take count).length = count := List.length_take_of_le hle
  have hwanted : sizeT (writer.len + count + 1) = text.length + count + 1 := by
    rw [sizeT_eq (by omega), hlen]
  rw [stringWriterWriteLen, hcount, hwanted]
  obtain hexit | ⟨writer', hnew, hholds, hroom⟩ :=
    @makeRoom memory _ _ count _ h (by omega : count < 2 ^ 63) le_rfl
  · exact .inl (by rw [hexit]; rfl)
  · obtain ⟨data, hdata, hstored⟩ := @store _ _ (str.take count) hholds (by omega)
    have hlen' : writer'.len = text.length := hholds.len
    have hlt' := hholds.allocated_lt
    have hsum : sizeT (writer'.len + count) = writer'.len + count := sizeT_eq (by omega)
    rw [hcopied, hbytes] at hstored
    rw [hbytes] at hdata
    refine .inr ⟨_, count, ?_, hstored⟩
    rw [hnew, hbytes]
    simp only [hdata, hsum, bind, Except.bind, pure, Except.pure]

variable (memory) in
theorem StringWriterImpl.Holds.writeChar (h : writer.Holds text) (c : Char) :
    Appends (stringWriterWriteChar memory writer c) (text ++ [c]) := by
  have hlen : writer.len = text.length := h.len
  have hfits := h.fits
  have hlt := h.allocated_lt
  have hwanted : sizeT (writer.len + 2) = text.length + 1 + 1 := by
    rw [sizeT_eq (by omega), hlen]
  rw [stringWriterWriteChar, hwanted]
  obtain hexit | ⟨writer', hnew, hholds, hroom⟩ :=
    @makeRoom memory _ _ 1 _ h (by decide : 2 < 2 ^ 63) (by decide)
  · exact .inl (by rw [hexit]; rfl)
  · obtain ⟨data, hdata, hstored⟩ := @store _ _ [c] hholds hroom
    obtain ⟨first, hfirst, hsecond⟩ := storeAt_append hdata
    rw [List.length_singleton] at hsecond hstored
    have hlen' : writer'.len = text.length := hholds.len
    have hlt' := hholds.allocated_lt
    have hsum : sizeT (writer'.len + 1) = writer'.len + 1 := sizeT_eq (by omega)
    refine .inr ⟨_, 1, ?_, hstored⟩
    rw [hnew]
    simp only [hsum, hfirst, hsecond, bind, Except.bind, pure, Except.pure]

/-! ## Runs -/

/-- The text that a call is given. -/
def WriterCall.given : WriterCall → List Char
  | write str | writeF str => str.1
  | writeLen str len => str.1.take len
  | writeChar c => [c]

/-- What a call appends. -/
def WriterCall.stored : WriterCall → List Char
  | write str => str.1.take intMax
  | call => call.given

/-- The length of a text for `WriterWrite` is an `int`. -/
def WriterCall.Whole : WriterCall → Prop
  | write str => str.1.length ≤ intMax
  | _ => True

theorem WriterCall.whole_iff : call.Whole ↔ call.stored.length = call.given.length := by
  cases call with
  | write str =>
    rw [stored, given, List.length_take]
    exact ⟨min_eq_right, min_eq_right_iff.mp⟩
  | writeLen str len => exact iff_of_true trivial rfl
  | writeChar c => exact iff_of_true trivial rfl
  | writeF str => exact iff_of_true trivial rfl

theorem WriterCall.Whole.stored_eq (h : call.Whole) : call.stored = call.given := by
  cases call with
  | write str => exact List.take_of_length_le h
  | writeLen str len => rfl
  | writeChar c => rfl
  | writeF str => rfl

variable (memory) in
theorem StringWriterImpl.Holds.run (h : writer.Holds text) (call : WriterCall) :
    Appends (call.run memory writer) (text ++ call.stored) := by
  cases call with
  | write str => exact h.writeLen memory (Nat.lt_of_succ_lt str.2) intMax
  | writeLen str len => exact h.writeLen memory (Nat.lt_of_succ_lt str.2) len
  | writeChar c => exact h.writeChar memory c
  | writeF str =>
    rw [WriterCall.run]
    split
    · rename_i hfits
      rw [Bool.and_eq_true, decide_eq_true_eq] at hfits
      have happends := h.writeLen memory (Nat.lt_of_succ_lt str.2) intMax
      rw [List.take_of_length_le hfits.1] at happends
      exact happends
    · exact .inl rfl

/-- The calls, one after another. -/
def runCalls (memory : Allocator) (calls : List WriterCall) : Except WriterStop StringWriterImpl :=
  calls.foldlM (fun writer call => do return (← call.run memory writer).1) stringWriter

theorem runCalls_concat : runCalls memory (calls ++ [call]) =
    (runCalls memory calls).bind fun writer => (call.run memory writer).map Prod.fst := by
  rw [runCalls, List.foldlM_append]
  refine congrArg _ (funext fun writer => ?_)
  rw [List.foldlM_cons]
  cases call.run memory writer with
  | error stop => rfl
  | ok result => rfl

/-- Every run exits, or the buffer holds what the calls appended. -/
theorem runCalls_holds (memory : Allocator) (calls : List WriterCall) :
    runCalls memory calls = .error .exit ∨
      ∃ writer, runCalls memory calls = .ok writer ∧
        writer.Holds (calls.flatMap WriterCall.stored) := by
  induction calls using List.reverseRecOn with
  | nil => exact .inr ⟨stringWriter, rfl, holds_stringWriter⟩
  | append_singleton calls call ih =>
    rw [runCalls_concat, List.flatMap_append, List.flatMap_singleton]
    obtain hexit | ⟨writer, hrun, hholds⟩ := ih
    · exact .inl (by rw [hexit]; rfl)
    · rw [hrun]
      obtain hexit | ⟨writer', size, hcall, hholds'⟩ := hholds.run memory call
      · exact .inl (by rw [Except.bind, hexit]; rfl)
      · exact .inr ⟨writer', by rw [Except.bind, hcall]; rfl, hholds'⟩

theorem runCalls_ne_exit_of_front (h : runCalls memory calls ≠ .error .exit)
    (hfront : front <+: calls) :
    runCalls memory front ≠ .error .exit := by
  obtain ⟨back, rfl⟩ := hfront
  intro hexit
  refine h ?_
  rw [runCalls, List.foldlM_append]
  rw [runCalls] at hexit
  rw [hexit]
  rfl

/-- No call writes behind the end of the buffer. -/
theorem runCalls_ne_overflow (memory : Allocator) (calls : List WriterCall) :
    runCalls memory calls ≠ .error .overflow := by
  obtain hexit | ⟨writer, hrun, -⟩ := runCalls_holds memory calls
  · rw [hexit]
    exact fun h => by cases h
  · rw [hrun]
    exact fun h => by cases h

/-- While there is memory, the buffer always holds all texts, exactly if each text for `WriterWrite`
has a length that an `int` can say. -/
theorem holdsTexts_iff (memory : Allocator) (calls : List WriterCall)
    (hmemory : runCalls memory calls ≠ .error .exit) :
    (∀ front, front <+: calls →
      ∃ writer, runCalls memory front = .ok writer ∧
      writer.Holds (front.flatMap WriterCall.given)) ↔
      ∀ call ∈ calls, call.Whole := by
  constructor
  · intro h call hcall
    obtain ⟨front, back, rfl⟩ := List.append_of_mem hcall
    have hprefix : front ++ [call] <+: front ++ call :: back := ⟨back, by simp⟩
    obtain ⟨writer, hrun, hholds⟩ := h front (List.prefix_append _ _)
    obtain ⟨writer', hrun', hholds'⟩ := h (front ++ [call]) hprefix
    rw [runCalls_concat, hrun] at hrun'
    obtain hexit | ⟨writer'', size, hstep, hstored⟩ := hholds.run memory call
    · rw [Except.bind, hexit] at hrun'
      cases hrun'
    · rw [Except.bind, hstep] at hrun'
      cases hrun'
      have hlength := hstored.len.symm.trans hholds'.len
      rw [List.flatMap_append, List.flatMap_singleton, List.length_append,
        List.length_append] at hlength
      exact WriterCall.whole_iff.mpr (by omega)
  · intro h front hfront
    obtain hexit | ⟨writer, hrun, hholds⟩ := runCalls_holds memory front
    · exact absurd hexit (runCalls_ne_exit_of_front hmemory hfront)
    · refine ⟨writer, hrun, ?_⟩
      rw [List.flatMap_congr fun call hcall => (h call (hfront.subset hcall)).stored_eq] at hholds
      exact hholds

/-- An allocator that gives whatever is asked for. -/
def roomy : Allocator :=
  ⟨fun size => decide (size < 2 ^ 63), fun _ h => of_decide_eq_true h, fun _ => 'x'⟩

/-- Texts that enlarge the buffer, and one that fills it. -/
theorem holdsTexts_short :
    let calls : List WriterCall := [.write ⟨"ab".toList, by decide⟩, .writeChar 'c',
      .writeLen ⟨"def".toList, by decide⟩ 2, .writeF ⟨"1".toList, by decide⟩]
    ∀ front, front <+: calls →
      ∃ writer, runCalls roomy front = .ok writer ∧
        writer.Holds (front.flatMap WriterCall.given) := by
  intro calls
  refine (holdsTexts_iff roomy calls (by decide)).mpr ?_
  simp [calls, WriterCall.Whole, intMax]

theorem storeAt_ne_exit : storeAt data n bytes ≠ .error .exit := by
  rw [storeAt]
  split
  · exact fun h => by cases h
  · exact fun h => by cases h

theorem makeRoom_roomy (hallocated : writer.allocated < 2 ^ 62)
    (hextra : writer.len + extraLength + 1 < 2 ^ 63) :
    ∃ writer', makeRoom roomy writer n extraLength = .ok writer' := by
  rw [makeRoom]
  split
  · have hdouble : sizeT (writer.allocated * 2) < 2 ^ 63 := lt_of_le_of_lt sizeT_le (by omega)
    have hsum : sizeT (writer.len + extraLength + 1) < 2 ^ 63 := lt_of_le_of_lt sizeT_le hextra
    have havailable : roomy.available
        (max (sizeT (writer.allocated * 2)) (sizeT (writer.len + extraLength + 1))) = true :=
      decide_eq_true (max_lt hdouble hsum)
    rw [stringWriterReallocate, xrealloc, if_pos havailable]
    exact ⟨_, rfl⟩
  · exact ⟨writer, rfl⟩

theorem not_holdsTexts_of_length {str : StoredString} (hlength : str.1.length = 2 ^ 31) :
    runCalls roomy [.write str] ≠ .error .exit ∧
      ¬ ∀ front, front <+: [WriterCall.write str] →
        ∃ writer, runCalls roomy front = .ok writer ∧
          writer.Holds (front.flatMap WriterCall.given) := by
  have hmin : min str.1.length intMax = 2 ^ 31 - 1 := by rw [hlength]; rfl
  constructor
  · intro hexit
    obtain ⟨writer, hroom⟩ :=
      @makeRoom_roomy stringWriter (sizeT (stringWriter.len + (2 ^ 31 - 1) + 1))
      (2 ^ 31 - 1) (by decide) (by decide)
    have hnil : runCalls roomy [] = .ok stringWriter := rfl
    have hcall := @runCalls_concat roomy (.write str) []
    rw [List.nil_append, hnil, Except.bind, WriterCall.run, stringWriterWriteLen, hmin,
      hroom] at hcall
    rw [hcall] at hexit
    cases hstore : storeAt writer.data writer.len (str.1.take (2 ^ 31 - 1) ++ ['\x00']) with
    | error stop =>
      simp only [hstore, bind, Except.bind, Except.map, Except.error.injEq] at hexit
      exact storeAt_ne_exit (hexit ▸ hstore)
    | ok data =>
      simp only [hstore, bind, Except.bind, Except.map] at hexit
      cases hexit
  · intro h
    obtain ⟨writer, hrun, hgiven⟩ := h [.write str] (List.prefix_refl _)
    obtain hexit | ⟨writer', hrun', hstored⟩ := runCalls_holds roomy [.write str]
    · rw [hexit] at hrun
      cases hrun
    · obtain rfl := Except.ok.inj (hrun.symm.trans hrun')
      have hcut := hstored.len.symm.trans hgiven.len
      rw [List.flatMap_singleton, List.flatMap_singleton, WriterCall.stored, WriterCall.given,
        List.length_take, hlength] at hcut
      exact absurd hcut (by decide)

/-- A text with more characters than an `int` can say is cut off. -/
theorem not_holdsTexts_long :
    let str : StoredString := ⟨List.replicate (2 ^ 31) 'a', by rw [List.length_replicate]; decide⟩
    runCalls roomy [.write str] ≠ .error .exit ∧
      ¬ ∀ front, front <+: [WriterCall.write str] →
        ∃ writer, runCalls roomy front = .ok writer ∧
          writer.Holds (front.flatMap WriterCall.given) :=
  not_holdsTexts_of_length List.length_replicate

end Cfengine
