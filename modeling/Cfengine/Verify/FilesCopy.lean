import Cfengine.FilesCopy
import Cfengine.Verify.CopyNet

/-!
# Copies of local files

The scan of a block for zeros stops at the sentinel or in front of it, so a block becomes a hole
exactly if it is zero (`findsSentinel_eq`). What was copied is at the destination up to a hole at
the end, which the last write and `ftruncate` make: `copyRegularFileDisk_content`. A copy that fails
leaves a file behind where it was a read that failed (`copyRegularFileDisk_unlinked_iff`).
-/

namespace Cfengine.Disk
open Net (Destination Progress)

variable {answers : List Answer} {dd : Destination} {buf ptr rest content : List Char} {c : Char}
  {makeHoles hole : Bool} {z n nRead cp intp : Nat}

/-! ## The scan for zeros -/

theorem firstByte_eq (hc : c ≠ '\x00') :
    firstByte cp (List.replicate z '\x00' ++ c :: rest) = .ok (cp + z + 1) := by
  induction z generalizing cp with
  | zero => rw [List.replicate_zero, List.nil_append, firstByte, if_neg hc, Nat.add_zero]
  | succ z ih =>
    rw [List.replicate_succ, List.cons_append, firstByte, if_pos rfl, ih]
    congr 1
    omega

theorem firstWord_eq (hc : c ≠ '\x00') (hrest : 3 ≤ rest.length) :
    firstWord intp (List.replicate z '\x00' ++ c :: rest) = .ok (intp + 4 * (z / 4) + 4) := by
  induction z using Nat.strong_induction_on generalizing intp with
  | h z ih =>
    obtain ⟨r, r', r'', rest, rfl⟩ : ∃ r r' r'' rest', rest = r :: r' :: r'' :: rest' := by
      match rest, hrest with
      | r :: r' :: r'' :: rest, _ => exact ⟨r, r', r'', rest, rfl⟩
    by_cases hz : z < 4
    · interval_cases z <;> simp [List.replicate, firstWord, hc]
    · obtain ⟨w, rfl⟩ := Nat.exists_eq_add_of_le' (not_lt.mp hz)
      have hword : firstWord intp (List.replicate (w + 4) '\x00' ++ c :: r :: r' :: r'' :: rest) =
          firstWord (intp + 4) (List.replicate w '\x00' ++ c :: r :: r' :: r'' :: rest) := by
        simp only [List.replicate_succ, List.cons_append]
        rw [firstWord, if_pos ⟨rfl, rfl, rfl, rfl⟩]
      rw [hword, ih w (by omega)]
      congr 1
      omega

/-- The scan stops behind the first byte that is not zero. -/
theorem findsSentinel_replicate (hc : c ≠ '\x00') (hrest : 3 ≤ rest.length) :
    findsSentinel (List.replicate z '\x00' ++ c :: rest) nRead = .ok (decide (nRead < z + 1)) := by
  have hsplit : List.replicate z '\x00' = List.replicate (4 * (z / 4)) '\x00' ++ List.replicate
      (z % 4) '\x00' := by
    rw [List.replicate_append_replicate, Nat.div_add_mod]
  have hdrop : (List.replicate z '\x00' ++ c :: rest).drop (4 * (z / 4)) =
      List.replicate (z % 4) '\x00' ++ c :: rest := by
    rw [hsplit, List.append_assoc, List.drop_left' List.length_replicate]
  have hword : 0 + 4 * (z / 4) + 4 - 4 = 4 * (z / 4) := by omega
  have hbyte : 4 * (z / 4) + z % 4 + 1 = z + 1 := by omega
  rw [findsSentinel, firstWord_eq hc hrest]
  simp only [bind, Except.bind, hword, hdrop, firstByte_eq hc, hbyte]
  rfl

/-- A zero block is one without another byte. -/
theorem exists_replicate (block : List Char) :
    block = List.replicate block.length '\x00' ∨
      ∃ z c rest, c ≠ '\x00' ∧ block = List.replicate z '\x00' ++ c :: rest := by
  induction block with
  | nil => exact .inl rfl
  | cons c block ih =>
    by_cases hc : c = '\x00'
    · subst hc
      obtain hzero | ⟨z, c, rest, hc, hblock⟩ := ih
      · exact .inl (by rw [List.length_cons, List.replicate_succ, ← hzero])
      · exact .inr ⟨z + 1, c, rest, hc, by rw [hblock, List.replicate_succ, List.cons_append]⟩
    · exact .inr ⟨0, c, block, hc, rfl⟩

/-- The buffer with the sentinel. -/
theorem writeBytes_sentinel :
    Net.writeBytes buf nRead ['\x01'] = buf.take nRead ++ '\x01' :: buf.drop (nRead + 1) := by
  rw [Net.writeBytes, List.append_assoc]
  rfl

/-- The sentinel is found exactly if all bytes of the block are zero. -/
theorem findsSentinel_eq (h : nRead + 4 ≤ buf.length) :
    findsSentinel (Net.writeBytes buf nRead ['\x01']) nRead =
      .ok ((buf.take nRead).all (· = '\x00')) := by
  have hlength : (buf.take nRead).length = nRead := List.length_take_of_le (by omega)
  rw [writeBytes_sentinel]
  obtain hzero | ⟨z, c, rest, hc, hblock⟩ := exists_replicate (buf.take nRead)
  · rw [hzero, hlength, findsSentinel_replicate (by decide) (by rw [List.length_drop]; omega)]
    simp
  · have hshort : z < nRead := by
      have hsum := congrArg List.length hblock
      rw [hlength, List.length_append, List.length_replicate, List.length_cons] at hsum
      omega
    have hrest : 3 ≤ (rest ++ '\x01' :: buf.drop (nRead + 1)).length := by
      have hsum := congrArg List.length hblock
      rw [hlength, List.length_append, List.length_replicate, List.length_cons] at hsum
      rw [List.length_append, List.length_cons, List.length_drop]
      omega
    rw [hblock, List.append_assoc, List.cons_append, findsSentinel_replicate hc hrest]
    simp [hc]
    omega

/-! ## One block -/

/-- Whether a block becomes a hole. -/
def isHole (makeHoles : Bool) (block : List Char) : Bool := makeHoles && block.all (· = '\x00')

/-- The buffer that is written. -/
def blockBuffer (makeHoles : Bool) (buf : List Char) (nRead : Nat) : List Char :=
  if makeHoles then Net.writeBytes buf nRead ['\x01'] else buf

theorem length_blockBuffer (h : nRead + 4 ≤ buf.length) :
    (blockBuffer makeHoles buf nRead).length = buf.length := by
  rw [blockBuffer]
  split
  · rw [writeBytes_sentinel, List.length_append, List.length_cons, List.length_take,
      List.length_drop]
    omega
  · rfl

theorem take_blockBuffer (h : nRead + 4 ≤ buf.length) :
    (blockBuffer makeHoles buf nRead).take nRead = buf.take nRead := by
  rw [blockBuffer]
  split
  · rw [writeBytes_sentinel, List.take_left' (List.length_take_of_le (by omega))]
  · rfl

/-- A block of zeros becomes a hole, and any other is written. -/
theorem fsWrite_eq (h : nRead + 4 ≤ buf.length) :
    fsWrite makeHoles dd buf n nRead answers = .ok
      (if isHole makeHoles (buf.take nRead) then
        ⟨lseek dd nRead answers, blockBuffer makeHoles buf nRead, true⟩
      else ⟨fullWrite answers dd ((blockBuffer makeHoles buf nRead).take n),
        blockBuffer makeHoles buf nRead, false⟩) := by
  rw [fsWrite, isHole, blockBuffer]
  cases makeHoles with
  | false => rfl
  | true =>
    have hfits : ¬ buf.length ≤ nRead := by omega
    simp only [if_true, if_neg hfits, findsSentinel_eq h, Bool.true_and]
    cases (buf.take nRead).all (· = '\x00') <;> rfl

/-! ## Calls that succeed -/

/-- No call fails or is interrupted. -/
def AllDone (answers : List Answer) : Prop := ∀ answer ∈ answers, ∃ more, answer = .done more

theorem AllDone.cons {answer : Answer} (h : AllDone (answer :: answers)) :
    (∃ more, answer = .done more) ∧ AllDone answers := List.forall_mem_cons.mp h

theorem lseek_done (h : AllDone answers) (offset : Nat) :
    (lseek dd offset answers).value = true ∧ (lseek dd offset answers).file = dd.lseek offset ∧
      AllDone (lseek dd offset answers).answers := by
  cases answers with
  | nil => exact ⟨rfl, rfl, h⟩
  | cons answer answers =>
    obtain ⟨⟨more, rfl⟩, hrest⟩ := h.cons
    exact ⟨rfl, rfl, hrest⟩

theorem ftruncate_done (h : AllDone answers) (length : Nat) :
    (ftruncate dd length answers).value = true ∧
      (ftruncate dd length answers).file = dd.ftruncate length := by
  cases answers with
  | nil => exact ⟨rfl, rfl⟩
  | cons answer answers =>
    obtain ⟨⟨more, rfl⟩, -⟩ := h.cons
    exact ⟨rfl, rfl⟩

theorem fullWrite_nil : fullWrite answers dd [] = ⟨true, dd, answers⟩ := by
  cases answers with
  | nil =>
    rw [fullWrite, Destination.write, if_pos rfl]
  | cons answer answers =>
    rw [fullWrite.eq_def]
    exact if_pos rfl

/-- A write that takes several calls is one write. -/
theorem fullWrite_done (h : AllDone answers) (hdd : dd.Holds content) (hptr : ptr ≠ []) :
    (fullWrite answers dd ptr).value = true ∧
      (fullWrite answers dd ptr).file = ⟨content ++ ptr, (content ++ ptr).length⟩ ∧
        AllDone (fullWrite answers dd ptr).answers := by
  induction answers generalizing dd content ptr with
  | nil => exact ⟨rfl, hdd.write_eq hptr, h⟩
  | cons answer answers ih =>
    obtain ⟨⟨more, rfl⟩, hrest⟩ := h.cons
    have htake : ptr.take (more + 1) ≠ [] :=
      fun hnil => hptr ((List.take_eq_nil_iff.mp hnil).resolve_left (by omega))
    have hstep : fullWrite (.done more :: answers) dd ptr =
        fullWrite answers (dd.write (ptr.take (more + 1))) (ptr.drop (more + 1)) := by
      rw [fullWrite.eq_def]
      exact if_neg hptr
    rw [hstep, hdd.write_eq htake]
    by_cases hdrop : ptr.drop (more + 1) = []
    · have hall : ptr.take (more + 1) = ptr := by
        rw [← List.take_append_drop (more + 1) ptr, hdrop]; simp
      rw [hdrop, hall, fullWrite_nil]
      exact ⟨rfl, rfl, hrest⟩
    · have hih := @ih ⟨content ++ ptr.take (more + 1), (content ++ ptr.take (more + 1)).length⟩
        (ptr.drop (more + 1))
        (content ++ ptr.take (more + 1)) hrest Destination.holds_exact hdrop
      rw [List.append_assoc, List.take_append_drop] at hih
      exact hih

/-! ## What is written -/

/-- The block is behind what was written, maybe as a hole. -/
theorem fsWrite_progress (hdone : AllDone answers) (h : Progress dd hole content)
    (hfits : nRead + 4 ≤ buf.length)
    (hblock : buf.take nRead ≠ [] ∨ (hole = true → makeHoles = true)) :
    ∃ written, fsWrite makeHoles dd buf nRead nRead answers = .ok written ∧ written.value = true ∧
      Progress written.file written.hole (content ++ buf.take nRead) ∧ AllDone written.answers ∧
        written.buf.length = buf.length ∧ (written.hole = true → makeHoles = true) := by
  have hlength : (buf.take nRead).length = nRead := List.length_take_of_le (by omega)
  refine ⟨_, fsWrite_eq hfits, ?_⟩
  rw [take_blockBuffer hfits]
  cases hhole : isHole makeHoles (buf.take nRead) with
  | true =>
    rw [isHole, Bool.and_eq_true, List.all_eq_true] at hhole
    have hmake : makeHoles = true := hhole.1
    obtain ⟨hvalue, hfile, hanswers⟩ := @lseek_done answers dd hdone nRead
    have hholds := h.holds.lseek fun c hc => of_decide_eq_true (hhole.2 c hc)
    rw [hlength] at hholds
    rw [if_pos rfl]
    refine ⟨hvalue, ⟨?_, fun hno => by cases hno⟩, hanswers, length_blockBuffer hfits,
      fun _ => hmake⟩
    rw [hfile]
    exact hholds
  | false =>
    rw [if_neg Bool.false_ne_true]
    by_cases hnil : buf.take nRead = []
    · rw [hnil, isHole, List.all_nil, Bool.and_true] at hhole
      have hno : hole = false := by
        rw [← Bool.not_eq_true]
        exact fun hyes => absurd (hblock.resolve_left (not_not_intro hnil) hyes)
          (by rw [hhole]; decide)
      rw [hnil, fullWrite_nil, List.append_nil]
      exact ⟨rfl, ⟨h.holds, fun _ => h.exact hno⟩, hdone, length_blockBuffer hfits,
        fun hyes => by cases hyes⟩
    · obtain ⟨hvalue, hfile, hanswers⟩ := fullWrite_done hdone h.holds hnil
      refine ⟨hvalue, ?_, hanswers, length_blockBuffer hfits, fun hyes => by cases hyes⟩
      rw [hfile]
      exact ⟨Destination.holds_exact, fun _ => rfl⟩

/-- Behind the last block, a hole at the end is part of the file. -/
theorem finishCopy_done (hdone : AllDone answers) (h : Progress dd hole content) :
    finishCopy hole dd content.length answers = ⟨true, some content⟩ := by
  rw [finishCopy]
  cases hole with
  | false => rw [if_neg Bool.false_ne_true, h.exact rfl]
  | true =>
    obtain ⟨hvalue, hfile, hanswers⟩ := fullWrite_done hdone h.holds (List.cons_ne_nil '\x00' [])
    obtain ⟨htruncated, hbytes⟩ :=
      @ftruncate_done _ (fullWrite answers dd ['\x00']).file hanswers content.length
    rw [if_pos rfl]
    dsimp only
    rw [if_pos hvalue, if_pos htruncated, hbytes, hfile, Destination.ftruncate]
    simp [List.rightpad]

/-! ## Copies that succeed -/

/-- Where the copy is. -/
structure Copies (bufSize : Nat) (c : Copying) (content : List Char) : Prop where
  progress : Progress c.dd c.lastWriteMadeHole content
  total : c.nReadTotal = content.length
  buffer : c.buf.length = bufSize + 4
  done : AllDone c.answers

theorem writeBytes_start (buf bytes : List Char) :
    Net.writeBytes buf 0 bytes = bytes ++ buf.drop bytes.length := by
  rw [Net.writeBytes, List.take_zero, List.nil_append, Nat.zero_add]

theorem length_writeBytes_start {bytes : List Char} (h : bytes.length ≤ buf.length) :
    (Net.writeBytes buf 0 bytes).length = buf.length := by
  rw [writeBytes_start, List.length_append, List.length_drop]
  omega

theorem copyBlock_done {bufSize count : Nat} {c : Copying} (h : Copies bufSize c content)
    (hcount : 0 < count) (hle : count ≤ bufSize) :
    (c.source = [] ∧ copyBlock makeHoles count c = .ok (.break c)) ∨
      ∃ c', copyBlock makeHoles count c = .ok (.next c') ∧
        ∃ block, c.source = block ++ c'.source ∧ Copies bufSize c' (content ++ block) := by
  rw [copyBlock]
  by_cases hnil : c.source = []
  · refine .inl ⟨hnil, if_pos ?_⟩
    rw [hnil, List.take_nil, List.length_nil]
  · have hshort : (c.source.take count).length ≤ count := List.length_take_le _ _
    have hne : c.source.take count ≠ [] :=
      fun htake => (List.take_eq_nil_iff.mp htake).elim (by omega) hnil
    have hbuf : (Net.writeBytes c.buf 0 (c.source.take count)).length = bufSize + 4 := by
      rw [length_writeBytes_start (by rw [h.buffer]; omega), h.buffer]
    have htake : (Net.writeBytes c.buf 0 (c.source.take count)).take (c.source.take count).length =
        c.source.take count := by
      rw [writeBytes_start, List.take_left]
    obtain ⟨written, hwritten, hvalue, hprogress, hdone, hlength, -⟩ :=
      @fsWrite_progress c.answers c.dd (Net.writeBytes c.buf 0 (c.source.take count))
        content makeHoles
        c.lastWriteMadeHole (c.source.take count).length h.done h.progress (by omega)
          (.inl (by rwa [htake]))
    rw [htake] at hprogress
    refine .inr ⟨⟨c.source.drop count, written.buf, written.file, written.hole,
      c.nReadTotal + (c.source.take count).length, written.answers⟩, ?_, c.source.take count,
      (List.take_append_drop count c.source).symm, ⟨hprogress, ?_, hlength.trans hbuf, hdone⟩⟩
    · rw [if_neg (List.length_pos_iff.mpr hne).ne', hwritten]
      dsimp only
      rw [if_pos hvalue]
    · rw [h.total, List.length_append]

theorem copyRound_done {bufSize : Nat} {c : Copying} (h : Copies bufSize c content)
    (hsize : 0 < bufSize) :
    (c.source = [] ∧ ∃ c', copyRound makeHoles bufSize c = .ok (.break c') ∧
      Copies bufSize c' content) ∨
      ∃ c', copyRound makeHoles bufSize c = .ok (.next c') ∧
        ∃ block, c.source = block ++ c'.source ∧ Copies bufSize c' (content ++ block) := by
  obtain ⟨source, buf, dd, hole, total, answers⟩ := c
  cases answers with
  | nil => exact (copyBlock_done h hsize le_rfl).imp_left fun ⟨hnil, hbreak⟩ => ⟨hnil, _, hbreak, h⟩
  | cons answer answers =>
    obtain ⟨⟨more, rfl⟩, hdone⟩ := h.done.cons
    have hnext : Copies bufSize ⟨source, buf, dd, hole, total, answers⟩ content :=
      ⟨h.progress, h.total, h.buffer, hdone⟩
    exact (copyBlock_done hnext (by omega) (Nat.min_le_right _ _)).imp_left
      fun ⟨hnil, hbreak⟩ => ⟨hnil, _, hbreak, hnext⟩

theorem copyLoop_next {bufSize : Nat} {c c' : Copying}
    (h : copyRound makeHoles bufSize c = .ok (.next c')) :
    copyLoop makeHoles bufSize c = copyLoop makeHoles bufSize c' := by
  rw [copyLoop]
  split <;> rename_i hround <;> rw [h] at hround <;> cases hround
  rfl

theorem copyLoop_break {bufSize : Nat} {c c' : Copying}
    (h : copyRound makeHoles bufSize c = .ok (.break c')) :
    copyLoop makeHoles bufSize c =
      .ok (finishCopy c'.lastWriteMadeHole c'.dd c'.nReadTotal c'.answers) := by
  rw [copyLoop]
  split <;> rename_i hround <;> rw [h] at hround <;> cases hround
  rfl

theorem copyLoop_return {bufSize : Nat} {c : Copying} {copied : Copied}
    (h : copyRound makeHoles bufSize c = .ok (.return copied)) :
    copyLoop makeHoles bufSize c = .ok copied := by
  rw [copyLoop]
  split <;> rename_i hround <;> rw [h] at hround <;> cases hround
  rfl

/-- The loop copies what is left of the source. -/
theorem copyLoop_done {bufSize : Nat} {c : Copying} (h : Copies bufSize c content)
    (hsize : 0 < bufSize) :
    copyLoop makeHoles bufSize c = .ok ⟨true, some (content ++ c.source)⟩ := by
  induction hn : c.source.length + c.answers.length using Nat.strong_induction_on generalizing c
      content with
  | h n ih =>
    obtain ⟨hsource, c', hround, hcopies⟩ | ⟨c', hround, block, hsource, hcopies⟩ :=
      @copyRound_done _ makeHoles _ _ h hsize
    · rw [copyLoop_break hround, hcopies.total, finishCopy_done hcopies.done hcopies.progress,
        hsource, List.append_nil]
    · rw [copyLoop_next hround, ih _ (hn ▸ copyRound_lt hround) hcopies rfl, hsource,
        List.append_assoc]

theorem progress_empty : Progress ⟨[], 0⟩ false [] := ⟨Destination.holds_exact, fun _ => rfl⟩

/-- A block that is received whole, in the buffer of `CopyRegularFileNet`. -/
structure ReceivedBlock.Whole (block : ReceivedBlock) : Prop where
  buf : block.buf.length = cfBufSize + 4
  fits : block.nRead ≤ cfBufSize
  whole : block.towrite = block.nRead

/-- What was received. -/
def received (blocks : List ReceivedBlock) : List Char :=
  blocks.flatMap fun block => block.buf.take block.nRead

theorem writeBlocks_done {blocks : List ReceivedBlock} {total : Nat} (hdone : AllDone answers)
    (h : Progress dd hole content) (htotal : total = content.length)
    (hblocks : ∀ block ∈ blocks, block.Whole) (hhole : hole = true → makeHoles = true) :
    writeBlocks makeHoles blocks hole dd total answers =
      .ok ⟨true, some (content ++ received blocks)⟩ := by
  induction blocks generalizing hole dd total answers content with
  | nil => rw [writeBlocks, htotal, finishCopy_done hdone h, received, List.flatMap_nil,
      List.append_nil]
  | cons block blocks ih =>
    obtain ⟨⟨hbuf, hle, htowrite⟩, hrest⟩ := List.forall_mem_cons.mp hblocks
    obtain ⟨written, hwritten, hvalue, hprogress, hanswers, -, hmake⟩ :=
      @fsWrite_progress answers dd block.buf content makeHoles hole block.nRead hdone h (by omega)
        (.inr hhole)
    have hlength : (block.buf.take block.nRead).length = block.nRead :=
      List.length_take_of_le (by omega)
    rw [writeBlocks, htowrite, hwritten]
    dsimp only
    rw [if_pos hvalue, ih hanswers hprogress (by rw [htotal, List.length_append, hlength]) hrest
      hmake, received, received, List.flatMap_cons, List.append_assoc]

/-- `FSWrite` does what the model of the copy of a remote file has for it, which tests the block at
once and writes it with one call. -/
theorem fsWrite_net (hdone : AllDone answers) (hdd : dd.Holds content)
    (hfits : nRead + 4 ≤ buf.length) :
    ∃ written, fsWrite makeHoles dd buf n nRead answers = .ok written ∧ written.value = true ∧
      Net.fsWrite makeHoles true dd buf n nRead =
        some (written.buf, written.file, written.hole) := by
  have htake := @take_blockBuffer buf makeHoles nRead hfits
  rw [blockBuffer] at htake
  refine ⟨_, fsWrite_eq hfits, ?_⟩
  rw [Net.fsWrite, isHole, blockBuffer, Bool.not_true, if_neg Bool.false_ne_true, htake]
  cases (makeHoles && (buf.take nRead).all (· = '\x00')) with
  | true =>
    obtain ⟨hvalue, hfile, -⟩ := @lseek_done answers dd hdone nRead
    rw [if_pos rfl, if_pos rfl]
    exact ⟨hvalue, by rw [hfile]⟩
  | false =>
    rw [if_neg Bool.false_ne_true, if_neg Bool.false_ne_true]
    generalize (if makeHoles then Net.writeBytes buf nRead ['\x01'] else buf) = buf'
    by_cases hnil : buf'.take n = []
    · rw [hnil, fullWrite_nil, Destination.write, if_pos rfl]
      exact ⟨rfl, rfl⟩
    · obtain ⟨hvalue, hfile, -⟩ := fullWrite_done hdone hdd hnil
      exact ⟨hvalue, by rw [hfile, hdd.write_eq hnil]⟩

/-- A copy for which every call succeeds has the content of its source, and so have the blocks of a
remote file. -/
theorem copies_content {files : Files} {bufSize : Nat} {blocks : List ReceivedBlock}
    {destination : Option (List Char)} (hopened : files.opened = true)
    (hstated : files.stated = true) (hcreated : files.created = true)
    (hfiles : AllDone files.answers) (hsize : 0 < bufSize) (hbuf : buf.length = bufSize + 4)
    (hdone : AllDone answers) (hblocks : ∀ block ∈ blocks, block.Whole) :
    copyRegularFileDisk files makeHoles bufSize buf destination = .ok ⟨true, some files.source⟩ ∧
      writeBlocks makeHoles blocks false ⟨[], 0⟩ 0 answers =
        .ok ⟨true, some (received blocks)⟩ := by
  have hcopies : Copies bufSize ⟨files.source, buf, ⟨[], 0⟩, false, 0, files.answers⟩ [] :=
    ⟨progress_empty, rfl, hbuf, hfiles⟩
  refine ⟨?_, writeBlocks_done hdone progress_empty rfl hblocks fun h => by cases h⟩
  rw [copyRegularFileDisk, hopened, hstated, hcreated]
  exact copyLoop_done hcopies hsize

/-- A file with a hole at its end, read in a byte and in blocks of four; and a block of three
bytes. -/
theorem copies_content_hole :
    copyRegularFileDisk ⟨true, true, 'a' :: List.replicate 8 '\x00', true, [.done 0]⟩ true 4
        (List.replicate 8 'x') none = .ok ⟨true, some ('a' :: List.replicate 8 '\x00')⟩ ∧
      writeBlocks true [⟨List.replicate (cfBufSize + 4) '\x00', 3, 3⟩] false ⟨[], 0⟩ 0 [] =
        .ok ⟨true, some (received [⟨List.replicate (cfBufSize + 4) '\x00', 3, 3⟩])⟩ :=
  copies_content rfl rfl rfl (List.forall_mem_singleton.mpr ⟨0, rfl⟩) (by decide) rfl
    (List.forall_mem_nil _)
    (List.forall_mem_singleton.mpr ⟨List.length_replicate, by decide, rfl⟩)

/-! ## Copies that fail -/

/-- In some round the read fails. -/
def ReadFails (makeHoles : Bool) (bufSize : Nat) (c : Copying) : Prop :=
  ∃ c', Relation.ReflTransGen (fun c c' => copyRound makeHoles bufSize c = .ok (.next c')) c c' ∧
    c'.answers.head? = some .failed

theorem copyBlock_cases {bufSize count : Nat} {c : Copying} (hbuf : c.buf.length = bufSize + 4)
    (hle : count ≤ bufSize) :
    copyBlock makeHoles count c = .ok (.break c) ∨
      copyBlock makeHoles count c = .ok (.return ⟨false, none⟩) ∨
      ∃ c', copyBlock makeHoles count c = .ok (.next c') ∧ c'.buf.length = bufSize + 4 := by
  have hshort : (c.source.take count).length ≤ count := List.length_take_le _ _
  have hlength : (Net.writeBytes c.buf 0 (c.source.take count)).length = bufSize + 4 := by
    rw [length_writeBytes_start (by omega), hbuf]
  have hfits : (c.source.take count).length + 4 ≤
    (Net.writeBytes c.buf 0 (c.source.take count)).length := by omega
  obtain ⟨written, hwritten, hbuffer⟩ : ∃ written,
    fsWrite makeHoles c.dd (Net.writeBytes c.buf 0 (c.source.take count))
      (c.source.take count).length (c.source.take count).length c.answers = .ok written ∧
        written.buf.length = bufSize + 4 := by
    refine ⟨_, fsWrite_eq hfits, ?_⟩
    split <;> exact (length_blockBuffer hfits).trans hlength
  rw [copyBlock]
  by_cases hnil : (c.source.take count).length = 0
  · exact .inl (if_pos hnil)
  · rw [if_neg hnil, hwritten]
    dsimp only
    split
    · exact .inr (.inr ⟨_, rfl, hbuffer⟩)
    · exact .inr (.inl rfl)

/-- How a round ends: with a read that fails, or as the round of a block does. -/
theorem copyRound_cases {bufSize : Nat} {c : Copying} (hbuf : c.buf.length = bufSize + 4) :
    (c.answers.head? = some .failed ∧
      copyRound makeHoles bufSize c = .ok (.return ⟨false, some c.dd.bytes⟩)) ∨
      c.answers.head? ≠ some .failed ∧
        ((∃ c', copyRound makeHoles bufSize c = .ok (.break c')) ∨
          copyRound makeHoles bufSize c = .ok (.return ⟨false, none⟩) ∨
            ∃ c', copyRound makeHoles bufSize c = .ok (.next c') ∧
            c'.buf.length = bufSize + 4) := by
  obtain ⟨source, buf, dd, hole, total, answers⟩ := c
  rcases answers with - | ⟨more | -, answers⟩
  · exact .inr ⟨fun h => (by cases h), (copyBlock_cases hbuf le_rfl).imp_left fun h => ⟨_, h⟩⟩
  · exact .inr ⟨fun h => (by cases h),
      (@copyBlock_cases makeHoles bufSize _ ⟨source, buf, dd, hole, total, answers⟩ hbuf
        (Nat.min_le_right _ _)).imp_left fun h => ⟨_, h⟩⟩
  · exact .inr ⟨fun h => (by cases h), .inr (.inr ⟨_, rfl, hbuf⟩)⟩
  · exact .inl ⟨rfl, rfl⟩

theorem finishCopy_unlinked (h : (finishCopy hole dd n answers).value = false) :
    (finishCopy hole dd n answers).destination = none := by
  rw [finishCopy] at h ⊢
  dsimp only at h ⊢
  split_ifs at h ⊢
  · rfl
  · rfl

theorem readFails_next {bufSize : Nat} {c c' : Copying} (hhead : c.answers.head? ≠ some .failed)
    (hround : copyRound makeHoles bufSize c = .ok (.next c')) :
    ReadFails makeHoles bufSize c ↔ ReadFails makeHoles bufSize c' := by
  constructor
  · rintro ⟨last, hrun, hfailed⟩
    obtain rfl | ⟨next, hnext, hrun⟩ := Relation.ReflTransGen.cases_head hrun
    · exact absurd hfailed hhead
    · rw [hround] at hnext
      cases hnext
      exact ⟨last, hrun, hfailed⟩
  · rintro ⟨last, hrun, hfailed⟩
    exact ⟨last, hrun.head hround, hfailed⟩

theorem not_readFails {bufSize : Nat} {c : Copying} (hhead : c.answers.head? ≠ some .failed)
    (hround : ∀ c', copyRound makeHoles bufSize c ≠ .ok (.next c')) :
    ¬ ReadFails makeHoles bufSize c := by
  rintro ⟨last, hrun, hfailed⟩
  obtain rfl | ⟨next, hnext, -⟩ := Relation.ReflTransGen.cases_head hrun
  · exact hhead hfailed
  · exact hround next hnext

/-- The loop returns, and it leaves a file behind where a read fails. -/
theorem copyLoop_unlinked_iff {bufSize : Nat} {c : Copying} (hbuf : c.buf.length = bufSize + 4) :
    ∃ copied, copyLoop makeHoles bufSize c = .ok copied ∧
      ((copied.value = false → copied.destination = none) ↔ ¬ ReadFails makeHoles bufSize c) := by
  induction hn : c.source.length + c.answers.length using Nat.strong_induction_on
      generalizing c with
  | h n ih =>
    obtain ⟨hhead, hround⟩ | ⟨hhead, ⟨c', hround⟩ | hround | ⟨c', hround, hbuf'⟩⟩ :=
      @copyRound_cases makeHoles _ _ hbuf
    · refine ⟨_, copyLoop_return hround,
        iff_of_false (fun h => ?_) (not_not_intro ⟨c, .refl, hhead⟩)⟩
      exact absurd (h rfl) (Option.some_ne_none _)
    · refine ⟨_, copyLoop_break hround,
        iff_of_true finishCopy_unlinked (not_readFails hhead fun c'' h => ?_)⟩
      rw [hround] at h
      cases h
    · refine ⟨_, copyLoop_return hround,
        iff_of_true (fun _ => rfl) (not_readFails hhead fun c'' h => ?_)⟩
      rw [hround] at h
      cases h
    · obtain ⟨copied, hcopied, hiff⟩ := ih _ (hn ▸ copyRound_lt hround) hbuf' rfl
      exact ⟨copied, (copyLoop_next hround).trans hcopied,
        by rw [hiff, readFails_next hhead hround]⟩

/-- A copy that returns false leaves no file behind exactly if no read fails. -/
theorem copyRegularFileDisk_unlinked_iff {files : Files} {bufSize : Nat}
    (hbuf : buf.length = bufSize + 4) (destination : Option (List Char)) :
    (∃ copied, copyRegularFileDisk files makeHoles bufSize buf destination = .ok copied ∧
        (copied.value = false → copied.destination = none)) ↔
      ¬ (files.opened = true ∧ files.stated = true ∧ files.created = true ∧
        ReadFails makeHoles bufSize ⟨files.source, buf, ⟨[], 0⟩, false, 0, files.answers⟩) := by
  obtain ⟨copied, hcopied, hiff⟩ :=
    @copyLoop_unlinked_iff makeHoles bufSize ⟨files.source, buf, ⟨[], 0⟩, false, 0, files.answers⟩
      hbuf
  rw [copyRegularFileDisk]
  cases hopened : files.opened with
  | false => exact iff_of_true ⟨_, rfl, fun _ => rfl⟩ fun h => by cases h.1
  | true =>
    cases hstated : files.stated with
    | false => exact iff_of_true ⟨_, rfl, fun _ => rfl⟩ fun h => by cases h.2.1
    | true =>
      cases hcreated : files.created with
      | false => exact iff_of_true ⟨_, rfl, fun _ => rfl⟩ fun h => by cases h.2.2.1
      | true =>
        simp only [Bool.not_true, Bool.false_eq_true, if_false, true_and, hcopied]
        rw [← hiff]
        constructor
        · rintro ⟨copied', heq, hunlinked⟩
          cases heq
          exact hunlinked
        · exact fun hunlinked => ⟨copied, rfl, hunlinked⟩

/-- The first write fails. -/
theorem copyRegularFileDisk_noSpace :
    ∃ copied, copyRegularFileDisk ⟨true, true, "abc".toList, true, [.done 9, .failed]⟩ true 4
        (List.replicate 8 '\x00') none = .ok copied ∧
          (copied.value = false → copied.destination = none) := by
  refine (copyRegularFileDisk_unlinked_iff rfl none).mpr fun h => ?_
  refine not_readFails (fun hhead => by cases hhead) (fun c' hround => ?_) h.2.2.2
  have hreturn : copyRound true 4 ⟨"abc".toList, List.replicate 8 '\x00', ⟨[], 0⟩, false, 0,
    [.done 9, .failed]⟩ =
      .ok (.return ⟨false, none⟩) := rfl
  rw [hreturn] at hround
  cases hround

/-- The first read fails. -/
theorem copyRegularFileDisk_badSource :
    ¬ ∃ copied, copyRegularFileDisk ⟨true, true, "abc".toList, true, [.failed]⟩ true 4
        (List.replicate 8 '\x00') none = .ok copied ∧
          (copied.value = false → copied.destination = none) := by
  rintro ⟨copied, hcopied, hunlinked⟩
  have hloop : copyRegularFileDisk ⟨true, true, "abc".toList, true, [.failed]⟩ true 4
    (List.replicate 8 '\x00') none =
      .ok ⟨false, some []⟩ := copyLoop_return rfl
  rw [hloop] at hcopied
  cases hcopied
  exact absurd (hunlinked rfl) (Option.some_ne_none _)

end Cfengine.Disk
