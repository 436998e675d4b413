import Cfengine.CopyNet
import Cfengine.Verify.Net

/-!
# Completeness of copies

While the peer supplies bytes or has closed the connection, a copy goes on until a block is taken
for a text of the server or the disk fails (`copyLoop_value_iff`). So if the peer closes the
connection too early, an incomplete copy is reported as a copy (`copyRegularFileNet_complete_iff`).
-/

namespace Cfengine.Net

variable {socket ending : List RecvResult} {bytes buf content : List Char} {env : CopyEnv}
  {total : Nat} {file : Destination} {hole : Bool} {copied : Copied}

/-- A copy to a disk that works. -/
def CopyEnv.working (size : Nat) (makeholes : Bool) : CopyEnv :=
  ⟨size, makeholes, fun _ => true, true⟩

/-! ## Blocks -/

theorem CopyEnv.toget_lt : env.toget total < cfBufSize := by
  have hsmall : 2048 < cfBufSize := by decide
  rw [CopyEnv.toget]
  split
  · exact hsmall
  · split <;> omega

theorem CopyEnv.toget_le : env.toget total ≤ env.size - total := by
  rw [CopyEnv.toget]
  split
  · omega
  · split <;> omega

/-- The bytes of the next block, as far as they arrive. -/
def CopyEnv.block (env : CopyEnv) (total : Nat) (bytes : List Char) : List Char :=
  bytes.take (env.toget total)

/-- Whether a block becomes a hole. -/
def CopyEnv.isHole (env : CopyEnv) (block : List Char) : Bool :=
  env.makeholes && block.all (· = '\x00')

/-- The buffer behind a block that was written, with the sentinel. -/
def CopyEnv.nextBuffer (env : CopyEnv) (buf block : List Char) : List Char :=
  if env.makeholes then writeBytes (bufferWith buf block) block.length ['\x01']
  else bufferWith buf block

/-- The file behind a block. -/
def CopyEnv.nextFile (env : CopyEnv) (file : Destination) (buf block : List Char) (towrite : Nat) :
    Destination :=
  if env.isHole block then file.lseek block.length
  else file.write ((env.nextBuffer buf block).take towrite)

theorem take_nextBuffer {block : List Char} :
    (env.nextBuffer buf block).take block.length = block := by
  rw [CopyEnv.nextBuffer]
  split
  · have hle : block.length ≤ (bufferWith buf block).length := by simp [bufferWith]
    have hlength : ((bufferWith buf block).take block.length).length = block.length :=
      List.length_take_of_le hle
    rw [writeBytes, List.append_assoc, List.take_append_of_le_length hlength.ge, List.take_take,
      Nat.min_self, bufferWith, List.take_left]
  · rw [bufferWith, List.take_left]

theorem fsWrite_eq {block : List Char} {towrite : Nat} {writable : Bool} :
    fsWrite env.makeholes writable file (bufferWith buf block) towrite block.length =
      if writable then
        some (env.nextBuffer buf block, env.nextFile file buf block towrite, env.isHole block)
      else none := by
  have htake := @take_nextBuffer buf env block
  cases hzero : block.all (· = '\x00') <;> cases hholes : env.makeholes <;> cases writable <;>
    simp only [CopyEnv.nextBuffer, hholes, if_true, Bool.false_eq_true, if_false] at htake <;>
    simp [fsWrite, CopyEnv.nextFile, CopyEnv.isHole, CopyEnv.nextBuffer, hholes, htake, hzero,
      -List.all_eq_true, -List.all_eq_false]

/-- The end of a copy, or what the loop goes on with. -/
def afterBlock (env : CopyEnv) (next : Copying) : Except RecvStop Copied :=
  if next.nReadTotal ≥ env.size then finishCopy env next else copyLoop env next

/-- The variables behind a block. -/
def nextCopying (env : CopyEnv) (total : Nat) (buf bytes : List Char) (file : Destination)
    (socket : List RecvResult) : Copying :=
  ⟨total + env.toget total, env.nextBuffer buf (env.block total bytes),
    env.nextFile file buf (env.block total bytes) (env.toget total),
    env.isHole (env.block total bytes), socket⟩

/-- What a block that arrives does. -/
theorem copyLoop_block (h : Delivers ending socket bytes)
    (hsupplies : Supplies ending bytes (env.toget total)) :
    ∃ socket', Delivers ending socket' (bytes.drop (env.toget total)) ∧
      copyLoop env ⟨total, buf, file, hole, socket⟩ =
        if isStatusText total (bufferWith buf (env.block total bytes)) then
          .ok ⟨false, file, socket'⟩
        else if env.writable total then
          afterBlock env (nextCopying env total buf bytes file socket')
        else (flushFileStream (env.size - total) socket').map fun socket =>
          ⟨false, file, socket⟩ := by
  obtain ⟨socket', hdelivers, hreceive⟩ := recvSocketStream_supplies buf h hsupplies
    CopyEnv.toget_lt
  refine ⟨socket', hdelivers, ?_⟩
  rw [copyLoop, copyBlock]
  simp only [hreceive, bind, Except.bind]
  rw [← CopyEnv.block]
  cases htext : isStatusText total (bufferWith buf (env.block total bytes)) with
  | true => rfl
  | false =>
    simp only [Bool.false_eq_true, if_false, fsWrite_eq]
    cases hwritable : env.writable total with
    | true => rfl
    | false =>
      simp only [Bool.false_eq_true, if_false]
      cases flushFileStream (env.size - total) socket' <;> rfl

theorem Supplies.block (h : Supplies ending bytes (env.size - total)) :
    Supplies ending bytes (env.toget total) :=
  h.imp_left fun hle => Nat.le_trans CopyEnv.toget_le hle

theorem Supplies.rest (h : Supplies ending bytes (env.size - total)) :
    Supplies ending (bytes.drop (env.toget total)) (env.size - (total + env.toget total)) :=
  h.imp_left fun hle => by
    rw [List.length_drop]
    omega

/-! ## When a copy is given up -/

/-- A block is taken for a text of the server, or the disk fails. -/
inductive GivesUp (env : CopyEnv) : Nat → List Char → List Char → Prop where
  | text {total : Nat} {buf bytes : List Char} :
    isStatusText total (bufferWith buf (env.block total bytes)) = true → GivesUp env total buf bytes
  | unwritable {total : Nat} {buf bytes : List Char} :
    env.writable total = false → GivesUp env total buf bytes
  | untruncatable {total : Nat} {buf bytes : List Char} :
    env.size ≤ total + env.toget total → env.isHole (env.block total bytes) = true →
      env.truncatable = false → GivesUp env total buf bytes
  | later {total : Nat} {buf bytes : List Char} : total + env.toget total < env.size →
    GivesUp env (total + env.toget total) (env.nextBuffer buf (env.block total bytes))
      (bytes.drop (env.toget total)) → GivesUp env total buf bytes

/-- A block that does not end the copy. -/
structure Written (env : CopyEnv) (total : Nat) (buf bytes : List Char) : Prop where
  noText : isStatusText total (bufferWith buf (env.block total bytes)) = false
  writable : env.writable total = true

theorem GivesUp.of_not_written (h : ¬ Written env total buf bytes) :
    GivesUp env total buf bytes := by
  by_cases htext : isStatusText total (bufferWith buf (env.block total bytes)) = true
  · exact .text htext
  · refine .unwritable ?_
    by_contra hwritable
    exact h ⟨eq_false_of_ne_true htext, eq_true_of_ne_false hwritable⟩

namespace Written
variable (h : Written env total buf bytes)
include h

theorem givesUp_later (hlt : total + env.toget total < env.size) :
    GivesUp env total buf bytes ↔ GivesUp env (total + env.toget total)
      (env.nextBuffer buf (env.block total bytes)) (bytes.drop (env.toget total)) := by
  refine ⟨fun hgives => ?_, .later hlt⟩
  cases hgives with
  | text htext => exact absurd htext (by rw [h.noText]; decide)
  | unwritable hwritable => exact absurd h.writable (by rw [hwritable]; decide)
  | untruncatable hle => omega
  | later _ hlater => exact hlater

theorem givesUp_last (hle : env.size ≤ total + env.toget total) :
    GivesUp env total buf bytes ↔
      env.isHole (env.block total bytes) = true ∧ env.truncatable = false := by
  refine ⟨fun hgives => ?_, fun ⟨hhole, htruncatable⟩ => .untruncatable hle hhole htruncatable⟩
  cases hgives with
  | text htext => exact absurd htext (by rw [h.noText]; decide)
  | unwritable hwritable => exact absurd h.writable (by rw [hwritable]; decide)
  | untruncatable _ hhole htruncatable => exact ⟨hhole, htruncatable⟩
  | later hlt => omega

end Written

theorem finishCopy_value_iff {next : Copying} :
    (∃ copied, finishCopy env next = .ok copied ∧ copied.value = true) ↔
      ¬ (next.lastWriteMadeHole = true ∧ env.truncatable = false) := by
  rw [finishCopy]
  cases hhole : next.lastWriteMadeHole with
  | false => simp
  | true =>
    cases htruncatable : env.truncatable with
    | true => simp
    | false => cases flushFileStream (env.size - next.nReadTotal) next.socket <;> simp [Except.map]

/-- A copy returns false, if it returns, at a block that is not written. -/
theorem copyLoop_not_written (h : Delivers ending socket bytes)
    (hsupplies : Supplies ending bytes (env.toget total)) (hnot : ¬ Written env total buf bytes)
    (hcopied : copyLoop env ⟨total, buf, file, hole, socket⟩ = .ok copied) :
    copied.value = false := by
  obtain ⟨socket', _, hblock⟩ := @copyLoop_block _ _ bytes buf _ _ file hole h hsupplies
  rw [hblock] at hcopied
  cases htext : isStatusText total (bufferWith buf (env.block total bytes)) with
  | true =>
    rw [htext, if_pos rfl] at hcopied
    rw [← Except.ok.inj hcopied]
  | false =>
    have hwritable : env.writable total = false := by
      by_contra hwritable
      exact hnot ⟨htext, eq_true_of_ne_false hwritable⟩
    rw [htext, if_neg (by decide), hwritable, if_neg (by decide)] at hcopied
    cases hflush : flushFileStream (env.size - total) socket' with
    | error stop =>
      rw [hflush] at hcopied
      cases hcopied
    | ok socket =>
      rw [hflush] at hcopied
      rw [← Except.ok.inj hcopied]

theorem copyLoop_written (h : Delivers ending socket bytes)
    (hsupplies : Supplies ending bytes (env.toget total)) (hwritten : Written env total buf bytes) :
    ∃ socket', Delivers ending socket' (bytes.drop (env.toget total)) ∧
      copyLoop env ⟨total, buf, file, hole, socket⟩ =
        afterBlock env (nextCopying env total buf bytes file socket') := by
  obtain ⟨socket', hdelivers, hblock⟩ := @copyLoop_block _ _ bytes buf _ _ file hole h
    hsupplies
  refine ⟨socket', hdelivers, ?_⟩
  rw [hblock, hwritten.noText, if_neg (by decide), hwritten.writable, if_pos rfl]

/-- A connection on which everything is supplied: the copy returns true exactly if it is not given
up. -/
theorem copyLoop_value_iff (h : Delivers ending socket bytes)
    (hsupplies : Supplies ending bytes (env.size - total)) :
    (∃ copied, copyLoop env ⟨total, buf, file, hole, socket⟩ = .ok copied ∧ copied.value = true) ↔
      ¬ GivesUp env total buf bytes := by
  induction hleft : env.size - total using Nat.strong_induction_on generalizing total socket bytes
    buf file hole with
  | _ left ih =>
    by_cases hwritten : Written env total buf bytes
    · obtain ⟨socket', hdelivers, hloop⟩ := @copyLoop_written _ _ _ _ _ _ file hole h
        hsupplies.block hwritten
      rw [hloop, afterBlock]
      by_cases hlast : env.size ≤ total + env.toget total
      · rw [nextCopying, if_pos hlast, finishCopy_value_iff, hwritten.givesUp_last hlast]
      · have hlt : total < env.size := by omega
        have hpos := CopyEnv.toget_pos hlt
        rw [nextCopying, if_neg hlast, hwritten.givesUp_later (by omega)]
        exact ih _ (by omega) hdelivers hsupplies.rest rfl
    · constructor
      · rintro ⟨copied, hcopied, hvalue⟩
        rw [copyLoop_not_written h hsupplies.block hwritten hcopied] at hvalue
        cases hvalue
      · exact fun hgives => absurd (GivesUp.of_not_written hwritten) hgives

/-! ## What is copied -/

/-- The bytes of a file up to the offset of its descriptor. -/
structure Destination.Holds (file : Destination) (content : List Char) : Prop where
  offset : file.offset = content.length
  bytes : file.bytes.rightpad file.offset '\x00' = content

namespace Destination.Holds
variable (h : file.Holds content)
include h

theorem length_le : file.bytes.length ≤ file.offset := by
  have hlength := congrArg List.length h.bytes
  rw [List.rightpad, List.length_append, ← h.offset] at hlength
  omega

theorem lseek {block : List Char} (hzero : ∀ c ∈ block, c = '\x00') :
    (file.lseek block.length).Holds (content ++ block) := by
  have hle := h.length_le
  refine ⟨by rw [Destination.lseek, List.length_append, h.offset], ?_⟩
  rw [Destination.lseek, ← h.bytes, List.eq_replicate_of_mem hzero, List.rightpad, List.rightpad,
    List.append_assoc, List.replicate_append_replicate, List.length_replicate]
  congr 2
  dsimp only
  omega

theorem write_eq {block : List Char} (hne : block ≠ []) :
    file.write block = ⟨content ++ block, (content ++ block).length⟩ := by
  have hle := h.length_le
  rw [Destination.write, if_neg hne, List.take_of_length_le hle, h.bytes,
    List.drop_eq_nil_of_le (by omega), List.append_nil, List.length_append, h.offset]

end Destination.Holds

theorem Destination.holds_exact : (⟨content, content.length⟩ : Destination).Holds content :=
  ⟨rfl, by simp [List.rightpad]⟩

/-- What is written so far; only behind a hole the file is shorter. -/
structure Progress (file : Destination) (hole : Bool) (content : List Char) : Prop where
  holds : file.Holds content
  exact : hole = false → file.bytes = content

theorem Progress.nextFile (h : Progress file hole content) {block : List Char}
    (hblock : block ≠ [] ∨ hole = false) :
    Progress (env.nextFile file buf block block.length) (env.isHole block) (content ++ block) := by
  rw [CopyEnv.nextFile, take_nextBuffer]
  cases hhole : env.isHole block with
  | true =>
    rw [CopyEnv.isHole, Bool.and_eq_true, List.all_eq_true] at hhole
    exact ⟨h.holds.lseek fun c hc => of_decide_eq_true (hhole.2 c hc), nofun⟩
  | false =>
    rw [if_neg (by decide)]
    by_cases hne : block = []
    · subst hne
      have hexact := h.exact (hblock.resolve_left (not_not_intro rfl))
      rw [Destination.write, if_pos rfl, List.append_nil]
      exact ⟨h.holds, fun _ => hexact⟩
    · rw [h.holds.write_eq hne]
      exact ⟨Destination.holds_exact, fun _ => rfl⟩

theorem Progress.finishCopy {next : Copying}
    (h : Progress next.file next.lastWriteMadeHole content)
    (htotal : next.nReadTotal = content.length) (hcopied : finishCopy env next = .ok copied)
    (hvalue : copied.value = true) :
    copied.file.bytes = content ∧ copied.socket = next.socket := by
  rw [Net.finishCopy] at hcopied
  cases hhole : next.lastWriteMadeHole with
  | false =>
    rw [hhole, if_neg (by decide)] at hcopied
    rw [← Except.ok.inj hcopied]
    exact ⟨h.exact hhole, rfl⟩
  | true =>
    rw [hhole, if_pos rfl] at hcopied
    cases htruncatable : env.truncatable with
    | true =>
      rw [htruncatable, if_pos rfl] at hcopied
      rw [← Except.ok.inj hcopied, h.holds.write_eq (List.cons_ne_nil _ _), Destination.ftruncate,
        htotal]
      exact ⟨by simp [List.rightpad], rfl⟩
    | false =>
      rw [htruncatable, if_neg (by decide)] at hcopied
      cases hflush : flushFileStream (env.size - next.nReadTotal) next.socket with
      | error stop =>
        rw [hflush] at hcopied
        cases hcopied
      | ok socket =>
        rw [hflush] at hcopied
        rw [← Except.ok.inj hcopied] at hvalue
        cases hvalue

/-- If all bytes arrive, a copy that returns true consists of the next bytes of the connection. -/
theorem copyLoop_content (h : Delivers ending socket bytes)
    (henough : env.size - total ≤ bytes.length) (hle : total ≤ env.size)
    (hprogress : Progress file hole content) (htotal : total = content.length)
    (hblock : total < env.size ∨ hole = false)
    (hcopied : copyLoop env ⟨total, buf, file, hole, socket⟩ = .ok copied)
    (hvalue : copied.value = true) :
    copied.file.bytes = content ++ bytes.take (env.size - total) ∧
      Delivers ending copied.socket (bytes.drop (env.size - total)) := by
  induction hleft : env.size - total using Nat.strong_induction_on generalizing total socket bytes
    buf file hole content with
  | _ left ih =>
    have hsupplies : Supplies ending bytes (env.size - total) := .inl henough
    by_cases hwritten : Written env total buf bytes
    · obtain ⟨socket', hdelivers, hloop⟩ := @copyLoop_written _ _ _ _ _ _ file hole h
        hsupplies.block hwritten
      have htoget := @CopyEnv.toget_le env total
      have hlength : (env.block total bytes).length = env.toget total :=
        List.length_take_of_le (by omega)
      have hnext :=
        @Progress.nextFile buf content env file hole hprogress (env.block total bytes) (by
        refine hblock.imp_left fun hlt hnil => ?_
        have hpos := CopyEnv.toget_pos hlt
        rw [hnil, List.length_nil] at hlength
        omega)
      rw [hlength] at hnext
      have hsum : total + env.toget total = (content ++ env.block total bytes).length := by
        rw [List.length_append, hlength, htotal]
      rw [hloop, afterBlock] at hcopied
      by_cases hlast : env.size ≤ total + env.toget total
      · have hall : env.toget total = left := by omega
        rw [nextCopying, if_pos hlast] at hcopied
        obtain ⟨hbytes, hsocket⟩ := Progress.finishCopy hnext hsum hcopied hvalue
        rw [hbytes, hsocket, CopyEnv.block, hall]
        exact ⟨rfl, hall ▸ hdelivers⟩
      · have hlt : total < env.size := by omega
        have hpos := CopyEnv.toget_pos hlt
        rw [nextCopying, if_neg hlast] at hcopied
        obtain ⟨hbytes, hsocket⟩ :=
          ih (env.size - (total + env.toget total)) (by omega) hdelivers (by
          rw [List.length_drop]
          omega) (by omega) hnext hsum (.inl (by omega)) hcopied rfl
        have hsplit : left = env.toget total + (env.size - (total + env.toget total)) := by omega
        rw [hsplit, List.take_add, ← List.append_assoc, ← List.drop_drop]
        exact ⟨hbytes, hsocket⟩
    · rw [copyLoop_not_written h hsupplies.block hwritten hcopied] at hvalue
      cases hvalue

/-! ## Connections that end -/

/-- What follows the last byte of a connection, if anything does. -/
def IsEnding (ending : List RecvResult) : Prop :=
  ∀ r ∈ ending.head?, r = .closed ∨ r = .failed

/-- If the connection is not closed, a call for more bytes than arrive takes them all and fails. -/
theorem recvSocketStream_short {toget : Nat} {received : Received}
    (h : Delivers ending socket bytes) (hending : IsEnding ending)
    (hopen : ending.head? ≠ some .closed) (hshort : bytes.length < toget)
    (htoget : toget < cfBufSize) (hreceived : recvSocketStream buf toget socket = .ok received) :
    received.value = none ∧ received.socket = ending.tail := by
  obtain ⟨socket', hdelivers, hloop⟩ := recvSocketStream_loop buf h htoget
  rw [List.drop_eq_nil_of_le (by omega)] at hdelivers
  rw [hloop, hdelivers.eq_ending, List.take_of_length_le (by omega), recvSocketStream.loop.eq_def,
    if_neg (by omega)] at hreceived
  cases ending with
  | nil => cases hreceived
  | cons r ending =>
    rcases hending r rfl with rfl | rfl
    · exact absurd rfl hopen
    · rw [← Except.ok.inj hreceived]
      exact ⟨rfl, rfl⟩

/-- A copy fails at a block that does not arrive. -/
theorem copyLoop_block_short (h : Delivers ending socket bytes) (hending : IsEnding ending)
    (hopen : ending.head? ≠ some .closed) (hshort : bytes.length < env.toget total)
    (hcopied : copyLoop env ⟨total, buf, file, hole, socket⟩ = .ok copied) :
    copied.value = false ∧ copied.socket = ending.tail := by
  rw [copyLoop, copyBlock] at hcopied
  dsimp only [bind, Except.bind] at hcopied
  cases hreceive : recvSocketStream buf (env.toget total) socket with
  | error stop =>
    rw [hreceive] at hcopied
    cases hcopied
  | ok received =>
    obtain ⟨hnone, hsocket⟩ :=
      recvSocketStream_short h hending hopen hshort CopyEnv.toget_lt hreceive
    simp only [hreceive, hnone, pure, Except.pure] at hcopied
    rw [← Except.ok.inj hcopied]
    exact ⟨rfl, hsocket⟩

theorem copyLoop_short (h : Delivers ending socket bytes) (hending : IsEnding ending)
    (hopen : ending.head? ≠ some .closed) (hshort : bytes.length < env.size - total)
    (hcopied : copyLoop env ⟨total, buf, file, hole, socket⟩ = .ok copied) :
    copied.value = false := by
  induction hleft : env.size - total using Nat.strong_induction_on generalizing total socket bytes
    buf file hole with
  | _ left ih =>
    by_cases henough : env.toget total ≤ bytes.length
    · have hsupplies : Supplies ending bytes (env.toget total) := .inl henough
      by_cases hwritten : Written env total buf bytes
      · obtain ⟨socket', hdelivers, hloop⟩ := @copyLoop_written _ _ _ _ _ _ file hole h
          hsupplies hwritten
        have hpos := @CopyEnv.toget_pos env total (by omega)
        have hlength : (bytes.drop (env.toget total)).length =
            bytes.length - env.toget total := List.length_drop
        rw [hloop, afterBlock, nextCopying,
          if_neg (show ¬ total + env.toget total ≥ env.size by omega)] at hcopied
        exact ih (env.size - (total + env.toget total)) (by omega) hdelivers (by omega) hcopied rfl
      · exact copyLoop_not_written h hsupplies hwritten hcopied
    · exact (copyLoop_block_short h hending hopen (by omega) hcopied).1

/-! ## Reported copies -/

section
variable {source new : CString} {opened : Bool} {sends : List SendResult}

/-- The request is sent. -/
structure Requested (source new : CString) (opened : Bool) (sends : List SendResult) : Prop where
  length : new.length ≤ cfBufSize - 20
  opened : opened = true
  sent : (sendTransaction sends (getRequest source) (getRequest source).length cfDone).any
    (·.1) = true

/-- The bytes of the file are those that were received, as many as there are to be. -/
structure Complete (env : CopyEnv) (ending : List RecvResult) (bytes : List Char)
    (copied : Copied) :
    Prop where
  enough : env.size ≤ bytes.length
  content : copied.file.bytes = bytes.take env.size
  rest : Delivers ending copied.socket (bytes.drop env.size)

theorem copyRegularFileNet_requested (h : Requested source new opened sends) :
    copyRegularFileNet env source new opened sends buf socket =
      some (copyLoop env ⟨0, buf, ⟨[], 0⟩, false, socket⟩) := by
  obtain ⟨sent, hsend, hsent⟩ := (Option.any_eq_true _ _).mp h.sent
  rw [copyRegularFileNet, hsend]
  simp [h.opened, h.length, hsent]

theorem copyRegularFileNet_not_requested (h : ¬ Requested source new opened sends)
    (hcopied : copyRegularFileNet env source new opened sends buf socket = some (.ok copied)) :
    copied.value = false := by
  rw [copyRegularFileNet] at hcopied
  split at hcopied
  · rw [← Except.ok.inj (Option.some.inj hcopied)]
  case isFalse hstart =>
    obtain ⟨sent, hsend, hsent⟩ := Option.map_eq_some_iff.mp hcopied
    cases hok : sent.1 with
    | false =>
      rw [hok, Bool.not_false, if_pos rfl] at hsent
      rw [← Except.ok.inj hsent]
    | true =>
      simp only [gt_iff_lt, Bool.or_eq_true, decide_eq_true_eq, not_or, Nat.not_lt,
        Bool.not_eq_true, Bool.not_eq_false'] at hstart
      exact absurd ⟨hstart.1, hstart.2, by rw [hsend, Option.any_some, hok]⟩ h

/-- A copy that is reported is complete, unless the peer closes the connection before all bytes have
arrived and the copy is not given up. -/
theorem copyRegularFileNet_complete_iff (h : Delivers ending socket bytes)
    (hending : IsEnding ending) :
    (∀ copied, copyRegularFileNet env source new opened sends buf socket = some (.ok copied) →
        copied.value = true → Complete env ending bytes copied) ↔
      env.size ≤ bytes.length ∨ ending.head? ≠ some .closed ∨ GivesUp env 0 buf bytes ∨
        ¬ Requested source new opened sends := by
  constructor
  · intro hcomplete
    by_contra hnot
    simp only [not_or, not_not] at hnot
    obtain ⟨hshort, hclosed, hgives, hrequested⟩ := hnot
    obtain ⟨copied, hcopied, hvalue⟩ := (@copyLoop_value_iff _ _ _ _ _ _ ⟨[], 0⟩ false h
      (.inr hclosed)).mpr hgives
    exact hshort (hcomplete copied
      (by rw [copyRegularFileNet_requested hrequested, hcopied]) hvalue).enough
  · intro hcond copied hcopied hvalue
    by_cases hrequested : Requested source new opened sends
    · rw [copyRegularFileNet_requested hrequested] at hcopied
      have hloop := Option.some.inj hcopied
      by_cases henough : env.size ≤ bytes.length
      · obtain ⟨hbytes, hsocket⟩ := @copyLoop_content _ _ _ _ [] _ 0 _ _ _ h henough
          (Nat.zero_le _) ⟨Destination.holds_exact, fun _ => rfl⟩ rfl (.inr rfl) hloop hvalue
        exact ⟨henough, hbytes, hsocket⟩
      · have hfalse : copied.value = false := by
          by_cases hclosed : ending.head? = some .closed
          · have hgives : GivesUp env 0 buf bytes := by
              simpa [henough, hclosed, hrequested] using hcond
            by_contra htrue
            exact (copyLoop_value_iff h (.inr hclosed)).mp
              ⟨copied, hloop, eq_true_of_ne_false htrue⟩ hgives
          · exact copyLoop_short h hending hclosed (by omega) hloop
        rw [hfalse] at hvalue
        cases hvalue
    · rw [copyRegularFileNet_not_requested hrequested hcopied] at hvalue
      cases hvalue

theorem copyRegularFileNet_abc :
    (∀ copied, copyRegularFileNet (.working 3 false) ['s'] ['n'] true [] []
      [.data 'a' "bc".toList] =
        some (.ok copied) → copied.value = true →
        Complete (.working 3 false) [] "abc".toList copied) ↔
      (CopyEnv.working 3 false).size ≤ "abc".toList.length ∨
        ([] : List RecvResult).head? ≠ some .closed ∨ GivesUp (.working 3 false) 0 [] "abc".toList ∨
          ¬ Requested ['s'] ['n'] true [] :=
  copyRegularFileNet_complete_iff (.data .nil) nofun

/-- The peer closes the connection in front of the last byte of three. -/
theorem copyRegularFileNet_incomplete :
    ∃ copied, copyRegularFileNet (.working 3 false) ['s'] ['n'] true [] []
        [.data 'a' ['b'], .closed] = some (.ok copied) ∧
      copied.value = true ∧ copied.file.bytes = "ab\x00".toList ∧
        ¬ Complete (.working 3 false) [.closed] "ab".toList copied := by
  refine ⟨⟨true, ⟨"ab\x00".toList, 3⟩, [.closed]⟩, ?_, rfl, rfl, fun hcomplete => ?_⟩
  · have hrequested : Requested ['s'] ['n'] true [] := ⟨by decide, rfl, by decide⟩
    rw [copyRegularFileNet_requested hrequested, copyLoop]
    decide
  · exact absurd hcomplete.enough (by decide)

end

end Cfengine.Net
