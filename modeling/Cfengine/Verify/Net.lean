import Cfengine.Net
import Cfengine.Verify.RemoteStat

/-!
# Framing of transactions

A connection that only delivers bytes gives each call of `RecvSocketStream` the bytes it asks for
(`loop_delivers`), however they are split, so transactions arrive as they were sent
(`receiveAll_sendAll`). An interrupted `recv` loses a byte (`recvSocketStream_eq_delivered_iff`).
-/

namespace Cfengine.Net
open Numerals

variable {socket ending : List RecvResult} {results : List SendResult} {bytes : List Char}
  {buffer payload : List Char} {toget already wlen : Nat} {status : Char}

/-! ## Receiving bytes -/

/-- The results of `recv` are these bytes, in parts that are not empty, and then `ending`. -/
inductive Delivers (ending : List RecvResult) : List RecvResult → List Char → Prop where
  | nil : Delivers ending ending []
  | data {c : Char} {cs bytes : List Char} {socket : List RecvResult} :
    Delivers ending socket bytes → Delivers ending (.data c cs :: socket) (c :: cs ++ bytes)

theorem Delivers.unread (h : Delivers ending socket bytes) (rest : List Char) :
    Delivers ending (unread rest socket) (rest ++ bytes) := by
  cases rest with
  | nil => exact h
  | cons c cs => exact .data h

section
variable (h : already ≤ buffer.length)
include h

theorem take_writeBytes : (writeBytes buffer already bytes).take (already + bytes.length) =
    buffer.take already ++ bytes := by
  have hlength : (buffer.take already ++ bytes).length = already + bytes.length := by
    rw [List.length_append, List.length_take_of_le h]
  rw [writeBytes, ← hlength, List.take_left]

theorem drop_writeBytes {n : Nat} :
    (writeBytes buffer already bytes).drop (already + bytes.length + n) =
      buffer.drop (already + bytes.length + n) := by
  have hlength : (buffer.take already ++ bytes).length = already + bytes.length := by
    rw [List.length_append, List.length_take_of_le h]
  rw [writeBytes, List.drop_append, ← hlength, List.drop_eq_nil_of_le (Nat.le_add_right _ _),
    List.nil_append, Nat.add_sub_cancel_left, List.drop_drop]

theorem writeBytes_writeBytes {more : List Char} :
    writeBytes (writeBytes buffer already bytes) (already + bytes.length) more =
      writeBytes buffer already (bytes ++ more) := by
  rw [writeBytes, take_writeBytes h, drop_writeBytes h, writeBytes, List.length_append,
    Nat.add_assoc, List.append_assoc (buffer.take already)]

theorem length_le_writeBytes :
    already + bytes.length ≤ (writeBytes buffer already bytes).length := by
  simp only [writeBytes, List.length_append, List.length_take_of_le h]
  omega

end

theorem writeBytes_nil : writeBytes buffer already [] = buffer := by
  rw [writeBytes, List.append_nil, List.length_nil, Nat.add_zero, List.take_append_drop]

theorem loop_data {c : Char} {cs : List Char} (hfits : already + (c :: cs).length ≤ toget) :
    recvSocketStream.loop toget (.data c cs :: socket) already buffer =
      recvSocketStream.loop toget socket (already + (c :: cs).length)
        (writeBytes buffer already (c :: cs)) := by
  have hle : (c :: cs).length ≤ toget - already := by omega
  have hpos : (c :: cs).length = cs.length + 1 := List.length_cons
  rw [recvSocketStream.loop, if_neg (by omega)]
  dsimp only
  rw [if_pos hle, List.take_of_length_le hle]

theorem loop_eq : recvSocketStream.loop toget socket toget buffer =
    .ok (terminate toget buffer socket) := by
  rw [recvSocketStream.loop.eq_def, if_pos rfl]

/-- The loop takes the bytes that it asks for, as far as they arrive, and goes on. -/
theorem loop_delivers (h : Delivers ending socket bytes) :
    ∀ {already buffer}, already ≤ toget → already ≤ buffer.length →
      ∃ socket', Delivers ending socket' (bytes.drop (toget - already)) ∧
        recvSocketStream.loop toget socket already buffer =
          recvSocketStream.loop toget socket' (already + (bytes.take (toget - already)).length)
            (writeBytes buffer already (bytes.take (toget - already))) := by
  induction h with
  | nil =>
    intro already buffer _ _
    refine ⟨ending, by rw [List.drop_nil]; exact .nil, ?_⟩
    rw [List.take_nil, List.length_nil, Nat.add_zero, writeBytes_nil]
  | @data c cs bytes socket h ih =>
    intro already buffer hle hbuffer
    by_cases hall : already = toget
    · have hnone : toget - already = 0 := by omega
      refine ⟨_, by rw [hnone]; exact .data h, ?_⟩
      rw [hnone, List.take_zero, List.length_nil, Nat.add_zero, writeBytes_nil]
    · by_cases hfits : (c :: cs).length ≤ toget - already
      · obtain ⟨socket', hdelivers, hloop⟩ := @ih (already + (c :: cs).length)
          (writeBytes buffer already (c :: cs)) (by omega) (length_le_writeBytes hbuffer)
        refine ⟨socket', ?_, ?_⟩
        · rw [List.drop_append, List.drop_eq_nil_of_le hfits, List.nil_append, ← Nat.sub_add_eq]
          exact hdelivers
        · rw [loop_data (by omega), hloop, writeBytes_writeBytes hbuffer, List.take_append,
            List.take_of_length_le hfits, List.length_append, Nat.sub_add_eq, Nat.add_assoc]
      · have hshort : toget - already ≤ (c :: cs).length := by omega
        have hgot : ((c :: cs).take (toget - already)).length = toget - already :=
          List.length_take_of_le hshort
        refine ⟨unread ((c :: cs).drop (toget - already)) socket, ?_, ?_⟩
        · rw [List.drop_append_of_le_length hshort]
          exact h.unread _
        · rw [List.take_append_of_le_length hshort, hgot, Nat.add_sub_cancel' hle, loop_eq,
            recvSocketStream.loop.eq_def, if_neg hall]
          dsimp only
          rw [if_neg hfits]

/-- A buffer that begins with these bytes and a NUL. -/
def bufferWith (buffer bytes : List Char) : List Char :=
  bytes ++ '\x00' :: buffer.drop (bytes.length + 1)

theorem terminate_writeBytes : terminate bytes.length (writeBytes buffer 0 bytes) socket =
    ⟨some bytes.length, bufferWith buffer bytes, socket⟩ := by
  have hnul := @writeBytes_writeBytes bytes buffer 0 (Nat.zero_le _) ['\x00']
  rw [Nat.zero_add] at hnul
  rw [terminate, hnul]
  simp [writeBytes, bufferWith]

/-- The bytes that arrive. -/
def delivered (socket : List RecvResult) : List Char :=
  socket.flatMap fun
    | .data c cs => c :: cs
    | _ => []

theorem Delivers.delivered_eq (h : Delivers ending socket bytes) :
    delivered socket = bytes ++ delivered ending := by
  induction h with
  | nil => rfl
  | @data c cs bytes socket h ih =>
    rw [List.append_assoc, ← ih]
    rfl

/-- The peer sends what is asked for, or closes the connection. -/
def Supplies (ending : List RecvResult) (bytes : List Char) (toget : Nat) : Prop :=
  toget ≤ bytes.length ∨ ending.head? = some .closed

theorem Delivers.eq_ending (h : Delivers ending socket []) : socket = ending := by
  generalize hbytes : [] = bytes at h
  cases h with
  | nil => rfl
  | data h => cases hbytes

variable (buffer) in
theorem recvSocketStream_loop (h : Delivers ending socket bytes) (htoget : toget < cfBufSize) :
    ∃ socket', Delivers ending socket' (bytes.drop toget) ∧
      recvSocketStream buffer toget socket =
        recvSocketStream.loop toget socket' (bytes.take toget).length
          (writeBytes buffer 0 (bytes.take toget)) := by
  obtain ⟨socket', hdelivers, hloop⟩ := @loop_delivers _ _ _ toget h 0 buffer (Nat.zero_le _)
    (Nat.zero_le _)
  rw [Nat.sub_zero] at hdelivers
  rw [Nat.sub_zero, Nat.zero_add] at hloop
  refine ⟨socket', hdelivers, ?_⟩
  rw [recvSocketStream, if_neg (by omega), hloop]

variable (buffer) in
theorem recvSocketStream_supplies (h : Delivers ending socket bytes)
    (hsupplies : Supplies ending bytes toget) (htoget : toget < cfBufSize) :
    ∃ socket', Delivers ending socket' (bytes.drop toget) ∧
      recvSocketStream buffer toget socket =
        .ok ⟨some (bytes.take toget).length, bufferWith buffer (bytes.take toget), socket'⟩ := by
  obtain ⟨socket', hdelivers, hloop⟩ := recvSocketStream_loop buffer h htoget
  refine ⟨socket', hdelivers, ?_⟩
  rw [hloop]
  by_cases henough : toget ≤ bytes.length
  · have hlength : (bytes.take toget).length = toget := List.length_take_of_le henough
    rw [← terminate_writeBytes, hlength, loop_eq]
  · rw [List.drop_eq_nil_of_le (by omega)] at hdelivers
    have hclosed := hsupplies.resolve_left henough
    rw [hdelivers.eq_ending, List.take_of_length_le (by omega), ← terminate_writeBytes,
      recvSocketStream.loop.eq_def, if_neg (by omega)]
    cases ending with
    | nil => cases hclosed
    | cons r ending =>
      cases Option.some.inj hclosed
      rfl

variable (buffer) in
/-- The next bytes of a connection are received, if they are what is asked for. -/
theorem recvSocketStream_delivers (htoget : toget < cfBufSize) {next : List Char}
    (hnext : next.length = toget) (h : Delivers ending socket (next ++ bytes)) :
    ∃ socket', Delivers ending socket' bytes ∧
      recvSocketStream buffer toget socket = .ok ⟨some toget, bufferWith buffer next, socket'⟩ := by
  obtain ⟨socket', hdelivers, hreceive⟩ := recvSocketStream_supplies buffer h
    (.inl (by rw [List.length_append]; omega)) htoget
  rw [← hnext, List.drop_left] at hdelivers
  rw [← hnext, List.take_left] at hreceive
  exact ⟨socket', hdelivers, by rw [← hnext, hreceive]⟩

/-! ## Headers -/

theorem length_decimal_wlen (h : wlen ≤ cfBufSize - cfInbandOffset) :
    (decimal wlen).length ≤ 4 :=
  length_decimal_le (by omega) (by rw [cfBufSize, cfInbandOffset] at h; omega)

theorem transactionHeader_eq (h : wlen ≤ cfBufSize - cfInbandOffset) :
    transactionHeader status wlen =
      status :: ' ' :: decimal wlen ++ List.replicate (6 - (decimal wlen).length) '\x00' := by
  have hlength := length_decimal_wlen h
  rw [transactionHeader, cfInbandOffset, List.take_of_length_le (by simpa using by omega),
    List.rightpad]
  simp only [List.length_cons, List.cons_append]
  congr 4
  omega

theorem length_transactionHeader (h : wlen ≤ cfBufSize - cfInbandOffset) :
    (transactionHeader status wlen).length = cfInbandOffset := by
  have hlength := length_decimal_wlen h
  rw [transactionHeader_eq h, cfInbandOffset]
  simp
  omega

theorem ne_nul_of_mem_decimal {c : Char} (h : c ∈ decimal wlen) : c ≠ '\x00' := by
  rintro rfl
  exact absurd (isDigit_of_mem_toDigits _ h) (by decide)

theorem cstr_transactionHeader (h : wlen ≤ cfBufSize - cfInbandOffset) (hstatus : status ≠ '\x00')
    {rest : List Char} :
    cstr (transactionHeader status wlen ++ rest) = status :: ' ' :: decimal wlen := by
  have hnul : ∀ c ∈ status :: ' ' :: decimal wlen, decide (c ≠ '\x00') = true := by
    intro c hc
    rw [decide_eq_true_eq]
    rcases List.mem_cons.mp hc with rfl | hc
    · exact hstatus
    · rcases List.mem_cons.mp hc with rfl | hc
      · decide
      · exact ne_nul_of_mem_decimal hc
  have hlength := length_decimal_wlen h
  have hpadding : 6 - (decimal wlen).length = (5 - (decimal wlen).length) + 1 := by omega
  rw [transactionHeader_eq h, List.append_assoc, cstr, List.takeWhile_append_of_pos hnul, hpadding]
  simp [List.replicate_succ]

/-- The header is read as it was printed. -/
theorem scanHeader_decimal (h : wlen ≤ cfBufSize - cfInbandOffset) :
    scanHeader (status :: ' ' :: decimal wlen) = (status, wlen) := by
  have hscan : scanInteger 10 (decimal wlen) = some ((wlen : Int), []) := by
    have hscan := @scanInteger_decimal wlen [] nofun
    rwa [List.append_nil] at hscan
  have hblank : scanInteger 10 (' ' :: decimal wlen) = scanInteger 10 (decimal wlen) := by
    rw [scanInteger, scanInteger, List.dropWhile_cons_of_pos (by decide)]
  have hsmall : wlen < 2 ^ 32 := by
    rw [cfBufSize, cfInbandOffset] at h
    omega
  rw [scanHeader, scanUnsigned, hblank, hscan]
  have hmod : ((wlen : Int).emod (2 ^ 32)).toNat = wlen := by
    have : (wlen : Int).emod (2 ^ 32) = wlen := Int.emod_eq_of_lt (by omega) (by omega)
    rw [this, Int.toNat_natCast]
  simp only [Option.map_some, Option.elim_some, Int.natAbs_natCast, hmod]
  rw [if_pos (by omega)]

/-! ## Transactions -/

theorem scanHeader_transactionHeader (h : wlen ≤ cfBufSize - cfInbandOffset)
    (hstatus : status ≠ '\x00') :
    scanHeader (cstr (bufferWith buffer (transactionHeader status wlen))) = (status, wlen) := by
  rw [bufferWith, cstr_transactionHeader h hstatus, scanHeader_decimal h]

variable (buffer) in
/-- A transaction that is next on the connection is received. -/
theorem receiveTransaction_delivers (hlength : payload.length = wlen)
    (h : wlen ≤ cfBufSize - cfInbandOffset) (hstatus : status = cfMore ∨ status = cfDone)
    (hsocket : Delivers ending socket (transactionHeader status wlen ++ (payload ++ bytes))) :
    ∃ socket', Delivers ending socket' bytes ∧ receiveTransaction buffer socket =
      .ok ⟨⟨some wlen, bufferWith buffer payload, socket'⟩, some (status = cfMore)⟩ := by
  obtain ⟨socket₁, hsocket₁, hproto⟩ := recvSocketStream_delivers
    (List.replicate (cfInbandOffset + 1) '\x00') (by decide) (length_transactionHeader h) hsocket
  obtain ⟨socket₂, hsocket₂, hpayload⟩ := recvSocketStream_delivers buffer
    (show wlen < cfBufSize by rw [cfBufSize, cfInbandOffset] at *; omega) hlength hsocket₁
  have hne : status ≠ '\x00' ∧ 'C' ≠ status := by
    rcases hstatus with rfl | rfl <;> exact ⟨by decide, by decide⟩
  have hscan := fun buffer => @scanHeader_transactionHeader buffer wlen status h hne.1
  have hauth : ∀ buffer, "CAUTH".toList.isPrefixOf
      (bufferWith buffer (transactionHeader status wlen)) = false := by
    intro buffer
    rw [bufferWith, transactionHeader_eq h]
    exact Bool.and_eq_false_imp.mpr fun heq => absurd (eq_of_beq heq) hne.2
  refine ⟨socket₂, hsocket₂, ?_⟩
  rw [receiveTransaction, hproto]
  simp only [bind, Except.bind, reduceCtorEq, if_false, hscan, hauth, Bool.false_eq_true, gt_iff_lt,
    if_neg (Nat.not_lt.mpr h), hpayload, pure, Except.pure]

/-- `send` sends everything if it is not interrupted and does not fail. -/
theorem sendSocketStream_sent (h : ∀ r ∈ results, ∃ n, r = .sent n) :
    ∃ results', sendSocketStream results buffer = (true, buffer, results') ∧
      ∀ r ∈ results', ∃ n, r = .sent n := by
  induction results generalizing buffer with
  | nil => exact ⟨[], rfl, h⟩
  | cons r results ih =>
    obtain ⟨⟨n, rfl⟩, hresults⟩ := List.forall_mem_cons.mp h
    rw [sendSocketStream]
    split
    · exact ⟨results, rfl, hresults⟩
    · obtain ⟨results', hsend, hleft⟩ := @ih (buffer.drop (n + 1)) hresults
      refine ⟨results', ?_, hleft⟩
      rw [hsend]
      exact congrArg (fun stream => (true, stream, results')) (List.take_append_drop _ _)

/-- A call of `SendTransaction` with a message that fits. -/
structure Transaction where
  buffer : List Char
  len : Nat
  status : Char
  inBuffer : transactionLength buffer len ≤ buffer.length
  pos : 0 < transactionLength buffer len
  fits : transactionLength buffer len ≤ cfBufSize - cfInbandOffset
  isStatus : status = cfMore ∨ status = cfDone

namespace Transaction

def message (t : Transaction) : List Char := t.buffer.take (transactionLength t.buffer t.len)

theorem length_message (t : Transaction) :
    t.message.length = transactionLength t.buffer t.len := List.length_take_of_le t.inBuffer

/-- The bytes that stand for a transaction on the connection. -/
def frame (t : Transaction) : List Char :=
  transactionHeader t.status t.message.length ++ t.message

/-- What `ReceiveTransaction` is to make of a transaction. -/
structure ReceivedAs (t : Transaction) (r : TransactionReceived) : Prop where
  value : r.value = some t.message.length
  buffer : r.buffer.take t.message.length = t.message
  more : r.more = some (decide (t.status = cfMore))

end Transaction

/-- Transactions are sent one after the other: the bytes on the connection. -/
def sendAll : List SendResult → List Transaction → Option (List Char)
  | _, [] => some []
  | results, t :: transactions =>
    (sendTransaction results t.buffer t.len t.status).bind fun (ok, stream, results) =>
      if ok then (sendAll results transactions).map (stream ++ ·) else none

/-- `ReceiveTransaction` is called again and again, with a buffer each time. -/
def receiveAll : List (List Char) → List RecvResult → Except RecvStop (List TransactionReceived)
  | [], _ => .ok []
  | buffer :: buffers, socket => do
    let received ← receiveTransaction buffer socket
    return received :: (← receiveAll buffers received.socket)

theorem sendAll_eq {transactions : List Transaction} (h : ∀ r ∈ results, ∃ n, r = .sent n) :
    sendAll results transactions = some (transactions.flatMap Transaction.frame) := by
  induction transactions generalizing results with
  | nil => rfl
  | cons t transactions ih =>
    obtain ⟨results', hsend, hleft⟩ := @sendSocketStream_sent results t.frame h
    have hframe : sendTransaction results t.buffer t.len t.status =
        some (true, t.frame, results') := by
      rw [sendTransaction, if_neg (Nat.not_lt.mpr t.fits), ← hsend, Transaction.frame,
        t.length_message]
      rfl
    rw [sendAll, hframe, Option.bind_some]
    simp only [↓reduceIte, ih hleft, Option.map_some, List.flatMap_cons]

theorem receiveAll_delivers {transactions : List Transaction} {buffers : List (List Char)}
    (hbuffers : buffers.length = transactions.length)
    (h : Delivers ending socket (transactions.flatMap Transaction.frame)) :
    ∃ replies, receiveAll buffers socket = .ok replies ∧
      List.Forall₂ Transaction.ReceivedAs transactions replies := by
  induction transactions generalizing buffers socket with
  | nil =>
    rw [List.length_eq_zero_iff.mp hbuffers]
    exact ⟨[], rfl, .nil⟩
  | cons t transactions ih =>
    obtain ⟨buffer, buffers, rfl⟩ := List.exists_cons_of_length_eq_add_one hbuffers
    rw [List.flatMap_cons, Transaction.frame, List.append_assoc] at h
    obtain ⟨socket', hsocket, hreceive⟩ := receiveTransaction_delivers buffer rfl
      (t.length_message ▸ t.fits) t.isStatus h
    obtain ⟨replies, hreplies, hall⟩ := ih (Nat.succ.inj hbuffers) hsocket
    have hreceived : t.ReceivedAs ⟨⟨some t.message.length, bufferWith buffer t.message, socket'⟩,
        some (decide (t.status = cfMore))⟩ := ⟨rfl, List.take_left, rfl⟩
    refine ⟨_, ?_, .cons hreceived hall⟩
    rw [receiveAll, hreceive]
    simp only [bind, Except.bind, hreplies]
    rfl

/-- However `send` and `recv` split the bytes, the messages arrive as they were sent. -/
theorem receiveAll_sendAll (transactions : List Transaction)
    (hsend : ∀ r ∈ results, ∃ n, r = .sent n) :
    ∃ stream, sendAll results transactions = some stream ∧
      ∀ socket, Delivers [] socket stream →
        ∀ buffers : List (List Char), buffers.length = transactions.length →
          ∃ replies, receiveAll buffers socket = .ok replies ∧
            List.Forall₂ Transaction.ReceivedAs transactions replies :=
  ⟨_, sendAll_eq hsend, fun _ h _ hbuffers => receiveAll_delivers hbuffers h⟩

theorem receiveAll_split :
    ∃ stream,
      sendAll [.sent 0, .sent 12]
      [⟨"ab".toList, 2, cfMore, by decide, by decide, by decide, .inl rfl⟩,
        ⟨['c'], 0, cfDone, by decide, by decide, by decide, .inr rfl⟩] = some stream ∧
      ∃ replies, receiveAll [[], []] [.data 'm' [' '], .data '2' "\x00\x00\x00\x00\x00a".toList,
          .data 'b' "t 1\x00\x00\x00\x00\x00c".toList] = .ok replies ∧
        List.Forall₂ Transaction.ReceivedAs
          [⟨"ab".toList, 2, cfMore, by decide, by decide, by decide, .inl rfl⟩,
            ⟨['c'], 0, cfDone, by decide, by decide, by decide, .inr rfl⟩] replies := by
  obtain ⟨stream, hsend, hreceive⟩ := @receiveAll_sendAll [.sent 0, .sent 12]
    [⟨"ab".toList, 2, cfMore, by decide, by decide, by decide, .inl rfl⟩,
      ⟨['c'], 0, cfDone, by decide, by decide, by decide, .inr rfl⟩] (by simp)
  refine ⟨stream, hsend, hreceive _ ?_ [[], []] rfl⟩
  have hstream : stream = "m 2\x00\x00\x00\x00\x00abt 1\x00\x00\x00\x00\x00c".toList :=
    Option.some.inj (hsend.symm.trans (by decide))
  rw [hstream]
  exact .data (.data (.data .nil))

/-! ## Interrupts -/

/-- The bytes arrive in parts, with signals in between and before the first one. -/
inductive Arrives : List RecvResult → List Char → Prop where
  | last {c : Char} {cs : List Char} : Arrives [.data c cs] (c :: cs)
  | data {c : Char} {cs bytes : List Char} {socket : List RecvResult} : Arrives socket bytes →
    Arrives (.data c cs :: socket) (c :: cs ++ bytes)
  | interrupted {bytes : List Char} {socket : List RecvResult} : Arrives socket bytes →
    Arrives (.interrupted :: socket) bytes

namespace Arrives

theorem length_pos (h : Arrives socket bytes) : 0 < bytes.length := by
  induction h with
  | last => exact Nat.succ_pos _
  | data h ih => exact Nat.succ_pos _
  | interrupted h ih => exact ih

theorem delivers (h : Arrives socket bytes) (hnone : RecvResult.interrupted ∉ socket) :
    Delivers [] socket bytes := by
  induction h with
  | @last c cs =>
    have hdelivers : Delivers [] [.data c cs] (c :: cs ++ []) := .data .nil
    rwa [List.append_nil] at hdelivers
  | data h ih => exact .data (ih fun hmem => hnone (List.mem_cons_of_mem _ hmem))
  | interrupted h ih => exact absurd List.mem_cons_self hnone

end Arrives

/-- If too few bytes arrive, the call does not return. -/
theorem loop_short (h : Arrives socket bytes) :
    ∀ {already buffer}, already + bytes.length < toget →
      ∃ stop, recvSocketStream.loop toget socket already buffer = .error stop := by
  induction h with
  | @last c cs =>
    intro already buffer hshort
    refine ⟨.waiting, ?_⟩
    rw [loop_data (by omega), recvSocketStream.loop, if_neg (by omega)]
  | @data c cs bytes socket h ih =>
    intro already buffer hshort
    rw [List.length_append] at hshort
    rw [loop_data (by omega)]
    exact ih (by omega)
  | @interrupted bytes socket h ih =>
    intro already buffer hshort
    rw [recvSocketStream.loop.eq_def, if_neg (by omega)]
    cases already with
    | zero => exact ⟨.beforeBuffer, rfl⟩
    | succ already => exact ih (by omega)

/-- After a signal more bytes are asked for than arrive. -/
theorem loop_interrupted (h : Arrives socket bytes) (hsignal : RecvResult.interrupted ∈ socket) :
    ∀ {already buffer}, already + bytes.length = toget →
      ∃ stop, recvSocketStream.loop toget socket already buffer = .error stop := by
  induction h with
  | last => simp at hsignal
  | @data c cs bytes socket h ih =>
    intro already buffer hall
    rw [List.length_append] at hall
    have htail : RecvResult.interrupted ∈ socket := by simpa using hsignal
    rw [loop_data (by omega)]
    exact ih htail (by omega)
  | @interrupted bytes socket h _ =>
    intro already buffer hall
    have hpos := h.length_pos
    rw [recvSocketStream.loop.eq_def, if_neg (by omega)]
    cases already with
    | zero => exact ⟨.beforeBuffer, rfl⟩
    | succ already => exact loop_short h (by omega)

/-- The bytes that are asked for are received exactly if no signal arrives before the last of
them. -/
theorem recvSocketStream_arrives_iff (h : Arrives socket bytes)
    (hlength : bytes.length < cfBufSize) :
    (∃ received, recvSocketStream buffer bytes.length socket = .ok received ∧
        received.value = some bytes.length ∧ received.buffer.take bytes.length = bytes) ↔
      RecvResult.interrupted ∉ socket := by
  constructor
  · rintro ⟨received, hreceived, _⟩ hsignal
    obtain ⟨stop, hstop⟩ := @loop_interrupted _ _ _ h hsignal 0 buffer (Nat.zero_add _)
    rw [recvSocketStream, if_neg (by omega), hstop] at hreceived
    cases hreceived
  · intro hnone
    have hdelivers := h.delivers hnone
    rw [← List.append_nil bytes] at hdelivers
    obtain ⟨socket', _, hreceive⟩ := recvSocketStream_delivers buffer hlength rfl hdelivers
    exact ⟨_, hreceive, rfl, List.take_left⟩

theorem recvSocketStream_ab :
    (∃ received, recvSocketStream [] "ab".toList.length [.data 'a' [], .data 'b' []] =
      .ok received ∧
        received.value = some "ab".toList.length ∧
        received.buffer.take "ab".toList.length = "ab".toList) ↔
      RecvResult.interrupted ∉ [RecvResult.data 'a' [], .data 'b' []] :=
  recvSocketStream_arrives_iff (.data .last) (by decide)

/-- A signal between two bytes: the second one is written over the first one, and a third one is
waited for. -/
theorem recvSocketStream_signal :
    ¬ ∃ received, recvSocketStream [] 2 [.data 'a' [], .interrupted, .data 'b' []] = .ok received ∧
      received.value = some 2 ∧ received.buffer.take 2 = "ab".toList := by
  rintro ⟨received, hreceived, _⟩
  have hwaiting : recvSocketStream [] 2 [.data 'a' [], .interrupted, .data 'b' []] =
    .error .waiting := by decide
  rw [hwaiting] at hreceived
  cases hreceived

end Cfengine.Net
