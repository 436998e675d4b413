import Cfengine.Verify.CopyNet
import Cfengine.Verify.GetStream

/-!
# Requests and replies in step

A copy leaves nothing of the reply on the connection exactly if the server sends no more than the
client asks for, and no block that something follows is taken for a text of the server
(`copyRegularFileNet_inStep_iff`). What this means for the refusals of the server is below.
-/

namespace Cfengine.Net

variable {socket ending : List RecvResult} {bytes buf : List Char} {total size : Nat}
  {makeholes : Bool} {file : Destination} {hole : Bool} {copied : Copied} {source new : CString}
  {opened : Bool} {sends : List SendResult} {filename stale : List Char}

/-- After what the server sends, nothing arrives. -/
def Idle (ending : List RecvResult) : Prop := ∀ r ∈ ending, r = .failed

theorem idle_nil : Idle [] := List.forall_mem_nil _

namespace Idle
variable (h : Idle ending)
include h

theorem isEnding : IsEnding ending := fun r hr => .inr (h r (List.mem_of_mem_head? hr))

theorem not_closed : ending.head? ≠ some .closed := fun hclosed => by
  cases h _ (List.mem_of_mem_head? hclosed)

theorem delivered_eq : delivered ending = [] := by
  rw [delivered, List.flatMap_eq_nil_iff]
  intro r hr
  rw [h r hr]

theorem tail : Idle ending.tail := fun r hr => h r (List.mem_of_mem_tail hr)

theorem delivers_eq (hsocket : Delivers ending socket bytes) : delivered socket = bytes := by
  rw [hsocket.delivered_eq, h.delivered_eq, List.append_nil]

end Idle

/-- A block that something follows is taken for a text of the server. -/
inductive TextBefore (env : CopyEnv) : Nat → List Char → List Char → Prop where
  | here {total : Nat} {buf bytes : List Char} :
    isStatusText total (bufferWith buf (env.block total bytes)) = true →
      env.toget total < bytes.length → TextBefore env total buf bytes
  | later {total : Nat} {buf bytes : List Char} : total + env.toget total < env.size →
    TextBefore env (total + env.toget total) (env.nextBuffer buf (env.block total bytes))
      (bytes.drop (env.toget total)) → TextBefore env total buf bytes

theorem TextBefore.lt_length {env : CopyEnv} (h : TextBefore env total buf bytes) :
    env.toget total < bytes.length := by
  induction h with
  | here _ hlt => exact hlt
  | later _ _ ih =>
    rw [List.length_drop] at ih
    omega

/-- After the last block the client has taken all that it asks for. -/
theorem finishCopy_socket {next : Copying}
    (hcopied : finishCopy (.working size makeholes) next = .ok copied) :
    copied.socket = next.socket := by
  rw [finishCopy, CopyEnv.working] at hcopied
  split at hcopied <;> rw [← Except.ok.inj hcopied]

theorem finishCopy_returns {next : Copying} :
    ∃ copied, finishCopy (.working size makeholes) next = .ok copied := by
  rw [finishCopy, CopyEnv.working]
  split <;> exact ⟨_, rfl⟩

/-- Nothing is left on the connection when a copy returns. -/
theorem copyLoop_inStep_iff (h : Delivers ending socket bytes) (hidle : Idle ending)
    (hle : total ≤ size) :
    (∀ copied, copyLoop (.working size makeholes) ⟨total, buf, file, hole, socket⟩ = .ok copied →
        delivered copied.socket = []) ↔
      bytes.length ≤ size - total ∧ ¬ TextBefore (.working size makeholes) total buf bytes := by
  induction hleft : size - total using Nat.strong_induction_on generalizing total socket bytes
    buf file hole with
  | _ left ih =>
    generalize henv : CopyEnv.working size makeholes = env
    have hsize : env.size = size := by rw [← henv]; rfl
    have htoget := @CopyEnv.toget_le env total
    by_cases henough : env.toget total ≤ bytes.length
    · have hsupplies : Supplies ending bytes (env.toget total) := .inl henough
      have hlength : (bytes.drop (env.toget total)).length = bytes.length - env.toget total :=
        List.length_drop
      by_cases htext : isStatusText total (bufferWith buf (env.block total bytes)) = true
      · -- The client returns at a text.
        obtain ⟨socket', hdelivers, hblock⟩ := @copyLoop_block _ _ _ buf _ _ file
          hole h hsupplies
        rw [hblock, if_pos htext]
        have hsocket := hidle.delivers_eq hdelivers
        constructor
        · intro hnothing
          have hnil := hnothing _ rfl
          rw [hsocket] at hnil
          rw [hnil, List.length_nil] at hlength
          refine ⟨by omega, fun hbefore => ?_⟩
          have hlt := hbefore.lt_length
          omega
        · rintro ⟨_, hbefore⟩ copied hcopied
          rw [← Except.ok.inj hcopied, hsocket, List.drop_eq_nil_iff]
          by_contra hlt
          exact hbefore (.here htext (by omega))
      · have hwritten : Written env total buf bytes :=
          ⟨eq_false_of_ne_true htext, by rw [← henv]; rfl⟩
        obtain ⟨socket', hdelivers, hloop⟩ := @copyLoop_written _ _ _ _ _ _ file hole h
          hsupplies hwritten
        rw [hloop, afterBlock]
        by_cases hlast : env.size ≤ total + env.toget total
        · rw [nextCopying, if_pos hlast]
          have hsocket := hidle.delivers_eq hdelivers
          have hno : ¬ TextBefore env total buf bytes := by
            intro hbefore
            cases hbefore with
            | here hhere => exact htext hhere
            | later hlt => omega
          rw [and_iff_left hno, ← henv]
          constructor
          · intro hnothing
            obtain ⟨copied, hcopied⟩ := finishCopy_returns
            have hnil := hnothing copied hcopied
            rw [finishCopy_socket hcopied, hsocket] at hnil
            rw [hnil, List.length_nil] at hlength
            omega
          · intro hshort copied hcopied
            rw [finishCopy_socket hcopied, hsocket, List.drop_eq_nil_iff]
            omega
        · have hlt : total < size := by omega
          have hpos := @CopyEnv.toget_pos env total (by omega)
          have hlater : TextBefore env total buf bytes ↔ TextBefore env (total + env.toget total)
              (env.nextBuffer buf (env.block total bytes)) (bytes.drop (env.toget total)) := by
            refine ⟨fun hbefore => ?_, .later (by omega)⟩
            cases hbefore with
            | here hhere => exact absurd hhere htext
            | later _ hlater => exact hlater
          rw [nextCopying, if_neg hlast, hlater]
          subst henv
          rw [ih _ (by omega) hdelivers (by omega) rfl, hlength]
          exact and_congr_left fun _ => by omega
    · -- The client waits for a block that does not arrive.
      refine iff_of_true (fun copied hcopied => ?_) ⟨by omega, fun hbefore => ?_⟩
      · rw [(copyLoop_block_short h hidle.isEnding hidle.not_closed (by omega) hcopied).2]
        exact hidle.tail.delivered_eq
      · have hlt := hbefore.lt_length
        omega

/-- The client has consumed what the server sent for its request exactly if this is no more than it
asks for, and no block that something follows is taken for a text of the server. -/
theorem copyRegularFileNet_inStep_iff {outcome : GetOutcome}
    (hrequested : Requested source new opened sends)
    (h : Delivers ending socket (outcome.stream filename stale)) (hidle : Idle ending) :
    (∀ copied, copyRegularFileNet (.working size makeholes) source new opened sends buf socket =
        some (.ok copied) → delivered copied.socket = []) ↔
      (outcome.stream filename stale).length ≤ size ∧
        ¬ TextBefore (.working size makeholes) 0 buf (outcome.stream filename stale) := by
  rw [copyRegularFileNet_requested hrequested]
  simp only [Option.some.injEq]
  exact copyLoop_inStep_iff h hidle (Nat.zero_le size)

theorem copyRegularFileNet_refused_large :
    (∀ copied, copyRegularFileNet (.working 67 false) ['s'] ['n'] true [] []
        [.data 't' (refuseAccessBytes [] 0).tail] = some (.ok copied) →
        delivered copied.socket = []) ↔
      (GetOutcome.refused.stream [] []).length ≤ 67 ∧
        ¬ TextBefore (.working 67 false) 0 [] (GetOutcome.refused.stream [] []) := by
  have hstream : GetOutcome.refused.stream [] [] = 't' :: (refuseAccessBytes [] 0).tail ++ [] := by
    rw [GetOutcome.stream, refuseAccessBytes_zero]
    rfl
  exact @copyRegularFileNet_inStep_iff _ [] [] 67 false ['s'] ['n'] true [] [] [] .refused
    ⟨by decide, rfl, by decide⟩ (hstream ▸ .data .nil) idle_nil

/-- A refusal for a file of three bytes: the client reads three bytes of it and returns. -/
theorem copyRegularFileNet_refused_small :
    ¬ ∀ copied, copyRegularFileNet (.working 3 false) ['s'] ['n'] true [] []
      [.data 't' (refuseAccessBytes [] 0).tail] = some (.ok copied) →
        delivered copied.socket = [] := by
  intro hnothing
  have hdelivers : Delivers [] [.data 't' (refuseAccessBytes [] 0).tail]
    ('t' :: (refuseAccessBytes [] 0).tail ++ []) := .data .nil
  have hrequested : Requested ['s'] ['n'] true [] := ⟨by decide, rfl, by decide⟩
  rw [copyRegularFileNet_requested hrequested] at hnothing
  simp only [Option.some.injEq] at hnothing
  have hshort := ((copyLoop_inStep_iff hdelivers idle_nil (Nat.zero_le 3)).mp hnothing).1
  rw [refuseAccessBytes_zero] at hshort
  exact absurd hshort (by decide)

/-! ## Refusals -/

theorem toget_working : (CopyEnv.working size makeholes).toget 0 = min 2048 size := by
  rw [CopyEnv.toget, CopyEnv.working]
  dsimp only
  split
  · omega
  · split <;> omega

/-- A reply that fits into the first block is taken as a whole. -/
theorem not_textBefore (h : bytes.length ≤ min 2048 size) :
    ¬ TextBefore (.working size makeholes) 0 buf bytes := fun hbefore => by
  have hlt := hbefore.lt_length
  rw [toget_working] at hlt
  omega

/-- The refusal of `AccessControl` takes 67 bytes. -/
theorem refused_inStep_iff :
    ((GetOutcome.refused.stream filename stale).length ≤ size ∧
        ¬ TextBefore (.working size makeholes) 0 buf (GetOutcome.refused.stream filename stale)) ↔
      67 ≤ size := by
  have hlength : (GetOutcome.refused.stream filename stale).length = 67 := by
    rw [GetOutcome.stream, refuseAccessBytes_zero, List.length_append,
      length_transactionHeader (by decide), length_cfFailedStr]
    rfl
  exact ⟨fun h => hlength ▸ h.1, fun h => ⟨hlength ▸ h, not_textBefore (by omega)⟩⟩

section
variable {uid : Nat} {maproot : Bool} {sb : FileStat} {rounds : List TransferRound}

/-- A file that cannot be opened is answered with a block of 2048 bytes. -/
theorem notOpened_inStep_iff (hrights : transferRights uid maproot sb = true) :
    (((GetOutcome.served uid maproot sb false rounds).stream filename stale).length ≤ size ∧
        ¬ TextBefore (.working size makeholes) 0 buf
          ((GetOutcome.served uid maproot sb false rounds).stream filename stale)) ↔
      2048 ≤ size := by
  obtain ⟨rest, _, hbuffer⟩ := @sendbuffer_eq cfFailedStr stale length_cfFailedStr_lt
  have hsmall : 2048 ≤ cfBufSize := by decide
  have hlength : ((GetOutcome.served uid maproot sb false rounds).stream filename stale).length =
      2048 := by
    have hevents : (cfGetFile uid maproot 2048 sb false rounds).1 = [.failed] := by
      rw [cfGetFile, hrights]
      rfl
    rw [GetOutcome.stream, hevents, hrights, if_pos rfl, List.flatMap_singleton, streamBytes,
      List.length_take_of_le (by omega)]
  exact ⟨fun h => hlength ▸ h.1, fun h => ⟨hlength ▸ h, not_textBefore (by omega)⟩⟩

/-- A file that is sent to its end leaves something only behind a block that is taken for a text. -/
theorem complete_inStep_iff {encrypt : List Char → List Char} {data : List Char}
    (hrights : transferRights uid maproot sb = true) (hsize : sb.size = data.length) :
    (((GetOutcome.served uid maproot sb true (fileRounds 2048 encrypt data)).stream filename
        stale).length ≤ data.length ∧
      ¬ TextBefore (.working data.length makeholes) 0 buf
        ((GetOutcome.served uid maproot sb true (fileRounds 2048 encrypt data)).stream filename
          stale)) ↔
      ¬ TextBefore (.working data.length makeholes) 0 buf data := by
  rw [stream_complete hrights hsize]
  exact and_iff_right (Nat.le_refl _)

/-- The refusal of a header: the client stops at the first block, if this has the text. -/
theorem isStatusText_refusal :
    isStatusText 0 (bufferWith buf ((refuseAccessBytes stale 2048).take 2048)) = true := by
  obtain ⟨rest, hbuffer, _⟩ := @sendbuffer_eq cfFailedStr stale length_cfFailedStr_lt
  have hfits : 2048 ≤ cfBufSize - cfInbandOffset := by decide
  have hheader := @length_transactionHeader 2048 cfDone hfits
  have hblock : (refuseAccessBytes stale 2048).take 2048 =
      transactionHeader cfDone 2048 ++ (cfFailedStr ++ '\x00' :: rest).take 2040 := by
    rw [refuseAccessBytes, transactionLength, if_neg (by decide), hbuffer, List.take_append,
      hheader, List.take_of_length_le (by rw [hheader]; decide), List.take_take]
    rfl
  have htext : "BAD: ".toList.isPrefixOf ((bufferWith buf ((refuseAccessBytes stale 2048).take
      2048)).drop cfInbandOffset) = true := by
    rw [bufferWith, hblock, List.append_assoc, ← hheader, List.drop_left]
    rfl
  rw [isStatusText, htext, bufferWith, hblock, List.append_assoc,
    cstr_transactionHeader hfits (by decide)]
  simp only [Bool.and_true, Bool.or_eq_true]
  exact .inr (by decide)

/-- Where the rights are missing, the client never takes all that is sent. -/
theorem notPermitted_not_inStep (hrights : transferRights uid maproot sb = false) :
    ¬ (((GetOutcome.served uid maproot sb opened rounds).stream filename stale).length ≤ size ∧
      ¬ TextBefore (.working size makeholes) 0 buf
        ((GetOutcome.served uid maproot sb opened rounds).stream filename stale)) := by
  rintro ⟨hlength, hbefore⟩
  obtain ⟨rest, _, hbuffer⟩ := @sendbuffer_eq cfFailedStr stale length_cfFailedStr_lt
  have hlong : (refuseAccessBytes stale 2048).length = 2056 := by
    rw [refuseAccessBytes, transactionLength, if_neg (by decide), List.length_append,
      length_transactionHeader (by decide),
      List.length_take_of_le (Nat.le_trans (by decide) hbuffer)]
    rfl
  obtain ⟨later, hstream⟩ : ∃ later, (GetOutcome.served uid maproot sb opened rounds).stream
      filename stale = refuseAccessBytes stale 2048 ++ later := by
    rw [GetOutcome.stream, hrights]
    exact ⟨_, rfl⟩
  rw [hstream] at hlength hbefore
  rw [List.length_append, hlong] at hlength
  have htoget : (CopyEnv.working size makeholes).toget 0 = 2048 := by
    rw [toget_working]
    omega
  refine hbefore (.here ?_ (by rw [htoget, List.length_append, hlong]; omega))
  rw [CopyEnv.block, htoget, List.take_append_of_le_length (by rw [hlong]; decide)]
  exact isStatusText_refusal

end

end Cfengine.Net
