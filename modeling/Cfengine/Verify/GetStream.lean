import Cfengine.GetStream
import Cfengine.Theory.Blocks
import Cfengine.Verify.Net
import Cfengine.Verify.Transfer

/-!
# The bytes of a reply

A file that is read to its end is sent as it is (`stream_complete`). The texts of the server are
at the start of what it sends else.
-/

namespace Cfengine.Net
open Blocks

variable {text filename stale data : List Char} {uid : Nat} {maproot opened : Bool} {sb : FileStat}
  {rounds : List TransferRound}

/-! ## Texts -/

theorem sendbuffer_eq (h : text.length < cfBufSize) :
    ∃ rest, sendbuffer text stale = text ++ '\x00' :: rest ∧
      cfBufSize ≤ (sendbuffer text stale).length := by
  refine ⟨stale.drop (text.length + 1) ++ List.replicate
    (cfBufSize - (overwrite (text ++ ['\x00']) stale).length) '\x00', ?_, ?_⟩
  · rw [sendbuffer, List.take_of_length_le (by omega), List.rightpad]
    simp [overwrite]
  · rw [sendbuffer, List.length_rightpad]
    exact Nat.le_max_left _ _

theorem length_cfFailedStr : cfFailedStr.length = 59 := rfl

theorem length_cfFailedStr_lt : cfFailedStr.length < cfBufSize := by
  rw [length_cfFailedStr]
  decide

theorem refuseAccessBytes_zero :
    refuseAccessBytes stale 0 = transactionHeader cfDone 59 ++ cfFailedStr := by
  obtain ⟨rest, hbuffer, _⟩ := @sendbuffer_eq cfFailedStr stale length_cfFailedStr_lt
  have hlength : transactionLength (sendbuffer cfFailedStr stale) 0 = cfFailedStr.length := by
    have hnul : (cfFailedStr.all fun c => decide (c ≠ '\x00')) = true := rfl
    rw [transactionLength, if_pos rfl, hbuffer, cstr,
      List.takeWhile_append_of_pos (List.all_eq_true.mp hnul)]
    simp
  rw [refuseAccessBytes, hlength, hbuffer, List.take_left, length_cfFailedStr]

/-! ## Files that are read -/

/-- A round that reads a block of a file, encrypts it and sends it. -/
def fileRound (encrypt : List Char → List Char) (size : Nat) (block : List Char) : TransferRound :=
  ⟨some block, some size, some (encrypt block), true⟩

/-- The rounds of a file that is read to its end. -/
def fileRounds (g : Nat) (encrypt : List Char → List Char)
    (data : List Char) : List TransferRound :=
  (chunks g data).map (fileRound encrypt data.length) ++ [⟨some [], some data.length, none, true⟩]

section
variable {encrypt : List Char → List Char} {div size count total : Nat} {sendlen : Int}

/-- A block of a file is sent as it is. -/
theorem loop_fileRound (hdata : data ≠ []) (hsize : size = total + data.length) :
    cfGetFile.loop div size (fileRound encrypt size (data.take 2048) :: rounds) count
      total sendlen =
      (.data (data.take 2048) :: (cfGetFile.loop div size rounds (count + 1)
          (total + (data.take 2048).length) (cfGetFile.sendlen size total sendlen)).1,
        (cfGetFile.loop div size rounds (count + 1) (total + (data.take 2048).length)
          (cfGetFile.sendlen size total sendlen)).2) := by
  have hpos := List.length_pos_iff.mpr hdata
  have hne : data.take 2048 ≠ [] := by
    rw [ne_eq, List.take_eq_nil_iff, not_or]
    exact ⟨by decide, hdata⟩
  have hstat : (if count % div = 0 then some size else some size) = some size := ite_self _
  have hlength : (data.take 2048).length = min 2048 data.length := List.length_take
  have hsendlen : cfGetFile.sendlen size total sendlen = (data.take 2048).length := by
    have hsub : (size : Int) - total = (data.length : Int) := by omega
    have hdiv : (data.length : Int).tdiv 2048 = ((data.length / 2048 : Nat) : Int) := rfl
    rw [cfGetFile.sendlen, hsub, hdiv, hlength]
    by_cases hlong : 2048 ≤ data.length
    · have hquot : 0 < data.length / 2048 := Nat.div_pos hlong (by decide)
      rw [if_pos (by exact_mod_cast hquot), Nat.min_eq_left hlong]
      rfl
    · rw [Nat.div_eq_of_lt (by omega), if_neg (by decide), if_pos (by omega),
        Nat.min_eq_right (by omega)]
  have hpadded : ((data.take 2048).rightpad cfBufSize '\x00').take (data.take 2048).length =
      data.take 2048 := by rw [List.rightpad, List.take_left]
  rw [cfGetFile.loop_of_read rfl hne hstat, if_neg (not_not_intro rfl)]
  dsimp only
  rw [hsendlen, if_neg (by omega), Int.toNat_natCast, hpadded]
  rfl

theorem loop_fileRounds (hsize : size = total + data.length) :
    (cfGetFile.loop div size ((chunks 2048 data).map (fileRound encrypt size) ++
        [⟨some [], some size, none, true⟩]) count total sendlen).1 =
      (chunks 2048 data).map TransferEvent.data := by
  induction data using chunks_induction (by decide : 0 < 2048) generalizing count total sendlen with
  | nil =>
    rw [chunks_nil, List.map_nil, List.nil_append, cfGetFile.loop_of_fail (.inr (.inl rfl))]
    rfl
  | block data hdata ih =>
    rw [chunks_of_ne_nil (by decide) hdata, List.map_cons, List.cons_append,
      loop_fileRound hdata hsize, List.map_cons]
    dsimp only
    rw [ih]
    rw [List.length_take, List.length_drop]
    omega

end

/-- A file that is permitted, opened and read to its end is sent as it is. -/
theorem stream_complete {encrypt : List Char → List Char}
    (hrights : transferRights uid maproot sb = true) (hsize : sb.size = data.length) :
    (GetOutcome.served uid maproot sb true (fileRounds 2048 encrypt data)).stream filename stale =
      data := by
  have hevents : (cfGetFile uid maproot 2048 sb true (fileRounds 2048 encrypt data)).1 =
      (chunks 2048 data).map TransferEvent.data := by
    rw [cfGetFile, hrights, if_pos rfl, if_pos rfl, hsize, fileRounds]
    exact loop_fileRounds (Nat.zero_add _).symm
  have hid : (chunks 2048 data).map (fun block => streamBytes filename stale (.data block)) =
      chunks 2048 data := List.map_id' _
  rw [GetOutcome.stream, hevents, hrights, if_pos rfl, List.flatMap_map, List.flatMap_def, hid,
    flatten_chunks (by decide : 0 < 2048)]

end Cfengine.Net
