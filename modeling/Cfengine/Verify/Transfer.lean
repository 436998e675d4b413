import Cfengine.Server.Transfer

/-!
# What is sent of a file that is refused

Neither `CfGetFile` nor `CfEncryptGetFile` returns behind the refusal. `refusedTransfer_iff` says
for which files and systems this makes no difference.
-/

namespace Cfengine

variable {div size count total : Nat} {r : TransferRound} {rounds : List TransferRound}
  {uid bufSize : Nat} {maproot opened : Bool} {sb : FileStat} {t : Transfer}

/-- Nothing is sent but the refusal. -/
structure OnlyRefuses (t : Transfer) : Prop where
  events : ∀ e ∈ t.1, e = .failed ∨ e = .data []
  defined : t.2 ≠ .undefined

theorem onlyRefuses_nil {e : TransferEnd} (h : e ≠ .undefined) : OnlyRefuses ([], e) :=
  ⟨List.forall_mem_nil _, h⟩

theorem onlyRefuses_cons {e : TransferEvent} :
    OnlyRefuses (e :: t.1, t.2) ↔ (e = .failed ∨ e = .data []) ∧ OnlyRefuses t := by
  constructor
  · intro ⟨hevents, hdefined⟩
    obtain ⟨he, hevents⟩ := List.forall_mem_cons.mp hevents
    exact ⟨he, hevents, hdefined⟩
  · intro ⟨he, hevents, hdefined⟩
    exact ⟨List.forall_mem_cons.mpr ⟨he, hevents⟩, hdefined⟩

theorem not_onlyRefuses_changed {e : TransferEnd} : ¬ OnlyRefuses ([.changed], e) := by
  intro h
  obtain h | h := h.events _ (List.mem_singleton_self _)
  · cases h
  · cases h

theorem not_onlyRefuses_cipher {bytes : List Char} {more : Bool} :
    ¬ OnlyRefuses (.cipher bytes more :: t.1, t.2) := by
  intro h
  obtain h | h := (onlyRefuses_cons.mp h).1
  · cases h
  · cases h

theorem refuseAccess_onlyRefuses :
    OnlyRefuses (refuseAccess bufSize (.failed :: t.1, t.2)) ↔
      bufSize > cfBufSize - cfInbandOffset ∨ OnlyRefuses t := by
  rw [refuseAccess]
  split
  · rename_i hexit
    exact iff_of_true (onlyRefuses_nil (by simp)) (.inl hexit)
  · rename_i hexit
    have htwice := @onlyRefuses_cons (.failed :: t.1, t.2) .failed
    rw [htwice, onlyRefuses_cons, or_iff_right hexit]
    simp

/-! ## `CfGetFile` -/

/-- As long as the file is read and its size is looked at, it is 0. -/
def StaysEmpty (div : Nat) : Nat → List TransferRound → Prop
  | _, [] => True
  | count, r :: rounds =>
    let stat := if count % div = 0 then r.stat else some 0
    r.read = none ∨ r.read = some [] ∨ stat = none ∨
      stat = some 0 ∧ (r.sent = true → StaysEmpty div (count + 1) rounds)

/-- Nothing is sent in the first round if the file cannot be read or has gone. -/
def FirstFails (rounds : List TransferRound) : Prop :=
  ∀ r ∈ rounds.head?, r.read = none ∨ r.read = some [] ∨ r.stat = none

namespace cfGetFile

theorem sendlen_zero : sendlen 0 total 0 = 0 := by
  have hdiv := Int.tdiv_nonneg (Int.natCast_nonneg total) (show (0 : Int) ≤ 2048 by decide)
  rw [sendlen, Nat.cast_zero, zero_sub, Int.neg_tdiv, if_neg (by omega), if_neg (by simp)]

theorem sendlen_pos {n : Int} (hsize : size ≠ 0) : 0 < sendlen size 0 n := by
  rw [sendlen]
  split
  · decide
  · omega

/-- A round that fails sends nothing. -/
theorem loop_of_fail {sendlen : Int} (h : r.read = none ∨ r.read = some [] ∨
      (if count % div = 0 then r.stat else some size) = none) :
    loop div size (r :: rounds) count total sendlen = ([], .returned) := by
  rw [loop.eq_def]
  simp only
  obtain h | h | h := h
  · rw [h]
  · rw [h]
  · rw [h]
    cases r.read with
    | none => rfl
    | some sendbuffer =>
      cases sendbuffer with
      | nil => rfl
      | cons c sendbuffer => rfl

/-- A round that reads something. -/
theorem loop_of_read {sendlen : Int} {sendbuffer : List Char} {st_size : Nat}
    (hread : r.read = some sendbuffer) (hne : sendbuffer ≠ [])
    (hstat : (if count % div = 0 then r.stat else some size) = some st_size) :
    loop div size (r :: rounds) count total sendlen =
      if st_size ≠ size then ([.changed], .returned)
      else
        let sendlen := cfGetFile.sendlen size total sendlen
        if sendlen < 0 then ([], .undefined)
        else
          let next : Transfer :=
            if r.sent then loop div size rounds (count + 1) (total + sendbuffer.length) sendlen
            else ([], .returned)
          (.data ((sendbuffer.rightpad cfBufSize '\x00').take sendlen.toNat) :: next.1,
            next.2) := by
  obtain ⟨c, sendbuffer, rfl⟩ := List.exists_cons_of_ne_nil hne
  rw [loop.eq_def]
  simp only
  rw [hread, hstat]

theorem fails_or_reads (r : TransferRound) (stat : Option Nat) :
    (r.read = none ∨ r.read = some [] ∨ stat = none) ∨
      ∃ sendbuffer st_size, r.read = some sendbuffer ∧ sendbuffer ≠ [] ∧ stat = some st_size := by
  cases hread : r.read with
  | none => exact .inl (.inl rfl)
  | some sendbuffer =>
    by_cases hnil : sendbuffer = []
    · exact .inl (.inr (.inl (congrArg some hnil)))
    cases stat with
    | none => exact .inl (.inr (.inr rfl))
    | some st_size => exact .inr ⟨sendbuffer, st_size, rfl, hnil, rfl⟩

theorem staysEmpty_of_fail (h : r.read = none ∨ r.read = some [] ∨
    (if count % div = 0 then r.stat else some 0) = none) : StaysEmpty div count (r :: rounds) := by
  obtain h | h | h := h
  · exact .inl h
  · exact .inr (.inl h)
  · exact .inr (.inr (.inl h))

/-- Of a file whose size is 0 nothing is sent. -/
theorem loop_zero_onlyRefuses :
    OnlyRefuses (loop div 0 rounds count total 0) ↔ StaysEmpty div count rounds := by
  induction rounds generalizing count total with
  | nil => exact iff_of_true (onlyRefuses_nil (by simp)) trivial
  | cons r rounds ih =>
    obtain hfail | ⟨sendbuffer, st_size, hread, hne, hstat⟩ :=
      fails_or_reads r (if count % div = 0 then r.stat else some 0)
    · rw [loop_of_fail hfail]
      exact iff_of_true (onlyRefuses_nil (by simp)) (staysEmpty_of_fail hfail)
    · rw [loop_of_read hread hne hstat, StaysEmpty, hread, hstat, sendlen_zero]
      by_cases hsize : st_size = 0
      · subst hsize
        simp only [ne_eq, not_true_eq_false, if_false, lt_self_iff_false, Int.toNat_zero,
          List.take_zero, reduceCtorEq, Option.some.injEq, hne, false_or, true_and]
        rw [onlyRefuses_cons, and_iff_right (.inr rfl)]
        split
        · rename_i hsent
          rw [ih]
          exact ⟨fun h _ => h, fun h => h hsent⟩
        · rename_i hsent
          exact iff_of_true (onlyRefuses_nil (by simp)) fun h => absurd h hsent
      · rw [if_pos hsize]
        apply iff_of_false not_onlyRefuses_changed
        simp [hne, hsize]

/-- A file with a size is sent, or reported as changed. -/
theorem not_onlyRefuses_loop {sendbuffer : List Char} {st_size : Nat} (hsize : size ≠ 0)
    (hread : r.read = some sendbuffer) (hne : sendbuffer ≠ []) (hstat : r.stat = some st_size) :
    ¬ OnlyRefuses (loop div size (r :: rounds) 0 0 0) := by
  rw [loop_of_read hread hne (by rw [Nat.zero_mod, if_pos rfl, hstat])]
  split
  · exact not_onlyRefuses_changed
  have hpos := @sendlen_pos size 0 hsize
  simp only
  rw [if_neg (Int.not_lt.mpr (Int.le_of_lt hpos)), onlyRefuses_cons]
  intro ⟨hdata, _⟩
  have hnil : (sendbuffer.rightpad cfBufSize '\x00').take (sendlen size 0 0).toNat = [] :=
    TransferEvent.data.inj (hdata.resolve_left (by simp))
  obtain ⟨c, sendbuffer, rfl⟩ := List.exists_cons_of_ne_nil hne
  rw [List.take_eq_nil_iff] at hnil
  obtain hlen | hbuffer := hnil
  · omega
  · cases hbuffer

theorem firstFails_cons : FirstFails (r :: rounds) ↔
    r.read = none ∨ r.read = some [] ∨ r.stat = none := by
  simp [FirstFails]

/-- Nothing is sent if the first round fails, or the file is always empty. -/
theorem loop_onlyRefuses_iff :
    OnlyRefuses (loop div size rounds 0 0 0) ↔
      FirstFails rounds ∨ size = 0 ∧ StaysEmpty div 0 rounds := by
  cases rounds with
  | nil => exact iff_of_true (onlyRefuses_nil (by simp)) (.inl (by simp [FirstFails]))
  | cons r rounds =>
    rw [firstFails_cons]
    obtain hfail | ⟨sendbuffer, st_size, hread, hne, hstat⟩ := fails_or_reads r r.stat
    · rw [loop_of_fail (by rwa [Nat.zero_mod, if_pos rfl])]
      exact iff_of_true (onlyRefuses_nil (by simp)) (.inl hfail)
    · rw [or_iff_right (by simp [hread, hne, hstat])]
      by_cases hsize : size = 0
      · subst hsize
        rw [loop_zero_onlyRefuses, and_iff_right rfl]
      · exact iff_of_false (not_onlyRefuses_loop hsize hread hne hstat) fun h => hsize h.1

end cfGetFile

/-! ## `CfEncryptGetFile` -/

/-- Nothing is sent in the first round if the file cannot be read, or has gone, or there is
something to encrypt and it fails. -/
def FirstEncryptFails (size : Nat) (rounds : List TransferRound) : Prop :=
  ∀ r ∈ rounds.head?, r.read = none ∨ r.stat = none ∨
    r.stat = some size ∧ r.read ≠ some [] ∧ r.cipher = none

theorem cfEncryptGetFile.loop_onlyRefuses_iff :
    OnlyRefuses (loop div size rounds 0 0 none) ↔ FirstEncryptFails size rounds := by
  cases rounds with
  | nil => exact iff_of_true (onlyRefuses_nil (by simp)) (by simp [FirstEncryptFails])
  | cons r rounds =>
    have hfirst : FirstEncryptFails size (r :: rounds) ↔ r.read = none ∨ r.stat = none ∨
        r.stat = some size ∧ r.read ≠ some [] ∧ r.cipher = none := by
      simp [FirstEncryptFails]
    rw [hfirst, loop.eq_def]
    simp only [Nat.zero_mod, if_true]
    cases r.read with
    | none => exact iff_of_true (onlyRefuses_nil (by simp)) (.inl rfl)
    | some sendbuffer =>
      cases r.stat with
      | none => exact iff_of_true (onlyRefuses_nil (by simp)) (.inr (.inl rfl))
      | some st_size =>
        by_cases hsize : st_size = size
        · subst hsize
          simp only [ne_eq, not_true_eq_false, if_false]
          by_cases hnil : sendbuffer = []
          · subst hnil
            apply iff_of_false
            · intro h
              exact h.defined rfl
            · simp
          · cases hcipher : r.cipher with
            | none =>
              simp only [hnil, not_false_eq_true, decide_true, Bool.and_self, if_true]
              apply iff_of_true
              · exact ⟨by simp, by simp⟩
              · simp [hnil]
            | some out =>
              simp only [hnil, not_false_eq_true, decide_true, Bool.true_and, reduceCtorEq,
                decide_false, Bool.false_eq_true, if_false, if_true]
              exact iff_of_false not_onlyRefuses_cipher (by simp)
        · simp only [ne_eq, hsize, not_false_eq_true, if_true]
          exact iff_of_false not_onlyRefuses_changed (by simp [hsize])

/-! ## Refused files -/

/-- A file that is refused is sent all the same, unless the refusal ends the server, the file cannot
be opened, the first round fails, or (without encryption) the file is empty as far as `stat`
says. -/
theorem refusedTransfer_iff :
    ((transferRights uid maproot sb = false →
          OnlyRefuses (cfGetFile uid maproot bufSize sb opened rounds)) ↔
        (transferRights uid maproot sb = false → bufSize > cfBufSize - cfInbandOffset ∨
          opened = false ∨ FirstFails rounds ∨
            sb.size = 0 ∧ StaysEmpty (statInterval sb.size) 0 rounds)) ∧
      ((transferRights uid maproot sb = false →
          OnlyRefuses (cfEncryptGetFile uid maproot bufSize sb opened rounds)) ↔
        (transferRights uid maproot sb = false → bufSize > cfBufSize - cfInbandOffset ∨
          opened = false ∨ FirstEncryptFails sb.size rounds)) := by
  have hfailed : OnlyRefuses ([.failed], .returned) := by
    exact ⟨by simp, by simp⟩
  constructor
  · apply forall_congr'
    intro hrights
    rw [cfGetFile, hrights, if_neg Bool.false_ne_true, refuseAccess_onlyRefuses]
    apply or_congr_right
    cases opened with
    | false => exact iff_of_true hfailed (.inl rfl)
    | true =>
      rw [if_pos rfl, cfGetFile.loop_onlyRefuses_iff]
      simp
  · apply forall_congr'
    intro hrights
    rw [cfEncryptGetFile, hrights, if_neg Bool.false_ne_true, refuseAccess_onlyRefuses]
    apply or_congr_right
    cases opened with
    | false => exact iff_of_true hfailed (.inl rfl)
    | true =>
      rw [if_pos rfl, cfEncryptGetFile.loop_onlyRefuses_iff]
      simp

/-- A file of root that nobody else may read is sent to another user. -/
theorem refusedTransfer_sent :
    let sb : FileStat := ⟨6, 0, false⟩
    let r : TransferRound := ⟨some "secret".toList, some 6, some "cipher".toList, true⟩
    transferRights 1000 false sb = false ∧
      cfGetFile 1000 false 2048 sb true [r] =
        ([.failed, .failed, .data "secret".toList], .running) ∧
      cfEncryptGetFile 1000 false 2048 sb true [r] =
        ([.failed, .failed, .cipher "cipher".toList false], .returned) ∧
      ¬ OnlyRefuses (cfGetFile 1000 false 2048 sb true [r]) ∧
      ¬ OnlyRefuses (cfEncryptGetFile 1000 false 2048 sb true [r]) := by
  intro sb r
  have hget : cfGetFile 1000 false 2048 sb true [r] =
      ([.failed, .failed, .data "secret".toList], .running) := by decide
  have hencrypt : cfEncryptGetFile 1000 false 2048 sb true [r] =
      ([.failed, .failed, .cipher "cipher".toList false], .returned) := by decide
  refine ⟨rfl, hget, hencrypt, ?_, ?_⟩
  · rw [hget]
    intro h
    exact absurd (h.events (.data "secret".toList) (by simp)) (by decide)
  · rw [hencrypt]
    intro h
    exact absurd (h.events (.cipher "cipher".toList false) (by simp)) (by decide)

end Cfengine
