import Cfengine.Transaction

/-!
# What a purge removes

The scan never changes the time in `entry` (`purgeLocks_loop_eq`), so that every decision of a purge
is about the time of `lock_horizon`, or 0 where that is absent, and never about the time of the
record it is at. A purge does what it should exactly where these decisions agree.
-/

namespace Cfengine

variable {address : CString → Int} {now : Int} {keys : List CString} {dbp : LockDb Int}
  {key : CString}

/-- A record that a purge is to remove: older than the horizon, and not one of license tracking. -/
def Stale (now : Int) (dbp : LockDb Int) (key : CString) : Prop :=
  ¬ trackLicense <+: key ∧ ∃ entry, dbp key = some entry ∧ now - entry.time > cfLockHorizon

/-- A purge is due. -/
def PurgeDue (now : Int) (dbp : LockDb Int) : Prop :=
  ∀ entry, dbp lockHorizon = some entry → secondsPerWeek * 4 ≤ now - entry.time

/-- What a purge is for: the stale records are removed, the others are as they were, and the horizon
is now. -/
def Purged (now : Int) (dbp purged : LockDb Int) : Prop :=
  (∀ key, key ≠ lockHorizon →
    (Stale now dbp key → purged key = none) ∧ (¬ Stale now dbp key → purged key = dbp key)) ∧
  (purged lockHorizon).map (·.time) = some now

/-- The time of the last purge, and 0 where there was none. -/
def horizonTime (dbp : LockDb Int) : Int := ((dbp lockHorizon).map (·.time)).getD 0

variable (address now keys) in
/-- The scan removes all that is not of license tracking, or nothing. -/
theorem purgeLocks_loop_eq (entry : LockData Int) (dbp : LockDb Int) :
    (purgeLocks.loop address now keys entry dbp).1.time = entry.time ∧
    ∀ key, (purgeLocks.loop address now keys entry dbp).2 key =
      if key ∈ keys ∧ ¬ trackLicense <+: key ∧ now - entry.time > cfLockHorizon then none
      else dbp key := by
  induction keys generalizing entry dbp with
  | nil => exact ⟨rfl, fun key => (if_neg fun h => List.not_mem_nil h.1).symm⟩
  | cons other keys ih =>
    rw [purgeLocks.loop]
    split
    · rename_i htrack
      rw [List.isPrefixOf_iff_prefix] at htrack
      refine ⟨(ih _ dbp).1, fun key => ?_⟩
      rw [(ih _ dbp).2 key]
      refine if_congr (and_congr_left fun h => ?_) rfl rfl
      rw [List.mem_cons, or_iff_right]
      rintro rfl
      exact h.1 htrack
    · rename_i htrack
      rw [List.isPrefixOf_iff_prefix] at htrack
      split
      · rename_i hold
        refine ⟨(ih _ _).1, fun key => ?_⟩
        rw [(ih _ _).2 key, removeLock]
        by_cases hkey : key = other
        · subst hkey
          rw [Function.update_self, ite_self, if_pos ⟨List.mem_cons_self, htrack, hold⟩]
        · rw [Function.update_of_ne hkey]
          exact if_congr (and_congr_left fun _ => by rw [List.mem_cons, or_iff_right hkey]) rfl rfl
      · rename_i hold
        refine ⟨(ih _ dbp).1, fun key => ?_⟩
        rw [(ih _ dbp).2 key, if_neg fun h => hold h.2.2, if_neg fun h => hold h.2.2]

variable (address) in
/-- A purge that is due decides by the time of the last one. -/
theorem purgeLocks_eq (hkeys : ∀ key, key ∈ keys ↔ (dbp key).isSome) (hdue : PurgeDue now dbp) :
    (purgeLocks address now keys dbp lockHorizon).map (·.time) = some now ∧
    ∀ key, key ≠ lockHorizon → purgeLocks address now keys dbp key =
      if ¬ trackLicense <+: key ∧ now - horizonTime dbp > cfLockHorizon then none else dbp key := by
  have hrun : ¬ ((dbp lockHorizon).isSome ∧
      now - ((dbp lockHorizon).getD ⟨0, 0⟩).time < secondsPerWeek * 4) := by
    rintro ⟨hsome, hearly⟩
    obtain ⟨entry, hentry⟩ := Option.isSome_iff_exists.1 hsome
    rw [hentry, Option.getD_some] at hearly
    exact absurd (hdue entry hentry) (Int.not_le.2 hearly)
  have htime : ((dbp lockHorizon).getD ⟨0, 0⟩).time = horizonTime dbp := by
    rw [horizonTime]
    cases dbp lockHorizon <;> rfl
  have hloop := purgeLocks_loop_eq address now keys
    ((dbp lockHorizon).getD ⟨0, 0⟩) dbp
  rw [htime] at hloop
  rw [purgeLocks]
  simp only [if_neg hrun]
  refine ⟨?_, fun key hkey => ?_⟩
  · rw [writeLockData, Function.update_self]
    rfl
  · rw [writeLockData, Function.update_of_ne hkey, hloop.2 key]
    by_cases hpresent : (dbp key).isSome
    · simp only [hkeys, hpresent, true_and]
    · have hnone : dbp key = none := Option.not_isSome_iff_eq_none.1 hpresent
      simp only [hnone, ite_self]

/-- A purge that is due does what it is for exactly if every record is older than the horizon or not
as the last purge is, or as the year 1970 is where there was none. -/
theorem purgeLocks_purged_iff (address : CString → Int) (now : Int) (keys : List CString)
    (dbp : LockDb Int) (hkeys : ∀ key, key ∈ keys ↔ (dbp key).isSome) (hdue : PurgeDue now dbp) :
    Purged now dbp (purgeLocks address now keys dbp) ↔
      ∀ key entry, dbp key = some entry → key ≠ lockHorizon → ¬ trackLicense <+: key →
        (now - entry.time > cfLockHorizon ↔ now - horizonTime dbp > cfLockHorizon) := by
  obtain ⟨hhorizon, hothers⟩ := purgeLocks_eq address hkeys hdue
  constructor
  · rintro ⟨hpurged, -⟩ key entry hentry hkey htrack
    obtain ⟨hstale, hfresh⟩ := hpurged key hkey
    rw [hothers key hkey, hentry] at hstale hfresh
    constructor
    · intro hold
      by_contra hlast
      have := hstale ⟨htrack, entry, hentry, hold⟩
      rw [if_neg fun h => hlast h.2] at this
      exact Option.some_ne_none _ this
    · intro hlast
      by_contra hold
      have := hfresh fun h => by
        obtain ⟨-, other, hother, hage⟩ := h
        rw [hentry, Option.some.injEq] at hother
        exact hold (hother ▸ hage)
      rw [if_pos ⟨htrack, hlast⟩] at this
      exact Option.some_ne_none _ this.symm
  · intro hagree
    refine ⟨fun key hkey => ?_, hhorizon⟩
    rw [hothers key hkey]
    constructor
    · rintro ⟨htrack, entry, hentry, hold⟩
      exact if_pos ⟨htrack, (hagree key entry hentry hkey htrack).1 hold⟩
    · intro hfresh
      cases hentry : dbp key with
      | none => exact ite_self _
      | some entry =>
        refine if_neg fun h => hfresh ⟨h.1, entry, hentry, ?_⟩
        exact (hagree key entry hentry hkey h.1).2 h.2

/-- The lock of an agent that started a second ago. -/
def runningLock : LockDb Int :=
  writeLockData (fun _ => none) (cflock "update".toList) ⟨4711, 1399999999⟩

theorem mem_keys_runningLock (key : CString) :
    key ∈ [cflock "update".toList] ↔ (runningLock key).isSome := by
  rw [List.mem_singleton, runningLock, writeLockData]
  by_cases hkey : key = cflock "update".toList
  · rw [hkey, Function.update_self]
    exact iff_of_true rfl rfl
  · rw [Function.update_of_ne hkey]
    exact iff_of_false hkey (by simp)

theorem purgeDue_runningLock : PurgeDue 1400000000 runningLock := by
  intro entry hentry
  rw [runningLock, writeLockData, Function.update_of_ne (by decide)] at hentry
  cases hentry

/-- Where no purge has been, the lock of a running agent is purged. -/
theorem purgeLocks_removes_running :
    ¬ ∀ (address : CString → Int) (now : Int) (keys : List CString) (dbp : LockDb Int),
      (∀ key, key ∈ keys ↔ (dbp key).isSome) → PurgeDue now dbp →
        Purged now dbp (purgeLocks address now keys dbp) := by
  intro h
  have hpurged :=
    (h (fun _ => 0) 1400000000 [cflock "update".toList] runningLock mem_keys_runningLock
    purgeDue_runningLock).1 (cflock "update".toList) (by decide)
  have hkept := hpurged.2 fun hstale => by
    obtain ⟨-, entry, hentry, hage⟩ := hstale
    rw [runningLock, writeLockData, Function.update_self, Option.some.injEq] at hentry
    rw [← hentry] at hage
    exact absurd hage (by decide)
  rw [runningLock, writeLockData, Function.update_self] at hkept
  exact absurd hkept (by decide)

theorem purgeLocks_purged_iff_running :
    Purged 1400000000 runningLock
        (purgeLocks (fun _ => 0) 1400000000 [cflock "update".toList] runningLock) ↔
      ∀ key entry, runningLock key = some entry → key ≠ lockHorizon → ¬ trackLicense <+: key →
        (1400000000 - entry.time > cfLockHorizon ↔
          1400000000 - horizonTime runningLock > cfLockHorizon) :=
  purgeLocks_purged_iff (fun _ => 0) 1400000000 [cflock "update".toList] runningLock
    mem_keys_runningLock purgeDue_runningLock

end Cfengine
