import Cfengine.Theory.Interleaving
import Cfengine.Theory.Runs
import Cfengine.Transaction

/-!
# Exclusive locks

An agent that finds the critical section free writes its record there in a second step, and between
the two another agent can find it free. Where that never happens, at most one agent has left the
loop of `WaitForCriticalSection` without having released the section (`Engaged`), and at most one
has found the lock free without having removed it (`Owns`).
-/

namespace Cfengine

universe u

variable {Pid : Type u} {attr : TransactionContext} {id : CString}

open Interleaving

/-- The agent is between `WaitForCriticalSection` and `ReleaseCriticalSection`. -/
def Inside : AgentState Pid → Prop
  | .inside _ _ => True
  | _ => False

/-- `AcquireLock` has returned a lock to the agent, and it is not yielded. -/
def Holding (agent : AgentState Pid) : Prop := agent = .holding

/-- What the locks are for. -/
def Exclusive (s : LockState Pid) : Prop := AtMostOne Inside s.agents ∧ AtMostOne Holding s.agents

/-- Fewer than 60 seconds have passed in the critical section, and the lock has not expired. -/
def InTime (attr : TransactionContext) (id : CString) (s : LockState Pid) : Prop :=
  (∀ pid entered task, s.agents pid = .inside entered task → s.clock < entered + 60) ∧
  ∀ entry, s.dbp (cflock id) = some entry → (s.clock - entry.time).tdiv 60 < attr.expireafter

/-- The agent has found the critical section free, and has not yet written its record there. -/
def Entering : AgentState Pid → Prop
  | .entering _ _ => True
  | _ => False

/-- The agent is about to find the critical section free. -/
def FindsFree (s : LockState Pid) (pid : Pid) : Prop :=
  ∃ now time, s.agents pid = .reading now time ∧
    ¬ (findLockTime s.dbp cfCriticalSection ≠ -1 ∧
      time - findLockTime s.dbp cfCriticalSection < 60)

/-- No agent finds the critical section free while another is entering it. -/
def Unraced (s : LockState Pid) : LockEvent Pid → Prop
  | .run pid => FindsFree s pid → ∀ other, ¬ Entering (s.agents other)
  | _ => True

/-! ## The invariant -/

/-- The agent has left the loop of `WaitForCriticalSection`, and has not released the section. -/
def Engaged : AgentState Pid → Prop
  | .entering _ _ => True
  | .inside _ _ => True
  | _ => False

/-- The agent has found the lock free, or has it. -/
def Owns : AgentState Pid → Prop
  | .inside _ (.writeAbsent _ _) => True
  | .inside _ (.writeLock _) => True
  | .inside _ (.release .locked) => True
  | .holding => True
  | _ => False

/-- There is a lock. -/
def LockTaken (id : CString) (dbp : LockDb Pid) : Prop :=
  ∃ entry, dbp (cflock id) = some entry ∧ 0 < entry.time

/-- What is true of the database where an agent is in the critical section. -/
def GoodTask (id : CString) (dbp : LockDb Pid) : Task Pid → Prop
  | .writeAbsent _ (some time) => 0 < time
  | .writeLock (some time) => 0 < time
  | .release .locked => LockTaken id dbp
  | .findLockPid => False
  | .terminate _ => False
  | _ => True

/-- What is true of the database where an agent is. -/
def Good (id : CString) (dbp : LockDb Pid) (pid : Pid) : AgentState Pid → Prop
  | .entering _ (some time) => 0 < time
  | .inside entered task =>
    dbp cfCriticalSection = some ⟨pid, entered⟩ ∧ 0 < entered ∧ GoodTask id dbp task
  | .holding => LockTaken id dbp
  | _ => True

/-- The times that an agent has read are not in the future. -/
def Past (clock : Int) : AgentState Pid → Prop
  | .waiting now => now ≤ clock
  | .reading now time => now ≤ clock ∧ time ≤ clock
  | .entering now _ => now ≤ clock
  | .inside _ (.findLast now) => now ≤ clock
  | .inside _ (.writeLast now _) => now ≤ clock
  | .inside _ (.findLock now) => now ≤ clock
  | _ => True

/-- What holds in every state. -/
structure Inv (id : CString) (s : LockState Pid) : Prop where
  clock : 0 < s.clock
  engaged : AtMostOne Engaged s.agents
  owns : AtMostOne Owns s.agents
  good : ∀ pid, Good id s.dbp pid (s.agents pid)
  past : ∀ pid, Past s.clock (s.agents pid)

theorem Inv.exclusive {s : LockState Pid} (h : Inv id s) : Exclusive s := by
  constructor
  · refine h.engaged.mono fun agent hagent => ?_
    cases agent <;> trivial
  · refine h.owns.mono fun agent hagent => ?_
    rw [hagent]
    trivial

/-! ## The records of the database -/

theorem cflock_ne_cflast (id : CString) : cflock id ≠ cflast id := by
  intro h
  have := List.append_cancel_right h
  exact absurd this (by decide)

theorem cfCriticalSection_ne_cflock (id : CString) : cfCriticalSection ≠ cflock id := by
  intro h
  have hhead : some 'C' = some 'l' := congrArg List.head? h
  exact absurd hhead (by decide)

theorem cfCriticalSection_ne_cflast (id : CString) : cfCriticalSection ≠ cflast id := by
  intro h
  have hhead : some 'C' = some 'l' := congrArg List.head? h
  exact absurd hhead (by decide)

section
variable {dbp dbp' : LockDb Pid} {pid : Pid} {agent : AgentState Pid} {key : CString}
  {entry : LockData Pid} {s : LockState Pid}

theorem findLockTime_of_eq_some (h : dbp key = some entry) :
    findLockTime dbp key = entry.time := by
  rw [findLockTime, h]

theorem exists_of_findLockTime_ne (h : findLockTime dbp key ≠ -1) :
    ∃ entry, dbp key = some entry ∧ findLockTime dbp key = entry.time := by
  cases hentry : dbp key with
  | none => rw [findLockTime, hentry] at h; exact absurd rfl h
  | some entry => exact ⟨entry, rfl, findLockTime_of_eq_some hentry⟩

theorem LockTaken.congr (h : LockTaken id dbp) (hlock : dbp' (cflock id) = dbp (cflock id)) :
    LockTaken id dbp' := by
  rwa [LockTaken, hlock]

theorem LockTaken.writeLast (h : LockTaken id dbp) :
    LockTaken id (writeLockData dbp (cflast id) entry) :=
  h.congr (Function.update_of_ne (cflock_ne_cflast id) _ _)

theorem lockTaken_writeLock (h : 0 < entry.time) :
    LockTaken id (writeLockData dbp (cflock id) entry) :=
  ⟨entry, Function.update_self _ _ _, h⟩

theorem GoodTask.mono {task : Task Pid} (h : GoodTask id dbp task)
    (hlock : LockTaken id dbp → LockTaken id dbp') : GoodTask id dbp' task := by
  cases task with
  | release verdict => cases verdict with
    | locked => exact hlock h
    | _ => trivial
  | writeAbsent now time => cases time <;> exact h
  | writeLock time => cases time <;> exact h
  | findLockPid => exact h
  | terminate other => exact h
  | _ => trivial

theorem Good.mono (h : Good id dbp pid agent)
    (hcritical : dbp' cfCriticalSection = dbp cfCriticalSection)
    (hlock : LockTaken id dbp → LockTaken id dbp') : Good id dbp' pid agent := by
  cases agent with
  | inside entered task => exact ⟨hcritical.trans h.1, h.2.1, h.2.2.mono hlock⟩
  | holding => exact hlock h
  | entering now time => cases time <;> exact h
  | _ => trivial

/-- The record of the critical section does not matter to those who are outside. -/
theorem Good.of_not_engaged (h : Good id dbp pid agent) (hagent : ¬ Engaged agent)
    (hlock : dbp' (cflock id) = dbp (cflock id)) : Good id dbp' pid agent := by
  cases agent with
  | holding => exact LockTaken.congr h hlock
  | inside entered task => exact absurd trivial hagent
  | entering now time => exact absurd trivial hagent
  | _ => trivial

/-- The lock does not matter to those who do not have it. -/
theorem Good.of_not_owns (h : Good id dbp pid agent) (hagent : ¬ Owns agent)
    (hcritical : dbp' cfCriticalSection = dbp cfCriticalSection) : Good id dbp' pid agent := by
  cases agent with
  | holding => exact absurd trivial hagent
  | inside entered task =>
    refine ⟨hcritical.trans h.1, h.2.1, ?_⟩
    cases task with
    | release verdict => cases verdict with
      | locked => exact absurd trivial hagent
      | _ => trivial
    | writeAbsent now time => exact absurd trivial hagent
    | writeLock time => exact absurd trivial hagent
    | findLockPid => exact h.2.2
    | terminate other => exact h.2.2
    | _ => trivial
  | entering now time => cases time <;> exact h
  | _ => trivial

/-- While an agent is in the critical section and there is no lock, no other agent has one. -/
theorem Inv.others_not_owns (h : Inv id s) (hengaged : Engaged (s.agents pid))
    (hfree : ¬ LockTaken id s.dbp) (other : Pid) (hne : other ≠ pid) : ¬ Owns (s.agents other) := by
  intro howns
  have hother := h.engaged.others hengaged other hne
  have hgood := h.good other
  cases hagent : s.agents other with
  | inside entered task => exact hother (by rw [hagent]; trivial)
  | holding =>
    rw [hagent] at hgood
    exact hfree hgood
  | _ => rw [hagent] at howns; exact howns

/-- With a lock in time, the agent does not try to end another one. -/
theorem checkLock_of_inTime (h : InTime attr id s) {now : Int} (hnow : now ≤ s.clock)
    (hfound : findLockTime s.dbp (cflock id) ≠ -1) :
    (checkLock attr now (findLockTime s.dbp (cflock id)) : Task Pid) =
      if findLockTime s.dbp (cflock id) ≠ 0 then .release .refused else .writeLock none := by
  obtain ⟨entry, hentry, htime⟩ := exists_of_findLockTime_ne hfound
  have hearly : (now - findLockTime s.dbp (cflock id)).tdiv 60 < attr.expireafter := by
    rw [htime]
    exact Int.lt_of_le_of_lt (Int.tdiv_le_tdiv (by decide) (by omega)) (h.2 entry hentry)
  rw [checkLock, if_neg (Int.not_le.2 hearly)]

variable (Pid) in
theorem checkLast_eq (attr : TransactionContext) (now lastcompleted : Int) :
    (checkLast attr now lastcompleted : Task Pid) = .release .refused ∨
      (checkLast attr now lastcompleted : Task Pid) = .findLock now := by
  rw [checkLast]
  split
  · exact .inl rfl
  · split
    · exact .inl rfl
    · exact .inr rfl

end

section
variable [DecidableEq Pid] {s : LockState Pid} {pid : Pid} {dbp : LockDb Pid}

/-! ## Moves -/

/-- A move of one agent. -/
theorem Inv.move (h : Inv id s) {agent : AgentState Pid}
    (hengaged : Engaged agent → ∀ other, other ≠ pid → ¬ Engaged (s.agents other))
    (howns : Owns agent → ∀ other, other ≠ pid → ¬ Owns (s.agents other))
    (hothers : ∀ other, other ≠ pid → Good id s.dbp other (s.agents other) →
      Good id dbp other (s.agents other))
    (hgood : Good id dbp pid agent) (hpast : Past s.clock agent) :
    Inv id (s.move pid (dbp, agent)) where
  clock := h.clock
  engaged := h.engaged.update hengaged
  owns := h.owns.update howns
  good := forall_update hothers h.good hgood
  past := forall_update (fun _ _ h => h) h.past hpast

/-- A move outside of the critical section, without the lock. -/
theorem Inv.moveOutside (h : Inv id s) {agent : AgentState Pid} (hengaged : ¬ Engaged agent)
    (howns : ¬ Owns agent)
    (hothers : ∀ other, other ≠ pid → Good id s.dbp other (s.agents other) →
      Good id dbp other (s.agents other))
    (hpast : Past s.clock agent) : Inv id (s.move pid (dbp, agent)) := by
  refine h.move (fun h => absurd h hengaged) (fun h => absurd h howns) hothers ?_ hpast
  cases agent with
  | inside entered task => exact absurd trivial hengaged
  | entering now time => exact absurd trivial hengaged
  | holding => exact absurd trivial howns
  | _ => trivial

/-- A move in the critical section. -/
theorem Inv.moveInside (h : Inv id s) {entered : Int} {task task' : Task Pid}
    (hagent : s.agents pid = .inside entered task)
    (hcritical : dbp cfCriticalSection = s.dbp cfCriticalSection)
    (hlock : LockTaken id s.dbp → LockTaken id dbp)
    (howns : Owns (.inside entered task') → ∀ other, other ≠ pid → ¬ Owns (s.agents other))
    (hgood : GoodTask id dbp task') (hpast : Past s.clock (.inside entered task')) :
    Inv id (s.move pid (dbp, .inside entered task')) := by
  have hinside := h.good pid
  rw [hagent] at hinside
  refine h.move (fun _ => h.engaged.others (by rw [hagent]; trivial)) howns
    (fun other _ hother => hother.mono hcritical hlock) ?_ hpast
  exact ⟨hcritical.trans hinside.1, hinside.2.1, hgood⟩

/-- The critical section is released. -/
theorem Inv.moveRelease (h : Inv id s) {entered : Int} {verdict : Verdict} {agent : AgentState Pid}
    (hagent : s.agents pid = .inside entered (.release verdict)) (hengaged : ¬ Engaged agent)
    (howns : Owns agent → verdict = .locked) (hholding : agent = .holding → verdict = .locked)
    (hpast : Past s.clock agent) :
    Inv id (s.move pid (removeLock s.dbp cfCriticalSection, agent)) := by
  have hothers := h.engaged.others (i := pid) (by rw [hagent]; trivial)
  have hlock : removeLock s.dbp cfCriticalSection (cflock id) = s.dbp (cflock id) :=
    Function.update_of_ne (cfCriticalSection_ne_cflock id).symm _ _
  refine h.move (fun h => absurd h hengaged) (fun hown => h.owns.others ?_)
    (fun other hne hother => hother.of_not_engaged (hothers other hne) hlock) ?_ hpast
  · rw [hagent, howns hown]
    trivial
  · have hinside := h.good pid
    rw [hagent] at hinside
    cases agent with
    | inside entered task => exact absurd trivial hengaged
    | entering now time => exact absurd trivial hengaged
    | holding =>
      rw [hholding rfl] at hinside
      exact LockTaken.congr hinside.2.2 hlock
    | _ => trivial

/-- What follows on the check of the last use. -/
theorem Inv.moveLast (h : Inv id s) {entered : Int} {task : Task Pid}
    (hagent : s.agents pid = .inside entered task)
    (hcritical : dbp cfCriticalSection = s.dbp cfCriticalSection)
    (hlock : LockTaken id s.dbp → LockTaken id dbp) {now : Int} (hnow : now ≤ s.clock)
    (lastcompleted : Int) :
    Inv id (s.move pid (dbp, .inside entered (checkLast attr now lastcompleted))) := by
  rcases checkLast_eq Pid attr now lastcompleted with hcheck | hcheck
  · rw [hcheck]
    exact h.moveInside hagent hcritical hlock False.elim trivial trivial
  · rw [hcheck]
    exact h.moveInside hagent hcritical hlock False.elim trivial hnow

/-! ## One step -/

/-- A step in the critical section. -/
theorem Inv.runTask (h : Inv id s) (htime : InTime attr id s) {entered : Int} {task : Task Pid}
    (hagent : s.agents pid = .inside entered task) :
    Inv id (s.move pid (task.run attr id s.clock s.dbp pid entered)) := by
  have hengaged : Engaged (s.agents pid) := by
    rw [hagent]
    trivial
  have hgood := h.good pid
  have hpast := h.past pid
  rw [hagent] at hgood hpast
  obtain ⟨-, -, hgood⟩ := hgood
  have howns : Owns (.inside entered task) → ∀ other, other ≠ pid → ¬ Owns (s.agents other) :=
    fun hown => h.owns.others (by rwa [hagent])
  have hlast (entry) : writeLockData s.dbp (cflast id) entry cfCriticalSection =
      s.dbp cfCriticalSection := Function.update_of_ne (cfCriticalSection_ne_cflast id) _ _
  have hlock (entry) : writeLockData s.dbp (cflock id) entry cfCriticalSection =
      s.dbp cfCriticalSection := Function.update_of_ne (cfCriticalSection_ne_cflock id) _ _
  cases task with
  | findLast now =>
    rw [Task.run]
    split
    · exact h.moveInside hagent rfl (fun h => h) False.elim trivial hpast
    · exact h.moveLast hagent rfl (fun h => h) hpast _
  | writeLast now time =>
    cases time with
    | none => exact h.moveInside hagent rfl (fun h => h) False.elim trivial hpast
    | some time => exact h.moveLast hagent (hlast _) (fun h => h.writeLast) hpast _
  | findLock now =>
    rw [Task.run]
    split
    · rename_i habsent
      refine h.moveInside hagent rfl (fun h => h) (fun _ => h.others_not_owns hengaged ?_)
        trivial trivial
      rintro ⟨entry, hentry, hpos⟩
      rw [findLockTime_of_eq_some hentry] at habsent
      omega
    · rename_i hfound
      rw [checkLock_of_inTime htime hpast hfound]
      split
      · exact h.moveInside hagent rfl (fun h => h) False.elim trivial trivial
      · rename_i hzero
        refine h.moveInside hagent rfl (fun h => h) (fun _ => h.others_not_owns hengaged ?_)
          trivial trivial
        rintro ⟨entry, hentry, hpos⟩
        rw [findLockTime_of_eq_some hentry] at hzero
        omega
  | writeAbsent now time =>
    cases time with
    | none => exact h.moveInside hagent rfl (fun h => h) howns h.clock trivial
    | some time =>
      exact h.moveInside hagent (hlock _) (fun _ => lockTaken_writeLock hgood)
        (fun _ => howns trivial)
        trivial trivial
  | findLockPid => exact hgood.elim
  | terminate other => exact hgood.elim
  | writeLock time =>
    cases time with
    | none => exact h.moveInside hagent rfl (fun h => h) howns h.clock trivial
    | some time =>
      exact h.moveInside hagent (hlock _) (fun _ => lockTaken_writeLock hgood)
        (fun _ => howns trivial)
        (lockTaken_writeLock hgood) trivial
  | release verdict =>
    cases verdict with
    | locked => exact h.moveRelease hagent False.elim (fun _ => rfl) (fun _ => rfl) trivial
    | refused => exact h.moveRelease hagent False.elim False.elim (fun h => by cases h) trivial
    | fatal => exact h.moveRelease hagent False.elim False.elim (fun h => by cases h) trivial

/-- An agent that finds the critical section free, and no other one entering it. -/
theorem Inv.runReading (h : Inv id s) (htime : InTime attr id s)
    (hrace : Unraced s (.run pid)) {now time : Int} (hagent : s.agents pid = .reading now time) :
    Inv id (s.move pid ((AgentState.reading now time).run attr id s.clock s.dbp pid)) := by
  have hpast := h.past pid
  rw [hagent] at hpast
  rw [AgentState.run]
  split
  · exact h.moveOutside False.elim False.elim (fun _ _ h => h) hpast.1
  · rename_i hfree
    refine h.move (fun _ other _ => ?_) False.elim (fun _ _ h => h) trivial hpast.1
    have hentering := hrace ⟨now, time, hagent, hfree⟩ other
    have hgood := h.good other
    cases hother : s.agents other with
    | entering now time =>
      rw [hother] at hentering
      exact absurd trivial hentering
    | inside entered task =>
      -- the record is the one of that agent, and it is not a minute old
      rw [hother] at hgood
      have hearly := htime.1 other entered task hother
      rw [findLockTime_of_eq_some hgood.1] at hfree
      have hpos := hgood.2.1
      refine absurd ⟨?_, ?_⟩ hfree
      · show entered ≠ -1
        omega
      · show time - entered < 60
        have := hpast.2
        omega
    | _ => exact False.elim

/-- The next call of an agent. -/
theorem Inv.run (h : Inv id s) (htime : InTime attr id s) (hrace : Unraced s (.run pid)) :
    Inv id (s.move pid ((s.agents pid).run attr id s.clock s.dbp pid)) := by
  have hgood := h.good pid
  have hpast := h.past pid
  have hlast (entry) (other) (hother : Good id s.dbp other (s.agents other)) :
      Good id (writeLockData s.dbp (cflast id) entry) other (s.agents other) :=
    hother.mono (Function.update_of_ne (cfCriticalSection_ne_cflast id) _ _) fun h => h.writeLast
  cases hagent : s.agents pid with
  | idle => exact h.moveOutside False.elim False.elim (fun _ _ h => h) trivial
  | waiting now =>
    rw [hagent] at hpast
    exact h.moveOutside False.elim False.elim (fun _ _ h => h) ⟨hpast, Int.le_refl _⟩
  | reading now time => exact h.runReading htime hrace hagent
  | entering now time =>
    rw [hagent] at hgood hpast
    have hothers := h.engaged.others (i := pid) (by rw [hagent]; trivial)
    cases time with
    | none => exact h.move (fun _ => hothers) False.elim (fun _ _ h => h) h.clock hpast
    | some time =>
      refine h.move (fun _ => hothers) False.elim (fun other hne hother => ?_) ?_ hpast
      · exact hother.of_not_engaged (hothers other hne)
          (Function.update_of_ne (cfCriticalSection_ne_cflock id).symm _ _)
      · exact ⟨Function.update_self _ _ _, hgood, trivial⟩
  | inside entered task => exact h.runTask htime hagent
  | holding =>
    rw [hagent] at hgood
    exact h.move False.elim (fun _ => h.owns.others (by rw [hagent]; trivial))
      (fun _ _ h => h) hgood
      trivial
  | yielding time =>
    cases time with
    | none => exact h.moveOutside False.elim False.elim (fun _ _ h => h) trivial
    | some time =>
      exact h.moveOutside False.elim False.elim (fun other _ hother => hlast _ other hother) trivial
  | terminated => exact h.moveOutside False.elim False.elim (fun _ _ h => h) trivial

omit [DecidableEq Pid] in
theorem Past.mono {clock clock' : Int} (h : clock ≤ clock') {agent : AgentState Pid}
    (hagent : Past clock agent) : Past clock' agent := by
  cases agent with
  | waiting now => exact Int.le_trans hagent h
  | reading now time => exact ⟨Int.le_trans hagent.1 h, Int.le_trans hagent.2 h⟩
  | entering now time => exact Int.le_trans hagent h
  | inside entered task =>
    cases task with
    | findLast now => exact Int.le_trans hagent h
    | writeLast now time => exact Int.le_trans hagent h
    | findLock now => exact Int.le_trans hagent h
    | _ => trivial
  | _ => trivial

/-- What an event keeps. -/
theorem Inv.step (h : Inv id s) {e : LockEvent Pid} (htime : InTime attr id s)
    (hrace : Unraced s e) :
    Inv id (s.step attr id e) := by
  cases e with
  | tick seconds =>
    have hclock : s.clock ≤ s.clock + seconds := Int.le_add_of_nonneg_right (Int.natCast_nonneg _)
    exact ⟨Int.lt_of_lt_of_le h.clock hclock, h.engaged, h.owns, h.good,
      fun pid => (h.past pid).mono hclock⟩
  | acquireLock pid age =>
    rw [LockState.step]
    split
    · refine h.moveOutside False.elim False.elim (fun _ _ h => h) ?_
      exact Int.sub_le_self _ (Int.natCast_nonneg _)
    · exact h
  | yieldCurrentLock pid =>
    rw [LockState.step]
    split
    · rename_i hagent
      refine h.moveOutside False.elim False.elim (fun other hne hother => ?_) trivial
      exact hother.of_not_owns (h.owns.others (by rw [hagent]; trivial) other hne)
        (Function.update_of_ne (cfCriticalSection_ne_cflock id) _ _)
    · exact h
  | run pid => exact h.run htime hrace
  | terminated pid termination =>
    rw [LockState.step]
    split
    · rename_i hagent
      have hgood := h.good pid
      rw [hagent] at hgood
      exact hgood.2.2.elim
    · exact h

/-! ## Runs -/

/-- No agent has been started. -/
def Started (s : LockState Pid) : Prop := 0 < s.clock ∧ ∀ pid, s.agents pid = .idle

omit [DecidableEq Pid] in
theorem Started.inv (h : Started s) : Inv id s where
  clock := h.1
  engaged := atMostOne_of_forall_not fun pid => by rw [h.2 pid]; exact False.elim
  owns := atMostOne_of_forall_not fun pid => by rw [h.2 pid]; exact False.elim
  good pid := by rw [h.2 pid]; trivial
  past pid := by rw [h.2 pid]; trivial

/-- In a run in which no agent finds the critical section free while another is entering it, the
locks are exclusive. -/
theorem acquireLock_exclusive (attr : TransactionContext) (id : CString) (s : LockState Pid)
    (hstart : Started s) (events : List (LockEvent Pid))
    (htime : Runs.Along (LockState.step attr id) (fun s _ => InTime attr id s) s events)
    (hrace : Runs.Along (LockState.step attr id) Unraced s events) :
    ∀ pre, pre <+: events → Exclusive (Runs.run (LockState.step attr id) s pre) := by
  intro pre hpre
  have hboth := htime.and hrace
  have hboth := hboth.of_prefix hpre
  exact (Runs.invariant hstart.inv (fun _ _ h hstep => h.step hstep.1 hstep.2) hboth).exclusive

omit [DecidableEq Pid] in
theorem inTime_iff : InTime attr id s ↔
    (∀ pid, match s.agents pid with
      | .inside entered _ => s.clock < entered + 60
      | _ => True) ∧
    ∀ entry ∈ s.dbp (cflock id), (s.clock - entry.time).tdiv 60 < attr.expireafter := by
  refine and_congr (forall_congr' fun pid => ?_) Iff.rfl
  cases s.agents pid <;> simp

instance : DecidablePred (Inside : AgentState Pid → Prop) := fun agent => by
  cases agent <;> unfold Inside <;> infer_instance

instance : DecidablePred (Holding : AgentState Pid → Prop) := fun agent =>
  inferInstanceAs (Decidable (agent = .holding))

instance [Fintype Pid] : Decidable (InTime attr id s) :=
  have (pid : Pid) : Decidable (match s.agents pid with
      | .inside entered _ => s.clock < entered + 60
      | _ => True) := by
    cases s.agents pid <;> infer_instance
  decidable_of_iff _ inTime_iff.symm

omit [DecidableEq Pid] in
theorem findsFree_iff : FindsFree s pid ↔ match s.agents pid with
    | .reading _ time => ¬ (findLockTime s.dbp cfCriticalSection ≠ -1 ∧
        time - findLockTime s.dbp cfCriticalSection < 60)
    | _ => False := by
  rw [FindsFree]
  cases s.agents pid <;> simp

instance : Decidable (FindsFree s pid) :=
  have : Decidable (match s.agents pid with
      | .reading _ time => ¬ (findLockTime s.dbp cfCriticalSection ≠ -1 ∧
          time - findLockTime s.dbp cfCriticalSection < 60)
      | _ => False) := by
    cases s.agents pid <;> infer_instance
  decidable_of_iff _ findsFree_iff.symm

instance : DecidablePred (Entering : AgentState Pid → Prop) := fun agent => by
  cases agent <;> unfold Entering <;> infer_instance

instance [Fintype Pid] (e : LockEvent Pid) : Decidable (Unraced s e) := by
  cases e <;> unfold Unraced <;> infer_instance

end

/-! ## Two agents -/

/-- The promise was last kept long ago. -/
def raceStart : LockState Bool where
  clock := 1000000
  dbp := writeLockData (fun _ => none) (cflast "update".toList) ⟨false, 1⟩
  agents _ := .idle

/-- The second agent finds the section taken, and has to wait. -/
def queue : List (LockEvent Bool) :=
  [.acquireLock false 0, .acquireLock true 0, .run false, .run true, .run false, .run false,
    .run false, .run true]

theorem acquireLock_exclusive_queue :
    Exclusive (Runs.run (LockState.step ⟨1, 120⟩ "update".toList) raceStart queue) :=
  acquireLock_exclusive ⟨1, 120⟩ "update".toList raceStart ⟨by decide, fun _ => rfl⟩ queue
    (by decide) (by decide) queue (List.prefix_refl _)

/-- Two agents find the critical section free before one of them has written its record. -/
def race : List (LockEvent Bool) :=
  [.acquireLock false 0, .acquireLock true 0, .run false, .run true, .run false, .run true,
    .run false, .run false, .run true, .run true]

/-- They find the lock absent before one of them has written it. -/
def raceForLock : List (LockEvent Bool) :=
  [.run false, .run true, .run false, .run true, .run false, .run false, .run false, .run false,
    .run false, .run true, .run true, .run true, .run true, .run true]

theorem acquireLock_not_exclusive :
    (¬ ∀ (attr : TransactionContext) (id : CString) (s : LockState Bool)
      (events : List (LockEvent Bool)), Started s →
      Runs.Along (LockState.step attr id) (fun s _ => InTime attr id s) s events →
      AtMostOne Inside (Runs.run (LockState.step attr id) s events).agents) ∧
    ¬ ∀ (attr : TransactionContext) (id : CString) (s : LockState Bool)
      (events : List (LockEvent Bool)), Started s →
      Runs.Along (LockState.step attr id) (fun s _ => InTime attr id s) s events →
      AtMostOne Holding (Runs.run (LockState.step attr id) s events).agents := by
  constructor
  · intro h
    have hinside := h ⟨1, 120⟩ "update".toList raceStart race ⟨by decide, fun _ => rfl⟩
      (by decide) false true
    have hboth : Inside
      ((Runs.run (LockState.step ⟨1, 120⟩ "update".toList) raceStart race).agents false) ∧
        Inside ((Runs.run (LockState.step ⟨1, 120⟩ "update".toList) raceStart race).agents
          true) := by
      decide
    exact absurd (hinside hboth.1 hboth.2) (by decide)
  · intro h
    have hholding :=
      h ⟨1, 120⟩ "update".toList raceStart (race ++ raceForLock) ⟨by decide, fun _ => rfl⟩
      (by decide) false true
    exact absurd (hholding (by decide) (by decide)) (by decide)

end Cfengine
