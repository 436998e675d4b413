import Cfengine.Defs

/-!
# Locks (`transaction.c`)

The records of the lock database, the purge of old ones, and the agents that take the lock of one
promise. An agent stops between any two of its calls of `time` and of the database, so that the
others can go on there.
-/

namespace Cfengine

universe u

/-- `LockData`. The processes are those of the platform. -/
structure LockData (Pid : Type u) where
  pid : Pid
  time : Int
deriving DecidableEq

/-- The lock database. -/
abbrev LockDb (Pid : Type u) := CString → Option (LockData Pid)

section
variable {Pid : Type u}

/-- `FindLockTime` -/
def findLockTime (dbp : LockDb Pid) (name : CString) : Int :=
  match dbp name with
  | some entry => entry.time
  | none => -1

/-- `WriteLockData` -/
def writeLockData (dbp : LockDb Pid) (name : CString) (lockData : LockData Pid) : LockDb Pid :=
  Function.update dbp name (some lockData)

/-- `RemoveLock` -/
def removeLock (dbp : LockDb Pid) (name : CString) : LockDb Pid := Function.update dbp name none

end

/-! ## Purging -/

/-- `SECONDS_PER_WEEK` -/
def secondsPerWeek : Int := 604800

/-- `CF_LOCKHORIZON` -/
def cfLockHorizon : Int := secondsPerWeek * 4

/-- The key of the last purge. -/
def lockHorizon : CString := "lock_horizon".toList

/-- What the keys of license tracking start with. -/
def trackLicense : CString := "last.internal_bundle.track_license.handle".toList

/-- The loop of `PurgeLocks`, with the keys that the cursor has in front of it. `NextDB` stores a
pointer to the value at `entry`, where the process is: `address` is what is then there. -/
def purgeLocks.loop (address : CString → Int) (now : Int) :
    List CString → LockData Int → LockDb Int → LockData Int × LockDb Int
  | [], entry, dbp => (entry, dbp)
  | key :: keys, entry, dbp =>
    let entry := { entry with pid := address key }
    if trackLicense.isPrefixOf key then loop address now keys entry dbp
    else if now - entry.time > cfLockHorizon then
      loop address now keys entry (removeLock dbp key)
    else loop address now keys entry dbp

/-- `PurgeLocks`, with the keys in the order of the cursor. -/
def purgeLocks (address : CString → Int) (now : Int) (keys : List CString) (dbp : LockDb Int) :
    LockDb Int :=
  let entry : LockData Int := (dbp lockHorizon).getD ⟨0, 0⟩
  if (dbp lockHorizon).isSome ∧ now - entry.time < secondsPerWeek * 4 then dbp
  else
    let (entry, dbp) := purgeLocks.loop address now keys entry dbp
    writeLockData dbp lockHorizon { entry with time := now }

/-! ## The lock of a promise -/

/-- The times of a promise that matter to its lock. -/
structure TransactionContext where
  ifelapsed : Int
  expireafter : Int

/-- `CF_CRITICAL_SECTION` -/
def cfCriticalSection : CString := "CF_CRITICAL_SECTION".toList

/-- The lock of the promise with this identification. -/
def cflock (id : CString) : CString := "lock.".toList ++ id

/-- The record of its last use. -/
def cflast (id : CString) : CString := "last.".toList ++ id

/-- How the critical section is left. -/
inductive Verdict where
  /-- `AcquireLock` returns a lock. -/
  | locked
  /-- It returns none. -/
  | refused
  /-- `FatalError` -/
  | fatal
deriving DecidableEq

/-- Where an agent is in the critical section. A `WriteLock` has its time when `time` has been
called there. -/
inductive Task (Pid : Type u) where
  /-- `FindLock(cflast)` -/
  | findLast (now : Int)
  /-- `WriteLock` in `FindLock(cflast)` -/
  | writeLast (now : Int) (time : Option Int)
  /-- `FindLock(cflock)` -/
  | findLock (now : Int)
  /-- `WriteLock` in `FindLock(cflock)` -/
  | writeAbsent (now : Int) (time : Option Int)
  /-- `FindLockPid` -/
  | findLockPid
  /-- `GracefulTerminate` -/
  | terminate (pid : Pid)
  /-- `WriteLock(cflock)` -/
  | writeLock (time : Option Int)
  /-- `ReleaseCriticalSection` -/
  | release (verdict : Verdict)
deriving DecidableEq

/-- Where an agent is. -/
inductive AgentState (Pid : Type u) where
  | idle
  /-- `time` in `WaitForCriticalSection` -/
  | waiting (now : Int)
  /-- `FindLockTime` in `WaitForCriticalSection`, at this time -/
  | reading (now time : Int)
  /-- `WriteLock` in `WaitForCriticalSection` -/
  | entering (now : Int) (time : Option Int)
  /-- In the critical section, since this time -/
  | inside (entered : Int) (task : Task Pid)
  /-- `AcquireLock` has returned a lock. -/
  | holding
  /-- `WriteLock` in `YieldCurrentLock` -/
  | yielding (time : Option Int)
  | terminated
deriving DecidableEq

/-- The agents and what they share. -/
structure LockState (Pid : Type u) where
  clock : Int
  dbp : LockDb Pid
  agents : Pid → AgentState Pid

/-- What `GracefulTerminate` does. -/
inductive Termination where
  | killed
  /-- There is no such process, or it takes too long. -/
  | ignored
  | failed
deriving DecidableEq

/-- What happens next. -/
inductive LockEvent (Pid : Type u) where
  /-- Time passes. -/
  | tick (seconds : Nat)
  /-- `AcquireLock`, with a `now` that is so many seconds old -/
  | acquireLock (pid : Pid) (age : Nat)
  /-- `YieldCurrentLock` -/
  | yieldCurrentLock (pid : Pid)
  /-- An agent makes its next call of `time` or of the database. -/
  | run (pid : Pid)
  /-- `GracefulTerminate` returns. -/
  | terminated (pid : Pid) (termination : Termination)
deriving DecidableEq

section
variable {Pid : Type u} [DecidableEq Pid]

/-- `AcquireLock` with the time of the last use. -/
def checkLast (attr : TransactionContext) (now lastcompleted : Int) : Task Pid :=
  let elapsedtime := (now - lastcompleted).tdiv 60
  if elapsedtime < 0 then .release .refused
  else if elapsedtime < attr.ifelapsed then .release .refused
  else .findLock now

/-- `AcquireLock` with the time of the lock. -/
def checkLock (attr : TransactionContext) (now lastcompleted : Int) : Task Pid :=
  let elapsedtime := (now - lastcompleted).tdiv 60
  if lastcompleted ≠ 0 then
    if elapsedtime ≥ attr.expireafter then .findLockPid else .release .refused
  else .writeLock none

/-- The next call of an agent in the critical section: the database behind it, and where the agent
then is. -/
def Task.run (attr : TransactionContext) (id : CString) (clock : Int) (dbp : LockDb Pid) (pid : Pid)
    (entered : Int) : Task Pid → LockDb Pid × AgentState Pid
  | .findLast now =>
    let mtime := findLockTime dbp (cflast id)
    (dbp, .inside entered (if mtime = -1 then .writeLast now none else checkLast attr now mtime))
  | .writeLast now none => (dbp, .inside entered (.writeLast now (some clock)))
  | .writeLast now (some time) =>
    (writeLockData dbp (cflast id) ⟨pid, time⟩, .inside entered (checkLast attr now 0))
  | .findLock now =>
    let mtime := findLockTime dbp (cflock id)
    (dbp, .inside entered (if mtime = -1 then .writeAbsent now none else checkLock attr now mtime))
  | .writeAbsent now none => (dbp, .inside entered (.writeAbsent now (some clock)))
  | .writeAbsent now (some time) =>
    (writeLockData dbp (cflock id) ⟨pid, time⟩, .inside entered (checkLock attr now 0))
  | .findLockPid =>
    match dbp (cflock id) with
    | none => (dbp, .inside entered (.writeLock none))
    | some entry => (dbp, .inside entered (.terminate entry.pid))
  | .terminate other => (dbp, .inside entered (.terminate other))
  | .writeLock none => (dbp, .inside entered (.writeLock (some clock)))
  | .writeLock (some time) =>
    (writeLockData dbp (cflock id) ⟨pid, time⟩, .inside entered (.release .locked))
  | .release .locked => (removeLock dbp cfCriticalSection, .holding)
  | .release .refused => (removeLock dbp cfCriticalSection, .idle)
  | .release .fatal => (removeLock dbp cfCriticalSection, .terminated)

/-- The next call of an agent. -/
def AgentState.run (attr : TransactionContext) (id : CString) (clock : Int) (dbp : LockDb Pid)
    (pid : Pid) : AgentState Pid → LockDb Pid × AgentState Pid
  | .waiting now => (dbp, .reading now clock)
  | .reading now time =>
    let mtime := findLockTime dbp cfCriticalSection
    (dbp, if mtime ≠ -1 ∧ time - mtime < 60 then .waiting now else .entering now none)
  | .entering now none => (dbp, .entering now (some clock))
  | .entering now (some time) =>
    (writeLockData dbp cfCriticalSection ⟨pid, time⟩, .inside time (.findLast now))
  | .inside entered task => task.run attr id clock dbp pid entered
  | .yielding none => (dbp, .yielding (some clock))
  | .yielding (some time) => (writeLockData dbp (cflast id) ⟨pid, time⟩, .idle)
  | .idle => (dbp, .idle)
  | .holding => (dbp, .holding)
  | .terminated => (dbp, .terminated)

/-- The agent is there now, with this database. -/
def LockState.move (s : LockState Pid) (pid : Pid) (next : LockDb Pid × AgentState Pid) :
    LockState Pid :=
  { s with dbp := next.1, agents := Function.update s.agents pid next.2 }

/-- One event. Where it cannot happen, it changes nothing. -/
def LockState.step (attr : TransactionContext) (id : CString) (s : LockState Pid) :
    LockEvent Pid → LockState Pid
  | .tick seconds => { s with clock := s.clock + seconds }
  | .acquireLock pid age =>
    match s.agents pid with
    | .idle => s.move pid (s.dbp, .waiting (s.clock - age))
    | _ => s
  | .yieldCurrentLock pid =>
    match s.agents pid with
    | .holding => s.move pid (removeLock s.dbp (cflock id), .yielding none)
    | _ => s
  | .run pid => s.move pid ((s.agents pid).run attr id s.clock s.dbp pid)
  | .terminated pid termination =>
    match s.agents pid with
    | .inside entered (.terminate other) =>
      match termination with
      | .killed =>
        (s.move other (s.dbp, .terminated)).move pid (s.dbp, .inside entered (.writeLock none))
      | .ignored => s.move pid (s.dbp, .inside entered (.writeLock none))
      | .failed => s.move pid (s.dbp, .inside entered (.release .fatal))
    | _ => s

end

end Cfengine
