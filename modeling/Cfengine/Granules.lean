import Cfengine.Server
import Cfengine.StringLib
import Cfengine.Transaction

/-!
# Slots and keys of times (`granules.c`, `patches.c`)

A time is a number of seconds. `CF_MEASURE_INTERVAL` is 300, as a `double`, in which the numbers
that it is multiplied with and subtracted from are exact.
-/

namespace Cfengine

/-- `CF_MEASURE_INTERVAL` -/
def cfMeasureInterval : Int := 300

/-- `CF_MONDAY_MORNING` -/
def cfMondayMorning : Int := 345600

/-- `CF_SHIFT_INTERVAL` -/
def cfShiftInterval : Int := 6 * 3600

/-! ## Slots -/

/-- `GetTimeSlot` -/
def getTimeSlot (hereAndNow : Int) : Int :=
  ((hereAndNow - 4 * 24 * 60 * 60).tmod secondsPerWeek).tdiv cfMeasureInterval

/-- `MeasurementSlotStart` -/
def measurementSlotStart (t : Int) : Int := t - t.tmod cfMeasureInterval

/-- `MeasurementSlotTime`; `none` is a failed assertion. -/
def measurementSlotTime (slot numSlots : Nat) (now : Int) : Option Int :=
  if numSlots < slot then none
  else
    let startSlot := toSizeT (getTimeSlot now)
    let distance :=
      if slot ≤ startSlot then startSlot - slot
      else toSizeT (startSlot + (numSlots - slot - 1 : Int))
    some (measurementSlotStart now - distance * cfMeasureInterval)

/-! ## Timestamps -/

/-- `DAY_TEXT` -/
def dayText : List CString :=
  ["Monday".toList, "Tuesday".toList, "Wednesday".toList, "Thursday".toList, "Friday".toList,
    "Saturday".toList, "Sunday".toList]

/-- `MONTH_TEXT` -/
def monthText : List CString :=
  ["January".toList, "February".toList, "March".toList, "April".toList, "May".toList, "June".toList,
    "July".toList, "August".toList, "September".toList, "October".toList, "November".toList,
    "December".toList]

/-- `struct tm`, as far as it is printed. -/
structure Tm where
  sec : Nat
  min : Nat
  hour : Nat
  mday : Nat
  mon : Nat
  /-- Years since 1900. -/
  year : Int
  wday : Nat

/-- `gmtime_r`. The years of the calculation start in March, and its eras of 400 years in March of
the year 0. -/
def gmtime (time : Int) : Tm :=
  let days := time / 86400
  let secs := (time % 86400).toNat
  let era := (days + 719468) / 146097
  let doe := (days + 719468) % 146097
  let yoe := (doe - doe / 1460 + doe / 36524 - doe / 146096) / 365
  let doy := doe - (365 * yoe + yoe / 4 - yoe / 100)
  let mp := (5 * doy + 2) / 153
  let mon := if mp < 10 then mp + 2 else mp - 10
  let year := yoe + era * 400 + if mon ≤ 1 then 1 else 0
  { sec := secs % 60
    min := secs / 60 % 60
    hour := secs / 3600
    mday := (doy - (153 * mp + 2) / 5 + 1).toNat
    mon := mon.toNat
    year := year - 1900
    wday := ((days + 4) % 7).toNat }

/-- A digit. -/
def digitChar (n : Nat) : Char := Nat.digitChar (n % 10)

/-- The conversion `%02d`, of a number with at most two digits. -/
def twoDigits (n : Nat) : CString := [digitChar (n / 10), digitChar n]

/-- The conversion `%2d`, of such a number. -/
def padded (n : Nat) : CString := if n < 10 then [' ', digitChar n] else twoDigits n

/-- The conversion `%04d`, of a number with at most four characters. -/
def fourDigits (n : Int) : CString :=
  if n < 0 then '-' :: digitChar (n.natAbs / 100) :: twoDigits (n.natAbs % 100)
  else twoDigits (n.natAbs / 100) ++ twoDigits (n.natAbs % 100)

/-- `cf_format_strtimestamp` -/
def cfFormatStrtimestamp (tm : Tm) : Option CString :=
  if tm.year < -2899 ∨ 8099 < tm.year then none
  else
    let day := dayText.getD (if tm.wday ≠ 0 then tm.wday - 1 else 6) []
    let buf := day.take 3 ++ ' ' :: (monthText.getD tm.mon []).take 3 ++ ' ' :: padded tm.mday ++
      ' ' :: twoDigits tm.hour ++ ':' :: twoDigits tm.min ++ ':' :: twoDigits tm.sec ++
      ' ' :: fourDigits (tm.year + 1900)
    if 26 ≤ buf.length then none else some buf

/-- `cf_strtimestamp_utc` -/
def cfStrtimestampUtc (time : Int) : Option CString := cfFormatStrtimestamp (gmtime time)

/-! ## Keys -/

/-- The conversion `%s`, and what it leaves. -/
def nextWord (s : CString) : Option (CString × CString) :=
  let word := (s.dropWhile isspace).takeWhile (!isspace ·)
  if word = [] then none else some (word, (s.dropWhile isspace).drop word.length)

/-- The conversions `%s %s ...`, into buffers of ten characters, and what they leave. Where one of
them fails, its buffer is not initialised. -/
def scanWords : Nat → CString → Except Fault (List CString × CString)
  | 0, s => .ok ([], s)
  | n + 1, s =>
    match nextWord s with
    | none => .error .outOfBounds
    | some (word, s) =>
      if 10 ≤ word.length then .error .bufferOverflow
      else do
        let (words, s) ← scanWords n s
        return (word :: words, s)

/-- The five minutes of a key. -/
def minuteText : List CString :=
  ["Min00_05".toList, "Min05_10".toList, "Min10_15".toList, "Min15_20".toList, "Min20_25".toList,
    "Min25_30".toList, "Min30_35".toList, "Min35_40".toList, "Min40_45".toList, "Min45_50".toList,
    "Min50_55".toList, "Min55_00".toList]

/-- `ConvTimeKey` -/
def convTimeKey (str : CString) : Except Fault CString := do
  let (bufs, _) ← scanWords 5 str
  let buf1 := bufs.getD 0 []
  let buf4 := bufs.getD 3 []
  let hours := buf4.takeWhile (· ≠ ':')
  if hours = [] then throw .outOfBounds
  -- `out` has ten characters
  if 8 ≤ hours.length then throw .bufferOverflow
  let scanned := (buf4.drop (hours.length + 1)).takeWhile (· ≠ ':')
  let minutes := if scanned = [] then hours else scanned
  if 7 ≤ minutes.length then throw .bufferOverflow
  match scanInt minutes with
  | none => throw .outOfBounds
  | some (i, _) =>
    let text := if i.tdiv 5 < 0 then [] else minuteText.getD (i.tdiv 5).toNat []
    return buf1 ++ ':' :: "Hr".toList ++ hours ++ ':' :: text

/-- `GenTimeKey`, where there is a timestamp. -/
def genTimeKey (now : Int) : Option (Except Fault CString) :=
  (cfStrtimestampUtc now).map convTimeKey

/-- `sscanf(str, "%s %*s %*s %d", buf, &hour)`, into variables with these values. -/
def scanDayHour (str buf : CString) (hour : Int) : CString × Int :=
  match nextWord str with
  | none => (buf, hour)
  | some (word, s) =>
    match ((nextWord s).bind fun skipped => nextWord skipped.2).bind fun skipped =>
        scanInt skipped.2 with
    | none => (word, hour)
    | some (scanned, _) => (word, scanned)

/-- The loop of `GetShiftSlot`. -/
def getShiftSlot.loop (cbuf : CString) (chour : Int) (buf : CString)
    (hour now slot : Int) : Option Int :=
  if now < cfMondayMorning + secondsPerWeek then
    match cfStrtimestampUtc now with
    | none => none
    | some str =>
      let (buf, hour) := scanDayHour str buf hour
      if hour.tdiv 6 = chour.tdiv 6 ∧ cbuf = buf then some slot
      else loop cbuf chour buf hour (now + cfShiftInterval) (slot + 1)
  else some (-1)
termination_by (cfMondayMorning + secondsPerWeek - now).toNat
decreasing_by
  rw [cfShiftInterval]
  omega

/-- `GetShiftSlot`, where there is a timestamp. -/
def getShiftSlot (hereAndNow : Int) : Option Int :=
  match cfStrtimestampUtc hereAndNow with
  | none => none
  | some cstr =>
    let (cbuf, chour) := scanDayHour cstr [] (-1)
    getShiftSlot.loop cbuf chour [] (-1) cfMondayMorning 0

end Cfengine
