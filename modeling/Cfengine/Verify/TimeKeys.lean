import Cfengine.Verify.AddrLib
import Cfengine.Verify.Granules

/-!
# The keys of times

A timestamp is printed from the calendar and read again for the key of a time and for its shift.
Both say the same as the slot: the day of the week, the hour and the five minutes
(`timeKeys_agree`).
-/

namespace Cfengine
open Numerals

variable {t t' : Int} {s w blanks rest buf s' : CString} {hour : Int} {n : Nat}

/-! ## Words -/

/-- What `%s` reads into a buffer of ten characters. -/
def Word (w : CString) : Prop := w ≠ [] ∧ w.length < 10 ∧ ∀ c ∈ w, isspace c = false

instance : Decidable (Word w) := inferInstanceAs (Decidable (_ ∧ _ ∧ _))

theorem nextWord_append (hblanks : ∀ c ∈ blanks, isspace c = true) (hw : Word w)
    (hrest : ∀ c ∈ rest.head?, isspace c = true) :
    nextWord (blanks ++ (w ++ rest)) = some (w, rest) := by
  obtain ⟨hne, -, hword⟩ := hw
  have hdrop : (blanks ++ (w ++ rest)).dropWhile isspace = w ++ rest := by
    obtain ⟨c, w, rfl⟩ := List.exists_cons_of_ne_nil hne
    rw [List.dropWhile_append_of_pos hblanks, List.cons_append,
      List.dropWhile_cons_of_neg (by rw [hword c List.mem_cons_self]; decide)]
  have htake : (w ++ rest).takeWhile (!isspace ·) = w := by
    rw [List.takeWhile_append_of_pos fun c hc => by rw [hword c hc]; rfl]
    cases rest with
    | nil => rw [List.takeWhile_nil, List.append_nil]
    | cons c rest =>
      rw [List.takeWhile_cons_of_neg (by rw [hrest c rfl]; decide), List.append_nil]
  rw [nextWord, hdrop, htake, if_neg hne, List.drop_left]

theorem scanWords_succ (hblanks : ∀ c ∈ blanks, isspace c = true) (hw : Word w)
    (hrest : ∀ c ∈ rest.head?, isspace c = true) :
    scanWords (n + 1) (blanks ++ (w ++ rest)) =
      (scanWords n rest).map fun scanned => (w :: scanned.1, scanned.2) := by
  rw [scanWords, nextWord_append hblanks hw hrest]
  dsimp only
  rw [if_neg (Nat.not_le.mpr hw.2.1)]
  cases scanWords n rest <;> rfl

theorem isspace_digitChar (n : Nat) : isspace (digitChar n) = false := by
  have hall : ∀ d < 10, isspace (Nat.digitChar d) = false := by decide
  exact hall _ (Nat.mod_lt _ (by decide))

theorem word_twoDigits (n : Nat) : Word (twoDigits n) :=
  ⟨List.cons_ne_nil _ _, show 2 < 10 by decide, List.forall_mem_cons.mpr
    ⟨isspace_digitChar _, List.forall_mem_singleton.mpr (isspace_digitChar _)⟩⟩

theorem word_fourDigits (n : Int) : Word (fourDigits n) := by
  have htwo : ∀ n, ∀ c ∈ twoDigits n, isspace c = false := fun n => (word_twoDigits n).2.2
  rw [fourDigits]
  split_ifs
  · exact ⟨List.cons_ne_nil _ _, show 4 < 10 by decide, List.forall_mem_cons.mpr
      ⟨by decide, List.forall_mem_cons.mpr ⟨isspace_digitChar _, htwo _⟩⟩⟩
  · exact ⟨List.cons_ne_nil _ _, show 4 < 10 by decide, List.forall_mem_append.mpr ⟨htwo _, htwo _⟩⟩

theorem exists_padded (n : Nat) :
    ∃ blanks w, padded n = blanks ++ w ∧ (∀ c ∈ blanks, isspace c = true) ∧ Word w := by
  rw [padded]
  split_ifs
  · exact ⟨[' '], [digitChar n], rfl, List.forall_mem_singleton.mpr rfl, List.cons_ne_nil _ _,
      show 1 < 10 by decide, List.forall_mem_singleton.mpr (isspace_digitChar n)⟩
  · exact ⟨[], twoDigits n, rfl, fun _ hc => absurd hc List.not_mem_nil, word_twoDigits n⟩

/-! ## The parts of a time -/

/-- The day of the week, from Monday on. -/
def weekday (t : Int) : Nat := ((t / 86400 + 3) % 7).toNat

def hourOf (t : Int) : Nat := (t % 86400).toNat / 3600

def minuteOf (t : Int) : Nat := (t % 86400).toNat / 60 % 60

/-- The name of a day, as it is printed. -/
def dayName (day : Nat) : CString := (dayText.getD day []).take 3

/-- The hours, minutes and seconds, as they are printed. -/
def clock (t : Int) : CString :=
  twoDigits (hourOf t) ++ ':' ::
    (twoDigits (minuteOf t) ++ ':' :: twoDigits ((t % 86400).toNat % 60))

theorem weekday_lt (t : Int) : weekday t < 7 := by
  rw [weekday]
  omega

theorem hourOf_lt (t : Int) : hourOf t < 24 := by
  rw [hourOf]
  omega

theorem minuteOf_lt (t : Int) : minuteOf t < 60 := Nat.mod_lt _ (by decide)

theorem gmtime_mon_lt (t : Int) : (gmtime t).mon < 12 := by
  simp only [gmtime]
  generalize (t / 86400 + 719468) = days
  have hdoe : 0 ≤ days % 146097 ∧ days % 146097 < 146097 := by omega
  generalize days % 146097 = doe at hdoe ⊢
  split_ifs <;> omega

theorem wday_index (t : Int) :
    (if (gmtime t).wday ≠ 0 then (gmtime t).wday - 1 else 6) = weekday t := by
  have hwday : (gmtime t).wday = ((t / 86400 + 4) % 7).toNat := rfl
  rw [hwday, weekday]
  split_ifs <;> omega

theorem word_month {mon : Nat} (hmon : mon < 12) : Word ((monthText.getD mon []).take 3) := by
  interval_cases mon <;> exact ⟨List.cons_ne_nil _ _, show 3 < 10 by decide,
    List.forall_mem_cons.mpr
    ⟨rfl, List.forall_mem_cons.mpr ⟨rfl, List.forall_mem_singleton.mpr rfl⟩⟩⟩

theorem word_dayName (t : Int) : Word (dayName (weekday t)) := by
  have hweekday := weekday_lt t
  generalize weekday t = day at hweekday
  interval_cases day <;> exact ⟨List.cons_ne_nil _ _, show 3 < 10 by decide,
    List.forall_mem_cons.mpr
    ⟨rfl, List.forall_mem_cons.mpr ⟨rfl, List.forall_mem_singleton.mpr rfl⟩⟩⟩

theorem word_clock (t : Int) : Word (clock t) := by
  have htwo : ∀ n, ∀ c ∈ twoDigits n, isspace c = false := fun n => (word_twoDigits n).2.2
  exact ⟨List.cons_ne_nil _ _, show 8 < 10 by decide, List.forall_mem_append.mpr ⟨htwo _,
    List.forall_mem_cons.mpr ⟨rfl, List.forall_mem_append.mpr ⟨htwo _,
      List.forall_mem_cons.mpr ⟨rfl, htwo _⟩⟩⟩⟩⟩

/-- What a timestamp looks like. -/
theorem exists_timestamp (h : cfStrtimestampUtc t = some s) :
    ∃ month blanks mday year, Word month ∧ (∀ c ∈ blanks, isspace c = true) ∧
      Word mday ∧ Word year ∧
      s = dayName (weekday t) ++
        ' ' :: (month ++ ' ' :: (blanks ++ (mday ++ ' ' :: (clock t ++ ' ' :: year)))) := by
  obtain ⟨blanks, mday, hpadded, hblanks, hmday⟩ := exists_padded (gmtime t).mday
  refine ⟨_, blanks, mday, _, word_month (gmtime_mon_lt t), hblanks, hmday,
    word_fourDigits ((gmtime t).year + 1900), ?_⟩
  rw [cfStrtimestampUtc, cfFormatStrtimestamp, wday_index, hpadded] at h
  dsimp only at h
  split at h
  · cases h
  · split at h
    · cases h
    · rw [← Option.some.inj h]
      simp only [dayName, clock, hourOf, minuteOf, gmtime, List.append_assoc, List.cons_append]

theorem length_fourDigits (n : Int) : (fourDigits n).length = 4 := by
  rw [fourDigits]
  split_ifs <;> rfl

theorem length_padded (n : Nat) : (padded n).length = 2 := by
  rw [padded]
  split_ifs <;> rfl

/-- There is a timestamp if the year has four characters. -/
theorem isSome_timestamp (hle : -2899 ≤ (gmtime t).year) (hge : (gmtime t).year ≤ 8099) :
    (cfStrtimestampUtc t).isSome := by
  have hday : (dayText.getD (weekday t) []).length ≤ 3 + 6 := by
    have hweekday := weekday_lt t
    generalize weekday t = day at hweekday
    interval_cases day <;> decide
  rw [cfStrtimestampUtc, cfFormatStrtimestamp, if_neg (by omega), wday_index]
  dsimp only
  rw [if_neg]
  · rfl
  · simp only [List.length_append, List.length_cons, List.length_take, length_padded,
      length_fourDigits, twoDigits, List.length_nil]
    omega

/-! ## Reading a timestamp -/

/-- What the conversions `%s` read from a timestamp. -/
theorem scanWords_timestamp (h : cfStrtimestampUtc t = some s) :
    ∃ month mday year,
      scanWords 5 s = .ok ([dayName (weekday t), month, mday, clock t, year], []) := by
  obtain ⟨month, blanks, mday, year, hmonth, hblanks, hmday, hyear, rfl⟩ := exists_timestamp h
  have hblank : ∀ c ∈ [' '], isspace c = true := List.forall_mem_singleton.mpr rfl
  have hnil : ∀ c ∈ ([] : CString), isspace c = true := fun c hc => absurd hc List.not_mem_nil
  have hhead : ∀ rest : CString, ∀ c ∈ (' ' :: rest).head?, isspace c = true := by
    rintro rest c hc
    cases hc
    rfl
  have hyears := @scanWords_succ year [' '] [] 0 hblank hyear fun c hc => by cases hc
  have hclock := @scanWords_succ (clock t) [' '] (' ' :: year) 1 hblank (word_clock t) (hhead _)
  have hmdays := @scanWords_succ mday (' ' :: blanks) (' ' :: (clock t ++ ' ' :: year)) 2
    (List.forall_mem_cons.mpr ⟨rfl, hblanks⟩) hmday (hhead _)
  have hmonths :=
    @scanWords_succ month [' '] (' ' :: (blanks ++ (mday ++ ' ' :: (clock t ++ ' ' :: year)))) 3
    hblank hmonth (hhead _)
  have hdays := @scanWords_succ (dayName (weekday t)) []
    (' ' :: (month ++ ' ' :: (blanks ++ (mday ++ ' ' :: (clock t ++ ' ' :: year))))) 4
    hnil (word_dayName t) (hhead _)
  rw [List.append_nil] at hyears
  simp only [List.cons_append, List.nil_append] at hyears hclock hmdays hmonths hdays
  rw [hdays, hmonths, hmdays, hclock, hyears]
  exact ⟨month, mday, year, rfl⟩

theorem isDigit_digitChar (n : Nat) : isDigit 10 (digitChar n) = true := by
  have hall : ∀ d < 10, isDigit 10 (Nat.digitChar d) = true := by decide
  exact hall _ (Nat.mod_lt _ (by decide))

theorem digit_digitChar (n : Nat) : digit? (digitChar n) = some (n % 10) := by
  have hall : ∀ d < 10, digit? (Nat.digitChar d) = some d := by decide
  exact hall _ (Nat.mod_lt _ (by decide))

theorem digitChar_ne_colon (n : Nat) : digitChar n ≠ ':' := fun h => by
  have hdigit := isDigit_digitChar n
  rw [h] at hdigit
  exact absurd hdigit (by decide)

theorem value_twoDigits (hn : n < 100) : value 10 (twoDigits n) = n := by
  simp only [value, twoDigits, List.foldl_cons, List.foldl_nil, digit_digitChar, Option.getD_some]
  omega

theorem takeWhile_twoDigits {p : Char → Bool} (hp : ∀ n, p (digitChar n) = true) (n : Nat)
    (hrest : ∀ c ∈ rest.head?, p c = false) : (twoDigits n ++ rest).takeWhile p = twoDigits n := by
  have hdigits : ∀ c ∈ twoDigits n, p c = true :=
    List.forall_mem_cons.mpr ⟨hp _, List.forall_mem_singleton.mpr (hp _)⟩
  rw [List.takeWhile_append_of_pos hdigits]
  cases rest with
  | nil => rw [List.takeWhile_nil, List.append_nil]
  | cons c rest => rw [List.takeWhile_cons_of_neg (by simpa using hrest c rfl), List.append_nil]

/-- Two digits are read, behind a blank as well. -/
theorem scanInt_twoDigits (hn : n < 100) (hblanks : ∀ c ∈ blanks, isspace c = true)
    (hrest : ∀ c ∈ rest.head?, isDigit 10 c = false) :
    scanInt (blanks ++ (twoDigits n ++ rest)) = some ((n : Int), rest) := by
  have hdrop : (blanks ++ (twoDigits n ++ rest)).dropWhile isspace = twoDigits n ++ rest := by
    rw [List.dropWhile_append_of_pos hblanks, twoDigits, List.cons_append,
      List.dropWhile_cons_of_neg (by rw [isspace_digitChar]; decide)]
  have hsign : scanSign (twoDigits n ++ rest) = (1, twoDigits n ++ rest) :=
    scanSign_of_isDigit (by decide) (isDigit_digitChar _) _
  have hscan : scanInteger 10 (blanks ++ (twoDigits n ++ rest)) = some ((n : Int), rest) := by
    simp only [scanInteger, hdrop, hsign, skipHexPrefix_ten,
      takeWhile_twoDigits isDigit_digitChar n hrest, value_twoDigits hn, List.drop_left, one_mul]
    rfl
  have hlong : max (-2 ^ 63) (min (n : Int) longMax) = n := by
    rw [longMax]
    omega
  have hint : (n : Int).bmod (2 ^ 32) = n := by
    rw [Int.bmod_eq_of_le] <;> omega
  rw [scanInt, scanLong, hscan]
  simp only [Option.map_some, hlong, hint]

/-! ## The key of a time -/

theorem length_dayName (t : Int) : (dayName (weekday t)).length = 3 := by
  have hweekday := weekday_lt t
  generalize weekday t = day at hweekday
  interval_cases day <;> rfl

theorem dayName_inj {m n : Nat} (hm : m < 7) (hn : n < 7) (h : dayName m = dayName n) : m = n := by
  have hall : ∀ m < 7, ∀ n < 7, dayName m = dayName n → m = n := by decide
  exact hall m hm n hn h

theorem twoDigits_inj {m n : Nat} (hm : m < 100) (hn : n < 100) (h : twoDigits m = twoDigits n) :
    m = n := by
  rw [← value_twoDigits hm, h, value_twoDigits hn]

theorem minuteText_inj {m n : Nat} (hm : m < 12) (hn : n < 12)
    (h : minuteText.getD m [] = minuteText.getD n []) : m = n := by
  have hall : ∀ m < 12, ∀ n < 12, minuteText.getD m [] = minuteText.getD n [] → m = n := by decide
  exact hall m hm n hn h

/-- The key is made of the day, the hour and the five minutes. -/
theorem genTimeKey_eq (h : cfStrtimestampUtc t = some s) :
    genTimeKey t = some (.ok (dayName (weekday t) ++ (':' :: "Hr".toList ++ (twoDigits (hourOf t) ++
      ':' :: minuteText.getD (minuteOf t / 5) [])))) := by
  obtain ⟨month, mday, year, hscan⟩ := scanWords_timestamp h
  have hcolon : ∀ n, decide (digitChar n ≠ ':') = true :=
    fun n => decide_eq_true (digitChar_ne_colon n)
  have hhours : (clock t).takeWhile (· ≠ ':') = twoDigits (hourOf t) :=
    takeWhile_twoDigits hcolon _ fun c hc => by
      cases hc
      rfl
  have hminutes : ((clock t).drop 3).takeWhile (· ≠ ':') = twoDigits (minuteOf t) :=
    takeWhile_twoDigits hcolon _ fun c hc => by
      cases hc
      rfl
  have hint : scanInt (twoDigits (minuteOf t)) = some ((minuteOf t : Int), []) := by
    have hint := @scanInt_twoDigits [] [] (minuteOf t) (by have := minuteOf_lt t; omega)
      (fun c hc => absurd hc List.not_mem_nil) fun c hc => by cases hc
    rwa [List.append_nil] at hint
  rw [genTimeKey, h, Option.map_some, convTimeKey, hscan]
  have hlength : ∀ n, (twoDigits n).length = 2 := fun _ => rfl
  have hne : ∀ n, twoDigits n ≠ [] := fun _ => List.cons_ne_nil _ _
  have hfive : ¬ ((minuteOf t / 5 : Nat) : Int) < 0 := by omega
  simp only [bind, Except.bind, pure, Except.pure, List.getD_cons_zero, List.getD_cons_succ, hhours,
    hlength, hminutes, if_neg (hne _), Nat.reduceAdd, Nat.reduceLeDiff, if_false, hint,
      List.append_assoc,
    List.cons_append]
  have htdiv : (minuteOf t : Int).tdiv 5 = ((minuteOf t / 5 : Nat) : Int) := rfl
  rw [htdiv, if_neg hfive, Int.toNat_natCast]

theorem genTimeKey_agrees (h : cfStrtimestampUtc t = some s) (h' : cfStrtimestampUtc t' = some s') :
    genTimeKey t = genTimeKey t' ↔ weekday t = weekday t' ∧ hourOf t = hourOf t' ∧
      minuteOf t / 5 = minuteOf t' / 5 := by
  rw [genTimeKey_eq h, genTimeKey_eq h']
  refine ⟨fun heq => ?_, fun ⟨hday, hhour, hminute⟩ => by rw [hday, hhour, hminute]⟩
  have hkeys := Except.ok.inj (Option.some.inj heq)
  obtain ⟨hday, htail⟩ := List.append_inj hkeys (by rw [length_dayName, length_dayName])
  obtain ⟨-, htail⟩ := List.append_inj htail rfl
  obtain ⟨hhour, hminute⟩ := List.append_inj htail rfl
  have hlt := minuteOf_lt t
  have hlt' := minuteOf_lt t'
  exact ⟨dayName_inj (weekday_lt t) (weekday_lt t') hday,
    twoDigits_inj (by have := hourOf_lt t; omega) (by have := hourOf_lt t'; omega) hhour,
    minuteText_inj (by omega) (by omega) (List.cons.inj hminute).2⟩

/-! ## The shift -/

/-- The slot is made of the same parts. -/
theorem getTimeSlot_parts (ht : cfMondayMorning ≤ t) :
    getTimeSlot t = weekday t * 288 + hourOf t * 12 + (minuteOf t / 5 : Nat) := by
  rw [getTimeSlot_eq ht, weekday, hourOf, minuteOf]
  omega

theorem scanDayHour_timestamp (h : cfStrtimestampUtc t = some s) :
    scanDayHour s buf hour = (dayName (weekday t), (hourOf t : Int)) := by
  obtain ⟨month, blanks, mday, year, hmonth, hblanks, hmday, -, rfl⟩ := exists_timestamp h
  have hblank : ∀ c ∈ [' '], isspace c = true := List.forall_mem_singleton.mpr rfl
  have hhead : ∀ rest : CString, ∀ c ∈ (' ' :: rest).head?, isspace c = true := by
    rintro rest c hc
    cases hc
    rfl
  have hday := @nextWord_append (dayName (weekday t)) []
    (' ' :: (month ++ ' ' :: (blanks ++ (mday ++ ' ' :: (clock t ++ ' ' :: year)))))
    (fun c hc => absurd hc List.not_mem_nil) (word_dayName t) (hhead _)
  have hmonths :=
    @nextWord_append month [' '] (' ' :: (blanks ++ (mday ++ ' ' :: (clock t ++ ' ' :: year))))
    hblank hmonth (hhead _)
  have hmdays := @nextWord_append mday (' ' :: blanks) (' ' :: (clock t ++ ' ' :: year))
    (List.forall_mem_cons.mpr ⟨rfl, hblanks⟩) hmday (hhead _)
  obtain ⟨after, hhour⟩ : ∃ after, scanInt (' ' :: (clock t ++ ' ' :: year)) =
      some ((hourOf t : Int), after) := by
    rw [clock, List.append_assoc]
    exact ⟨_, @scanInt_twoDigits [' '] _ (hourOf t) (by have := hourOf_lt t; omega) hblank
      fun c hc => by
      cases hc
      rfl⟩
  simp only [List.cons_append, List.nil_append] at hday hmonths hmdays
  rw [scanDayHour, hday]
  simp only [hmonths, hmdays, Option.bind_some, hhour]

/-- The time of a shift of the week. -/
def shiftStart (shift : Nat) : Int := cfMondayMorning + cfShiftInterval * shift

theorem shiftStart_parts {shift : Nat} (hshift : shift < 28) :
    weekday (shiftStart shift) = shift / 4 ∧ hourOf (shiftStart shift) / 6 = shift % 4 := by
  have hstart : shiftStart shift = 345600 + 21600 * (shift : Int) := rfl
  rw [hstart, weekday, hourOf]
  omega

theorem shiftStart_lt {shift : Nat} (hshift : shift < 28) :
    shiftStart shift < cfMondayMorning + secondsPerWeek := by
  change 345600 + 21600 * (shift : Int) < 345600 + 604800
  omega

theorem isSome_shiftStart {shift : Nat} (hshift : shift < 28) :
    (cfStrtimestampUtc (shiftStart shift)).isSome := by
  have hall : ∀ shift < 28, -2899 ≤ (gmtime (shiftStart shift)).year ∧
      (gmtime (shiftStart shift)).year ≤ 8099 := by decide
  exact isSome_timestamp (hall shift hshift).1 (hall shift hshift).2

/-- From any shift up to that of the time, the loop goes on to it. -/
theorem getShiftSlot_loop {shift rest : Nat}
    (hshift : shift + rest = weekday t * 4 + hourOf t / 6) :
    getShiftSlot.loop (dayName (weekday t)) (hourOf t) buf hour (shiftStart shift) shift =
      some ((weekday t * 4 + hourOf t / 6 : Nat) : Int) := by
  have hweekday := weekday_lt t
  have hhour := hourOf_lt t
  induction rest generalizing shift buf hour with
  | zero =>
    have hlt : shift < 28 := by omega
    obtain ⟨str, hstr⟩ := Option.isSome_iff_exists.mp (isSome_shiftStart hlt)
    obtain ⟨hday, hsix⟩ := shiftStart_parts hlt
    have hfound : (hourOf (shiftStart shift) : Int).tdiv 6 = (hourOf t : Int).tdiv 6 ∧
        dayName (weekday t) = dayName (weekday (shiftStart shift)) :=
      ⟨by change ((_ / 6 : Nat) : Int) = ((_ / 6 : Nat) : Int); omega, by rw [hday]; congr 1; omega⟩
    rw [getShiftSlot.loop, if_pos (shiftStart_lt hlt), hstr]
    dsimp only
    rw [scanDayHour_timestamp hstr, if_pos hfound, ← hshift]
    rfl
  | succ rest ih =>
    have hlt : shift < 28 := by omega
    obtain ⟨str, hstr⟩ := Option.isSome_iff_exists.mp (isSome_shiftStart hlt)
    obtain ⟨hday, hsix⟩ := shiftStart_parts hlt
    have hother : ¬ ((hourOf (shiftStart shift) : Int).tdiv 6 = (hourOf t : Int).tdiv 6 ∧
        dayName (weekday t) = dayName (weekday (shiftStart shift))) := by
      rintro ⟨hsame, hname⟩
      have hsame : ((hourOf (shiftStart shift) / 6 : Nat) : Int) = ((hourOf t / 6 : Nat) : Int) :=
        hsame
      have hname := dayName_inj hweekday (weekday_lt _) hname
      omega
    have hnext : shiftStart shift + cfShiftInterval = shiftStart (shift + 1) := by
      rw [shiftStart, shiftStart]
      push_cast
      ring
    rw [getShiftSlot.loop, if_pos (shiftStart_lt hlt), hstr]
    dsimp only
    rw [scanDayHour_timestamp hstr, if_neg hother, hnext]
    exact ih (by omega)

theorem getShiftSlot_eq (h : cfStrtimestampUtc t = some s) :
    getShiftSlot t = some ((weekday t * 4 + hourOf t / 6 : Nat) : Int) := by
  have hloop := @getShiftSlot_loop t [] (-1) 0 _ (Nat.zero_add _)
  unfold getShiftSlot
  rw [h]
  dsimp only
  rw [scanDayHour_timestamp h]
  exact hloop

/-- Where there are timestamps, the keys of two times are the same exactly if their slots are, and
the shift of a time has 72 slots. -/
theorem timeKeys_agree (ht : cfMondayMorning ≤ t) (ht' : cfMondayMorning ≤ t')
    (hstamp : (cfStrtimestampUtc t).isSome) (hstamp' : (cfStrtimestampUtc t').isSome) :
    (genTimeKey t = genTimeKey t' ↔ getTimeSlot t = getTimeSlot t') ∧
      getShiftSlot t = some (getTimeSlot t / 72) := by
  obtain ⟨s, h⟩ := Option.isSome_iff_exists.mp hstamp
  obtain ⟨s', h'⟩ := Option.isSome_iff_exists.mp hstamp'
  have hhour := hourOf_lt t
  have hhour' := hourOf_lt t'
  have hminute := minuteOf_lt t
  have hminute' := minuteOf_lt t'
  rw [genTimeKey_agrees h h', getShiftSlot_eq h, getTimeSlot_parts ht, getTimeSlot_parts ht']
  refine ⟨⟨fun ⟨hday, hsame, hfive⟩ => by rw [hday, hsame, hfive], fun hslot => ?_⟩,
    congrArg some ?_⟩
  · omega
  · omega

/-- A Saturday and the Monday that follows it. -/
theorem timeKeys_weekend :
    (genTimeKey 1325894460 = genTimeKey 1326067020 ↔
      getTimeSlot 1325894460 = getTimeSlot 1326067020) ∧
      getShiftSlot 1325894460 = some (getTimeSlot 1325894460 / 72) :=
  timeKeys_agree (by decide) (by decide) (isSome_timestamp (by decide) (by decide))
    (isSome_timestamp (by decide) (by decide))

end Cfengine
