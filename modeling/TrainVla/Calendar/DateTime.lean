import TrainVla.Calendar.IsoFormat

/-! The ISO texts of instants of UTC, which count the microseconds from the first day of year 1. -/
namespace Calendar

def microsPerSecond : ℕ := 1000000

def microsPerDay : ℕ := 86400 * microsPerSecond

/-- The time of day that many seconds after midnight. -/
def timeText (seconds : ℕ) : List Char :=
  digits 2 (seconds / 3600) ++ ':' :: (digits 2 (seconds / 60 % 60) ++ ':' :: digits 2 (seconds % 60))

/-- Microseconds are left out when there are none. -/
def fractionText (micros : ℕ) : List Char := if micros = 0 then [] else '.' :: digits 6 micros

def utcOffset : List Char := ['+', '0', '0', ':', '0', '0']

def dateTimeText (t : ℕ) : List Char :=
  (isoformat (ofDays (t / microsPerDay))).toList ++ 'T' ::
    (timeText (t % microsPerDay / microsPerSecond) ++
      (fractionText (t % microsPerSecond) ++ utcOffset))

def parseColon : List Char → Option (List Char)
  | ':' :: text => some text
  | _ => none

def parseTime (text : List Char) : Option (ℕ × List Char) := do
  let (hour, text) ← parseDigits 2 0 text
  let text ← parseColon text
  let (minute, text) ← parseDigits 2 0 text
  let text ← parseColon text
  let (second, text) ← parseDigits 2 0 text
  if hour < 24 ∧ minute < 60 ∧ second < 60 then some (3600 * hour + 60 * minute + second, text)
  else none

def parseFraction : List Char → Option (ℕ × List Char)
  | '.' :: text => parseDigits 6 0 text
  | text => some (0, text)

/-- Reads `YYYY-MM-DDTHH:MM:SS+00:00`, with or without microseconds. -/
def parseDateTime (text : List Char) : Option ℕ := do
  let date ← fromisoformat (String.ofList (text.take 10))
  match text.drop 10 with
  | 'T' :: text => do
    let (seconds, text) ← parseTime text
    let (micros, text) ← parseFraction text
    if text = utcOffset then some (toDays date * microsPerDay + seconds * microsPerSecond + micros)
    else none
  | _ => none

theorem length_digits (width n : ℕ) : (digits width n).length = width := by
  induction width with
  | zero => rfl
  | succ width ih => rw [digits, List.length_cons, ih]

theorem length_isoformat (date : Date) : (isoformat date).toList.length = 10 := by
  unfold isoformat
  rw [String.toList_ofList]
  simp [length_digits]

theorem parseTime_timeText {seconds : ℕ} (h : seconds < 86400) (text : List Char) :
    parseTime (timeText seconds ++ text) = some (seconds, text) := by
  have hhour : seconds / 3600 < 10 ^ 2 := by omega
  have hminute : seconds / 60 % 60 < 10 ^ 2 := by omega
  have hsecond : seconds % 60 < 10 ^ 2 := by omega
  have hparts : seconds / 3600 < 24 ∧ seconds / 60 % 60 < 60 ∧ seconds % 60 < 60 := by omega
  have hvalue : 3600 * (seconds / 3600) + 60 * (seconds / 60 % 60) + seconds % 60 = seconds := by
    omega
  unfold parseTime timeText
  simp only [List.append_assoc, List.cons_append, parseDigits_digits_of_lt _ hhour,
    parseDigits_digits_of_lt _ hminute, parseDigits_digits_of_lt _ hsecond, Option.bind_eq_bind,
    Option.bind_some, parseColon, if_pos hparts, hvalue]

theorem parseFraction_fractionText {micros : ℕ} (h : micros < microsPerSecond) :
    parseFraction (fractionText micros ++ utcOffset) = some (micros, utcOffset) := by
  unfold fractionText
  split
  · rename_i hzero
    rw [hzero]
    rfl
  · exact parseDigits_digits_of_lt utcOffset h

/-- What is written of an instant up to the end of year 9999 is read again. -/
theorem parseDateTime_dateTimeText {t : ℕ} (h : t < 3652059 * microsPerDay) :
    parseDateTime (dateTimeText t) = some t := by
  have hday : t / microsPerDay < 3652059 := Nat.div_lt_of_lt_mul (by rw [Nat.mul_comm]; exact h)
  have htext : dateTimeText t = (isoformat (ofDays (t / microsPerDay))).toList ++ 'T' ::
      (timeText (t % microsPerDay / microsPerSecond) ++
        (fractionText (t % microsPerSecond) ++ utcOffset)) := rfl
  have hlength := length_isoformat (ofDays (t / microsPerDay))
  have htake : (dateTimeText t).take 10 = (isoformat (ofDays (t / microsPerDay))).toList := by
    rw [htext, ← hlength, List.take_left]
  have hdrop : (dateTimeText t).drop 10 = 'T' ::
      (timeText (t % microsPerDay / microsPerSecond) ++
        (fractionText (t % microsPerSecond) ++ utcOffset)) := by
    rw [htext, ← hlength, List.drop_left]
  have hseconds : t % microsPerDay / microsPerSecond < 86400 := by
    have hmod : t % microsPerDay < microsPerSecond * 86400 := by
      unfold microsPerDay microsPerSecond
      omega
    exact Nat.div_lt_of_lt_mul hmod
  have hmicros : t % microsPerSecond < microsPerSecond := Nat.mod_lt _ (by decide)
  have hvalue : t / microsPerDay * microsPerDay +
      t % microsPerDay / microsPerSecond * microsPerSecond + t % microsPerSecond = t := by
    unfold microsPerDay microsPerSecond
    omega
  unfold parseDateTime
  rw [htake, hdrop, String.ofList_toList, fromisoformat_isoformat (valid_ofDays hday)]
  simp only [Option.bind_eq_bind, Option.bind_some, parseTime_timeText hseconds,
    parseFraction_fractionText hmicros, if_true, toDays_ofDays, hvalue]

end Calendar
