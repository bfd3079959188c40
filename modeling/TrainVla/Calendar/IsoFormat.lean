import TrainVla.Calendar.Dates
import Mathlib.Tactic.Ring

/-! The ISO texts of dates: what is written, and all that is read. -/
namespace Calendar

/-- The last `width` decimal digits of a number. -/
def digits : ℕ → ℕ → List Char
  | 0, _ => []
  | width + 1, n => Nat.digitChar (n / 10 ^ width % 10) :: digits width n

/-- Read that many digits, after those of `n`, and return the rest of the text. -/
def parseDigits : ℕ → ℕ → List Char → Option (ℕ × List Char)
  | 0, n, text => some (n, text)
  | _ + 1, _, [] => none
  | width + 1, n, c :: text =>
    if c.isDigit then parseDigits width (10 * n + (c.toNat - 48)) text else none

theorem parseDigits_digits (width a n : ℕ) (text : List Char) :
    parseDigits width a (digits width n ++ text) = some (a * 10 ^ width + n % 10 ^ width, text) := by
  induction width generalizing a with
  | zero =>
    have hn : n % 1 = 0 := Nat.mod_one n
    simp [parseDigits, digits, hn]
  | succ width ih =>
    have hdigit : n / 10 ^ width % 10 < 10 := Nat.mod_lt _ (by decide)
    have hisDigit : (Nat.digitChar (n / 10 ^ width % 10)).isDigit = true := by
      rw [Nat.isDigit_digitChar]
      exact decide_eq_true hdigit
    unfold digits
    rw [List.cons_append, parseDigits, if_pos hisDigit,
      Nat.toNat_digitChar_sub_48_of_lt_ten hdigit, ih, Nat.mod_pow_succ]
    have hvalue : (10 * a + n / 10 ^ width % 10) * 10 ^ width + n % 10 ^ width =
        a * 10 ^ (width + 1) + (n % 10 ^ width + 10 ^ width * (n / 10 ^ width % 10)) := by
      rw [Nat.pow_succ]
      ring
    rw [hvalue]

theorem parseDigits_digits_of_lt {width n : ℕ} (text : List Char) (h : n < 10 ^ width) :
    parseDigits width 0 (digits width n ++ text) = some (n, text) := by
  rw [parseDigits_digits, Nat.mod_eq_of_lt h, Nat.zero_mul, Nat.zero_add]

/-- The parts of a date are separated by dashes throughout, or not at all. -/
def parseDash (dashed : Bool) (text : List Char) : Option (List Char) :=
  if dashed then if text.head? = some '-' then some text.tail else none else some text

def parseMonthDay (year : ℕ) (dashed : Bool) (text : List Char) : Option Date := do
  let (month, text) ← parseDigits 2 0 text
  let text ← parseDash dashed text
  let (day, text) ← parseDigits 2 0 text
  if text = [] then some { year := year, month := month, day := day } else none

/-- The first day of a year falls on this day of the week, counted from Monday. -/
def firstWeekday (year : ℕ) : ℕ := toDays { year := year, month := 1, day := 1 } % 7

/-- The Monday of the week with the first Thursday of the year. -/
def isoWeek1Monday (year : ℕ) : ℕ :=
  let monday := toDays { year := year, month := 1, day := 1 } - firstWeekday year
  if firstWeekday year > 3 then monday + 7 else monday

/-- A year has a week 53 if it begins on a Thursday, or on a Wednesday with a leap day to come. -/
def isoToYmd (year week day : ℕ) : Option Date :=
  let long := firstWeekday year = 3 ∨ firstWeekday year = 2 ∧ isLeap year
  if 1 ≤ year ∧ 1 ≤ week ∧ (week ≤ 52 ∨ week = 53 ∧ long) ∧ 1 ≤ day ∧ day ≤ 7 then
    some (ofDays (isoWeek1Monday year + (week - 1) * 7 + (day - 1)))
  else none

def parseWeek (year : ℕ) (dashed : Bool) (text : List Char) : Option Date := do
  let (week, text) ← parseDigits 2 0 text
  if text = [] then isoToYmd year week 1
  else
    let text ← parseDash dashed text
    let (day, text) ← parseDigits 1 0 text
    if text = [] then isoToYmd year week day else none

/-- Reads `YYYY-MM-DD` and `YYYY-Www-D`, also without the dashes or the day of the week. -/
def fromisoformat (text : String) : Option Date := do
  let (year, text) ← parseDigits 4 0 text.toList
  let dashed := text.head? = some '-'
  let text := if dashed then text.tail else text
  let date ← if text.head? = some 'W' then parseWeek year dashed text.tail
    else parseMonthDay year dashed text
  if date.Valid then some date else none

def isoformat (date : Date) : String :=
  String.ofList (digits 4 date.year ++ '-' :: (digits 2 date.month ++ '-' :: digits 2 date.day))

theorem isoformat_ne_empty (date : Date) : isoformat date ≠ "" := by
  intro h
  have htext := congrArg String.toList h
  unfold isoformat at htext
  rw [String.toList_ofList] at htext
  cases htext

theorem Date.Valid.day_le {date : Date} (h : date.Valid) : date.day ≤ 31 := by
  obtain ⟨-, -, hmonth, hmonths, -, hday⟩ := h
  have hlengths : ∀ i < 12, (monthLengths (isLeap date.year)).getD i 0 ≤ 31 := by
    cases isLeap date.year <;> decide
  exact hday.trans (hlengths _ (by omega))

theorem parseMonthDay_digits {date : Date} (h : date.Valid) :
    parseMonthDay date.year true (digits 2 date.month ++ '-' :: digits 2 date.day) = some date := by
  have hday := h.day_le
  obtain ⟨-, -, -, hmonths, -⟩ := h
  have hrest := parseDigits_digits_of_lt [] (show date.day < 10 ^ 2 by omega)
  rw [List.append_nil] at hrest
  unfold parseMonthDay
  rw [parseDigits_digits_of_lt _ (show date.month < 10 ^ 2 by omega)]
  simp [parseDash, hrest]

/-- What is written is read again. -/
theorem fromisoformat_isoformat {date : Date} (h : date.Valid) :
    fromisoformat (isoformat date) = some date := by
  have hyear : date.year < 10 ^ 4 := by
    have := h.2.1
    omega
  have hmark : (digits 2 date.month ++ '-' :: digits 2 date.day).head? ≠ some 'W' := by
    intro hhead
    exact Nat.digitChar_ne 'W' (by decide) (Option.some.inj hhead)
  unfold fromisoformat isoformat
  rw [String.toList_ofList, parseDigits_digits_of_lt _ hyear]
  simp only [Option.bind_eq_bind, Option.bind_some, List.head?_cons, List.tail_cons, decide_true,
    if_true, if_neg hmark, parseMonthDay_digits h, if_pos h]

example : fromisoformat "2024-W09-4" = some ⟨2024, 2, 29⟩ := by decide +kernel

end Calendar
