import Mathlib.Algebra.Ring.Nat
import Mathlib.Algebra.Order.Ring.Nat

/-! Dates of the Gregorian calendar, counted in days from the first of January of year 1. -/
namespace Calendar

/-- The period and the day in it, for consecutive periods of these lengths. -/
def locate : List ℕ → ℕ → ℕ × ℕ
  | [], n => (0, n)
  | length :: lengths, n =>
    if n < length then (0, n)
    else ((locate lengths (n - length)).1 + 1, (locate lengths (n - length)).2)

theorem sum_take_locate (lengths : List ℕ) (n : ℕ) :
    (lengths.take (locate lengths n).1).sum + (locate lengths n).2 = n := by
  induction lengths generalizing n with
  | nil => simp [locate]
  | cons length lengths ih =>
    unfold locate
    by_cases h : n < length
    · simp [h]
    · have hrest := ih (n - length)
      simp only [h, if_false, List.take_succ_cons, List.sum_cons]
      omega

theorem locate_lt {lengths : List ℕ} {n : ℕ} (h : n < lengths.sum) :
    (locate lengths n).1 < lengths.length ∧
      (locate lengths n).2 < lengths.getD (locate lengths n).1 0 := by
  induction lengths generalizing n with
  | nil => simp at h
  | cons length lengths ih =>
    rw [List.sum_cons] at h
    unfold locate
    by_cases hn : n < length
    · simp [hn]
    · have hrest := ih (n := n - length) (by omega)
      simp only [hn, if_false, List.length_cons, List.getD_cons_succ]
      exact ⟨by omega, hrest.2⟩

def isLeap (year : ℕ) : Bool := year % 4 = 0 && (year % 100 ≠ 0 || year % 400 = 0)

def monthLengths (leap : Bool) : List ℕ :=
  [31, if leap then 29 else 28, 31, 30, 31, 30, 31, 31, 30, 31, 30, 31]

def yearLength (year : ℕ) : ℕ := if isLeap year then 366 else 365

/-- The calendar repeats after 400 years. -/
def yearLengths : List ℕ := (List.range 400).map fun i => yearLength (i + 1)

def cycle : ℕ := 146097

structure Date where
  year : ℕ
  month : ℕ
  day : ℕ
  deriving DecidableEq

def Date.Valid (date : Date) : Prop :=
  1 ≤ date.year ∧ date.year ≤ 9999 ∧ 1 ≤ date.month ∧ date.month ≤ 12 ∧ 1 ≤ date.day ∧
    date.day ≤ (monthLengths (isLeap date.year)).getD (date.month - 1) 0

instance (date : Date) : Decidable date.Valid := inferInstanceAs (Decidable (_ ∧ _))

/-- The date that many days after the first of January of year 1. -/
def ofDays (n : ℕ) : Date :=
  let inCycle := locate yearLengths (n % cycle)
  let year := n / cycle * 400 + inCycle.1 + 1
  let inYear := locate (monthLengths (isLeap year)) inCycle.2
  { year := year, month := inYear.1 + 1, day := inYear.2 + 1 }

def toDays (date : Date) : ℕ :=
  (date.year - 1) / 400 * cycle + (yearLengths.take ((date.year - 1) % 400)).sum +
    ((monthLengths (isLeap date.year)).take (date.month - 1)).sum + (date.day - 1)

example : ofDays 719162 = ⟨1970, 1, 1⟩ := by decide +kernel

theorem sum_yearLengths : yearLengths.sum = cycle := by decide +kernel

theorem length_yearLengths : yearLengths.length = 400 := by simp [yearLengths]

theorem sum_monthLengths (year : ℕ) : (monthLengths (isLeap year)).sum = yearLength year := by
  unfold yearLength
  cases isLeap year <;> rfl

theorem isLeap_cycle (c i : ℕ) : isLeap (c * 400 + i) = isLeap i := by
  have h4 : (c * 400 + i) % 4 = i % 4 := by omega
  have h100 : (c * 400 + i) % 100 = i % 100 := by omega
  have h400 : (c * 400 + i) % 400 = i % 400 := by omega
  unfold isLeap
  rw [h4, h100, h400]

theorem yearLength_cycle (c i : ℕ) : yearLength (c * 400 + i) = yearLength i := by
  unfold yearLength
  rw [isLeap_cycle]

theorem getD_yearLengths {i : ℕ} (h : i < 400) : yearLengths.getD i 0 = yearLength (i + 1) := by
  unfold yearLengths
  rw [List.getD_eq_getElem?_getD, List.getElem?_map, List.getElem?_range h]
  rfl

section

variable (n : ℕ)

theorem inCycle_lt : n % cycle < yearLengths.sum := by
  rw [sum_yearLengths]
  exact Nat.mod_lt n (by decide)

/-- The day of the year is a day of that year. -/
theorem inYear_lt : (locate yearLengths (n % cycle)).2 <
    (monthLengths (isLeap (ofDays n).year)).sum := by
  obtain ⟨hyear, hday⟩ := locate_lt (inCycle_lt n)
  rw [length_yearLengths] at hyear
  rw [getD_yearLengths hyear] at hday
  have hyears : (ofDays n).year = n / cycle * 400 + (locate yearLengths (n % cycle)).1 + 1 := rfl
  rw [sum_monthLengths, hyears, Nat.add_assoc, yearLength_cycle]
  exact hday

theorem toDays_ofDays : toDays (ofDays n) = n := by
  obtain ⟨hyear, -⟩ := locate_lt (inCycle_lt n)
  rw [length_yearLengths] at hyear
  have hcycle := sum_take_locate yearLengths (n % cycle)
  have hmonth := sum_take_locate (monthLengths (isLeap (ofDays n).year))
    (locate yearLengths (n % cycle)).2
  have hquotient : ((ofDays n).year - 1) / 400 = n / cycle := by
    unfold ofDays
    dsimp only
    omega
  have hremainder : ((ofDays n).year - 1) % 400 = (locate yearLengths (n % cycle)).1 := by
    unfold ofDays
    dsimp only
    omega
  have hday : (ofDays n).day - 1 = (locate (monthLengths (isLeap (ofDays n).year))
      (locate yearLengths (n % cycle)).2).2 := rfl
  have hmonths : (ofDays n).month - 1 = (locate (monthLengths (isLeap (ofDays n).year))
      (locate yearLengths (n % cycle)).2).1 := rfl
  have hwhole := Nat.div_add_mod' n cycle
  unfold toDays
  rw [hquotient, hremainder, hmonths, hday]
  omega

/-- The last day of year 9999 is the 3652059th. -/
theorem valid_ofDays {n : ℕ} (h : n < 3652059) : (ofDays n).Valid := by
  obtain ⟨hyear, -⟩ := locate_lt (inCycle_lt n)
  obtain ⟨hmonth, hday⟩ := locate_lt (inYear_lt n)
  have hlength : (monthLengths (isLeap (ofDays n).year)).length = 12 := rfl
  rw [hlength] at hmonth
  rw [length_yearLengths] at hyear
  have hlast : (ofDays n).year ≤ 9999 := by
    have hsum := sum_take_locate yearLengths (n % cycle)
    have hwhole := Nat.div_add_mod' n cycle
    have htotal : (yearLengths.take 399).sum = 145731 := by decide +kernel
    have hcycles : n / cycle ≤ 24 := by
      unfold cycle
      omega
    have hend : (ofDays n).year = n / cycle * 400 + (locate yearLengths (n % cycle)).1 + 1 := rfl
    by_contra hlate
    have hindex : (locate yearLengths (n % cycle)).1 = 399 := by omega
    have hquotient : n / cycle = 24 := by omega
    rw [hindex, htotal] at hsum
    rw [hquotient] at hwhole
    unfold cycle at hwhole hsum
    omega
  exact ⟨Nat.le_add_left 1 _, hlast, Nat.le_add_left 1 _, hmonth, Nat.le_add_left 1 _, hday⟩

end

end Calendar
