import Mathlib.Data.Int.Basic
import Mathlib.Tactic.SplitIfs

/-!
# The proleptic Gregorian calendar

Days are counted from 1970-01-01 in both directions. The civil date of a day is
computed through years that start in March, so that the leap day is the last
day of a year; cycles of 400, 100, 4 and 1 years are peeled off in turn. The
conversion back is a closed formula, and it inverts the first one on every day
number.
-/

namespace PmxAgents.Lib.Calendar

/-- A year, a month from 1 to 12 and a day of the month from 1. -/
structure Date where
  year : Int
  month : Int
  day : Int
  deriving DecidableEq, Repr

/-- Days of the March-based years before year `y`, from 0000-03-01. -/
def yearStart (y : Int) : Int := 365 * y + y / 4 - y / 100 + y / 400

/-- The day number of a civil date. -/
def daysOfCivil (d : Date) : Int :=
  let y := if d.month ≤ 2 then d.year - 1 else d.year
  let mp := if d.month ≤ 2 then d.month + 9 else d.month - 3
  yearStart y + (153 * mp + 2) / 5 + d.day - 1 - 719468

def isLeap (year : Int) : Bool := year % 4 = 0 && (year % 100 ≠ 0 || year % 400 = 0)

/-- The number of days of a month. -/
def daysIn (year month : Int) : Int :=
  if month = 2 then if isLeap year then 29 else 28
  else if month = 4 ∨ month = 6 ∨ month = 9 ∨ month = 11 then 30 else 31

/-- The March-based year and the day in it of a day number from 0000-03-01. -/
def marchYear (z : Int) : Int × Int :=
  let n400 := z / 146097
  let r400 := z % 146097
  let n100 := if r400 / 36524 = 4 then 3 else r400 / 36524
  let r100 := r400 - n100 * 36524
  let n4 := r100 / 1461
  let r4 := r100 % 1461
  let n1 := if r4 / 365 = 4 then 3 else r4 / 365
  (400 * n400 + 100 * n100 + 4 * n4 + n1, r4 - n1 * 365)

/-- The civil date of a day number. -/
def civilOfDays (days : Int) : Date :=
  let (y, doy) := marchYear (days + 719468)
  let mp := (5 * doy + 2) / 153
  let month := if mp < 10 then mp + 3 else mp - 9
  { year := if month ≤ 2 then y + 1 else y
    month := month
    day := doy - (153 * mp + 2) / 5 + 1 }

/-- The year and the number of the week of a day, weeks starting on Monday and belonging to
the year of their Thursday. -/
def isoWeek (days : Int) : Int × Int :=
  let thursday := days - (days + 3) % 7 + 3
  let year := (civilOfDays thursday).year
  (year, (thursday - daysOfCivil ⟨year, 1, 1⟩) / 7 + 1)

example : isoWeek (daysOfCivil ⟨2024, 12, 30⟩) = (2025, 1) := by decide

/-- The cycles of 400, 100, 4 and 1 years before a day. A year has a 366th day at the end of a
cycle of four years, but not of a hundred, unless of four hundred. -/
theorem marchYear_cycles (z : Int) : ∃ n n100 n4 n1 : Int,
    (marchYear z).1 = 400 * n + 100 * n100 + 4 * n4 + n1 ∧
      z = 146097 * n + 36524 * n100 + 1461 * n4 + 365 * n1 + (marchYear z).2 ∧
      (0 ≤ n100 ∧ n100 ≤ 3) ∧ (0 ≤ n4 ∧ n4 ≤ 24) ∧ (0 ≤ n1 ∧ n1 ≤ 3) ∧ 0 ≤ (marchYear z).2 ∧
      ((marchYear z).2 < 365 ∨ (marchYear z).2 = 365 ∧ n1 = 3 ∧ (n4 ≤ 23 ∨ n100 = 3)) := by
  simp only [marchYear]
  generalize hr : z % 146097 = r
  have hz : z = 146097 * (z / 146097) + r := by omega
  have hr' : 0 ≤ r ∧ r < 146097 := by omega
  generalize hn100 : (if r / 36524 = 4 then 3 else r / 36524) = n100
  have hn100' : 0 ≤ n100 ∧ n100 ≤ 3 ∧ 0 ≤ r - n100 * 36524 ∧
      (r - n100 * 36524 < 36524 ∨ n100 = 3 ∧ r - n100 * 36524 ≤ 36524) := by
    split_ifs at hn100 <;> omega
  generalize hs : r - n100 * 36524 = s at *
  generalize hn4 : s / 1461 = n4
  generalize ht : s % 1461 = t
  have hn4' : 0 ≤ n4 ∧ n4 ≤ 24 ∧ 0 ≤ t ∧ t < 1461 ∧ s = 1461 * n4 + t := by omega
  generalize hn1 : (if t / 365 = 4 then 3 else t / 365) = n1
  have hn1' : 0 ≤ n1 ∧ n1 ≤ 3 ∧ 0 ≤ t - n1 * 365 ∧
      (t - n1 * 365 < 365 ∨ t - n1 * 365 = 365 ∧ n1 = 3) := by
    split_ifs at hn1 <;> omega
  refine ⟨z / 146097, n100, n4, n1, rfl, ?_, ?_, ?_, ?_, ?_, ?_⟩ <;> omega

/-- The day within a March-based year, and the start of that year. -/
theorem marchYear_spec (z : Int) :
    0 ≤ (marchYear z).2 ∧ (marchYear z).2 ≤ 365 ∧
      yearStart (marchYear z).1 + (marchYear z).2 = z := by
  obtain ⟨n, n100, n4, n1, hyear, hz, h100, h4, h1, h0, hday⟩ := marchYear_cycles z
  have hquarter : (marchYear z).1 / 4 = 100 * n + 25 * n100 + n4 := by omega
  have hcentury : (marchYear z).1 / 100 = 4 * n + n100 := by omega
  have hfour : (marchYear z).1 / 400 = n := by omega
  refine ⟨h0, by omega, ?_⟩
  rw [yearStart, hquarter, hcentury, hfour, hyear]
  omega

theorem yearStart_mono {a b : Int} (h : a ≤ b) : yearStart a ≤ yearStart b := by
  simp only [yearStart]
  omega

/-- A day lies before the start of the next year. -/
theorem lt_yearStart_succ (z : Int) : z < yearStart ((marchYear z).1 + 1) := by
  obtain ⟨n, n100, n4, n1, hyear, hz, h100, h4, h1, -, hday⟩ := marchYear_cycles z
  have hquarter : n1 ≤ 2 ∧ ((marchYear z).1 + 1) / 4 = 100 * n + 25 * n100 + n4 ∨
      n1 = 3 ∧ ((marchYear z).1 + 1) / 4 = 100 * n + 25 * n100 + n4 + 1 := by omega
  have hcentury : ((n1 ≤ 2 ∨ n4 ≤ 23) ∧ ((marchYear z).1 + 1) / 100 = 4 * n + n100) ∨
      n1 = 3 ∧ n4 = 24 ∧ ((marchYear z).1 + 1) / 100 = 4 * n + n100 + 1 := by omega
  have hfour : ((n1 ≤ 2 ∨ n4 ≤ 23 ∨ n100 ≤ 2) ∧ ((marchYear z).1 + 1) / 400 = n) ∨
      n1 = 3 ∧ n4 = 24 ∧ n100 = 3 ∧ ((marchYear z).1 + 1) / 400 = n + 1 := by omega
  rw [yearStart]
  generalize ((marchYear z).1 + 1) / 4 = a at *
  generalize ((marchYear z).1 + 1) / 100 = b at *
  generalize ((marchYear z).1 + 1) / 400 = c at *
  omega

theorem marchYear_mono {z z' : Int} (h : z ≤ z') :
    (marchYear z).1 < (marchYear z').1 ∨
      (marchYear z).1 = (marchYear z').1 ∧ (marchYear z).2 ≤ (marchYear z').2 := by
  obtain ⟨h0, -, hstart⟩ := marchYear_spec z
  obtain ⟨-, -, hstart'⟩ := marchYear_spec z'
  have hlt := lt_yearStart_succ z'
  rcases Int.lt_trichotomy (marchYear z).1 (marchYear z').1 with hyear | hyear | hyear
  · exact Or.inl hyear
  · rw [hyear] at hstart
    exact Or.inr ⟨hyear, by omega⟩
  · have hmono := yearStart_mono (show (marchYear z').1 + 1 ≤ (marchYear z).1 by omega)
    omega

/-- Reading a day as a civil date and counting it again gives the same day. -/
theorem daysOfCivil_civilOfDays (days : Int) : daysOfCivil (civilOfDays days) = days := by
  obtain ⟨h0, h365, hstart⟩ := marchYear_spec (days + 719468)
  simp only [civilOfDays]
  generalize hy : (marchYear (days + 719468)).1 = y at *
  generalize hd : (marchYear (days + 719468)).2 = doy at *
  have hmp : 0 ≤ (5 * doy + 2) / 153 ∧ (5 * doy + 2) / 153 ≤ 11 := by omega
  generalize (5 * doy + 2) / 153 = mp at *
  simp only [daysOfCivil]
  by_cases hlow : mp < 10
  · have hm : ¬ mp + 3 ≤ 2 := by omega
    simp only [if_pos hlow, if_neg hm, Int.add_sub_cancel]
    omega
  · have hm : mp - 9 ≤ 2 := by omega
    simp only [if_neg hlow, if_pos hm, Int.add_sub_cancel, Int.sub_add_cancel]
    omega

theorem civilOfDays_injective : Function.Injective civilOfDays := by
  intro a b h
  rw [← daysOfCivil_civilOfDays a, ← daysOfCivil_civilOfDays b, h]

/-- The ranges of the fields of a civil date. -/
theorem civilOfDays_range (days : Int) :
    1 ≤ (civilOfDays days).month ∧ (civilOfDays days).month ≤ 12 ∧
      1 ≤ (civilOfDays days).day ∧ (civilOfDays days).day ≤ 31 := by
  obtain ⟨h0, h365, _⟩ := marchYear_spec (days + 719468)
  simp only [civilOfDays]
  generalize (marchYear (days + 719468)).2 = doy at *
  refine ⟨?_, ?_, ?_, ?_⟩
  · split_ifs <;> omega
  · split_ifs <;> omega
  · omega
  · omega

/-- Years and months do not go back. -/
theorem civilOfDays_mono {d d' : Int} (h : d ≤ d') :
    (civilOfDays d).year < (civilOfDays d').year ∨
      (civilOfDays d).year = (civilOfDays d').year ∧
        (civilOfDays d).month ≤ (civilOfDays d').month := by
  obtain ⟨h0, h365, -⟩ := marchYear_spec (d + 719468)
  obtain ⟨h0', h365', -⟩ := marchYear_spec (d' + 719468)
  have hmono := marchYear_mono (show d + 719468 ≤ d' + 719468 by omega)
  simp only [civilOfDays]
  generalize (marchYear (d + 719468)).1 = y at *
  generalize (marchYear (d + 719468)).2 = doy at *
  generalize (marchYear (d' + 719468)).1 = y' at *
  generalize (marchYear (d' + 719468)).2 = doy' at *
  split_ifs <;> omega

/-- The year and the number name one week, that from a Monday to a Sunday. -/
theorem isoWeek_eq_iff {d d' : Int} : isoWeek d = isoWeek d' ↔ (d + 3) / 7 = (d' + 3) / 7 := by
  have hthursday : ∀ d : Int, d - (d + 3) % 7 + 3 = 7 * ((d + 3) / 7) := fun d => by omega
  simp only [isoWeek, hthursday]
  constructor
  · intro h
    obtain ⟨hyear, hweek⟩ := Prod.mk.inj h
    rw [hyear] at hweek
    omega
  · intro h
    rw [h]

example : civilOfDays 0 = ⟨1970, 1, 1⟩ := by decide
example : civilOfDays 11016 = ⟨2000, 2, 29⟩ := by decide

end PmxAgents.Lib.Calendar
