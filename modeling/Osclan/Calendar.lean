/-
  File:      Osclan/Calendar.lean
  Subject:   Dates of the Gregorian calendar, counted in seconds from the start of 1970.

  The calendar repeats every 400 years. Counted from the first of March, a year of such a cycle
  ends with its leap day, and its months follow one rule; January and February then belong to the
  next year.
-/
namespace Osclan.Calendar

/-- Seconds from the start of 1970, in universal time. -/
abbrev Instant := Int

/-- A day of the Gregorian calendar. -/
structure Date where
  year : Int
  month : Nat
  day : Nat
  deriving DecidableEq, Repr

/-- The days of 400 years. -/
def cycleDays : Nat := 146097

/-- The days from the first of March of the year 0 to the start of 1970. -/
def epochDays : Int := 719468

/-- The year, counted from March, on the given day of a cycle. -/
def yearOfCycle (day : Nat) : Nat := (day - day / 1460 + day / 36524 - day / 146096) / 365

/-- The days of a cycle before the given year. -/
def daysBefore (year : Nat) : Nat := 365 * year + year / 4 - year / 100

/-- The date of a day, counted from the start of 1970. -/
def dateOfDay (day : Int) : Date :=
  let shifted := day + epochDays
  let cycle := shifted / (cycleDays : Int)
  let inCycle := (shifted % (cycleDays : Int)).toNat
  let year := yearOfCycle inCycle
  let inYear := inCycle - daysBefore year
  let month := (5 * inYear + 2) / 153
  { year := cycle * 400 + year + (if month < 10 then 0 else 1)
    month := if month < 10 then month + 3 else month - 9
    day := inYear - (153 * month + 2) / 5 + 1 }

/-! ## Text -/

/-- A number with at least `width` digits. -/
def padded (width n : Nat) : String :=
  let digits := n.repr
  String.ofList (List.replicate (width - digits.length) '0') ++ digits

/-- A year with at least four digits and a sign where it does not have four: `+` above 9999, `-`
    below 0. -/
def yearText (year : Int) : String :=
  let sign := if year < 0 then "-" else if 9999 < year then "+" else ""
  sign ++ padded 4 year.natAbs

/-- A moment as date and time of day. -/
def text (t : Instant) : String :=
  let date := dateOfDay (t / 86400)
  let second := (t % 86400).toNat
  yearText date.year ++ "-" ++ padded 2 date.month ++ "-" ++ padded 2 date.day ++ " " ++
    padded 2 (second / 3600) ++ ":" ++ padded 2 (second / 60 % 60) ++ ":" ++
    padded 2 (second % 60) ++ " UTC"

end Osclan.Calendar
