/-!
# Dates and times of day

A date of the Gregorian calendar between 1970 and 9999 with a time of day in whole seconds, and its number of
seconds since the start of 1970. Every day has 86400 seconds.
-/

namespace Signet

def isLeapYear (y : Nat) : Bool := y % 4 == 0 && (y % 100 != 0 || y % 400 == 0)

def yearLength (y : Nat) : Nat := if isLeapYear y then 366 else 365

def monthLengths (y : Nat) : List Nat :=
  [31, if isLeapYear y then 29 else 28, 31, 30, 31, 30, 31, 31, 30, 31, 30, 31]

structure DateTime where
  year : Nat
  month : Nat
  day : Nat
  hour : Nat
  minute : Nat
  second : Nat
deriving DecidableEq, Repr

namespace DateTime

def IsValid (t : DateTime) : Prop :=
  1970 ≤ t.year ∧ t.year ≤ 9999 ∧ 1 ≤ t.month ∧ t.month ≤ 12 ∧ 1 ≤ t.day
    ∧ t.day ≤ (monthLengths t.year).getD (t.month - 1) 0 ∧ t.hour < 24 ∧ t.minute < 60 ∧ t.second < 60

instance (t : DateTime) : Decidable t.IsValid := by unfold IsValid; infer_instance

/-- The number of leap years up to the year `y`. -/
def leapsThrough (y : Nat) : Nat := y / 4 - y / 100 + y / 400

/-- The number of days from the start of 1970 to the start of the year `y`. -/
def daysBeforeYear (y : Nat) : Nat := 365 * (y - 1970) + leapsThrough (y - 1) - leapsThrough 1969

def toUnix (t : DateTime) : Nat :=
  let days := daysBeforeYear t.year + ((monthLengths t.year).take (t.month - 1)).foldr (· + ·) 0 + (t.day - 1)
  days * 86400 + t.hour * 3600 + t.minute * 60 + t.second

/-- The year in which the day number `days`, counted from the start of the year `y`, falls, and its number
in that year. -/
def splitYear (y days : Nat) : Nat × Nat :=
  if days < yearLength y then (y, days) else splitYear (y + 1) (days - yearLength y)
termination_by days
decreasing_by
  have : 0 < yearLength y := by unfold yearLength; split <;> omega
  omega

/-- The month in which the day number `days` falls, counted from the start of the month `m`, and its number
in that month; `lengths` holds the lengths of that month and of the later ones. -/
def splitMonth : (lengths : List Nat) → (m days : Nat) → Nat × Nat
  | [], m, days => (m, days)
  | n :: ns, m, days => if days < n then (m, days) else splitMonth ns (m + 1) (days - n)

def ofUnix (seconds : Nat) : DateTime :=
  let rest := seconds % 86400
  let y := splitYear 1970 (seconds / 86400)
  let m := splitMonth (monthLengths y.1) 1 y.2
  ⟨y.1, m.1, m.2 + 1, rest / 3600, rest / 60 % 60, rest % 60⟩

def maxUnix : Nat := 253402300799

/-- The date and time with the given number of seconds since the start of 1970, up to the year 9999. -/
def ofUnix? (seconds : Nat) : Option DateTime := if seconds ≤ maxUnix then some (ofUnix seconds) else none

/-- The decimal digits of `n`, at least `width` of them. -/
def digits (width n : Nat) : String :=
  let d := Nat.toDigits 10 n
  String.ofList (List.replicate (width - d.length) '0' ++ d)

/-- The text of a date and time, such as `2023-11-14 22:13:20 UTC`. -/
def toString (t : DateTime) : String :=
  digits 4 t.year ++ "-" ++ digits 2 t.month ++ "-" ++ digits 2 t.day ++ " " ++ digits 2 t.hour ++ ":"
    ++ digits 2 t.minute ++ ":" ++ digits 2 t.second ++ " UTC"

end DateTime

end Signet
