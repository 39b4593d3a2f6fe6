/-! Moments in universal time, counted from the start of 1970, and their text. -/
namespace Promela

structure Timestamp where
  milliseconds : Nat
deriving DecidableEq

namespace Timestamp

/-- Year, month and day of the day `days` after the first of 1970. Counted from the first of March of
the year 0, every 400 years have 146097 days and leap days come last in their year. -/
def date (days : Nat) : Nat × Nat × Nat :=
  let z := days + 719468
  let era := z / 146097
  let dayOfEra := z % 146097
  let yearOfEra := (dayOfEra - dayOfEra / 1460 + dayOfEra / 36524 - dayOfEra / 146096) / 365
  let dayOfYear := dayOfEra - (365 * yearOfEra + yearOfEra / 4 - yearOfEra / 100)
  let march := (5 * dayOfYear + 2) / 153
  let day := dayOfYear - (153 * march + 2) / 5 + 1
  let month := if march < 10 then march + 3 else march - 9
  (yearOfEra + 400 * era + (if month ≤ 2 then 1 else 0), month, day)

def padded (width n : Nat) : String :=
  let digits := toString n
  String.ofList (List.replicate (width - digits.length) '0') ++ digits

/-- Date and time to the second, such as `2024-02-29T23:59:59Z`. -/
def text (t : Timestamp) : String :=
  let seconds := t.milliseconds / 1000
  let (year, month, day) := date (seconds / 86400)
  let time := seconds % 86400
  padded 4 year ++ "-" ++ padded 2 month ++ "-" ++ padded 2 day ++ "T" ++ padded 2 (time / 3600)
    ++ ":" ++ padded 2 (time / 60 % 60) ++ ":" ++ padded 2 (time % 60) ++ "Z"

end Timestamp
end Promela
