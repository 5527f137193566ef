import Winnow.Text.Bytes

/-!
# Points in time

Dates, times of day and both together. A message shows them by their text (`Instant.text`).
-/

namespace Winnow

inductive TimeKind where
  | instant
  | localDate
  | localTime
  | localMoment
  deriving DecidableEq, Repr

structure Instant where
  year : Nat
  month : Nat
  day : Nat
  hour : Nat := 0
  minute : Nat := 0
  second : Nat := 0
  fraction : Bytes := []
  offset : Int := 0
  deriving DecidableEq, Repr

namespace Instant

def daysIn (year month : Nat) : Nat :=
  if month = 2 then if year % 4 = 0 ∧ (year % 100 ≠ 0 ∨ year % 400 = 0) then 29 else 28
  else if [4, 6, 9, 11].contains month then 30 else 31

/-- A number filled up with zeros. -/
def padded (width n : Nat) : Bytes :=
  let digits := Bytes.ofNat n
  List.replicate (width - digits.length) 48 ++ digits

def dateText (year month day : Nat) : Bytes :=
  padded 4 year ++ utf8 "-" ++ padded 2 month ++ utf8 "-" ++ padded 2 day

def clockText (hour minute second : Nat) : Bytes :=
  padded 2 hour ++ utf8 ":" ++ padded 2 minute ++ utf8 ":" ++ padded 2 second

def fractionText (digits : Bytes) : Bytes :=
  match ((digits.take 9).reverse.dropWhile (· == 48)).reverse with
  | [] => []
  | ds => 46 :: ds

def offsetText (minutes : Int) : Bytes :=
  let n := minutes.natAbs
  utf8 (if minutes < 0 then "-" else "+") ++ padded 2 (n / 60) ++ padded 2 (n % 60)

def text (t : Instant) : Bytes :=
  dateText t.year t.month t.day ++ utf8 " " ++ clockText t.hour t.minute t.second ++
    fractionText t.fraction ++ utf8 " " ++ offsetText t.offset ++ utf8 " " ++
    (if t.offset = 0 then utf8 "UTC" else offsetText t.offset)

end Instant

end Winnow
