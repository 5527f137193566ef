import Winnow.Data.Numeral
import Winnow.Data.Toml.Basic

/-!
# Dates and times of TOML

First the bytes are found that can belong to a time, then they are taken apart.
-/

namespace Winnow.Toml

/-- Whether a value is a time. -/
def startsTime (s : Bytes) : Bool :=
  let digits := ((s.take 5).takeWhile Bytes.isDigit).length
  s.length ≥ 3 && ((digits = 2 && (s.drop 2).head? = some 58) ||
    (digits = 4 && (s.drop 4).head? = some 45))

/-- What was seen among the bytes of a time. -/
structure TimeSigns where
  hasDate : Bool := false
  hasClock : Bool := false
  hasZone : Bool := false
  hasBlank : Bool := false

def timeAfter (read : Bytes) (signs : TimeSigns) : Bytes → Bytes × TimeSigns × Bytes
  | [] => (read.reverse, signs, [])
  | b :: s =>
    if Bytes.isDigit b then timeAfter (b :: read) signs s
    else if b = 45 then
      let hasZone := signs.hasZone || 8 ≤ read.length
      timeAfter (b :: read) { signs with hasDate := true, hasZone } s
    else if b = 84 || b = 116 || b = 58 || b = 46 then
      timeAfter (b :: read) { signs with hasClock := true } s
    else if b = 43 || b = 90 || b = 122 then
      timeAfter (b :: read) { signs with hasZone := true } s
    else match s with
      | c :: d :: rest =>
        if b = 32 && !signs.hasBlank && Bytes.isDigit c then
          timeAfter (d :: c :: b :: read) { signs with hasBlank := true, hasClock := true } rest
        else (read.reverse, signs, b :: s)
      | [c] =>
        if b = 32 && !signs.hasBlank && Bytes.isDigit c then
          ((c :: b :: read).reverse, { signs with hasBlank := true, hasClock := true }, [])
        else (read.reverse, signs, b :: s)
      | [] => (read.reverse, signs, b :: s)

def digitsOf (s : Bytes) : Except Fault Nat :=
  match Numeral.natural? 10 s with
  | some n => .ok n
  | none => .error (.malformed "expected digit (0-9)")

def date (s : Bytes) : Except Fault Instant := do
  if s.length ≠ 10 || (s.drop 4).head? ≠ some 45 || (s.drop 7).head? ≠ some 45 then
    throw (.malformed "dates are expected to have the format YYYY-MM-DD")
  let year ← digitsOf (s.take 4)
  let month ← digitsOf (Bytes.slice s 5 7)
  let day ← digitsOf (Bytes.slice s 8 10)
  if month = 0 || month > 12 || day = 0 || day > Instant.daysIn year month then
    throw (.malformed "impossible date")
  return { year, month, day }

def clock (t : Instant) : Reader Instant := fun s => do
  if s.length < 8 then
    throw (.malformed "times are expected to have the format HH:MM:SS[.NNNNNN]")
  let hour ← digitsOf (s.take 2)
  if hour > 23 then throw (.malformed "hour cannot be greater 23")
  if (s.drop 2).head? ≠ some 58 then
    throw (.malformed "expecting colon between hours and minutes")
  let minute ← digitsOf (Bytes.slice s 3 5)
  if minute > 59 then throw (.malformed "minutes cannot be greater 59")
  if (s.drop 5).head? ≠ some 58 then
    throw (.malformed "expecting colon between minutes and seconds")
  let second ← digitsOf (Bytes.slice s 6 8)
  if second > 60 then throw (.malformed "seconds cannot be greater 60")
  let t := { t with hour, minute, second }
  match s.drop 8 with
  | 46 :: rest =>
    let fraction := rest.takeWhile Bytes.isDigit
    if fraction.isEmpty then
      throw (.malformed (if rest.isEmpty then "nanoseconds need at least one digit"
        else "need at least one digit after fraction point"))
    return ({ t with fraction := fraction.take 9 }, rest.drop fraction.length)
  | rest => return (t, rest)

/-- A date with a time of day. -/
def moment : Reader Instant := fun s => do
  if s.length < 11 then
    throw (.malformed ("local datetimes are expected to have the format " ++
      "YYYY-MM-DDTHH:MM:SS[.NNNNNNNNN]"))
  let t ← date (s.take 10)
  if !(s.drop 10).head?.any (fun b => b = 84 || b = 32 || b = 116) then
    throw (.malformed "datetime separator is expected to be T or a space")
  clock t (s.drop 11)

/-- A time zone in minutes. -/
def zone : Bytes → Except Fault Int
  | [90] | [122] => .ok 0
  | 90 :: _ | 122 :: _ => .error (.malformed "extra bytes at the end of the timezone")
  | [sign, h, i, colon, m, n] => do
    if sign ≠ 43 && sign ≠ 45 then throw (.malformed "invalid timezone offset character")
    if colon ≠ 58 then throw (.malformed "expected a : separator")
    let hours ← digitsOf [h, i]
    if hours > 23 then throw (.malformed "invalid timezone offset hours")
    let minutes ← digitsOf [m, n]
    if minutes > 59 then throw (.malformed "invalid timezone offset minutes")
    let offset : Int := hours * 60 + minutes
    return if sign = 45 then -offset else offset
  | _ => .error (.malformed "invalid date-time timezone")

def clockText (t : Instant) : Bytes :=
  Instant.clockText t.hour t.minute t.second ++
    (if t.fraction.isEmpty then [] else 46 :: t.fraction)

def timeOf (s : Bytes) (signs : TimeSigns) : Except Fault Datum := do
  if !signs.hasClock then
    let t ← date s
    return .time .localDate (Instant.dateText t.year t.month t.day)
  else if !signs.hasDate then
    let (t, rest) ← clock { year := 0, month := 0, day := 0 } s
    if !rest.isEmpty then throw (.malformed "extra characters at the end of a local time")
    return .time .localTime (clockText t)
  else
    let (t, rest) ← moment s
    if signs.hasZone then return .time .instant { t with offset := ← zone rest }.text
    if !rest.isEmpty then throw (.malformed "extra characters at the end of a local date time")
    return .time .localMoment
      (Instant.dateText t.year t.month t.day ++ utf8 "T" ++ clockText t)

def time : Reader Datum := fun s => do
  let (bytes, signs, rest) := timeAfter [] {} s
  return (← timeOf bytes signs, rest)

end Winnow.Toml
