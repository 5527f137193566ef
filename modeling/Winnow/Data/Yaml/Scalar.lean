import Winnow.Data.Datum
import Winnow.Data.Numeral
import Winnow.Number.Numeral

/-!
# Plain scalars of YAML

What a scalar without quotes stands for. The same rules say which texts need quotes when they are
written.
-/

namespace Winnow.Yaml

/-- One or two digits within limits. -/
def shortNumber? (low high : Nat) (s : Bytes) : Option (Nat × Bytes) :=
  let ds := (s.take 2).takeWhile Bytes.isDigit
  match Numeral.natural? 10 ds with
  | some n => if low ≤ n ∧ n ≤ high then some (n, s.drop ds.length) else none
  | none => none

def after? (b : UInt8) : Bytes → Option Bytes
  | c :: s => if c = b then some s else none
  | [] => none

def date? (s : Bytes) : Option (Instant × Bytes) := do
  if (s.takeWhile Bytes.isDigit).length ≠ 4 then none
  let year ← Numeral.natural? 10 (s.take 4)
  let s ← after? 45 (s.drop 4)
  let (month, s) ← shortNumber? 1 12 s
  let s ← after? 45 s
  let (day, s) ← shortNumber? 1 (Instant.daysIn year month) s
  return ({ year, month, day }, s)

def clock? (date : Instant) (s : Bytes) : Option (Instant × Bytes) := do
  let (hour, s) ← shortNumber? 0 23 s
  let s ← after? 58 s
  let (minute, s) ← shortNumber? 0 59 s
  let s ← after? 58 s
  let (second, s) ← shortNumber? 0 59 s
  let t := { date with hour, minute, second }
  match s with
  | b :: rest =>
    let fraction := rest.takeWhile Bytes.isDigit
    if (b = 46 || b = 44) && !fraction.isEmpty then
      return ({ t with fraction }, rest.drop fraction.length)
    else return (t, s)
  | [] => return (t, [])

/-- A time zone in minutes. -/
def zone? : Bytes → Option Int
  | [90] => some 0
  | [b, h, i, 58, m, n] => do
    let hours ← Numeral.natural? 10 [h, i]
    let minutes ← Numeral.natural? 10 [m, n]
    let offset : Int := hours * 60 + minutes
    if hours > 24 ∨ minutes > 60 then none
    else if b = 43 then some offset
    else if b = 45 then some (-offset)
    else none
  | _ => none

/-- A date, perhaps with a time of day. -/
def time? (s : Bytes) : Option Instant := do
  let (date, rest) ← date? s
  match rest with
  | [] => return date
  | b :: t =>
    if b = 32 then
      let (time, rest) ← clock? date (t.dropWhile (· == 32))
      if rest.isEmpty then some time else none
    else if b = 84 || b = 116 then
      let (time, rest) ← clock? date t
      let offset ← zone? rest
      return { time with offset }
    else none

def integer? (s : Bytes) : Option Int :=
  let (negative, rest) := Numeral.signOf s
  match Numeral.natural? (Numeral.baseOf rest).1 (Numeral.baseOf rest).2 with
  | none => none
  | some n =>
    if negative then if n ≤ Nat.pow 2 63 then some (-(n : Int)) else none
    else if n < Nat.pow 2 63 || (n < Nat.pow 2 64 && s.head? ≠ some 43) then some n else none

def decimal? (s : Bytes) : Option Datum :=
  if Number.isDecimal s then (Number.real? s).map Datum.real else none

def markedInteger? (s : Bytes) : Option Int :=
  match s with
  | 48 :: 98 :: digits => (Numeral.integerIn 2 digits).toOption
  | 48 :: 111 :: digits => (Numeral.integerIn 8 digits).toOption
  | _ => none

/-- A number, in groups perhaps. -/
def number? (s : Bytes) : Option Datum :=
  let plain := s.filter (· != 95)
  match integer? plain, decimal? plain with
  | some n, _ => some (.int n)
  | none, some d => some d
  | none, none => (markedInteger? plain).map Datum.int

def groupsDigits : Bytes → Bool
  | a :: 95 :: b :: s => Bytes.isDigit a && Bytes.isDigit b && groupsDigits (b :: s)
  | [_, 95] => false
  | 95 :: _ => false
  | _ :: s => groupsDigits s
  | [] => true

def fraction? (s : Bytes) : Option Datum :=
  if groupsDigits s then decimal? (s.filter (· != 95)) else none

/-- The words that stand for values. -/
def words : List (String × Datum) :=
  [("true", .bool true), ("True", .bool true), ("TRUE", .bool true),
   ("false", .bool false), ("False", .bool false), ("FALSE", .bool false),
   ("", .null), ("~", .null), ("null", .null), ("Null", .null), ("NULL", .null),
   (".nan", .real Number.nan), (".NaN", .real Number.nan), (".NAN", .real Number.nan),
   (".inf", .real Number.infinity), (".Inf", .real Number.infinity),
   (".INF", .real Number.infinity), ("+.inf", .real Number.infinity),
   ("+.Inf", .real Number.infinity), ("+.INF", .real Number.infinity),
   ("-.inf", .real (-Number.infinity)), ("-.Inf", .real (-Number.infinity)),
   ("-.INF", .real (-Number.infinity))]

def resolveAs (withTimes : Bool) (s : Bytes) : Datum :=
  match words.find? fun w => utf8 w.1 = s with
  | some w => w.2
  | none =>
    match s with
    | [] => .null
    | b :: _ =>
      if b = 46 then (fraction? s).getD (.text s)
      else if b = 43 || b = 45 || Bytes.isDigit b then
        match if withTimes then time? s else none with
        | some t => .time .instant t.text
        | none => (number? s).getD (.text s)
      else .text s

/-- What a scalar without quotes stands for. -/
def resolve (s : Bytes) : Datum := resolveAs true s

/-- Words that were truth values once. -/
def oldWords : List Bytes :=
  ["y", "Y", "yes", "Yes", "YES", "on", "On", "ON", "n", "N", "no", "No", "NO", "off", "Off",
   "OFF"].map utf8

def isSixtieth (s : Bytes) : Bool :=
  match s with
  | [a] => Bytes.isDigit a
  | [a, b] => 48 ≤ a && a ≤ 53 && Bytes.isDigit b
  | _ => false

/-- Whether a text was a number in base sixty once. -/
def isSexagesimal (s : Bytes) : Bool :=
  let (_, s) := Numeral.signOf s
  match Bytes.splitOn 58 s with
  | first :: next :: more =>
    let parts := next :: more
    let last := (parts.getLast?).getD []
    let (whole, fraction) := last.span (· != 46)
    let isDigitOrMark (b : UInt8) : Bool := Bytes.isDigit b || b == 95
    (first.head?.map Bytes.isDigit).getD false && first.all isDigitOrMark &&
      parts.dropLast.all isSixtieth && isSixtieth whole && (fraction.drop 1).all isDigitOrMark
  | _ => false

/-- Whether a text needs no quotes. -/
def standsForItself (s : Bytes) : Bool :=
  match resolve s with
  | .text _ => !(isSexagesimal s || oldWords.contains s)
  | _ => false

end Winnow.Yaml
