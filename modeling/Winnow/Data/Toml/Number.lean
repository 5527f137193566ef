import Winnow.Data.Numeral
import Winnow.Data.Toml.Basic
import Winnow.Number.Numeral

/-!
# Numbers of TOML

First the bytes of a numeral are found, then what they stand for.
-/

namespace Winnow.Toml

def hasEmptyGroup : Bytes → Bool
  | 95 :: 95 :: _ => true
  | _ :: s => hasEmptyGroup s
  | [] => false

/-- Digits without the signs between groups. -/
def ungroupInteger (s : Bytes) : Except Fault Bytes :=
  let digits := match s with
    | 43 :: t => t
    | 45 :: t => t
    | t => t
  if digits.isEmpty then .ok s
  else if digits.head? = some 95 then .error (.malformed "number cannot start with underscore")
  else if s.getLast? = some 95 then .error (.malformed "number cannot end with underscore")
  else if hasEmptyGroup s then
    .error (.malformed "number must have at least one digit between underscores")
  else .ok (s.filter (· != 95))

def groupsDigits : (before : UInt8) → Bytes → Bool
  | _, [] => true
  | before, b :: s =>
    (b ≠ 95 || (Bytes.isDigit before && (s.head?.map Bytes.isDigit).getD false)) && groupsDigits b s

def ungroupFraction (s : Bytes) : Except Fault Bytes :=
  if s.head? = some 95 then .error (.malformed "number cannot start with underscore")
  else if s.getLast? = some 95 then .error (.malformed "number cannot end with underscore")
  else if groupsDigits 0 s then .ok (s.filter (· != 95))
  else .error (.malformed "number must have at least one digit between underscores")

/-- An integer in some base. -/
def integerIn (base : Nat) (kind : String) (s : Bytes) : Except Fault Datum :=
  match Numeral.integerIn base s with
  | .ok n => .ok (.int n)
  | .error f =>
    .error (.noNumber s!"couldn't parse {kind} number: strconv.ParseInt" s f.message)

def decimal (s : Bytes) : Except Fault Datum := do
  let s ← ungroupInteger s
  let digits := (Numeral.signOf s).2
  if digits.length > 1 && digits.head? = some 48 then
    throw (.malformed "leading zero not allowed on decimal number")
  integerIn 10 "decimal" s

def integer (s : Bytes) : Except Fault Datum :=
  match s with
  | 48 :: b :: c :: digits => do
    let digits ← ungroupInteger (c :: digits)
    if b = 120 then integerIn 16 "hexadecimal" digits
    else if b = 98 then integerIn 2 "binary" digits
    else integerIn 8 "octal" digits
  | s => decimal s

/-- What is wrong with a decimal point. -/
def pointProblem? : (before : UInt8) → (hasPoint : Bool) → Bytes → Option String
  | _, _, [] => none
  | before, hasPoint, b :: s =>
    if b ≠ 46 then pointProblem? b hasPoint s
    else if hasPoint then some "float can have at most one decimal point"
    else if !Bytes.isDigit before then some "float decimal point must be preceded by a digit"
    else if !(s.head?.map Bytes.isDigit).getD false then
      some "float decimal point must be followed by a digit"
    else pointProblem? b true s

/-- Infinity or no number. -/
def special? (s : Bytes) : Option Float :=
  let (negative, word) := Numeral.signOf s
  if word = utf8 "inf" then some (if negative then -Number.infinity else Number.infinity)
  else if word = utf8 "nan" then some Number.nan
  else none

/-- What a numeral with a point or exponent stands for. -/
def fractional (s : Bytes) : Except Fault Datum := do
  if let some x := special? s then return .real x
  let s ← ungroupFraction s
  let digits := (Numeral.signOf s).2
  if s.head? = some 46 then throw (.malformed "float cannot start with a dot")
  if s.getLast? = some 46 then throw (.malformed "float cannot end with a dot")
  if let some problem := pointProblem? 0 false s then throw (.malformed problem)
  if digits.head? = some 48 && ((digits.drop 1).head?.map Bytes.isDigit).getD false then
    throw (.malformed "float integer part cannot have leading zeroes")
  let isNumeric := s.all fun b =>
    Bytes.isDigit b || b == 43 || b == 45 || b == 46 || b == 101 || b == 69
  match if isNumeric then Number.real? s else none with
  | some x => return .real x
  | none =>
    let reason : Numeral.Fault := if Number.isDecimal s then .outOfRange else .malformed
    throw (.noNumber "unable to parse float: strconv.ParseFloat" s reason.message)

def isDigitIn? (marker : UInt8) : Option (UInt8 → Bool) :=
  let isGrouped (base : Nat) (b : UInt8) : Bool := b == 95 || (Numeral.digit? base b).isSome
  if marker = 120 then some (isGrouped 16)
  else if marker = 111 then some (isGrouped 8)
  else if marker = 98 then some (isGrouped 2)
  else none

/-- The bytes of a numeral, and whether it has a fraction. -/
def numeralAfter (read : Bytes) (isFraction : Bool) : Bytes → Except Fault (Bytes × Bool × Bytes)
  | [] => .ok (read.reverse, isFraction, [])
  | b :: s =>
    if Bytes.isDigit b || b = 43 || b = 45 || b = 95 then numeralAfter (b :: read) isFraction s
    else if b = 46 || b = 101 || b = 69 then numeralAfter (b :: read) true s
    else if b = 105 then
      if Bytes.startsWith s (utf8 "nf") then .ok (read.reverse ++ utf8 "inf", true, s.drop 2)
      else .error (.malformed "unexpected character 'i' while scanning for a number")
    else if b = 110 then
      if Bytes.startsWith s (utf8 "an") then .ok (read.reverse ++ utf8 "nan", true, s.drop 2)
      else .error (.malformed "unexpected character 'n' while scanning for a number")
    else .ok (read.reverse, isFraction, b :: s)

def decimalNumeral : Reader Datum := fun s => do
  let (numeral, isFraction, rest) ← numeralAfter [] false s
  if numeral.isEmpty then throw (.malformed "incomplete number")
  return (← if isFraction then fractional numeral else integer numeral, rest)

/-- A number. A zero in front of anything but a point, an exponent or the marker of a base is all
there is of the number. -/
def number : Reader Datum := fun s =>
  match s with
  | 48 :: b :: c :: t =>
    if b = 46 || b = 101 || b = 69 then decimalNumeral s
    else match isDigitIn? b with
      | some isDigit => do
        let (digits, rest) := (c :: t).span isDigit
        return (← integer (48 :: b :: digits), rest)
      | none => .ok (.int 0, b :: c :: t)
  | _ => decimalNumeral s

end Winnow.Toml
