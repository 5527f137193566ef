import Winnow.Data.Json.Write

/-!
# Writing TOML

A text stands in single quotes unless it holds something that cannot stand there.
-/

namespace Winnow.Toml

def needsEscapes (b : UInt8) : Bool := b == 39 || b == 127 || (b < 32 && b != 9)

def quotedByte (b : UInt8) : Bytes :=
  match Json.shortEscape? b.toNat with
  | some c => [92, Bytes.code c]
  | none => if b < 32 || b == 127 then utf8 "\\u" ++ Bytes.hex 4 b.toNat else [b]

/-- A text in the quotes it needs. -/
def quote (s : Bytes) : Bytes :=
  if s.any needsEscapes then 34 :: (s.flatMap quotedByte ++ [34]) else 39 :: (s ++ [39])

def isKeyByte (b : UInt8) : Bool :=
  Bytes.isDigit b || (65 ≤ b && b ≤ 90) || (97 ≤ b && b ≤ 122) || b == 45 || b == 95

/-- A key, in quotes if it needs them. -/
def key (s : Bytes) : Bytes := if !s.isEmpty && s.all isKeyByte then s else quote s

def real (x : Float) : Bytes :=
  if x.isNaN then utf8 "nan"
  else if x.isInf then utf8 (if x < 0 then "-inf" else "inf")
  else
    let s := Number.formatPositional x
    if s.contains 46 then s else s ++ utf8 ".0"

mutual

def value : Datum → Bytes
  | .null => quote []
  | .bool b => utf8 (if b then "true" else "false")
  | .int n => Bytes.ofInt n
  | .real x => real x
  | .text s => quote s
  | .time _ s => s
  | .list items => utf8 "[" ++ Bytes.join (utf8 ", ") (values items) ++ utf8 "]"
  | .record fields => [123] ++ Bytes.join (utf8 ", ") (settings fields) ++ [125]

def values : List Datum → List Bytes
  | [] => []
  | d :: rest => value d :: values rest

def settings : List (Bytes × Datum) → List Bytes
  | [] => []
  | (name, d) :: rest => (key name ++ utf8 " = " ++ value d) :: settings rest

end

def write (fields : List (Bytes × Datum)) : Bytes := (settings fields).flatMap (· ++ [10])

end Winnow.Toml
