import Winnow.Text.Bytes

/-!
# Integer numerals

A sign, a marker of the base (`0x`, `0o`, `0b`, or a leading zero for eight), and digits.
-/

namespace Winnow.Numeral

def digit? (base : Nat) (b : UInt8) : Option Nat :=
  match Bytes.hexValue? b with
  | some v => if v < base then some v else none
  | none => none

/-- A number in some base. -/
def natural? (base : Nat) (s : Bytes) : Option Nat :=
  if s.isEmpty then none
  else s.foldlM (fun n b => (digit? base b).map fun v => n * base + v) 0

/-- The base of a numeral, and its digits. -/
def baseOf : Bytes → Nat × Bytes
  | 48 :: b :: s =>
    if b = 120 ∨ b = 88 then (16, s)
    else if b = 111 ∨ b = 79 then (8, s)
    else if b = 98 ∨ b = 66 then (2, s)
    else (8, b :: s)
  | s => (10, s)

/-- Whether a minus leads, and what follows. -/
def signOf : Bytes → Bool × Bytes
  | 45 :: s => (true, s)
  | 43 :: s => (false, s)
  | s => (false, s)

inductive Fault where
  | malformed
  | outOfRange
  deriving DecidableEq, Repr

def Fault.message : Fault → Bytes
  | malformed => utf8 "invalid syntax"
  | outOfRange => utf8 "value out of range"

/-- A numeral without sign, perhaps in groups. -/
def magnitude? (s : Bytes) : Option Nat :=
  let (base, digits) := baseOf s
  let groups := Bytes.splitOn 95 digits
  let groups := match groups with
    | [] :: g :: gs => if base = 10 then groups else g :: gs
    | _ => groups
  if groups.length > 1 && groups.any List.isEmpty then none else natural? base groups.flatten

/-- An integer of 64 bits. -/
def signed (negative : Bool) : Option Nat → Except Fault Int
  | none => .error .malformed
  | some n =>
    if negative then if n ≤ Nat.pow 2 63 then .ok (-(n : Int)) else .error .outOfRange
    else if n < Nat.pow 2 63 then .ok n else .error .outOfRange

def integerIn (base : Nat) (s : Bytes) : Except Fault Int :=
  let (negative, digits) := signOf s
  signed negative (natural? base digits)

/-- An integer of 64 bits. -/
def integer (s : Bytes) : Except Fault Int :=
  let (negative, rest) := signOf s
  signed negative (magnitude? rest)

end Winnow.Numeral
