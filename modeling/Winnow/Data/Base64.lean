import Winnow.Text.Bytes

/-!
# Base64

Three bytes make four letters, and equals signs fill up the last group.
-/

namespace Winnow.Base64

/-- The letter for six bits. -/
def letter (n : Nat) : UInt8 :=
  if n < 26 then UInt8.ofNat (65 + n)
  else if n < 52 then UInt8.ofNat (71 + n)
  else if n < 62 then UInt8.ofNat (n - 4)
  else if n = 62 then 43
  else 47

/-- Bytes as letters. -/
def encode : Bytes → Bytes
  | [] => []
  | [a] =>
    let n := a.toNat * 16
    [letter (n / 64), letter (n % 64), 61, 61]
  | [a, b] =>
    let n := (a.toNat * 256 + b.toNat) * 4
    [letter (n / 4096), letter (n / 64 % 64), letter (n % 64), 61]
  | a :: b :: c :: rest =>
    let n := (a.toNat * 256 + b.toNat) * 256 + c.toNat
    [letter (n / 262144), letter (n / 4096 % 64), letter (n / 64 % 64), letter (n % 64)] ++
      encode rest

def wrap (width : Nat) : (steps : Nat) → Bytes → Bytes
  | 0, s => s
  | n + 1, s => if s.isEmpty then [] else s.take width ++ [10] ++ wrap width n (s.drop width)

/-- Letters in lines, if there are many. -/
def lines (width : Nat) (letters : Bytes) : Bytes :=
  if letters.length < width then letters else wrap width letters.length letters

def number? (b : UInt8) : Option Nat := (List.range 64).find? fun n => letter n = b

def decodeGroups? : Bytes → Option Bytes
  | [] => some []
  | [a, b, 61, 61] => do
    let n := (← number? a) * 64 + (← number? b)
    return [UInt8.ofNat (n / 16)]
  | [a, b, c, 61] => do
    let n := ((← number? a) * 64 + (← number? b)) * 64 + (← number? c)
    return [UInt8.ofNat (n / 1024), UInt8.ofNat (n / 4)]
  | a :: b :: c :: d :: rest => do
    let n := (((← number? a) * 64 + (← number? b)) * 64 + (← number? c)) * 64 + (← number? d)
    return [UInt8.ofNat (n / 65536), UInt8.ofNat (n / 256), UInt8.ofNat n] ++
      (← decodeGroups? rest)
  | _ => none

/-- The bytes that letters stand for. -/
def decode? (letters : Bytes) : Option Bytes :=
  decodeGroups? (letters.filter fun b => b != 10 && b != 13)

end Winnow.Base64
