/-!
# Byte strings

Every text the library reads or writes is a list of bytes: sources may hold bytes that are no UTF-8,
and every offset, range and size counts bytes. Text that is meant as UTF-8 is decoded where it
matters (`Winnow.Text.Utf8`), never on the way in.
-/

namespace Winnow

abbrev Bytes := List UInt8

namespace Bytes

/-- The UTF-8 form of one code point; a number that is no scalar value becomes U+FFFD. -/
def ofCode (code : Nat) : Bytes :=
  if code < 0x80 then [UInt8.ofNat code]
  else if code < 0x800 then
    [UInt8.ofNat (0xC0 + code / 64), UInt8.ofNat (0x80 + code % 64)]
  else if code < 0x10000 then
    if 0xD800 ≤ code ∧ code < 0xE000 then [0xEF, 0xBF, 0xBD]
    else [UInt8.ofNat (0xE0 + code / 4096), UInt8.ofNat (0x80 + code / 64 % 64),
      UInt8.ofNat (0x80 + code % 64)]
  else if code < 0x110000 then
    [UInt8.ofNat (0xF0 + code / 262144), UInt8.ofNat (0x80 + code / 4096 % 64),
      UInt8.ofNat (0x80 + code / 64 % 64), UInt8.ofNat (0x80 + code % 64)]
  else [0xEF, 0xBF, 0xBD]

end Bytes

/-- A text as its bytes. -/
def utf8 (s : String) : Bytes := s.toList.flatMap fun c => Bytes.ofCode c.toNat

namespace Bytes

def code (c : Char) : UInt8 := UInt8.ofNat c.toNat

/-- What follows a beginning, if it is there. -/
def stripPrefix? : (lead s : Bytes) → Option Bytes
  | [], s => some s
  | _ :: _, [] => none
  | a :: lead, b :: s => if a == b then stripPrefix? lead s else none

def startsWith (s lead : Bytes) : Bool := (stripPrefix? lead s).isSome

/-- A text without a beginning that may be there. -/
def dropLead (s lead : Bytes) : Bytes := (stripPrefix? lead s).getD s

/-- The first place of a part. -/
def find? (part : Bytes) : Bytes → Option Nat
  | [] => if part.isEmpty then some 0 else none
  | b :: s => if startsWith (b :: s) part then some 0 else (find? part s).map (· + 1)

def findByte? (p : UInt8 → Bool) : Bytes → Option Nat
  | [] => none
  | b :: s => if p b then some 0 else (findByte? p s).map (· + 1)

def findLastByte? (p : UInt8 → Bool) : Bytes → Option Nat
  | [] => none
  | b :: s =>
    match findLastByte? p s with
    | some i => some (i + 1)
    | none => if p b then some 0 else none

/-- The bytes from one offset to another. -/
def slice (s : Bytes) (start stop : Nat) : Bytes := (s.drop start).take (stop - start)

/-- The pieces between marks. -/
def splitOn (mark : UInt8) : Bytes → List Bytes
  | [] => [[]]
  | b :: s =>
    if b == mark then [] :: splitOn mark s
    else match splitOn mark s with
      | [] => [[b]]
      | piece :: rest => (b :: piece) :: rest

/-- Texts with a separator between them. -/
def join (sep : Bytes) : List Bytes → Bytes
  | [] => []
  | [s] => s
  | s :: rest => s ++ sep ++ join sep rest

def compare : Bytes → Bytes → Ordering
  | [], [] => .eq
  | [], _ :: _ => .lt
  | _ :: _, [] => .gt
  | a :: s, b :: t =>
    if a < b then .lt else if b < a then .gt else compare s t

def le (s t : Bytes) : Bool := compare s t != .gt

def sort (texts : List Bytes) : List Bytes := texts.mergeSort le

def ofNat (n : Nat) : Bytes := (Nat.toDigits 10 n).map code

def ofInt : Int → Bytes
  | .ofNat n => ofNat n
  | .negSucc n => code '-' :: ofNat (n + 1)

def hexDigit (n : Nat) : UInt8 :=
  if n < 10 then UInt8.ofNat (48 + n) else UInt8.ofNat (87 + n)

def hexValue? (b : UInt8) : Option Nat :=
  if 48 ≤ b ∧ b ≤ 57 then some (b.toNat - 48)
  else if 97 ≤ b ∧ b ≤ 102 then some (b.toNat - 87)
  else if 65 ≤ b ∧ b ≤ 70 then some (b.toNat - 55)
  else none

/-- A number in so many hexadecimal digits. -/
def hex : (width n : Nat) → Bytes
  | 0, _ => []
  | width + 1, n => hex width (n / 16) ++ [hexDigit (n % 16)]

def upperHex (width n : Nat) : Bytes :=
  (hex width n).map fun b => if 97 ≤ b then b - 32 else b

def isDigit (b : UInt8) : Bool := 48 ≤ b && b ≤ 57

end Bytes

end Winnow
