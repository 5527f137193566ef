import Winnow.Text.Bytes

/-!
# Decoding UTF-8

A rune is a code point with the bytes it was read from; a byte that starts no well-formed sequence
is a rune of its own, standing for U+FFFD. So decoding never fails, and offsets stay byte offsets.
-/

namespace Winnow

structure Rune where
  code : Nat
  bytes : Bytes
  deriving DecidableEq, Repr

namespace Utf8

def replacement : Nat := 0xFFFD

/-- Whether a byte goes on with a sequence. -/
def isTail (b : UInt8) : Bool := 0x80 ≤ b && b ≤ 0xBF

def tailBits (b : UInt8) : Nat := b.toNat - 0x80

/-- What may follow a first byte. -/
def secondRange (b : UInt8) : UInt8 × UInt8 :=
  if b == 0xE0 then (0xA0, 0xBF)
  else if b == 0xED then (0x80, 0x9F)
  else if b == 0xF0 then (0x90, 0xBF)
  else if b == 0xF4 then (0x80, 0x8F)
  else (0x80, 0xBF)

/-- A byte on its own. -/
def stray (b : UInt8) : Rune := ⟨replacement, [b]⟩

/-- The character a text begins with. -/
def first (b : UInt8) (rest : Bytes) : Rune :=
  if b < 0x80 then ⟨b.toNat, [b]⟩
  else if b < 0xC2 then stray b
  else if b < 0xE0 then
    match rest with
    | c :: _ =>
      if isTail c then ⟨(b.toNat - 0xC0) * 64 + tailBits c, [b, c]⟩ else stray b
    | _ => stray b
  else if b < 0xF0 then
    match rest with
    | c :: d :: _ =>
      if (secondRange b).1 ≤ c && c ≤ (secondRange b).2 && isTail d then
        ⟨(b.toNat - 0xE0) * 4096 + tailBits c * 64 + tailBits d, [b, c, d]⟩
      else stray b
    | _ => stray b
  else if b < 0xF5 then
    match rest with
    | c :: d :: e :: _ =>
      if (secondRange b).1 ≤ c && c ≤ (secondRange b).2 && isTail d && isTail e then
        ⟨(b.toNat - 0xF0) * 262144 + tailBits c * 4096 + tailBits d * 64 + tailBits e,
          [b, c, d, e]⟩
      else stray b
    | _ => stray b
  else stray b

def runesAfter : (skip : Nat) → Bytes → List Rune
  | _, [] => []
  | skip + 1, _ :: s => runesAfter skip s
  | 0, b :: s => first b s :: runesAfter ((first b s).bytes.length - 1) s

def runes (s : Bytes) : List Rune := runesAfter 0 s

def isStray (r : Rune) : Bool := r.code == replacement && r.bytes.length == 1

def isValid (s : Bytes) : Bool := (runes s).all fun r => !isStray r

/-- The size of a code point in UTF-16. -/
def units16 (code : Nat) : Nat := if 0x10000 ≤ code then 2 else 1

def length16 (s : Bytes) : Nat := (runes s).foldl (fun n r => n + units16 r.code) 0

end Utf8

end Winnow
