import Winnow.Text.Casing
import Winnow.Text.Utf8

/-!
# Blanks, trimming and case of whole texts
-/

namespace Winnow.Text

/-- The bounds of the white-space characters: tab to carriage return, space, next line, no-break
space and the spaces of the general punctuation block and of other scripts. -/
def blankBounds : List Nat :=
  [0x9, 0xE, 0x20, 0x21, 0x85, 0x86, 0xA0, 0xA1, 0x1680, 0x1681, 0x2000, 0x200B, 0x2028, 0x202A,
   0x202F, 0x2030, 0x205F, 0x2060, 0x3000, 0x3001]

def isBlank (code : Nat) : Bool := inside blankBounds code

/-- A text without blanks around it. -/
def trim (s : Bytes) : Bytes :=
  let front := (Utf8.runes s).dropWhile fun r => isBlank r.code
  let back := (front.reverse.dropWhile fun r => isBlank r.code).reverse
  back.flatMap (·.bytes)

/-- A text with each code point mapped. -/
def mapCodes (f : Nat → Nat) (s : Bytes) : Bytes :=
  (Utf8.runes s).flatMap fun r => Bytes.ofCode (f r.code)

def upper (s : Bytes) : Bytes := mapCodes toUpper s

def lower (s : Bytes) : Bytes := mapCodes toLower s

end Winnow.Text
