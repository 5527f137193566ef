import Winnow.Text.Bytes

/-!
# Classes of characters in YAML

Zero stands for the end of a text: the character of that number is not allowed in one.
-/

namespace Winnow.Yaml

def isBreak (code : Nat) : Bool :=
  code = 10 || code = 13 || code = 0x85 || code = 0x2028 || code = 0x2029

def isBlank (code : Nat) : Bool := code = 32 || code = 9

def isLineEnd (code : Nat) : Bool := code = 0 || isBreak code

/-- Whether a word ends in front of a character. -/
def isWordEnd (code : Nat) : Bool := isBlank code || isLineEnd code

def isDigit (code : Nat) : Bool := 48 ≤ code && code ≤ 57

def isNameCharacter (code : Nat) : Bool :=
  isDigit code || (65 ≤ code && code ≤ 90) || (97 ≤ code && code ≤ 122) || code = 95 || code = 45

def hexValue? (code : Nat) : Option Nat :=
  if code < 128 then Bytes.hexValue? (UInt8.ofNat code) else none

/-- The letters of escapes in double quotes, and the characters they stand for. -/
def escapes : List (Char × Nat) :=
  [('0', 0), ('a', 7), ('b', 8), ('t', 9), ('n', 10), ('v', 11), ('f', 12), ('r', 13), ('e', 27),
   ('"', 34), ('\\', 92), ('N', 0x85), ('_', 0xA0), ('L', 0x2028), ('P', 0x2029)]

def isOneOf (characters : String) (code : Nat) : Bool :=
  characters.toList.any fun c => c.toNat = code

/-- Whether a text may hold a character. -/
def isAllowed (code : Nat) : Bool :=
  code = 9 || code = 10 || code = 13 || (0x20 ≤ code && code ≤ 0x7E) || code = 0x85 ||
    (0xA0 ≤ code && code ≤ 0xD7FF) || (0xE000 ≤ code && code ≤ 0xFFFD) ||
    (0x10000 ≤ code && code ≤ 0x10FFFF)

end Winnow.Yaml
