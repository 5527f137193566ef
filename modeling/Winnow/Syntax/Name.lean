import Winnow.Syntax.Token
import Winnow.Text.Casing
import Winnow.Text.Digit
import Winnow.Text.Letter
import Winnow.Text.Mark
import Winnow.Text.Utf8

/-!
# Identifier names

Which characters make up an identifier, which words may not name a binding, and the identifier made
out of an arbitrary text.
-/

namespace Winnow.Name

def extraStartBounds : List Nat :=
  [0x1885, 0x1887, 0x2118, 0x2119, 0x212E, 0x212F, 0x309B, 0x309D]

def extraContinueBounds : List Nat :=
  [0xB7, 0xB8, 0x387, 0x388, 0x1369, 0x1372, 0x19DA, 0x19DB, 0x200C, 0x200E, 0x30FB, 0x30FC, 0xFF65,
   0xFF66]

def isAsciiStart (b : Nat) : Bool :=
  (97 ≤ b && b ≤ 122) || (65 ≤ b && b ≤ 90) || b == 95 || b == 36

def isStart (code : Nat) : Bool :=
  if code < 0x80 then isAsciiStart code
  else Text.isLetter code || Text.inside extraStartBounds code

def isContinue (code : Nat) : Bool :=
  if code < 0x80 then isAsciiStart code || (48 ≤ code && code ≤ 57)
  else isStart code || Text.isDigit code || Text.isMark code ||
    Text.inside extraContinueBounds code

def isIdentifier (s : Bytes) : Bool :=
  match Utf8.runes s with
  | [] => false
  | r :: rest => isStart r.code && rest.all fun r => isContinue r.code

/-- Words the language reserves, or that open a construct outside the subset. -/
def reservedWords : List Bytes :=
  ["await", "break", "case", "catch", "continue", "debugger", "delete", "do", "enum", "finally",
   "for", "in", "instanceof", "super", "switch", "try", "while", "with", "yield"].map utf8

def isReserved (s : Bytes) : Bool := (Keyword.ofText? s).isSome || reservedWords.contains s

/-- The part of a path that names a file: after the last slash or backslash, and before the first
dot that is not its first byte. -/
def stem (s : Bytes) : Bytes :=
  let base := match Bytes.findLastByte? (fun b => b == 47 || b == 92) s with
    | some i => s.drop (i + 1)
    | none => s
  match Bytes.findByte? (· == 46) base with
  | some (i + 1) => base.take (i + 1)
  | _ => base

/-- The characters of a text that may stand in an identifier, each that follows a dropped one in
upper case. `started` says whether a character was kept before, `raised` whether the next is to be
raised. -/
def camel : (started raised : Bool) → List Rune → Bytes
  | _, _, [] => []
  | started, raised, r :: rest =>
    if r.code = 95 ∨ r.code = 36 ∨ Text.isLetter r.code ∨ Text.isDigit r.code then
      Bytes.ofCode (if raised then Text.toUpper r.code else r.code) ++ camel true false rest
    else camel started started rest

def ofText (s : Bytes) : Bytes :=
  match camel false false (Utf8.runes (stem s)) with
  | [] => [95]
  | b :: name =>
    if Text.isDigit b.toNat || isReserved (b :: name) then 95 :: b :: name else b :: name

end Winnow.Name
