import Winnow.Text.Printable
import Winnow.Text.Utf8

/-!
# Quoted text

Between double quotes, with a backslash escape for everything that is not printable and every byte
that is no UTF-8.
-/

namespace Winnow.Text

def shortEscape? (code : Nat) : Option Char :=
  match code with
  | 7 => some 'a'
  | 8 => some 'b'
  | 12 => some 'f'
  | 10 => some 'n'
  | 13 => some 'r'
  | 9 => some 't'
  | 11 => some 'v'
  | _ => none

/-- A character as it stands between double quotes. -/
def quoteRune (r : Rune) : Bytes :=
  if Utf8.isStray r then utf8 "\\x" ++ r.bytes.flatMap fun b => Bytes.hex 2 b.toNat
  else if r.code = 34 ∨ r.code = 92 then 92 :: r.bytes
  else if isPrintable r.code then r.bytes
  else match shortEscape? r.code with
    | some c => [92, Bytes.code c]
    | none =>
      if r.code < 0x20 ∨ r.code = 0x7F then utf8 "\\x" ++ Bytes.hex 2 r.code
      else if r.code < 0x10000 then utf8 "\\u" ++ Bytes.hex 4 r.code
      else utf8 "\\U" ++ Bytes.hex 8 r.code

/-- A text in double quotes. -/
def quoted (s : Bytes) : Bytes := 34 :: ((Utf8.runes s).flatMap quoteRune ++ [34])

/-- A character in single quotes. -/
def quotedRune (r : Rune) : Bytes :=
  if r.code = 39 then utf8 "'\\''"
  else if r.code = 34 then utf8 "'\"'"
  else 39 :: (quoteRune r ++ [39])

def quotedByte (b : UInt8) : Bytes := quotedRune ⟨b.toNat, Bytes.ofCode b.toNat⟩

end Winnow.Text
