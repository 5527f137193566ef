import Winnow.Data.Datum
import Winnow.Number.Shortest
import Winnow.Text.Utf8

/-!
# Writing JSON

The characters `<`, `>` and `&` and the line separators are escaped, so the text can stand inside
HTML and scripts.
-/

namespace Winnow.Json

def shortEscape? : Nat → Option Char
  | 8 => some 'b'
  | 9 => some 't'
  | 10 => some 'n'
  | 12 => some 'f'
  | 13 => some 'r'
  | 34 => some '"'
  | 92 => some '\\'
  | _ => none

/-- Whether a character is always escaped. -/
def isEscaped (code : Nat) : Bool :=
  code < 0x20 || code = 60 || code = 62 || code = 38 || code = 0x2028 || code = 0x2029

def quoteRune (r : Rune) : Bytes :=
  match shortEscape? r.code with
  | some c => [92, Bytes.code c]
  | none =>
    if isEscaped r.code || Utf8.isStray r then utf8 "\\u" ++ Bytes.hex 4 r.code else r.bytes

def quote (s : Bytes) : Bytes := 34 :: ((Utf8.runes s).flatMap quoteRune ++ [34])

def newLine (depth : Nat) : Bytes := 10 :: List.replicate (2 * depth) 32

/-- Parts in brackets, one a line. -/
def bracketed (opening closing : UInt8) (depth : Nat) (items : List Bytes) : Bytes :=
  if items.isEmpty then [opening, closing]
  else [opening] ++ newLine (depth + 1) ++
    Bytes.join (44 :: newLine (depth + 1)) items ++ newLine depth ++ [closing]

mutual

def write (depth : Nat) : Datum → Bytes
  | .null => utf8 "null"
  | .bool b => utf8 (if b then "true" else "false")
  | .int n => Bytes.ofInt n
  | .real x => Number.format x
  | .text s | .time _ s => quote s
  | .list items => bracketed 91 93 depth (writeItems (depth + 1) items)
  | .record fields => bracketed 123 125 depth (writeFields (depth + 1) fields)

def writeItems (depth : Nat) : List Datum → List Bytes
  | [] => []
  | d :: ds => write depth d :: writeItems depth ds

def writeFields (depth : Nat) : List (Bytes × Datum) → List Bytes
  | [] => []
  | (k, d) :: rest => (quote k ++ utf8 ": " ++ write depth d) :: writeFields depth rest

end

end Winnow.Json
