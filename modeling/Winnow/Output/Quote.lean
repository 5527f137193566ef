import Winnow.Output.Piece
import Winnow.Syntax.Name

/-!
# Strings and names in output

A property name stands bare where it is an identifier or the text of a number, and is a string
otherwise.
-/

namespace Winnow.Quote

def rune (r : Rune) : Bytes :=
  match r.code with
  | 92 => utf8 "\\\\"
  | 39 => utf8 "\\'"
  | 10 => utf8 "\\n"
  | 13 => utf8 "\\r"
  | 9 => utf8 "\\t"
  | 0x2028 => utf8 "\\u2028"
  | 0x2029 => utf8 "\\u2029"
  | code => if code < 0x20 then utf8 "\\x" ++ Bytes.hex 2 code else Bytes.ofCode code

def string (s : Bytes) : Bytes := 39 :: ((Utf8.runes s).flatMap rune ++ [39])

def isNumericKey (s : Bytes) : Bool := !s.isEmpty && Number.format (Number.parse s) = s

def isBare (name : Bytes) : Bool := Name.isIdentifier name || isNumericKey name

def propertyName (name : Bytes) (quoted : Bool) : Piece :=
  if quoted || !isBare name then .text (string name) else .word name

end Winnow.Quote
