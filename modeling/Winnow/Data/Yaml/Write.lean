import Winnow.Data.Base64
import Winnow.Data.Yaml.Character
import Winnow.Data.Yaml.Scalar
import Winnow.Number.Shortest
import Winnow.Text.Utf8

/-!
# Writing YAML

A text stands without quotes where it reads back as the same text. Otherwise it is quoted: in double
quotes if it would read as something else, and in single quotes if only its characters are in the
way. A text of several lines is a literal block.
-/

namespace Winnow.Yaml

def isPlainCharacter (code : Nat) : Bool :=
  code = 10 || (0x20 ≤ code && code ≤ 0x7E) || (0xA0 ≤ code && code < 0xD800) ||
    (0xE000 ≤ code && code < 0xFFFE && code ≠ 0xFEFF)

/-- Whether a character needs an escape. -/
def isSpecial (code : Nat) : Bool := code ≠ 9 && !isPlainCharacter code

/-- The characters no plain text starts with. -/
def openers : List Nat := ("#,[]\x7b\x7d&*!|>'\"%@`".toList).map Char.toNat

def marksAfter : (before : Nat) → List Nat → Bool
  | _, [] => false
  | before, c :: rest =>
    (c = 58 && (rest.head?.map isBlank).getD true) ||
      (c = 35 && (isBlank before || isBreak before || before = 0)) || marksAfter c rest

/-- Whether a text would read as structure. -/
def hasMarks : List Nat → Bool
  | [] => false
  | c :: rest =>
    let alone := (rest.head?.map isBlank).getD true
    openers.contains c || ((c = 63 || c = 58 || c = 45) && alone) ||
      ([45, 45, 45].isPrefixOf (c :: rest)) || ([46, 46, 46].isPrefixOf (c :: rest)) ||
      marksAfter c rest

def hasPair (p : Nat → Nat → Bool) : List Nat → Bool
  | a :: b :: rest => p a b || hasPair p (b :: rest)
  | _ => false

def mixesBreaks (codes : List Nat) : Bool :=
  hasPair (fun a b => a = 32 && isBreak b) codes

def startsLineBlank (codes : List Nat) : Bool :=
  hasPair (fun a b => isBreak a && b = 32) codes

/-- Whether blanks or breaks stand around a text. -/
def isPadded (codes : List Nat) : Bool :=
  (codes.head?.map fun c => c = 32 || isBreak c).getD false ||
    (codes.getLast?.map fun c => c = 32 || isBreak c).getD false

def allowsSingle (codes : List Nat) : Bool :=
  !startsLineBlank codes && !mixesBreaks codes && !codes.contains 9 && !codes.any isSpecial

def allowsPlain (codes : List Nat) : Bool :=
  allowsSingle codes && !isPadded codes && !codes.any isBreak && !hasMarks codes

def allowsBlock (codes : List Nat) : Bool :=
  !codes.isEmpty && codes.getLast? ≠ some 32 && !mixesBreaks codes && !codes.any isSpecial

def doubleCode (code : Nat) : Bytes :=
  if isPlainCharacter code && !isBreak code && code ≠ 34 && code ≠ 92 then Bytes.ofCode code
  else match escapes.find? (·.2 = code) with
    | some (c, _) => [92, Bytes.code c]
    | none =>
      if code < 0x100 then utf8 "\\x" ++ Bytes.upperHex 2 code
      else if code < 0x10000 then utf8 "\\u" ++ Bytes.upperHex 4 code
      else utf8 "\\U" ++ Bytes.upperHex 8 code

def double (codes : List Nat) : Bytes := 34 :: (codes.flatMap doubleCode ++ [34])

/-- Lines with indentation, where a single quote is written twice if it would close the text. -/
def indented (isQuoted : Bool) (indent : Nat) : (broken : Bool) → List Nat → Bytes
  | _, [] => []
  | broken, c :: rest =>
    if isBreak c then Bytes.ofCode c ++ indented isQuoted indent true rest
    else (if broken then List.replicate indent 32 else []) ++
      (if isQuoted && c = 39 then [39, 39] else Bytes.ofCode c) ++
      indented isQuoted indent false rest

def single (indent : Nat) (codes : List Nat) : Bytes :=
  39 :: (indented true indent false codes ++ [39])

/-- The sign for the breaks at the end of a block. -/
def chomping (codes : List Nat) : Bytes :=
  match codes.reverse with
  | c :: rest =>
    if !isBreak c then [45]
    else if (rest.head?.map isBreak).getD true then [43]
    else []
  | [] => [45]

/-- A text as a literal block. -/
def block (indent : Nat) (codes : List Nat) : Bytes :=
  let hint : Bytes := match codes with
    | c :: _ => if c = 32 || isBreak c then [50] else []
    | [] => []
  let body := indented false indent true codes
  let body := if body.getLast? = some 10 then body.dropLast else body
  124 :: (hint ++ chomping codes ++ [10] ++ body)

def textScalar (indent : Nat) (plainIfAllowed : Bool) (s : Bytes) : Bytes :=
  let codes := (Utf8.runes s).map Rune.code
  if codes.contains 10 then if allowsBlock codes then block indent codes else double codes
  else if !plainIfAllowed then double codes
  else if allowsPlain codes then s
  else if allowsSingle codes then single indent codes
  else double codes

/-- A text in the form it needs. -/
def text (indent : Nat) (s : Bytes) : Bytes :=
  if Utf8.isValid s then textScalar indent (standsForItself s) s
  else utf8 "!!binary " ++ textScalar indent true (Base64.lines 70 (Base64.encode s))

def isInline : Datum → Bool
  | .list (_ :: _) | .record (_ :: _) => false
  | _ => true

mutual

/-- A value line by line. -/
def lines (indent : Nat) : Datum → List Bytes
  | .null => [utf8 "null"]
  | .bool b => [utf8 (if b then "true" else "false")]
  | .int n => [Bytes.ofInt n]
  | .real x => [Number.format x]
  | .text s => [text indent s]
  | .time _ s => [s]
  | .list [] => [utf8 "[]"]
  | .list items => itemLines indent items
  | .record [] => [utf8 "\x7b\x7d"]
  | .record fields => fieldLines indent fields

def itemLines (indent : Nat) : List Datum → List Bytes
  | [] => []
  | d :: ds =>
    (match lines (indent + 2) d with
      | [] => []
      | first :: more => (utf8 "- " ++ first) :: more.map (utf8 "  " ++ ·)) ++ itemLines indent ds

def fieldLines (indent : Nat) : List (Bytes × Datum) → List Bytes
  | [] => []
  | (k, d) :: rest =>
    (if isInline d then
        match lines (indent + 2) d with
        | [] => []
        | first :: more => (k ++ utf8 ": " ++ first) :: more
      else (k ++ utf8 ":") :: (lines (indent + 2) d).map (utf8 "  " ++ ·)) ++ fieldLines indent rest

end

def write (d : Datum) : Bytes := (lines 0 d).flatMap (· ++ [10])

end Winnow.Yaml
