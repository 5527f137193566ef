import Winnow.Data.Yaml.Character

/-!
# The characters of a YAML text

A text is in UTF-8, or in UTF-16 if a byte order mark says so. It is taken in by blocks of bytes,
and a block with a byte that belongs to no character is at fault as a whole. So a fault is met when
a character of its block is asked for, and one behind everything that is read is never met.
-/

namespace Winnow.Yaml

/-- Why bytes are no characters. -/
inductive EncodingFault where
  | leadingOctet
  | trailingOctet
  | incompleteOctets
  | overlong
  | noCharacter
  | incompleteUnit
  | incompletePair
  | unexpectedLow
  | expectedLow
  | control
  deriving DecidableEq, Repr

namespace EncodingFault

def message : EncodingFault → String
  | leadingOctet => "invalid leading UTF-8 octet"
  | trailingOctet => "invalid trailing UTF-8 octet"
  | incompleteOctets => "incomplete UTF-8 octet sequence"
  | overlong => "invalid length of a UTF-8 sequence"
  | noCharacter => "invalid Unicode character"
  | incompleteUnit => "incomplete UTF-16 character"
  | incompletePair => "incomplete UTF-16 surrogate pair"
  | unexpectedLow => "unexpected low surrogate area"
  | expectedLow => "expected low surrogate area"
  | control => "control characters are not allowed"

/-- Whether the text ends too early. -/
def isMissing : EncodingFault → Bool
  | incompleteOctets | incompleteUnit | incompletePair => true
  | _ => false

end EncodingFault

inductive Encoding where
  | utf8
  | utf16 (littleEndian : Bool)
  deriving DecidableEq, Repr

namespace Encoding

abbrev Step := Except (EncodingFault × Nat) (Nat × Nat)

def width (b : UInt8) : Nat :=
  if b < 0x80 then 1 else if b < 0xC0 then 0 else if b < 0xE0 then 2 else if b < 0xF0 then 3
  else if b < 0xF8 then 4 else 0

def checked (code width : Nat) : Step :=
  if (0xD800 ≤ code && code ≤ 0xDFFF) || code > 0x10FFFF then .error (.noCharacter, width)
  else if isAllowed code then .ok (code, width)
  else .error (.control, width)

def firstOctets (b : UInt8) (rest : Bytes) : Step :=
  let w := width b
  let tail := rest.take (w - 1)
  if w = 0 then .error (.leadingOctet, 1)
  else if tail.length + 1 < w then .error (.incompleteOctets, w)
  else if tail.any fun t => t < 0x80 || 0xC0 ≤ t then .error (.trailingOctet, w)
  else
    let lead := if w = 1 then b.toNat else b.toNat % Nat.pow 2 (7 - w)
    let code := tail.foldl (fun n t => n * 64 + t.toNat % 64) lead
    if (w = 2 && code < 0x80) || (w = 3 && code < 0x800) || (w = 4 && code < 0x10000) then
      .error (.overlong, w)
    else checked code w

def unit (littleEndian : Bool) (a b : UInt8) : Nat :=
  if littleEndian then a.toNat + b.toNat * 256 else a.toNat * 256 + b.toNat

def firstUnits (littleEndian : Bool) : Bytes → Step
  | a :: b :: rest =>
    let n := unit littleEndian a b
    if 0xDC00 ≤ n && n < 0xE000 then .error (.unexpectedLow, 2)
    else if 0xD800 ≤ n && n < 0xDC00 then
      match rest with
      | c :: d :: _ =>
        let m := unit littleEndian c d
        if 0xDC00 ≤ m && m < 0xE000 then
          checked (0x10000 + (n - 0xD800) * 0x400 + (m - 0xDC00)) 4
        else .error (.expectedLow, 4)
      | _ => .error (.incompletePair, 4)
    else checked n 2
  | _ => .error (.incompleteUnit, 2)

/-- The first character and its width. -/
def first (e : Encoding) (b : UInt8) (rest : Bytes) : Step :=
  match e with
  | utf8 => firstOctets b rest
  | utf16 littleEndian => firstUnits littleEndian (b :: rest)

/-- The encoding of a text, and the width of its mark. -/
def ofText : Bytes → Encoding × Nat
  | 0xFF :: 0xFE :: _ => (utf16 true, 2)
  | 0xFE :: 0xFF :: _ => (utf16 false, 2)
  | 0xEF :: 0xBB :: 0xBF :: _ => (utf8, 3)
  | _ => (utf8, 0)

end Encoding

structure Characters where
  codes : List Nat := []
  widths : List Nat := []
  fault? : Option (EncodingFault × Nat) := none

namespace Characters

def after (e : Encoding) : (skip : Nat) → Bytes → Characters
  | _, [] => {}
  | skip + 1, _ :: rest => after e skip rest
  | 0, b :: rest =>
    match e.first b rest with
    | .ok (code, width) =>
      let more := after e (width - 1) rest
      { more with codes := code :: more.codes, widths := width :: more.widths }
    | .error fault => { fault? := some fault }

end Characters

def blockSize : Nat := 512

/-- How many characters each block has. -/
def blockLengths (fault? : Option (EncodingFault × Nat)) :
    (bytes count : Nat) → (widths : List Nat) → List Nat
  | bytes, count, [] =>
    match fault? with
    | none => [count]
    | some (fault, width) =>
      if !fault.isMissing && bytes + width ≤ blockSize then [] else [count]
  | bytes, count, width :: widths =>
    if bytes + width ≤ blockSize then blockLengths fault? (bytes + width) (count + 1) widths
    else count :: blockLengths fault? width 1 widths

/-- The characters of a text and of its blocks. -/
structure Source where
  codes : List Nat
  blocks : List Nat
  fault? : Option EncodingFault

def Source.ofText (s : Bytes) : Source :=
  let s := if s.isEmpty then [10] else s
  let (encoding, lead) := Encoding.ofText s
  let characters := Characters.after encoding 0 (s.drop lead)
  { codes := characters.codes
    blocks := blockLengths characters.fault? lead 0 characters.widths
    fault? := characters.fault?.map Prod.fst }

end Winnow.Yaml
