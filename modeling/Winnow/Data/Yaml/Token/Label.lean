import Winnow.Data.Yaml.Token
import Winnow.Data.Yaml.Cursor

/-!
# Names, tags and directives

A tag has a handle and a suffix, and directives in front of a document say what handles stand for.
-/

namespace Winnow.Yaml.Label

def name (start : Mark) : Scan Bytes := do
  Scan.skip
  Scan.need 1
  let read ← Scan.takeWhile isNameCharacter (← Scan.bound) []
  let code ← Scan.current
  if read.isEmpty || !(isWordEnd code || isOneOf "?:,]\x7d%@`" code) then
    Scan.fail start "did not find expected alphabetic or numeric character"
  return textOf read

def anchorOrAlias : Scan Token := do
  let start ← Scan.mark
  let isAlias := (← Scan.current) = 42
  let name ← name start
  return ⟨if isAlias then .reference name else .anchor name, start⟩

def isTagCharacter (code : Nat) : Bool :=
  isNameCharacter code || isOneOf ";/?:@&=+$,.!~*'()[]%" code

def octet? (c : Cursor) : Option UInt8 :=
  match c.current, hexValue? (c.ahead 1), hexValue? (c.ahead 2) with
  | 37, some a, some b => some (UInt8.ofNat (a * 16 + b))
  | _, _, _ => none

def moreOctets (start : Mark) : (count : Nat) → (read : Bytes) → Scan Bytes
  | 0, read => return read
  | n + 1, read => do
    Scan.need 3
    match octet? (← get) with
    | none => Scan.fail start "did not find URI escaped octet"
    | some b =>
      if b < 0x80 || 0xC0 ≤ b then Scan.fail start "found an incorrect trailing UTF-8 octet"
      for _ in [0:3] do Scan.skip
      moreOctets start n (b :: read)

/-- A character in percent signs. -/
def octets (start : Mark) (read : Bytes) : Scan Bytes := do
  Scan.need 3
  match octet? (← get) with
  | none => Scan.fail start "did not find URI escaped octet"
  | some b =>
    match Encoding.width b with
    | 0 => Scan.fail start "found an incorrect leading UTF-8 octet"
    | n + 1 =>
      for _ in [0:3] do Scan.skip
      moreOctets start n (b :: read)

def tagCharacters (start : Mark) : (steps : Nat) → (read : Bytes) → Scan Bytes
  | 0, read => return read
  | n + 1, read => do
    let code ← Scan.current
    if isTagCharacter code then
      let read ← if code = 37 then octets start read else do
        Scan.skip
        pure (UInt8.ofNat code :: read)
      Scan.need 1
      tagCharacters start n read
    else return read

def tagText (start : Mark) (beginning : Bytes) : Scan Bytes := do
  Scan.need 1
  let before ← Scan.mark
  let read ← tagCharacters start (← Scan.bound) []
  if beginning.isEmpty && (← Scan.mark) = before then
    Scan.fail start "did not find expected tag URI"
  return beginning.drop 1 ++ read.reverse

/-- The handle of a tag. -/
def handle (start : Mark) (inDirective : Bool) : Scan Bytes := do
  Scan.need 1
  if (← Scan.current) ≠ 33 then Scan.fail start "did not find expected '!'"
  Scan.skip
  Scan.need 1
  let read ← Scan.takeWhile isNameCharacter (← Scan.bound) [33]
  if (← Scan.current) = 33 then
    Scan.skip
    return textOf (33 :: read)
  else if inDirective && read ≠ [33] then Scan.fail start "did not find expected '!'"
  else return textOf read

/-- A tag as handle and suffix. -/
def tagParts (start : Mark) : Scan (Bytes × Bytes) := do
  Scan.need 2
  if (← Scan.ahead 1) = 60 then
    Scan.skip
    Scan.skip
    let suffix ← tagText start []
    if (← Scan.current) ≠ 62 then Scan.fail start "did not find the expected '>'"
    Scan.skip
    return ([], suffix)
  else
    let handle ← handle start false
    if handle.length > 1 && handle.getLast? = some 33 then
      return (handle, ← tagText start [])
    else
      let suffix ← tagText start handle
      return if suffix.isEmpty then ([], [33]) else ([33], suffix)

def tag : Scan Token := do
  let start ← Scan.mark
  let (handle, suffix) ← tagParts start
  Scan.need 1
  if !isWordEnd (← Scan.current) then
    Scan.fail start "did not find expected whitespace or line break"
  return ⟨.tag handle suffix, start⟩

def versionNumber (start : Mark) : Scan Nat := do
  Scan.need 1
  let read ← Scan.takeWhile isDigit 2 []
  if isDigit (← Scan.current) then Scan.fail start "found extremely long version number"
  if read.isEmpty then Scan.fail start "did not find expected version number"
  return read.reverse.foldl (fun n code => n * 10 + (code - 48)) 0

def version (start : Mark) : Scan TokenKind := do
  Scan.skipWhile isBlank
  let major ← versionNumber start
  if (← Scan.current) ≠ 46 then
    Scan.fail start "did not find expected digit or '.' character"
  Scan.skip
  return .version major (← versionNumber start)

def tagHandle (start : Mark) : Scan TokenKind := do
  Scan.skipWhile isBlank
  let handle ← handle start true
  Scan.need 1
  if !isBlank (← Scan.current) then Scan.fail start "did not find expected whitespace"
  Scan.skipWhile isBlank
  let stem ← tagText start []
  Scan.need 1
  if !isWordEnd (← Scan.current) then
    Scan.fail start "did not find expected whitespace or line break"
  return .tagHandle handle stem

def directive : Scan Token := do
  let start ← Scan.mark
  Scan.skip
  Scan.need 1
  let read ← Scan.takeWhile isNameCharacter (← Scan.bound) []
  if read.isEmpty then Scan.fail start "could not find expected directive name"
  if !isWordEnd (← Scan.current) then
    Scan.fail start "found unexpected non-alphabetical character"
  let name := textOf read
  let kind ←
    if name = utf8 "YAML" then version start
    else if name = utf8 "TAG" then tagHandle start
    else Scan.fail start "found unknown directive name"
  Scan.skipWhile isBlank
  Scan.skipComment
  if !isLineEnd (← Scan.current) then
    Scan.fail start "did not find expected comment or line break"
  Scan.need 2
  Scan.skipBreak
  return ⟨kind, start⟩

end Winnow.Yaml.Label
