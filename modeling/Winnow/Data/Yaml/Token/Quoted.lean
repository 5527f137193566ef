import Winnow.Data.Yaml.Token
import Winnow.Data.Yaml.Token.Gap

/-!
# Scalars in quotes

In single quotes only the quote itself needs a sign. In double quotes a backslash starts an escape,
and at the end of a line it takes the line break away.
-/

namespace Winnow.Yaml.Quoted

def escape? (letter : Nat) : Option Nat :=
  if letter = 9 || letter = 32 || letter = 39 then some letter
  else (escapes.find? (·.1.toNat = letter)).map Prod.snd

def escapeDigits? : Nat → Option Nat
  | 120 => some 2
  | 117 => some 4
  | 85 => some 8
  | _ => none

def hexNumber (c : Cursor) (digits : Nat) : Option Nat :=
  (List.range digits).foldlM (fun n i => (hexValue? (c.ahead i)).map (n * 16 + ·)) 0

/-- The character of an escape. -/
def escape (start : Mark) : Scan Nat := do
  let letter ← Scan.ahead 1
  match escapeDigits? letter, escape? letter with
  | some digits, _ =>
    Scan.skip
    Scan.skip
    Scan.need digits
    match hexNumber (← get) digits with
    | none => Scan.fail start "did not find expected hexdecimal number"
    | some code =>
      if (0xD800 ≤ code && code ≤ 0xDFFF) || code > 0x10FFFF then
        Scan.fail start "found invalid Unicode character escape code"
      else
        for _ in [0:digits] do Scan.skip
        return code
  | none, some code =>
    Scan.skip
    Scan.skip
    return code
  | none, none => Scan.fail start "found unknown escape character"

def word (start : Mark) (quoteMark : Nat) :
    (steps : Nat) → (read : List Nat) → Scan (List Nat × Bool)
  | 0, read => return (read, false)
  | n + 1, read => do
    let code ← Scan.current
    let following ← Scan.ahead 1
    if isWordEnd code then return (read, false)
    else if code = 39 && following = 39 && quoteMark = 39 then
      Scan.skip
      Scan.skip
      Scan.need 2
      word start quoteMark n (39 :: read)
    else if code = quoteMark then return (read, false)
    else if code = 92 && quoteMark = 34 then
      if isBreak following then
        Scan.need 3
        Scan.skip
        Scan.skipBreak
        return (read, true)
      else
        let code ← escape start
        Scan.need 2
        word start quoteMark n (code :: read)
    else
      Scan.skip
      Scan.need 2
      word start quoteMark n (code :: read)

def words (start : Mark) (quoteMark : Nat) :
    (steps : Nat) → (read : List Nat) → Scan (List Nat)
  | 0, _ => Scan.fail start "found unexpected end of stream"
  | n + 1, read => do
    Scan.need 4
    if (← get).atMarker then Scan.fail start "found unexpected document indicator"
    if (← Scan.current) = 0 then Scan.fail start "found unexpected end of stream"
    let (read, isBroken) ← word start quoteMark (← Scan.bound) read
    Scan.need 1
    if (← Scan.current) = quoteMark then return read
    let gap ← Gap.scan start 0 (← Scan.bound) { isBroken }
    words start quoteMark n (gap.codes ++ read)

def scan : Scan Token := do
  let start ← Scan.mark
  let quoteMark ← Scan.take
  let read ← words start quoteMark (← Scan.bound) []
  Scan.skip
  return ⟨.scalar (textOf read) false, start⟩

end Winnow.Yaml.Quoted
