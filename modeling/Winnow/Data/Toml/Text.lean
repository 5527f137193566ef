import Winnow.Data.Numeral
import Winnow.Data.Toml.Basic

/-!
# Texts and keys of TOML

In single quotes nothing is escaped, and in three quotes a text can go over several lines.
-/

namespace Winnow.Toml

def codeEscape (digits : Nat) (s : Bytes) : Except Fault (Bytes × Bytes) :=
  let ds := s.take digits
  if ds.length < digits then
    .error (.malformed s!"unicode point needs {digits} character, not {ds.length}")
  else match Numeral.natural? 16 ds with
    | none => .error (.malformed "non-hex character")
    | some code =>
      if code > 0x10FFFF || (0xD800 ≤ code && code < 0xE000) then
        .error (.malformed "escape sequence is invalid Unicode code point")
      else .ok (Bytes.ofCode code, s.drop digits)

def escape : Reader Bytes
  | [] => .error (.malformed "need a character after \\")
  | b :: s =>
    match b with
    | 34 => .ok ([34], s)
    | 92 => .ok ([92], s)
    | 98 => .ok ([8], s)
    | 101 => .ok ([27], s)
    | 102 => .ok ([12], s)
    | 110 => .ok ([10], s)
    | 114 => .ok ([13], s)
    | 116 => .ok ([9], s)
    | 117 => codeEscape 4 s
    | 85 => codeEscape 8 s
    | _ => .error (.noEscape b)

/-- The text behind a backslash at the end of a line, where the line break and all blanks and line
breaks behind it do not count; none if the line does not end there. -/
def joinedLine? (s : Bytes) : Option Bytes :=
  let rest := s.dropWhile fun b => b == 32 || b == 9
  let isBreak := match rest with
    | 10 :: _ => true
    | 13 :: 10 :: _ => true
    | _ => false
  if isBreak then some (rest.dropWhile fun b => b == 32 || b == 9 || isLineEnd b) else none

/-- A text with its escapes resolved. -/
def unescape (isLong : Bool) : (steps : Nat) → Bytes → Except Fault Bytes
  | 0, _ => .ok []
  | _ + 1, [] => .ok []
  | n + 1, b :: s =>
    if b = 92 then
      match if isLong then joinedLine? s else none with
      | some rest => unescape isLong n rest
      | none => do
        let (c, rest) ← escape s
        return c ++ (← unescape isLong n rest)
    else match characterWidth? b s with
      | none => .error (.noCharacter b)
      | some width => do
        return (b :: s).take width ++ (← unescape isLong n ((b :: s).drop width))

def quotedText (isLong isEscaped : Bool) (s : Bytes) : Except Fault Bytes :=
  if isEscaped then unescape isLong (s.length + 1) s
  else if isClean 0 s then .ok s
  else .error (.malformed "invalid UTF-8")

def basicInside : Reader (Bytes × Bool)
  | [] => .error (.malformed "basic string not terminated by \"")
  | b :: s =>
    if b = 34 then .ok (([], false), s)
    else if isLineEnd b then .error (.malformed "basic strings cannot have new lines")
    else if b = 92 then
      match s with
      | [] => .error (.malformed "need a character after \\")
      | c :: s => do
        let ((t, _), rest) ← basicInside s
        return ((b :: c :: t, true), rest)
    else do
      let ((t, isEscaped), rest) ← basicInside s
      return ((b :: t, isEscaped), rest)

/-- A text in double quotes. -/
def basic : Reader Bytes := fun s => do
  let ((inside, isEscaped), rest) ← basicInside s
  return (← quotedText false isEscaped inside, rest)

def literalAfter : (skip : Nat) → Reader Bytes
  | _, [] => .error (.malformed "unterminated literal string")
  | skip + 1, b :: s => do
    let (t, rest) ← literalAfter skip s
    return (b :: t, rest)
  | 0, b :: s =>
    if b = 39 then .ok ([], s)
    else if isLineEnd b then .error (.malformed "literal strings cannot have new lines")
    else match characterWidth? b s with
      | none => .error (.malformed "invalid character")
      | some width => do
        let (t, rest) ← literalAfter (width - 1) s
        return (b :: t, rest)

/-- A text in single quotes. -/
def literal : Reader Bytes := literalAfter 0

def dropBreak : Bytes → Bytes
  | 10 :: s => s
  | 13 :: 10 :: s => s
  | s => s

/-- Up to two quotes in front of the closing ones. -/
def extraQuotes (quoteMark : UInt8) (problem : String) (s : Bytes) :
    Except Fault (Bytes × Bytes) :=
  match (s.takeWhile (· == quoteMark)).length with
  | 0 => .ok ([], s)
  | 1 => .ok ([quoteMark], s.drop 1)
  | 2 => .ok ([quoteMark, quoteMark], s.drop 2)
  | _ => .error (.malformed problem)

def longBasicInside : (steps : Nat) → Reader (Bytes × Bool)
  | 0, _ => .error (.malformed "multiline basic string not terminated by \"\"\"")
  | n + 1, s =>
    match s with
    | [] => .error (.malformed "multiline basic string not terminated by \"\"\"")
    | 34 :: 34 :: 34 :: t => do
      let (quotes, rest) ← extraQuotes 34 "\"\"\" not allowed in multiline basic string" t
      return ((quotes, false), rest)
    | [92] => .error (.malformed "need a character after \\")
    | 92 :: c :: t => do
      let ((u, _), rest) ← longBasicInside n t
      return ((92 :: c :: u, true), rest)
    | 13 :: t => do
      if t.head? ≠ some 10 then throw (.malformed "need a \\n after \\r")
      let ((u, isEscaped), rest) ← longBasicInside n (t.drop 1)
      return ((13 :: 10 :: u, isEscaped), rest)
    | b :: t => do
      let ((u, isEscaped), rest) ← longBasicInside n t
      return ((b :: u, isEscaped), rest)

/-- A text in three double quotes. -/
def longBasic : Reader Bytes := fun s => do
  let ((inside, isEscaped), rest) ← longBasicInside (s.length + 1) s
  return (← quotedText true isEscaped (dropBreak inside), rest)

def longLiteralInside : (steps : Nat) → Reader Bytes
  | 0, _ => .error (.malformed "multiline literal string not terminated by '''")
  | n + 1, s =>
    match s with
    | [] => .error (.malformed "multiline literal string not terminated by '''")
    | 39 :: 39 :: 39 :: t => extraQuotes 39 "''' not allowed in multiline literal string" t
    | 13 :: t => do
      if t.head? ≠ some 10 then throw (.malformed "need a \\n after \\r")
      let (u, rest) ← longLiteralInside n (t.drop 1)
      return (13 :: 10 :: u, rest)
    | b :: t =>
      match characterWidth? b t with
      | none => .error (.malformed "invalid character")
      | some width => do
        let (u, rest) ← longLiteralInside n ((b :: t).drop width)
        return ((b :: t).take width ++ u, rest)

/-- A text in three single quotes. -/
def longLiteral : Reader Bytes := fun s => do
  let (inside, rest) ← longLiteralInside (s.length + 1) s
  return (dropBreak inside, rest)

def keyPart : Reader Bytes
  | [] => .error (.malformed "expected key but found none")
  | b :: s =>
    if b = 39 then literal s
    else if b = 34 then basic s
    else if isKeyByte b then .ok ((b :: s).span isKeyByte)
    else .error (.noKey b)

def keyParts : (steps : Nat) → Reader (List Bytes)
  | 0, _ => .error (.malformed "expected key but found none")
  | n + 1, s => do
    let (part, s) ← keyPart s
    match skipBlanks s with
    | 46 :: t =>
      let (parts, rest) ← keyParts n (skipBlanks t)
      return (part :: parts, rest)
    | rest => return ([part], rest)

/-- A key, with points between its parts. -/
def keyPath : Reader (List Bytes) := fun s => keyParts (s.length + 1) s

end Winnow.Toml
