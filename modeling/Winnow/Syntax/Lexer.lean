import Winnow.Syntax.Name
import Winnow.Text.Blank

/-!
# Reading tokens

A source is read as gaps and lexemes in turn. Reading ends at the end of the source or at the first
lexeme that is malformed, which becomes an error token. Lengths are returned less one (`extra`), as
nothing that is read is empty.
-/

namespace Winnow.Lexer

/-! ## White space and comments -/

def lineCommentLength (s : Bytes) : Nat := (s.takeWhile (· ≠ 10)).length

/-- One white-space character or comment in front of `b :: s`: its length less one and whether it
breaks the line. A block comment without an end reaches to the end of the source and breaks no
line. -/
def blank? (b : UInt8) (s : Bytes) : Option (Nat × Bool) :=
  if b == 10 then some (0, true)
  else if b == 32 || b == 9 || b == 13 || b == 11 || b == 12 then some (0, false)
  else if b == 47 then
    match s with
    | 47 :: rest => some (1 + lineCommentLength rest, false)
    | 42 :: rest =>
      match Bytes.find? [42, 47] rest with
      | some n => some (n + 3, (rest.take n).contains 10)
      | none => some (s.length, false)
    | _ => none
  else if b < 0x80 then none
  else
    let r := Utf8.first b s
    if r.code = 0x2028 ∨ r.code = 0x2029 then some (r.bytes.length - 1, true)
    else if Text.isBlank r.code ∨ r.code = 0xFEFF then some (r.bytes.length - 1, false)
    else none

def gap : Bytes → Nat × Bool
  | [] => (0, false)
  | b :: s =>
    match blank? b s with
    | none => (0, false)
    | some (extra, newline) =>
      let (length, later) := gap (s.drop extra)
      (1 + extra + length, newline || later)
termination_by s => s.length

/-! ## Names, numbers, strings and signs -/

structure Lexeme where
  kind : TokenKind
  extra : Nat
  value : Bytes
  deriving DecidableEq, Repr

def malformed (extra : Nat) (message : String) : Lexeme := ⟨.error, extra, utf8 message⟩

/-- The length of the run of identifier characters in front of a text, `skip` bytes of which belong
to a character already counted in. -/
def nameRun : (skip : Nat) → Bytes → Nat
  | _, [] => 0
  | skip + 1, _ :: s => 1 + nameRun skip s
  | 0, b :: s =>
    let r := Utf8.first b s
    if Name.isContinue r.code then 1 + nameRun (r.bytes.length - 1) s else 0

/-- A name or keyword; a reserved word outside the subset is malformed. -/
def name (b : UInt8) (s : Bytes) : Lexeme :=
  let length := nameRun 0 (b :: s)
  let word := (b :: s).take length
  match Keyword.ofText? word with
  | some k => ⟨.keyword k, length - 1, word⟩
  | none =>
    if Name.reservedWords.contains word then
      ⟨.error, length - 1, utf8 "unsupported keyword: " ++ word⟩
    else ⟨.identifier, length - 1, word⟩

def runLength (p : UInt8 → Bool) (s : Bytes) : Nat := (s.takeWhile p).length

def exponentLength (s : Bytes) : Nat :=
  match s with
  | b :: rest =>
    if b == 101 || b == 69 then
      match rest with
      | c :: digits =>
        if c == 43 || c == 45 then 2 + runLength Bytes.isDigit digits
        else 1 + runLength Bytes.isDigit rest
      | [] => 1
    else 0
  | [] => 0

def fractionLength (s : Bytes) : Nat :=
  match s with
  | 46 :: rest => 1 + runLength Bytes.isDigit rest
  | _ => 0

def decimalLength (s : Bytes) : Nat :=
  let whole := runLength (fun b => Bytes.isDigit b || b == 95) s
  let fraction := fractionLength (s.drop whole)
  whole + fraction + exponentLength (s.drop (whole + fraction))

def numberLength (s : Bytes) : Nat :=
  match s with
  | 48 :: x :: rest =>
    if x == 120 || x == 88 then 2 + runLength (fun b => (Bytes.hexValue? b).isSome || b == 95) rest
    else decimalLength s
  | _ => decimalLength s

def number (b : UInt8) (s : Bytes) : Lexeme :=
  let length := numberLength (b :: s)
  match (b :: s).drop length with
  | c :: _ =>
    if Name.isAsciiStart c.toNat then malformed (length - 1) "identifier directly after number"
    else ⟨.number, length - 1, (b :: s).take length⟩
  | [] => ⟨.number, length - 1, (b :: s).take length⟩

def escaped (b : UInt8) : UInt8 :=
  if b == 110 then 10
  else if b == 116 then 9
  else if b == 114 then 13
  else if b == 98 then 8
  else if b == 102 then 12
  else if b == 118 then 11
  else if b == 48 then 0
  else b

def fourHex? (a b c d : UInt8) : Option Nat := do
  return (((← Bytes.hexValue? a) * 16 + (← Bytes.hexValue? b)) * 16 + (← Bytes.hexValue? c)) * 16 +
    (← Bytes.hexValue? d)

inductive StringEnd where
  | closed
  | unterminated
  | badEscape
  deriving DecidableEq, Repr

/-- The inside of a string up to and including the closing quote: how many bytes were read, the
text they stand for, and how reading ended. -/
def stringBody (quote : UInt8) : Bytes → Nat × Bytes × StringEnd
  | [] => (0, [], .unterminated)
  | 92 :: rest =>
    match rest with
    | [] => (1, [], .unterminated)
    | 117 :: a :: b :: c :: d :: rest =>
      match fourHex? a b c d with
      | some code =>
        let (n, text, stop) := stringBody quote rest
        (n + 6, Bytes.ofCode code ++ text, stop)
      | none => (2, [], .badEscape)
    | 117 :: _ => (2, [], .badEscape)
    | 10 :: rest =>
      let (n, text, stop) := stringBody quote rest
      (n + 2, text, stop)
    | b :: rest =>
      let (n, text, stop) := stringBody quote rest
      (n + 2, escaped b :: text, stop)
  | b :: rest =>
    if b == quote then (1, [], .closed)
    else if b == 10 then (0, [], .unterminated)
    else
      let (n, text, stop) := stringBody quote rest
      (n + 1, b :: text, stop)

def string (quote : UInt8) (s : Bytes) : Lexeme :=
  match stringBody quote s with
  | (n, text, .closed) => ⟨.string, n, text⟩
  | (n, _, .unterminated) => malformed n "unterminated string literal"
  | (n, _, .badEscape) => malformed n "invalid unicode escape"

/-- The sign in front of `b :: s`, the longest that fits, with its length less one. -/
def sign? (b : UInt8) (s : Bytes) : Option (Sign × Nat) :=
  let next := s.headD 0
  let afterNext := (s.drop 1).headD 0
  if b == 43 then some (if next == 61 then (.plusEq, 1) else (.plus, 0))
  else if b == 45 then some (if next == 61 then (.minusEq, 1) else (.minus, 0))
  else if b == 42 then some (.star, 0)
  else if b == 47 then some (.slash, 0)
  else if b == 37 then some (.percent, 0)
  else if b == 38 then if next == 38 then some (.andAnd, 1) else none
  else if b == 124 then if next == 124 then some (.orOr, 1) else none
  else if b == 63 then some (if next == 63 then (.nullish, 1) else (.question, 0))
  else if b == 60 then some (if next == 61 then (.lessEq, 1) else (.less, 0))
  else if b == 62 then some (if next == 61 then (.greaterEq, 1) else (.greater, 0))
  else if b == 61 then
    some (if next == 61 && afterNext == 61 then (.eqEqEq, 2)
      else if next == 61 then (.eqEq, 1)
      else if next == 62 then (.arrow, 1)
      else (.equal, 0))
  else if b == 33 then
    some (if next == 61 && afterNext == 61 then (.notEqEq, 2)
      else if next == 61 then (.notEq, 1)
      else (.bang, 0))
  else if b == 46 then some (.dot, 0)
  else if b == 40 then some (.leftParen, 0)
  else if b == 41 then some (.rightParen, 0)
  else if b == 123 then some (.leftBrace, 0)
  else if b == 125 then some (.rightBrace, 0)
  else if b == 91 then some (.leftBracket, 0)
  else if b == 93 then some (.rightBracket, 0)
  else if b == 59 then some (.semicolon, 0)
  else if b == 58 then some (.colon, 0)
  else if b == 44 then some (.comma, 0)
  else none

def startsNumber (b : UInt8) (s : Bytes) : Bool :=
  Bytes.isDigit b || (b == 46 && Bytes.isDigit (s.headD 0))

def lexeme (b : UInt8) (s : Bytes) : Lexeme :=
  if Name.isStart (Utf8.first b s).code then name b s
  else if startsNumber b s then number b s
  else if b == 34 || b == 39 then string b s
  else match sign? b s with
    | some (sign, extra) => ⟨.sign sign, extra, []⟩
    | none => malformed 0 "unexpected character"

/-! ## The tokens of a source -/

def tokensFrom (offset : Nat) (s : Bytes) : List Token :=
  let (skipped, newline) := gap s
  match h : s.drop skipped with
  | [] => [⟨.endOfFile, offset + skipped, offset + skipped, [], true⟩]
  | b :: rest =>
    let start := offset + skipped
    let lex := lexeme b rest
    let token : Token := ⟨lex.kind, start, start + 1 + lex.extra, lex.value, newline⟩
    if lex.kind = .error then [token]
    else token :: tokensFrom (start + 1 + lex.extra) (rest.drop lex.extra)
termination_by s.length
decreasing_by
  have : rest.length < s.length := by
    have := congrArg List.length h
    simp at this
    omega
  simp
  omega

/-- The tokens of a source. The last one, and no other, is the end of the file or an error. -/
def tokens (source : Bytes) : List Token := tokensFrom 0 source

end Winnow.Lexer
