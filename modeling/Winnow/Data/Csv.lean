import Winnow.Text.Bytes

/-!
# Values divided by commas

A value in double quotes may hold commas and line breaks, and a quote in it is written twice.
-/

namespace Winnow.Csv

/-- Why a text is no list of values. -/
inductive Fault where
  | empty
  | bareQuote (start line column : Nat)
  | quote (start line column : Nat)
  deriving DecidableEq, Repr

/-- Where a fault is. -/
def placeText (start line column : Nat) : Bytes :=
  (if start = line then [] else utf8 "record on line " ++ Bytes.ofNat start ++ utf8 "; ") ++
    utf8 "parse error on line " ++ Bytes.ofNat line ++ utf8 ", column " ++ Bytes.ofNat column

def Fault.message : Fault → Bytes
  | empty => utf8 "EOF"
  | bareQuote start line column =>
    placeText start line column ++ utf8 ": bare \" in non-quoted-field"
  | quote start line column =>
    placeText start line column ++ utf8 ": extraneous or missing \" in quoted-field"

/-- A value in quotes, with the place behind it. -/
def quoted (start : Nat) : (line column : Nat) → Bytes → Except Fault (Bytes × Nat × Nat × Bytes)
  | line, column, [] => .error (.quote start line column)
  | line, column, 34 :: rest =>
    match rest with
    | [] => .ok ([], line, column + 1, [])
    | 34 :: s => do
      let (t, place) ← quoted start line (column + 2) s
      return (34 :: t, place)
    | b :: s =>
      if b = 44 || b = 10 then .ok ([], line, column + 1, b :: s)
      else .error (.quote start line column)
  | line, column, b :: s => do
    let (t, place) ←
      if b = 10 && !s.isEmpty then quoted start (line + 1) 1 s
      else quoted start line (column + 1) s
    return (b :: t, place)

/-- The values on one line. -/
def values (start : Nat) : (steps line column : Nat) → Bytes → Except Fault (List Bytes)
  | 0, _, _, _ => .ok []
  | n + 1, line, column, s => do
    let (value, line, column, rest) ←
      match s with
      | 34 :: t => quoted start line (column + 1) t
      | _ =>
        let (value, rest) := s.span fun b => b != 44 && b != 10
        match Bytes.findByte? (· == 34) value with
        | some j => throw (.bareQuote start line (column + j))
        | none => pure (value, line, column + value.length, rest)
    match rest with
    | 44 :: t => return value :: (← values start n line (column + 1) t)
    | _ => return [value]

/-- A text with plain line breaks. -/
def unifyBreaks : Bytes → Bytes
  | [] => []
  | b :: s =>
    if b = 13 && (s.isEmpty || s.head? = some 10) then unifyBreaks s else b :: unifyBreaks s

def read (s : Bytes) : Except Fault (List Bytes) :=
  if s.isEmpty then .ok []
  else
    let text := unifyBreaks s
    let body := text.dropWhile (· == 10)
    let start := text.length - body.length + 1
    if body.isEmpty then .error .empty else values start (body.length + 1) start 1 body

end Winnow.Csv
