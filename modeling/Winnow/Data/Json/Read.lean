import Winnow.Data.Datum
import Winnow.Number.Numeral
import Winnow.Text.Blank
import Winnow.Text.Quoted

/-!
# Reading JSON

Every reader takes what is left of the text and gives a value with the rest. The first character
that fits nowhere is the fault, together with what was being read there.
-/

namespace Winnow.Json

/-- Why a text is no JSON. -/
inductive Fault where
  | ended
  | stray (character : Rune) (place : String)
  | badEscape (sequence : Bytes)
  | tooDeep
  | tooLarge (numeral : Bytes) (path : List Bytes)
  deriving DecidableEq, Repr

namespace Fault

/-- The fault where a text cannot go on. -/
def unfit : Bytes → (place : String) → Fault
  | [], _ => ended
  | b :: s, place => stray (Utf8.first b s) place

/-- A fault seen from outside a field. -/
def within (name : Bytes) : Fault → Fault
  | tooLarge n path => tooLarge n (name :: path)
  | fault => fault

def isObscure (r : Rune) : Bool :=
  r.code = 96 || r.code = Utf8.replacement || Text.isBlank r.code || !Text.isPrintable r.code

/-- A text between backquotes if they can hold it. -/
def shown (s : Bytes) : Bytes :=
  if (Utf8.runes s).any isObscure then Text.quoted s else 96 :: (s ++ [96])

def pathStep (name : Bytes) : Bytes :=
  name.flatMap fun b => if b = 126 then utf8 "~0" else if b = 47 then utf8 "~1" else [b]

def destination (path : List Bytes) : Bytes :=
  match Bytes.join [46] (path.map pathStep) with
  | [] => utf8 "value"
  | field => utf8 "struct field ." ++ field

def message : Fault → Bytes
  | ended => utf8 "unexpected end of JSON input"
  | stray r place => utf8 "invalid character " ++ Text.quotedRune r ++ utf8 " " ++ utf8 place
  | badEscape s => utf8 "invalid escape sequence " ++ shown s ++ utf8 " in string"
  | tooDeep => utf8 "exceeded max depth"
  | tooLarge n path => utf8 "json: cannot unmarshal number " ++ n ++ utf8 " into Go " ++
      destination path ++ utf8 " of type float64"

end Fault

abbrev Reader (α : Type) := Bytes → Except Fault (α × Bytes)

def isSpace (b : UInt8) : Bool := b == 32 || b == 9 || b == 10 || b == 13

def skip (s : Bytes) : Bytes := s.dropWhile isSpace

/-- The rest of a literal. -/
def word (name : String) : (rest : List Char) → Bytes → Except Fault Bytes
  | [], s => .ok s
  | _ :: _, [] => .error .ended
  | c :: cs, b :: s =>
    if b = Bytes.code c then word name cs s
    else .error (.unfit (b :: s) s!"in literal {name} (expecting '{c}')")

def hexEscape : Reader Nat := fun s =>
  match (s.take 4).mapM Bytes.hexValue? with
  | none => .error (.badEscape (92 :: 117 :: s.take 4))
  | some values =>
    if values.length < 4 then .error .ended
    else .ok (values.foldl (fun n v => n * 16 + v) 0, s.drop 4)

def unescape? : UInt8 → Option UInt8
  | 98 => some 8
  | 102 => some 12
  | 110 => some 10
  | 114 => some 13
  | 116 => some 9
  | 92 => some 92
  | 47 => some 47
  | 34 => some 34
  | _ => none

def isHigh (n : Nat) : Bool := 0xD800 ≤ n && n < 0xDC00

def isLow (n : Nat) : Bool := 0xDC00 ≤ n && n < 0xE000

/-- The number of an escape, perhaps of two halves. -/
def codeEscape : Reader Nat := fun s => do
  let (n, s) ← hexEscape s
  match s with
  | 92 :: 117 :: t =>
    if isHigh n then
      match hexEscape t with
      | .ok (m, u) =>
        if isLow m then return (0x10000 + (n - 0xD800) * 0x400 + (m - 0xDC00), u)
        else return (n, s)
      | .error _ => return (n, s)
    else return (n, s)
  | _ => return (n, s)

/-- A text up to its closing quote. -/
def stringBody : (steps : Nat) → Reader Bytes
  | 0, _ => .error .ended
  | _ + 1, [] => .error .ended
  | n + 1, b :: s =>
    if b = 34 then .ok ([], s)
    else if b < 0x20 then .error (.unfit (b :: s) "in string")
    else if b ≠ 92 then do
      let (t, rest) ← stringBody n s
      return (b :: t, rest)
    else match s with
      | [] => .error .ended
      | c :: s =>
        if c = 117 then do
          let (code, s) ← codeEscape s
          let (t, rest) ← stringBody n s
          return (Bytes.ofCode code ++ t, rest)
        else match unescape? c with
          | some x => do
            let (t, rest) ← stringBody n s
            return (x :: t, rest)
          | none => .error (.badEscape [92, c])

/-- A text, with replacements for what is no UTF-8. -/
def string : Reader Bytes := fun s => do
  let (t, rest) ← stringBody (s.length + 1) s
  return ((Utf8.runes t).flatMap fun r => Bytes.ofCode r.code, rest)

def digits (s : Bytes) : Bytes × Bytes := s.span Bytes.isDigit

def someDigits : Reader Bytes := fun s =>
  match digits s with
  | ([], rest) => .error (.unfit rest "in numeric literal")
  | (ds, rest) => .ok (ds, rest)

def fraction : Reader Bytes
  | 46 :: s => do
    let (ds, rest) ← someDigits s
    return (46 :: ds, rest)
  | s => .ok ([], s)

def exponent : Reader Bytes
  | b :: s =>
    if b = 101 ∨ b = 69 then do
      let (sign, s) : Bytes × Bytes := match s with
        | 43 :: t => ([43], t)
        | 45 :: t => ([45], t)
        | t => ([], t)
      let (ds, rest) ← someDigits s
      return (b :: sign ++ ds, rest)
    else .ok ([], b :: s)
  | [] => .ok ([], [])

def maxDepth : Nat := 10000

/-- A number. One that is too large is a fault if numbers have to be exact, and infinite
otherwise. -/
def number (exact : Bool) : Reader Datum := fun s => do
  let (sign, s) : Bytes × Bytes := match s with
    | 45 :: t => ([45], t)
    | t => ([], t)
  let (whole, s) ← match s with
    | 48 :: t => pure (([48] : Bytes), t)
    | t => someDigits t
  let (part, s) ← fraction s
  let (power, s) ← exponent s
  let numeral : Bytes := sign ++ whole ++ part ++ power
  match Number.real? numeral with
  | some x => return (.real x, s)
  | none => if exact then .error (.tooLarge numeral []) else return (.real Number.infinity, s)

mutual

/-- Any value. -/
def value (exact : Bool) (depth : Nat) : (steps : Nat) → Reader Datum
  | 0, _ => .error .ended
  | n + 1, s =>
    match skip s with
    | [] => .error .ended
    | 123 :: s =>
      if depth ≥ maxDepth then .error .tooDeep
      else match skip s with
        | 125 :: rest => .ok (.record [], rest)
        | s => fields exact (depth + 1) n [] s
    | 91 :: s =>
      if depth ≥ maxDepth then .error .tooDeep
      else match skip s with
        | 93 :: rest => .ok (.list [], rest)
        | s => items exact (depth + 1) n 0 s
    | 34 :: s => do
      let (t, rest) ← string s
      return (.text t, rest)
    | 116 :: s => do return (.bool true, ← word "true" ['r', 'u', 'e'] s)
    | 102 :: s => do return (.bool false, ← word "false" ['a', 'l', 's', 'e'] s)
    | 110 :: s => do return (.null, ← word "null" ['u', 'l', 'l'] s)
    | b :: s =>
      if b = 45 ∨ Bytes.isDigit b then number exact (b :: s)
      else .error (.unfit (b :: s) "looking for beginning of value")

def items (exact : Bool) (depth : Nat) : (steps index : Nat) → Reader Datum
  | 0, _, _ => .error .ended
  | n + 1, index, s => do
    let (d, s) ← (value exact depth n s).mapError (.within (Bytes.ofNat index))
    match skip s with
    | 93 :: rest => return (.list [d], rest)
    | 44 :: s =>
      match ← items exact depth n (index + 1) s with
      | (.list ds, rest) => return (.list (d :: ds), rest)
      | other => return other
    | s => .error (.unfit s "after array element")

def fields (exact : Bool) (depth : Nat) :
    (steps : Nat) → (read : List (Bytes × Datum)) → Reader Datum
  | 0, _, _ => .error .ended
  | n + 1, read, s =>
    match skip s with
    | 34 :: s => do
      let (k, s) ← string s
      match skip s with
      | 58 :: s =>
        let (d, s) ← (value exact depth n s).mapError (.within k)
        let read := Datum.setField k d read
        match skip s with
        | 125 :: rest => return (.record read, rest)
        | 44 :: s => fields exact depth n read s
        | s => .error (.unfit s "after object key:value pair")
      | s => .error (.unfit s "after object key")
    | s => .error (.unfit s "looking for beginning of object key string")

end

def readAs (exact : Bool) (s : Bytes) : Except Fault Datum := do
  let (d, rest) ← value exact 0 (2 * (s.length + 1)) s
  match skip rest with
  | [] => return d
  | s => .error (.unfit s "after top-level value")

/-- A whole text as one value. A fault of its form counts before a number that is too large, and
such a number counts only inside a record. -/
def read (s : Bytes) : Except Fault Datum := do
  match ← readAs false s with
  | .record _ => readAs true s
  | d => return d

end Winnow.Json
