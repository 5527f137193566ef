import Winnow.Number.Numeral
import Winnow.Number.Shortest
import Winnow.Text.Blank
import Winnow.Text.Quoted

/-!
# Statically known values

What the analysis can know of the value of an expression: a primitive, that it is truthy, or
nothing.
-/

namespace Winnow

inductive Value where
  | unknown
  | truthy
  | undefined
  | null
  | bool (b : Bool)
  | number (x : Float)
  | string (s : Bytes)
  deriving Inhabited, Repr

inductive BinaryOp where
  | add | sub | mul | div | rem
  | strictEq | strictNe | looseEq | looseNe
  | lt | gt | le | ge
  deriving DecidableEq, Repr

namespace BinaryOp

def all : List BinaryOp :=
  [add, sub, mul, div, rem, strictEq, strictNe, looseEq, looseNe, lt, gt, le, ge]

def text : BinaryOp → String
  | add => "+" | sub => "-" | mul => "*" | div => "/" | rem => "%"
  | strictEq => "===" | strictNe => "!==" | looseEq => "==" | looseNe => "!="
  | lt => "<" | gt => ">" | le => "<=" | ge => ">="

def ofText? (s : Bytes) : Option BinaryOp := all.find? fun op => utf8 op.text = s

end BinaryOp

namespace Value

def isUnknown : Value → Bool
  | unknown | truthy => true
  | _ => false

def isNullish : Value → Bool
  | undefined | null => true
  | _ => false

def truth? : Value → Option Bool
  | unknown => none
  | truthy => some true
  | undefined | null => some false
  | bool b => some b
  | number x => some (x != 0 && !x.isNaN)
  | string s => some (!s.isEmpty)

def boolText (b : Bool) : Bytes := if b then utf8 "true" else utf8 "false"

def format : Value → Bytes
  | unknown => utf8 "<unknown>"
  | truthy => utf8 "<unknown truthy>"
  | undefined => utf8 "undefined"
  | null => utf8 "null"
  | bool b => boolText b
  | number x => Number.format x
  | string s => Text.quoted s

def toNumber : Value → Float
  | null => 0
  | bool b => if b then 1 else 0
  | number x => x
  | string s => Number.parse (Text.trim s)
  | unknown | truthy | undefined => Number.nan

def toText : Value → Bytes
  | string s => s
  | number x => Number.format x
  | bool b => boolText b
  | null => utf8 "null"
  | unknown | truthy | undefined => utf8 "undefined"

def typeName : Value → Bytes
  | null => utf8 "object"
  | bool _ => utf8 "boolean"
  | number _ => utf8 "number"
  | string _ => utf8 "string"
  | unknown | truthy | undefined => utf8 "undefined"

def strictEquals : Value → Value → Bool
  | bool a, bool b => a == b
  | number x, number y => x == y
  | string s, string t => s == t
  | unknown, unknown | truthy, truthy | undefined, undefined | null, null => true
  | _, _ => false

def sameKind : Value → Value → Bool
  | bool _, bool _ | number _, number _ | string _, string _ => true
  | unknown, unknown | truthy, truthy | undefined, undefined | null, null => true
  | _, _ => false

def looseEquals (a b : Value) : Bool :=
  if sameKind a b then strictEquals a b
  else if a.isNullish || b.isNullish then a.isNullish && b.isNullish
  else a.toNumber == b.toNumber

def holdsOf (op : BinaryOp) (o : Ordering) : Bool :=
  match op with
  | .lt => o == .lt
  | .gt => o == .gt
  | .le => o != .gt
  | _ => o != .lt

def compare (op : BinaryOp) (a b : Value) : Bool :=
  match a, b with
  | string s, string t => holdsOf op (Bytes.compare s t)
  | _, _ =>
    let x := a.toNumber
    let y := b.toNumber
    match op with
    | .lt => x < y
    | .gt => x > y
    | .le => x ≤ y
    | _ => x ≥ y

def fold (op : BinaryOp) (a b : Value) : Value :=
  match op with
  | .add =>
    match a, b with
    | string s, b => string (s ++ b.toText)
    | a, string t => string (a.toText ++ t)
    | a, b => number (a.toNumber + b.toNumber)
  | .sub => number (a.toNumber - b.toNumber)
  | .mul => number (a.toNumber * b.toNumber)
  | .div => number (a.toNumber / b.toNumber)
  | .rem => number (Number.remainder a.toNumber b.toNumber)
  | .strictEq => bool (strictEquals a b)
  | .strictNe => bool (!strictEquals a b)
  | .looseEq => bool (looseEquals a b)
  | .looseNe => bool (!looseEquals a b)
  | .lt | .gt | .le | .ge => bool (compare op a b)

/-- The result of an operator given by its text; nothing is known for a text that is none. -/
def foldText (op : Bytes) (a b : Value) : Value :=
  match BinaryOp.ofText? op with
  | some op => fold op a b
  | none => unknown

end Value

end Winnow
