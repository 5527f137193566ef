import Winnow.Number.Binary64
import Winnow.Text.Bytes

/-!
# Reading numerals

A numeral is empty (zero), an unsigned `0x`, `0o` or `0b` integer of at most 64 bits, an optionally
signed `Infinity`, or an optionally signed decimal with fraction and exponent; a sign also admits a
hexadecimal significand with a binary exponent. Underscores are dropped before anything else.
Whatever is none of these, or is too large, reads as NaN.
-/

namespace Winnow.Number

/-- The digits of a base at the start of a text, as a number and how many there were, with the
rest of the text. -/
def digitsIn (base : Nat) : Bytes → (value count : Nat) → Nat × Nat × Bytes
  | [], value, count => (value, count, [])
  | b :: s, value, count =>
    match Bytes.hexValue? b with
    | some d =>
      if d < base then digitsIn base s (value * base + d) (count + 1) else (value, count, b :: s)
    | none => (value, count, b :: s)

def integerIn? (base : Nat) (s : Bytes) : Option Nat :=
  match digitsIn base s 0 0 with
  | (value, _ + 1, []) => some value
  | _ => none

/-- A significand: digits with at most one point among them, at least one digit. The result is the
number without its point, the digits behind the point, and the rest of the text. -/
def significand? (base : Nat) (s : Bytes) : Option (Nat × Nat × Bytes) :=
  let (whole, n, rest) := digitsIn base s 0 0
  match rest with
  | 46 :: rest =>
    let (all, k, rest) := digitsIn base rest whole 0
    if n + k = 0 then none else some (all, k, rest)
  | _ => if n = 0 then none else some (whole, 0, rest)

def signed : Bytes → Bool × Bytes
  | 43 :: s => (false, s)
  | 45 :: s => (true, s)
  | s => (false, s)

/-- An exponent introduced by a letter of either case; without the letter it is zero. -/
def exponent? (letter : UInt8) (s : Bytes) : Option Int :=
  match s with
  | [] => some 0
  | b :: s =>
    if b == letter || b + 32 == letter then
      let (minus, s) := signed s
      match digitsIn 10 s 0 0 with
      | (_, 0, _) => none
      | (value, _, []) => some (if minus then -(value : Int) else value)
      | _ => none
    else none

/-- The largest exponent that is computed with; beyond it every number but zero is too large, or
so small that it is zero. -/
def exponentLimit : Nat := 6000

/-- The value of `m * base^e`, negated if asked; none when it is too large. -/
def power? (negative : Bool) (m base : Nat) (e : Int) : Option Float :=
  if m = 0 then nearest? negative 0 1
  else if e ≥ 0 then
    if e.toNat > exponentLimit then none else nearest? negative (m * Nat.pow base e.toNat) 1
  else if (-e).toNat > exponentLimit + 8 * (Nat.log2 m + 1) then nearest? negative 0 1
  else nearest? negative m (Nat.pow base (-e).toNat)

def isDecimal (s : Bytes) : Bool :=
  match significand? 10 (signed s).2 with
  | some (_, _, rest) => (exponent? 101 rest).isSome
  | none => false

def decimal? (minus : Bool) (s : Bytes) : Option Float := do
  let (m, places, rest) ← significand? 10 s
  let e ← exponent? 101 rest
  power? minus m 10 (e - places)

def real? (s : Bytes) : Option Float :=
  let (minus, s) := signed s
  match s with
  | 48 :: x :: rest =>
    if (x == 120 || x == 88) && !rest.isEmpty then do
      let (m, places, rest) ← significand? 16 rest
      if rest.isEmpty then none
      else
        let e ← exponent? 112 rest
        power? minus m 2 (e - 4 * places)
    else decimal? minus s
  | _ => decimal? minus s

def baseOf? (letter : UInt8) : Option Nat :=
  if letter == 120 || letter == 88 then some 16
  else if letter == 111 || letter == 79 then some 8
  else if letter == 98 || letter == 66 then some 2
  else none

def word? (base : Nat) (s : Bytes) : Option Float :=
  match integerIn? base s with
  | some n => if n < Nat.pow 2 64 then nearest? false n 1 else none
  | none => none

def plain (s : Bytes) : Float :=
  match s with
  | [] => 0
  | 48 :: letter :: digit :: rest =>
    match baseOf? letter with
    | some base => (word? base (digit :: rest)).getD nan
    | none => (real? s).getD nan
  | _ =>
    if s = utf8 "Infinity" ∨ s = utf8 "+Infinity" then infinity
    else if s = utf8 "-Infinity" then -infinity
    else (real? s).getD nan

def parse (s : Bytes) : Float :=
  match s with
  | [] => 0
  | _ =>
    match s.filter (· ≠ 95) with
    | [] => nan
    | t => plain t

end Winnow.Number
