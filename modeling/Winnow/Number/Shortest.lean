import Winnow.Number.Binary64
import Winnow.Text.Bytes

/-!
# The shortest decimal of a value

Among the decimals that read back as a given value, the one with the fewest digits is chosen, and of
several the one nearest to the value; a tie goes to the even digit. It is written positionally while
the exponent of its leading digit is at least -4 and below 6, and in the form `1.5e+06` otherwise.
-/

namespace Winnow.Number

structure Decimal where
  digits : Nat
  exp : Int
  deriving DecidableEq, Repr

def compareScaled (a : Nat) (i : Int) (n : Nat) (j : Int) : Ordering :=
  compare (a * Nat.pow 10 i.toNat * Nat.pow 2 (-j).toNat) (n * Nat.pow 2 j.toNat * Nat.pow 10 (-i).toNat)

def Binary.readsBack (x : Binary) (d : Decimal) : Bool :=
  let low := if x.narrowBelow then 4 * x.m - 1 else 4 * x.m - 2
  let high := 4 * x.m + 2
  let ends := x.m % 2 == 0
  let below := compareScaled d.digits d.exp low (x.q - 2)
  let above := compareScaled d.digits d.exp high (x.q - 2)
  (below == .gt || (ends && below == .eq)) && (above == .lt || (ends && above == .eq))

/-- The least `k` with value `< 10^k`, searched upwards from a start that is not above it. -/
def Binary.scaleFrom (x : Binary) : (steps : Nat) → (k : Int) → Int
  | 0, k => k
  | steps + 1, k => if compareScaled 1 k x.m x.q == .gt then k else x.scaleFrom steps (k + 1)

def Binary.scale (x : Binary) : Int :=
  let log := (x.m.log2 : Int) + x.q
  x.scaleFrom 6 (log * 30102 / 100000 - 2)

def Binary.floorAt (x : Binary) (e : Int) : Nat :=
  (x.m * Nat.pow 2 x.q.toNat * Nat.pow 10 (-e).toNat) / (Nat.pow 2 (-x.q).toNat * Nat.pow 10 e.toNat)

/-- The neighbour of the value on the grid of multiples of `10^e` that reads back, if one does:
of two the nearer, of two equally near the even one. -/
def Binary.onGrid? (x : Binary) (e : Int) : Option Decimal :=
  let low : Decimal := ⟨x.floorAt e, e⟩
  let high : Decimal := ⟨x.floorAt e + 1, e⟩
  match x.readsBack low, x.readsBack high with
  | false, false => none
  | true, false => some low
  | false, true => some high
  | true, true =>
    match compareScaled (low.digits + high.digits) e (2 * x.m) x.q with
    | .gt => some low
    | .lt => some high
    | .eq => some (if low.digits % 2 = 0 then low else high)

def Decimal.strip : (fuel : Nat) → Decimal → Decimal
  | 0, d => d
  | fuel + 1, d =>
    if d.digits ≠ 0 ∧ d.digits % 10 = 0 then Decimal.strip fuel ⟨d.digits / 10, d.exp + 1⟩ else d

def Binary.exact (x : Binary) : Decimal :=
  if x.q ≥ 0 then ⟨x.m * Nat.pow 2 x.q.toNat, 0⟩ else ⟨x.m * Nat.pow 5 (-x.q).toNat, x.q⟩

def Binary.shortest (x : Binary) : Decimal :=
  let k := x.scale
  let found := (List.range 17).findSome? fun (n : Nat) => x.onGrid? (k - (n + 1 : Nat))
  Decimal.strip 800 (found.getD x.exact)

def Decimal.positional (d : Decimal) : Bytes :=
  let digits := Bytes.ofNat d.digits
  if d.exp ≥ 0 then digits ++ List.replicate d.exp.toNat 48
  else
    let places := (-d.exp).toNat
    if places < digits.length then
      digits.take (digits.length - places) ++ 46 :: digits.drop (digits.length - places)
    else 48 :: 46 :: (List.replicate (places - digits.length) 48 ++ digits)

def Decimal.scientific (d : Decimal) : Bytes :=
  let digits := Bytes.ofNat d.digits
  let exp := d.exp + (digits.length - 1 : Nat)
  let fraction := if digits.length > 1 then 46 :: digits.drop 1 else []
  let places := Bytes.ofNat exp.natAbs
  digits.take 1 ++ fraction ++ 101 :: (if exp < 0 then 45 else 43) ::
    ((if places.length < 2 then [48] else []) ++ places)

/-- The text of a decimal: positional for exponents of the leading digit from -4 to 5. -/
def Decimal.text (d : Decimal) : Bytes :=
  let exp := d.exp + ((Bytes.ofNat d.digits).length - 1 : Nat)
  if exp < -4 ∨ exp ≥ 6 then d.scientific else d.positional

def format (x : Float) : Bytes :=
  if x.isNaN then utf8 "NaN"
  else if x.isInf then (if signBit x then utf8 "-Infinity" else utf8 "Infinity")
  else if x == 0 then utf8 "0"
  else (if signBit x then [45] else []) ++ (Binary.ofBits x.toBits).shortest.text

def formatPositional (x : Float) : Bytes :=
  if x.isNaN then utf8 "NaN"
  else if x.isInf then (if signBit x then utf8 "-Inf" else utf8 "+Inf")
  else
    (if signBit x then [45] else []) ++
      (if x == 0 then [48] else (Binary.ofBits x.toBits).shortest.positional)

end Winnow.Number
