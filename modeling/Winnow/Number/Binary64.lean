/-!
# Binary64 values

A finite binary64 value is `m * 2^q`. Quotients are rounded to the nearest value (ties to even), and
remainders are exact.
-/

namespace Winnow.Number

structure Binary where
  m : Nat
  q : Int
  narrowBelow : Bool
  deriving DecidableEq, Repr

def Binary.ofBits (b : UInt64) : Binary :=
  let e := ((b >>> 52) &&& 0x7FF).toNat
  let f := (b &&& 0xFFFFFFFFFFFFF).toNat
  if e == 0 then ⟨f, -1074, false⟩ else ⟨Nat.pow 2 52 + f, (e : Int) - 1075, f == 0 && e > 1⟩

def signBit (x : Float) : Bool := x.toBits >>> 63 == 1

def infinity : Float := Float.ofBits 0x7FF0000000000000

def nan : Float := Float.ofBits 0x7FF8000000000000

/-- The quotient rounded to a natural number, a half going to the even neighbour. -/
def roundDiv (num den : Nat) : Nat :=
  let whole := num / den
  let twice := 2 * (num % den)
  if twice < den then whole
  else if twice > den then whole + 1
  else if whole % 2 = 0 then whole else whole + 1

def scaled (num den : Nat) (e : Int) : Nat :=
  roundDiv (num * Nat.pow 2 (-e).toNat) (den * Nat.pow 2 e.toNat)

/-- The exponent at which `num / den` has its 53 leading bits, or the least exponent there is. -/
def leadingExponent (num den : Nat) : Int :=
  let guess : Int := (num.log2 : Int) - (den.log2 : Int) - 52
  let fits := den * Nat.pow 2 (guess + 52).toNat ≤ num * Nat.pow 2 (-(guess + 52)).toNat
  max (-1074) (if fits then guess else guess - 1)

/-- The bits of the value nearest to `num / den`, without a sign; none when it is too large. -/
def nearestBits? (num den : Nat) : Option UInt64 :=
  let e := leadingExponent num den
  let m := scaled num den e
  let (m, e) := if m = Nat.pow 2 53 then (Nat.pow 2 52, e + 1) else (m, e)
  if e > 971 then none
  else if m < Nat.pow 2 52 then some m.toUInt64
  else some ((m - Nat.pow 2 52) + (e + 1075).toNat * Nat.pow 2 52).toUInt64

/-- The value nearest to `num / den`, negated if asked; none when it is too large. -/
def nearest? (negative : Bool) (num den : Nat) : Option Float :=
  (nearestBits? num den).map fun bits =>
    Float.ofBits (if negative then bits ||| 0x8000000000000000 else bits)

/-- The remainder of `x / y`, with the sign of `x`; exact, as the remainder of two values is one. -/
def remainder (x y : Float) : Float :=
  if x.isNaN || y.isNaN || x.isInf || y == 0 then nan
  else if y.isInf || x == 0 then x
  else
    let a := Binary.ofBits x.toBits
    let b := Binary.ofBits y.toBits
    let q := min a.q b.q
    let r := (a.m * Nat.pow 2 (a.q - q).toNat) % (b.m * Nat.pow 2 (b.q - q).toNat)
    (nearest? (signBit x) (r * Nat.pow 2 q.toNat) (Nat.pow 2 (-q).toNat)).getD nan

end Winnow.Number
