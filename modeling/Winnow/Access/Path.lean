import Winnow.Text.Bytes

/-!
# Access paths

A path is a chain of property keys; the empty path stands for the entity itself. Two keys are no
property names, the unknown key and the tag key. Both start with a NUL byte, and every key that does
is taken for not known.
-/

namespace Winnow

abbrev Key := Bytes

abbrev Path := List Key

namespace Key

def unknown : Key := 0 :: utf8 "unknown"

def toStringTag : Key := 0 :: utf8 "Symbol.toStringTag"

def isKnown (k : Key) : Bool := k.head? != some 0

def text (k : Key) : Bytes :=
  if k = unknown then utf8 "?" else if k = toStringTag then utf8 "@@toStringTag" else k

end Key

namespace Path

def unknown : Path := [Key.unknown]

/-- Whether `a` covers the beginning of `b`, an unknown key of `a` covering every key. -/
def covers : (a b : Path) → Bool
  | [], _ => true
  | _ :: _, [] => false
  | k :: a, l :: b => (k == Key.unknown || k == l) && covers a b

/-- Whether the path ends in a key that is not known. -/
def isOpen (p : Path) : Bool := !((p.getLast?.map Key.isKnown).getD true)

def rest (p : Path) : Path := p.drop 1

def text (p : Path) : Bytes :=
  if p.isEmpty then utf8 "<self>" else Bytes.join (utf8 ".") (p.map Key.text)

/-- The path as one byte string: every key followed by the byte 1. Paths are told apart by it. -/
def fingerprint (p : Path) : Bytes := p.flatMap fun k => k ++ [1]

end Path

end Winnow
