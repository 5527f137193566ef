import Winnow.Data.Instant

/-!
# Plain data

The values that configuration files hold and that reports are written from.
-/

namespace Winnow

inductive Datum where
  | null
  | bool (b : Bool)
  | int (n : Int)
  | real (x : Float)
  | text (s : Bytes)
  | time (kind : TimeKind) (s : Bytes)
  | list (items : List Datum)
  | record (fields : List (Bytes × Datum))
  deriving Inhabited, Repr

namespace Datum

/-- A field that may be missing. -/
def optional (name : String) : Option Datum → List (Bytes × Datum)
  | none => []
  | some d => [(utf8 name, d)]

def field (name : String) (d : Datum) : Bytes × Datum := (utf8 name, d)

/-- A field for a list, unless it is empty. -/
def listField (name : String) (items : List Datum) : List (Bytes × Datum) :=
  if items.isEmpty then [] else [field name (.list items)]

/-- Sets a field in its place, or at the end. -/
def setField (name : Bytes) (d : Datum) : List (Bytes × Datum) → List (Bytes × Datum)
  | [] => [(name, d)]
  | (k, v) :: rest => if k = name then (k, d) :: rest else (k, v) :: setField name d rest

end Datum

end Winnow
