import Winnow.Data.Datum
import Winnow.Number.Shortest

/-!
# Data in messages
-/

namespace Winnow

namespace Datum

mutual

/-- A value as messages show it. -/
def display : Datum → Bytes
  | .null => utf8 "<nil>"
  | .bool b => utf8 (if b then "true" else "false")
  | .int n => Bytes.ofInt n
  | .real x => if x.isInf then Number.formatPositional x else Number.format x
  | .text s => s
  | .time _ s => s
  | .list items => utf8 "[" ++ Bytes.join [32] (displayAll items) ++ utf8 "]"
  | .record fields =>
    let sorted := (displayFields fields).mergeSort fun a b => Bytes.le a.1 b.1
    utf8 "map[" ++ Bytes.join [32] (sorted.map Prod.snd) ++ utf8 "]"

def displayAll : List Datum → List Bytes
  | [] => []
  | d :: rest => display d :: displayAll rest

def displayFields : List (Bytes × Datum) → List (Bytes × Bytes)
  | [] => []
  | (name, d) :: rest => (name, name ++ utf8 ":" ++ display d) :: displayFields rest

end

/-- What messages call the type of a value. -/
def kindText : Datum → String
  | .null => "nil"
  | .bool _ => "bool"
  | .int n => if n < Nat.pow 2 63 then "int" else "uint64"
  | .real _ => "float64"
  | .text _ => "string"
  | .time .instant _ => "time.Time"
  | .time .localDate _ => "toml.LocalDate"
  | .time .localTime _ => "toml.LocalTime"
  | .time .localMoment _ => "toml.LocalDateTime"
  | .list _ => "[]interface \x7b\x7d"
  | .record _ => "map[string]interface \x7b\x7d"

end Datum

end Winnow
