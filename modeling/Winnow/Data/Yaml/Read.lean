import Winnow.Data.Yaml.Node.Tree
import Winnow.Data.Yaml.Node.Value

/-!
# Reading YAML

A text as the fields of the mapping that its first document is. Of what follows only the first token
is looked at.
-/

namespace Winnow.Yaml

def read (s : Bytes) : Except Fault (List (Bytes × Datum)) := do
  match ← Node.ofText? s with
  | none => return []
  | some n => n.fields

end Winnow.Yaml
