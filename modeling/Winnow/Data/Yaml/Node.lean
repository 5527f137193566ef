import Winnow.Data.Yaml.Fault
import Winnow.Data.Yaml.Scalar

/-!
# Trees of YAML

A document is a tree of scalars, sequences and mappings with tags. An alias holds what it stands
for. One that stands for a part it belongs to itself has no end, and holds only what it leads back
to.
-/

namespace Winnow.Yaml

/-- A part of a document. -/
inductive Node where
  | scalar (line : Nat) (tag text : Bytes)
  | sequence (line : Nat) (tag : Bytes) (items : List Node)
  | mapping (line : Nat) (tag : Bytes) (entries : List (Node × Node))
  | reference (line : Nat) (name : Bytes) (target : Node)
  | endless (line : Nat) (name tag : Bytes) (isMapping : Bool)
  deriving Inhabited

def commonStem : Bytes := utf8 "tag:yaml.org,2002:"

/-- A tag with the common stem cut short. -/
def shortTag (tag : Bytes) : Bytes :=
  match Bytes.stripPrefix? commonStem tag with
  | some suffix => utf8 "!!" ++ suffix
  | none => tag

def tagOf : Datum → Bytes
  | .null => utf8 "!!null"
  | .bool _ => utf8 "!!bool"
  | .int _ => utf8 "!!int"
  | .real _ => utf8 "!!float"
  | .text _ => utf8 "!!str"
  | .time _ _ => utf8 "!!timestamp"
  | .list _ => utf8 "!!seq"
  | .record _ => utf8 "!!map"

/-- The tag of a scalar that has none. -/
def scalarTag (text : Bytes) (isPlain : Bool) : Bytes :=
  if !isPlain then utf8 "!!str"
  else if text = utf8 "<<" then utf8 "!!merge"
  else tagOf (resolve text)

def tagOr (said default : Bytes) : Bytes :=
  if said.isEmpty || said = utf8 "!" then default else shortTag said

namespace Node

def line : Node → Nat
  | scalar line _ _ | sequence line _ _ | mapping line _ _ | reference line _ _ => line
  | endless line _ _ _ => line

def tag : Node → Bytes
  | scalar _ tag _ | sequence _ tag _ | mapping _ tag _ => tag
  | reference _ _ target => target.tag
  | endless _ _ tag _ => tag

def isMerge : Node → Bool
  | scalar _ tag text => text = utf8 "<<" && tag = utf8 "!!merge"
  | _ => false

/-- Whether two keys of a mapping collide. -/
def isSameKey : Node → Node → Bool
  | scalar _ _ a, scalar _ _ b => a = b
  | sequence _ _ _, sequence _ _ _ => true
  | mapping _ _ _, mapping _ _ _ => true
  | reference _ a _, reference _ b _ => a = b
  | endless _ a _ _, endless _ b _ _ => a = b
  | reference _ a _, endless _ b _ _ => a = b
  | endless _ a _ _, reference _ b _ => a = b
  | _, _ => false

def keyText : Node → Bytes
  | scalar _ _ text => text
  | reference _ name _ | endless _ name _ _ => name
  | _ => []

end Node

end Winnow.Yaml
