import Winnow.Data.Yaml.Source
import Winnow.Text.Quoted

/-!
# Faults of YAML texts

Type faults are collected, all others end the reading.
-/

namespace Winnow.Yaml

/-- A place in a text. -/
structure Mark where
  index : Nat := 0
  line : Nat := 0
  column : Nat := 0
  deriving DecidableEq, Repr, Inhabited

/-- Why a text is no YAML. -/
inductive Fault where
  | encoding (fault : EncodingFault)
  | token (start place : Nat) (problem : String)
  | tree (start place : Nat) (problem : String)
  | unknownAnchor (name : Bytes)
  | endless (name : Bytes)
  | tooManyAliases
  | mergesNoMapping
  | mistagged (found text expected : Bytes)
  | badBase64
  | badKey
  | types (messages : List Bytes)
  deriving DecidableEq, Repr

namespace Fault

def lineText (start place shift : Nat) : Bytes :=
  let line := if start = 0 then place else start
  if line = 0 then [] else utf8 "line " ++ Bytes.ofNat (line + shift) ++ utf8 ": "

def message (fault : Fault) : Bytes :=
  utf8 "yaml: " ++ match fault with
    | encoding f => utf8 f.message
    | token start place problem => lineText start place 1 ++ utf8 problem
    | tree start place problem => lineText start place 0 ++ utf8 problem
    | unknownAnchor name => utf8 "unknown anchor '" ++ name ++ utf8 "' referenced"
    | endless name => utf8 "anchor '" ++ name ++ utf8 "' value contains itself"
    | tooManyAliases => utf8 "document contains excessive aliasing"
    | mergesNoMapping => utf8 "map merge requires map or sequence of maps as the value"
    | mistagged found text expected =>
      utf8 "cannot decode " ++ found ++ utf8 " `" ++ text ++ utf8 "` as a " ++ expected
    | badBase64 => utf8 "!!binary value contains invalid base64 data"
    | badKey => utf8 "invalid map key"
    | types messages => utf8 "unmarshal errors:\n  " ++ Bytes.join (utf8 "\n  ") messages

end Fault

end Winnow.Yaml
