import Winnow.Data.Datum
import Winnow.Text.Blank

/-!
# Settings by name

What a file and the environment say, as one record of settings. Names count without regard to case,
and the environment speaks first. A point in a name leads to a setting inside another one; what is
no record there gives way to one.
-/

namespace Winnow

/-- The name of a setting in files and in the environment. -/
structure SettingName where
  name : String
  own : String

namespace Config

def settingNames : List SettingName :=
  [⟨"input", "INPUT"⟩, ⟨"external", "EXTERNAL"⟩, ⟨"treeshake", "TREESHAKE"⟩,
   ⟨"unknownGlobalSideEffects", "UNKNOWN_GLOBAL_SIDE_EFFECTS"⟩,
   ⟨"propertyReadSideEffects", "PROPERTY_READ_SIDE_EFFECTS"⟩, ⟨"freeze", "FREEZE"⟩,
   ⟨"namespaceToStringTag", "NAMESPACE_TO_STRING_TAG"⟩,
   ⟨"minifyWhitespace", "MINIFY_WHITESPACE"⟩, ⟨"maxPasses", "MAX_PASSES"⟩,
   ⟨"silence", "SILENCE"⟩, ⟨"logLevel", "LOG_LEVEL"⟩]

def inEnvironment (setting : SettingName) : Bytes := utf8 "TREESHAKER_" ++ utf8 setting.own

def environmentNames : List Bytes := settingNames.map inEnvironment

/-- Fields of which each name is there once. Of one name written in several ways the way with
capitals counts, and of one written twice the later one. -/
def unifyNames (fields : List (Bytes × Datum)) : List (Bytes × Datum) :=
  let (plain, capital) := fields.partition fun (k, _) => Text.lower k = k
  (plain ++ capital).foldl (fun read (k, d) => Datum.setField (Text.lower k) d read) []

mutual

/-- A value with its names in lower case. -/
def lowerNames : Datum → Datum
  | .list items => .list (lowerItems items)
  | .record fields => .record (unifyNames (lowerInside fields))
  | d => d

def lowerItems : List Datum → List Datum
  | [] => []
  | d :: rest => lowerNames d :: lowerItems rest

def lowerInside : List (Bytes × Datum) → List (Bytes × Datum)
  | [] => []
  | (k, d) :: rest => (k, lowerNames d) :: lowerInside rest

end

def lowerFields (fields : List (Bytes × Datum)) : List (Bytes × Datum) :=
  unifyNames (lowerInside fields)

/-- A name without regard to case. -/
def foldCase (s : Bytes) : Bytes :=
  (Utf8.runes (Text.lower s)).flatMap fun r => if r.code = 0x17F then [115] else r.bytes

/-- The value of a setting. -/
def setting? (settings : List (Bytes × Datum)) (name : String) : Option Datum :=
  match settings.lookup (Text.lower (utf8 name)) with
  | some d => some d
  | none => (settings.find? fun (k, _) => foldCase k = foldCase (utf8 name)).map Prod.snd

mutual

/-- The values inside a value, by path. -/
def leaves (path : Bytes) : Datum → List (Bytes × Datum)
  | .null => []
  | .record fields => fieldLeaves path fields
  | d => [(Text.lower path, d)]

def fieldLeaves (path : Bytes) : List (Bytes × Datum) → List (Bytes × Datum)
  | [] => []
  | (k, d) :: rest => leaves (path ++ [46] ++ k) d ++ fieldLeaves path rest

end

def fieldsIn : Option Datum → List (Bytes × Datum)
  | some (.record fields) => fields
  | _ => []

/-- Puts a value at a path. -/
def insertAt (d : Datum) : (path : List Bytes) → List (Bytes × Datum) → List (Bytes × Datum)
  | [], fields => fields
  | [name], fields => Datum.setField name d fields
  | name :: path, fields =>
    Datum.setField name (.record (insertAt d path (fieldsIn (fields.lookup name)))) fields

/-- What environment and file say about a setting. -/
def said? (environment : Bytes → Option Bytes) (fields : List (Bytes × Datum))
    (setting : SettingName) : Option Datum :=
  match environment (inEnvironment setting), fields.lookup (Text.lower (utf8 setting.name)) with
  | some (b :: s), _ => some (.text (b :: s))
  | _, some .null => none
  | _, d => d

/-- All settings of environment and file. -/
def settings (environment : Bytes → Option Bytes) (fields : List (Bytes × Datum)) :
    List (Bytes × Datum) :=
  let fields := lowerFields fields
  let nameOf (setting : SettingName) : Bytes := Text.lower (utf8 setting.name)
  let known := settingNames.filterMap fun setting =>
    (said? environment fields setting).map fun d => (nameOf setting, d)
  let others := fields.filter fun (k, _) => !(settingNames.map nameOf).contains k
  let inner := others.flatMap fun (k, d) => leaves k d
  inner.foldl (fun read (path, d) => insertAt d (Bytes.splitOn 46 path) read) known

end Config

end Winnow
