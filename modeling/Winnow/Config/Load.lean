import Winnow.Config.Decode
import Winnow.Data.Json.Read
import Winnow.Data.Toml.Read
import Winnow.Data.Yaml.Read
import Winnow.Disk

/-!
# Configuration files

A configuration file is looked for in a directory and those above it, under a few names. Its format
follows from its extension.
-/

namespace Winnow

inductive ConfigFormat where
  | json
  | yaml
  | toml
  deriving DecidableEq, Repr

/-- Why a configuration cannot be loaded. -/
inductive ConfigFault where
  | disk (e : DiskError)
  | unsupported (extension : Bytes)
  | json (fault : Json.Fault)
  | noObject (kind : String)
  | yaml (fault : Yaml.Fault)
  | toml (fault : Toml.Fault)
  | misfits (misfits : List ConfigMisfit)
  | problems (problems : List ConfigProblem)

structure ConfigError where
  path : Option Bytes
  fault : ConfigFault

namespace ConfigFault

/-- Whether the file could not be read. -/
def isRead : ConfigFault → Bool
  | misfits _ | problems _ => false
  | _ => true

def message : ConfigFault → Bytes
  | disk e => e.message
  | unsupported extension => utf8 "Unsupported Config Type " ++ Text.quoted extension
  | json fault => utf8 "While parsing config: " ++ fault.message
  | noObject kind => utf8 "While parsing config: json: cannot unmarshal " ++ utf8 kind ++
      utf8 " into Go value of type map[string]interface \x7b\x7d"
  | yaml fault => utf8 "While parsing config: " ++ fault.message
  | toml fault => utf8 "While parsing config: " ++ fault.message
  | misfits ms => Config.misfitsMessage ms
  | problems ps => Bytes.join [10] (ps.map ConfigProblem.message)

end ConfigFault

def ConfigError.message (e : ConfigError) : Bytes :=
  match e.path with
  | none => e.fault.message
  | some path =>
    utf8 (if e.fault.isRead then "read config " else "decode config ") ++ path ++ utf8 ": " ++
      e.fault.message

namespace Config

/-- The names of configuration files. -/
def fileNames : List Bytes :=
  ["treeshaker.json", "treeshaker.yaml", "treeshaker.yml", "treeshaker.toml",
   ".treeshakerrc"].map utf8

def extension (path : Bytes) : Bytes :=
  let name := (Bytes.splitOn 47 path).getLastD []
  match Bytes.findLastByte? (· == 46) name with
  | some i => name.drop (i + 1)
  | none => []

def formatOf? (extension : Bytes) : Option ConfigFormat :=
  if extension = utf8 "json" then some .json
  else if extension = utf8 "yaml" ∨ extension = utf8 "yml" then some .yaml
  else if extension = utf8 "toml" then some .toml
  else none

/-- The format of a file, JSON for unknown extensions. -/
def format (path : Bytes) : Except ConfigFault ConfigFormat :=
  let extension := extension path
  match formatOf? extension, formatOf? (Text.lower extension) with
  | some f, _ => .ok f
  | none, some _ => .error (.unsupported extension)
  | none, none => .ok .json

def jsonFields (s : Bytes) : Except ConfigFault (List (Bytes × Datum)) :=
  match Json.read s with
  | .error fault => .error (.json fault)
  | .ok (.record fields) => .ok fields
  | .ok .null => .ok []
  | .ok (.list _) => .error (.noObject "array")
  | .ok (.text _) => .error (.noObject "string")
  | .ok (.bool _) => .error (.noObject "bool")
  | .ok _ => .error (.noObject "number")

/-- The fields of a text in some format. -/
def fieldsOf (f : ConfigFormat) (s : Bytes) : Except ConfigFault (List (Bytes × Datum)) :=
  match f with
  | .json => jsonFields s
  | .yaml => (Yaml.read s).mapError ConfigFault.yaml
  | .toml => (Toml.read s).mapError ConfigFault.toml

/-- The configuration of fields, if nothing is wrong. -/
def ofFields (environment : Bytes → Option Bytes) (fields : List (Bytes × Datum)) :
    Except ConfigFault Config := do
  let config ← (decode environment fields).mapError ConfigFault.misfits
  match config.problems with
  | [] => return config
  | ps => .error (.problems ps)

/-- Where configurations come from. -/
structure Source where
  disk : Disk
  directory : Bytes
  environment : Bytes → Option Bytes

def loadFile (source : Source) (path : Bytes) : Except ConfigError Config :=
  let load : Except ConfigFault Config := do
    let f ← format path
    let s ← (source.disk.read source.directory path).mapError ConfigFault.disk
    ofFields source.environment (← fieldsOf f s)
  load.mapError fun fault => ⟨some path, fault⟩

/-- A directory and those above it. -/
def upwards : (steps : Nat) → Bytes → List Bytes
  | 0, directory => [directory]
  | n + 1, directory =>
    let parent := Specifier.directory directory
    if parent = directory then [directory] else directory :: upwards n parent

/-- The first configuration file there is. -/
def find? (source : Source) (directory : Bytes) : Option Bytes :=
  let paths := (upwards directory.length directory).flatMap fun d => fileNames.map (Disk.child d)
  paths.find? (source.disk.contains source.directory)

/-- The configuration for a directory. -/
def load (source : Source) (directory : Bytes) : Option Bytes × Except ConfigError Config :=
  match find? source directory with
  | some path => (some path, loadFile source path)
  | none => (none, (ofFields source.environment []).mapError fun fault => ⟨none, fault⟩)

end Config

end Winnow
