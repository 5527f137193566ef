import Winnow.Command.Tree
import Winnow.Config.Load

/-!
# Sessions

What a command that builds needs to know, from its arguments, the configuration and the environment.
-/

namespace Winnow.Command

/-- What a run sees of the outside. -/
structure World where
  disk : Disk
  directory : Bytes
  environment : Bytes → Option Bytes
  buildId : Bytes
  stamp : Bytes := []

/-- Why a session cannot start. -/
inductive SessionError where
  | configFile (path : Bytes) (e : ConfigError)
  | config (e : ConfigError)
  | noEntry
  | outside (entry : Bytes)

def SessionError.message : SessionError → Bytes
  | configFile path e => utf8 "loading config file " ++ path ++ utf8 ": " ++ e.message
  | config e => utf8 "loading config: " ++ e.message
  | noEntry => utf8 "no entry module specified"
  | outside entry => utf8 "entry " ++ entry ++ utf8 " is outside the working directory"

/-- What a build needs to know. -/
structure Session where
  entries : List Bytes
  options : BuildOptions
  level : Log.Level
  configPath : Option Bytes

namespace Session

/-- The steps from one directory to a place. -/
def relative : (base target : List Bytes) → List Bytes
  | b :: base, t :: target =>
    if b = t then relative base target
    else (b :: base).map (fun _ => utf8 "..") ++ t :: target
  | base, target => base.map (fun _ => utf8 "..") ++ target

def names (path : Bytes) : List Bytes := (Bytes.splitOn 47 path).filter fun n => !n.isEmpty

/-- An entry as a path below the working directory. -/
def entryPath (directory entry : Bytes) : Except SessionError Bytes :=
  let path :=
    if entry.head? = some 47 then
      Specifier.clean (Bytes.join [47] (relative (names directory) (names (Specifier.clean entry))))
    else Specifier.clean entry
  if path = utf8 ".." || path.startsWith (utf8 "../") then .error (.outside entry) else .ok path

/-- What the flags say about settings. -/
def overrides (a : Arguments) : Overrides :=
  { minify := a.switch? "minify-whitespace"
    freeze := a.switch? "freeze"
    namespaceTag := a.switch? "namespace-to-string-tag"
    unknownGlobalSideEffects := a.switch? "unknown-global-side-effects"
    propertyReadSideEffects := a.switch? "property-read-side-effects"
    keepAll := (a.switch? "no-treeshake").getD false
    maxPasses := a.integer? "max-passes"
    external := a.texts "external"
    silence := a.texts "silence" }

/-- The level of the log; flags come first. -/
def logLevel (a : Arguments) (c : Config) : Log.Level :=
  match a.text? "log-level", a.count? "verbose", a.switch? "quiet" with
  | some name, _, _ => Log.Level.ofText name
  | none, none, none =>
    if c.logLevel.isEmpty then Log.Level.warn else Log.Level.ofText c.logLevel
  | none, count, quiet => Log.Level.ofVerbosity (count.getD 0) (quiet.getD false)

/-- The configuration and the path of its file. -/
def config (w : World) (a : Arguments) : Except SessionError (Option Bytes × Config) :=
  let source : Config.Source := ⟨w.disk, w.directory, w.environment⟩
  if (a.switch? "no-config").getD false then .ok (none, {})
  else match (a.text? "config").getD [] with
    | [] =>
      let (path, c) := Config.load source w.directory
      (c.mapError SessionError.config).map fun c => (path, c)
    | path =>
      ((Config.loadFile source path).mapError (SessionError.configFile path)).map fun c =>
        (some path, c)

/-- The session that arguments ask for. -/
def start (w : World) (a : Arguments) : Except SessionError Session := do
  let (configPath, c) ← config w a
  let inputs := if a.rest.isEmpty then c.input else a.rest
  if inputs.isEmpty then throw .noEntry
  let entries ← inputs.mapM (entryPath w.directory)
  return { entries, options := c.merge (overrides a), level := logLevel a c, configPath }

def configLine (s : Session) : List Bytes :=
  let logger : Log.Logger := { level := s.level }
  match s.configPath with
  | some path =>
    if logger.enabled Log.Level.debug then
      [logger.body {
        level := Log.Level.debug, message := utf8 "using config"
        attrs := [.mk (utf8 "path") (.text path)] }]
    else []
  | none => []

end Session

end Winnow.Command
