import Winnow.Build
import Winnow.Data.Datum

/-!
# Configurations

Every setting may be left open, and an open setting has its default (`Config.toOptions`). The
command line has the last word on single settings and adds to the lists (`Config.merge`).
-/

namespace Winnow

/-- The settings that were made. -/
structure Config where
  input : List Bytes := []
  external : List Bytes := []
  treeshake : Option Bool := none
  unknownGlobalSideEffects : Option Bool := none
  propertyReadSideEffects : Option Bool := none
  freeze : Option Bool := none
  namespaceTag : Option Bool := none
  minify : Option Bool := none
  maxPasses : Option Int := none
  silence : List Bytes := []
  logLevel : Bytes := []
  deriving DecidableEq, Repr

/-- The settings of the command line. -/
structure Overrides where
  minify : Option Bool := none
  freeze : Option Bool := none
  namespaceTag : Option Bool := none
  unknownGlobalSideEffects : Option Bool := none
  propertyReadSideEffects : Option Bool := none
  keepAll : Bool := false
  maxPasses : Option Int := none
  external : List Bytes := []
  silence : List Bytes := []
  deriving DecidableEq, Repr

/-- Why a setting is refused. -/
inductive ConfigProblem where
  | negativePasses (n : Int)
  | unknownLevel (name : Bytes)
  deriving DecidableEq, Repr

def ConfigProblem.message : ConfigProblem → Bytes
  | negativePasses n => utf8 "maxPasses must not be negative, got " ++ Bytes.ofInt n
  | unknownLevel name => utf8 "unknown logLevel " ++ Text.quoted name

def Style.ofMinify (minify : Bool) : Style := if minify then .compact else .pretty

namespace Config

/-- The names of log levels, in lower case. -/
def levelNames : List Bytes :=
  ["", "debug", "info", "warn", "warning", "error", "silent", "quiet", "off"].map utf8

/-- All that is wrong with a configuration. -/
def problems (c : Config) : List ConfigProblem :=
  (match c.maxPasses with
    | some n => if n < 0 then [.negativePasses n] else []
    | none => []) ++
  (if levelNames.contains (Text.lower c.logLevel) then [] else [.unknownLevel c.logLevel])

/-- The options of a build, with defaults for open settings. -/
def toOptions (c : Config) : BuildOptions :=
  let d : BuildOptions := {}
  { analysis := {
      unknownGlobalSideEffects :=
        c.unknownGlobalSideEffects.getD d.analysis.unknownGlobalSideEffects
      propertyReadSideEffects :=
        c.propertyReadSideEffects.getD d.analysis.propertyReadSideEffects }
    marking := {
      treeshake := c.treeshake.getD d.marking.treeshake
      maxPasses := c.maxPasses.getD d.marking.maxPasses }
    output := {
      style := (c.minify.map Style.ofMinify).getD d.output.style
      freeze := c.freeze.getD d.output.freeze
      namespaceTag := c.namespaceTag.getD d.output.namespaceTag }
    silence := c.silence
    external := c.external }

/-- A configuration with what the command line says. -/
def override (c : Config) (o : Overrides) : Config :=
  { c with
    minify := o.minify <|> c.minify
    freeze := o.freeze <|> c.freeze
    namespaceTag := o.namespaceTag <|> c.namespaceTag
    unknownGlobalSideEffects := o.unknownGlobalSideEffects <|> c.unknownGlobalSideEffects
    propertyReadSideEffects := o.propertyReadSideEffects <|> c.propertyReadSideEffects
    treeshake := if o.keepAll then some false else c.treeshake
    maxPasses := o.maxPasses <|> c.maxPasses
    external := c.external ++ o.external
    silence := c.silence ++ o.silence }

def merge (c : Config) (o : Overrides) : BuildOptions := (c.override o).toOptions

/-- A configuration that leaves no option open. -/
def ofOptions (o : BuildOptions) : Config :=
  { external := o.external
    treeshake := some o.marking.treeshake
    unknownGlobalSideEffects := some o.analysis.unknownGlobalSideEffects
    propertyReadSideEffects := some o.analysis.propertyReadSideEffects
    freeze := some o.output.freeze
    namespaceTag := some o.output.namespaceTag
    minify := some (o.output.style == .compact)
    maxPasses := some o.marking.maxPasses
    silence := o.silence }

/-- The configuration of a new file. -/
def standard : Config :=
  { ofOptions {} with input := [utf8 "src/index.js"], logLevel := utf8 "info" }

def fields (c : Config) : List (Bytes × Datum) :=
  let texts (name : String) (ts : List Bytes) := Datum.field name (.list (ts.map Datum.text))
  let flag (name : String) (b : Option Bool) := Datum.field name ((b.map Datum.bool).getD .null)
  [texts "input" c.input, texts "external" c.external, flag "treeshake" c.treeshake,
   flag "unknownGlobalSideEffects" c.unknownGlobalSideEffects,
   flag "propertyReadSideEffects" c.propertyReadSideEffects, flag "freeze" c.freeze,
   flag "namespaceToStringTag" c.namespaceTag, flag "minifyWhitespace" c.minify,
   Datum.field "maxPasses" ((c.maxPasses.map Datum.int).getD .null), texts "silence" c.silence,
   Datum.field "logLevel" (.text c.logLevel)]

/-- Whether a setting says nothing. -/
def isOpen : Datum → Bool
  | .null | .list [] | .text [] => true
  | _ => false

/-- The settings that say something. -/
def settled (c : Config) : List (Bytes × Datum) := c.fields.filter fun f => !isOpen f.2

end Config

end Winnow
