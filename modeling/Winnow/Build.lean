import Winnow.Analysis.Marking
import Winnow.Graph.Build
import Winnow.Output.Bundle

/-!
# Builds

From modules to one file. Each stage can fail in a way of its own (`BuildFailure`); whatever the
outcome, the graph stays, with the diagnostics and the log.
-/

namespace Winnow

structure BuildOptions where
  analysis : AnalysisOptions := {}
  marking : Marking.Options := {}
  output : OutputOptions := {}
  silence : List Bytes := []
  external : List Bytes := []
  /-- How deep questions may nest before the analysis is given up. -/
  depth : Nat := Queries.usualDepth

structure BuildStats where
  modules : Nat
  externalModules : Nat
  marking : Marking.Stats
  renamed : Nat
  inputSize : Nat
  outputSize : Nat
  deriving DecidableEq, Repr

structure BuildResult where
  code : Bytes
  stats : BuildStats
  deriving DecidableEq, Repr

inductive BuildFailure where
  | link (error : BuildError)
  | unsettled (passes : Nat)
  | halted (halt : Halt)
  | layout (fault : LayoutFault)
  deriving DecidableEq, Repr

def BuildError.wording (entries : List Bytes) (e : BuildError) : Bytes :=
  utf8 "bundle [" ++ Bytes.join (utf8 " ") entries ++ utf8 "]: " ++ e.message

namespace Build

abbrev Step := ExceptT BuildFailure (StateM Graph)

def link (files : Files) (entries external : List Bytes) : Step Unit := fun g =>
  match (Graph.build files entries external).run g with
  | (.ok _, g) => (.ok (), g)
  | (.error e, g) =>
    (.error (.link e), g.note "build failed" [.mk (utf8 "error") (.wording e.message)])

def analyse {α : Type} (q : Query α) : Step α := fun g =>
  match q.run g with
  | .ok (a, g) => (.ok a, g)
  | .error h => (.error (.halted h), g)

def mark (depth : Nat) (o : Marking.Options) : Step Marking.Stats := do
  match ← analyse (Marking.mark depth o) with
  | .marked stats => return stats
  | .unsettled passes => throw (.unsettled passes)

def write (o : OutputOptions) : Step (Bytes × Bundle) := do
  let bundle ← (Bundle.ofGraph : StateM Graph Bundle)
  match bundle.render (← get) o with
  | .ok code => return (code, bundle)
  | .error fault => throw (.layout fault)

def bundleName (g : Graph) : Bytes :=
  match g.entries with
  | m :: _ => Module.defaultName (g.pathOf m)
  | [] => utf8 "bundle"

def warnIfEmpty (stats : Marking.Stats) (b : Bundle) (g : Graph) : Graph :=
  if stats.included = 0 && b.exports.isEmpty && b.reexports.isEmpty then
    g.warnBundle .emptyBundle
      (utf8 "Generated an empty chunk: " ++ Text.quoted (bundleName g))
  else g

def inputSize (g : Graph) : Nat :=
  (g.order.filterMap g.module?).foldl (fun n m => n + m.source.length) 0

def finished (s : BuildStats) : Log.Record :=
  { level := Log.Level.info
    message := utf8 "bundle written"
    attrs := [
      .mk (utf8 "modules") (.int s.modules), .mk (utf8 "passes") (.int s.marking.passes),
      .mk (utf8 "removed") (.int s.marking.removed), .mk (utf8 "bytes") (.int s.outputSize)] }

def run (files : Files) (entries : List Bytes) (o : BuildOptions) : Step BuildResult := do
  link files entries o.external
  let marked ← mark o.depth o.marking
  let renamed ← (Naming.assign : StateM Graph Nat)
  let (code, bundle) ← write o.output
  modify (warnIfEmpty marked bundle)
  let g ← get
  let stats : BuildStats := {
    modules := g.order.length
    externalModules := g.externalSources.length
    marking := marked
    renamed
    inputSize := inputSize g
    outputSize := code.length }
  set { g with log := g.log ++ [finished stats] }
  return { code, stats }

end Build

def BuildOptions.start (o : BuildOptions) : Graph :=
  { options := o.analysis, diagnostics := .silencing o.silence }

def build (files : Files) (entries : List Bytes) (o : BuildOptions) :
    Except BuildFailure BuildResult × Graph :=
  (Build.run files entries o).run o.start

def buildLog (level : Log.Level) (buildId : Bytes) (g : Graph) : List Bytes :=
  let logger := Log.Logger.withAttrs { level } [.mk (utf8 "build") (.text buildId)]
  (g.log.filter fun r => logger.enabled r.level).map logger.body

def linkErrors (entries : List Bytes) (e : BuildError) (g : Graph) : List Diagnostic :=
  if g.diagnostics.hasErrors then g.diagnostics.errors
  else [{ severity := .error, code := [], message := e.wording entries, file := [] }]

end Winnow
