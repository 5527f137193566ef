import Winnow.Data.Json.Write
import Winnow.Data.Yaml.Write
import Winnow.Report.Basic
import Winnow.Text.Width

/-!
# Writing reports

A report as a table for people, as JSON or as YAML. Parts without content are left out of the data.
-/

namespace Winnow

/-- The ways to write a report. -/
inductive ReportFormat where
  | human | json | yaml
  deriving DecidableEq, Repr

namespace ReportFormat

def text : ReportFormat → String
  | human => "human"
  | json => "json"
  | yaml => "yaml"

/-- The format a word names. -/
def ofText? (s : Bytes) : Option ReportFormat :=
  let word := Text.lower s
  if word = utf8 "human" then some human
  else if word = utf8 "json" then some json
  else if word = utf8 "yaml" ∨ word = utf8 "yml" then some yaml
  else none

def unsupported (s : Bytes) : Bytes := utf8 "unsupported format: " ++ s

end ReportFormat

namespace Report

open Datum (field optional listField)

def keptDatum (k : KeptBinding) : Datum :=
  .record ([field "name" (.text k.name)] ++ optional "rendered" (k.rendered.map .text))

def branchDatum (b : DecidedBranch) : Datum :=
  .record [field "kind" (.text (utf8 b.kind)), field "line" (.int b.line),
    field "column" (.int b.column), field "taken" (.text (utf8 b.taken))]

def moduleDatum (m : ModuleReport) : Datum :=
  .record ([field "id" (.text m.path)] ++
    optional "entry" (if m.isEntry then some (.bool true) else none) ++
    [field "statements" (.int m.statements), field "includedStatements" (.int m.included)] ++
    listField "kept" (m.kept.map keptDatum) ++ listField "dropped" (m.dropped.map .text) ++
    listField "branches" (m.branches.map branchDatum))

def totalsDatum (s : BuildStats) (gzipSize : Nat) : Datum :=
  .record [field "statements" (.int s.marking.statements),
    field "includedStatements" (.int s.marking.included), field "renamed" (.int s.renamed),
    field "inputSize" (.int s.inputSize), field "outputSize" (.int s.outputSize),
    field "gzipSize" (.int gzipSize)]

def toDatum (r : Report) : Datum :=
  .record ([field "buildId" (.text r.buildId), field "passes" (.int r.stats.marking.passes),
      field "modules" (.list (r.modules.map moduleDatum))] ++
    listField "external" (r.external.map .text) ++
    [field "totals" (totalsDatum r.stats r.gzipSize)] ++
    listField "warnings" (r.warnings.map .text))

def orDash (s : Bytes) : Bytes := if s.isEmpty then utf8 "-" else s

def keptText (k : KeptBinding) : Bytes :=
  match k.rendered with
  | some r => k.name ++ utf8 " as " ++ r
  | none => k.name

/-- The row of a module. -/
def row (m : ModuleReport) : List Bytes :=
  [m.path ++ (if m.isEntry then utf8 " (entry)" else []),
   Bytes.ofNat m.included ++ utf8 "/" ++ Bytes.ofNat m.statements,
   orDash (Bytes.join (utf8 ", ") (m.kept.map keptText)),
   orDash (Bytes.join (utf8 ", ") m.dropped)]

/-- The width each column needs. -/
def columnWidths : List (List Bytes) → List Nat
  | [] => []
  | [cells] => cells.map Text.width
  | cells :: rows => List.zipWith max (cells.map Text.width) (columnWidths rows)

/-- A row, filled up but for its last cell. -/
def tableLine (widths : List Nat) (cells : List Bytes) : Bytes :=
  let filled := (List.zipWith Text.padRight widths cells.dropLast).map (· ++ utf8 "  ")
  filled.flatten ++ cells.getLast?.getD [] ++ [10]

def table (rows : List (List Bytes)) : Bytes := rows.flatMap (tableLine (columnWidths rows))

def branchLine (path : Bytes) (b : DecidedBranch) : Bytes :=
  utf8 "  " ++ path ++ utf8 ":" ++ Bytes.ofNat b.line ++ utf8 ":" ++ Bytes.ofNat b.column ++
    utf8 " " ++ utf8 b.kind ++ utf8 " -> " ++ utf8 b.taken ++ [10]

/-- A part with its heading, unless it is empty. -/
def headed (heading : String) (s : Bytes) : Bytes := if s.isEmpty then [] else utf8 heading ++ s

/-- A report for people. -/
def human (r : Report) : Bytes :=
  let passes := r.stats.marking.passes
  let branches := r.modules.flatMap fun m => m.branches.flatMap (branchLine m.path)
  let external := Bytes.join (utf8 ", ") r.external
  utf8 "Build " ++ r.buildId ++ utf8 " (" ++ Bytes.ofNat passes ++
    utf8 (if passes = 1 then " pass" else " passes") ++ utf8 ")\n\n" ++
    table ([["MODULE", "STATEMENTS", "KEPT", "DROPPED"].map utf8] ++ r.modules.map row) ++
    headed "\nResolved branches:\n" branches ++
    (if r.external.isEmpty then [] else utf8 "\nExternal: " ++ external ++ [10]) ++
    utf8 "\nStatements: " ++ Bytes.ofNat r.stats.marking.included ++ utf8 " of " ++
    Bytes.ofNat r.stats.marking.statements ++ utf8 " kept\n" ++
    utf8 "Size: " ++ Bytes.ofNat r.stats.inputSize ++ utf8 " -> " ++
    Bytes.ofNat r.stats.outputSize ++ utf8 " bytes (" ++ Bytes.ofNat r.gzipSize ++
    utf8 " gzipped)\n" ++
    (if r.stats.renamed = 0 then []
      else utf8 "Renamed: " ++ Bytes.ofNat r.stats.renamed ++ [10]) ++
    headed "\nWarnings:\n" (r.warnings.flatMap fun w => utf8 "  " ++ w ++ [10])

def write (r : Report) : ReportFormat → Bytes
  | .human => r.human
  | .json => Json.write 0 r.toDatum ++ [10]
  | .yaml => Yaml.write r.toDatum

end Report

end Winnow
