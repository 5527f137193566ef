import Winnow.Text.Blank
import Winnow.Text.Lines

/-!
# Diagnostics

Errors and warnings in the order in which they were reported. Warnings can be silenced by code,
errors never.
-/

namespace Winnow

inductive Severity where
  | error
  | warning
  | info
  | note
  | other
  deriving DecidableEq, Repr

namespace Severity

def ofRank : Nat → Severity
  | 0 => error
  | 1 => warning
  | 2 => info
  | 3 => note
  | _ => other

def text : Severity → String
  | error => "error"
  | warning => "warning"
  | info => "info"
  | note => "note"
  | other => "unknown"

end Severity

inductive Code where
  | parseError
  | unresolvedEntry
  | missingExport
  | namespaceConflict
  | thisIsUndefined
  | circularDependency
  | emptyBundle
  | unresolvedImport
  deriving DecidableEq, Repr

def Code.text : Code → Bytes
  | parseError => utf8 "PARSE_ERROR"
  | unresolvedEntry => utf8 "UNRESOLVED_ENTRY"
  | missingExport => utf8 "MISSING_EXPORT"
  | namespaceConflict => utf8 "NAMESPACE_CONFLICT"
  | thisIsUndefined => utf8 "THIS_IS_UNDEFINED"
  | circularDependency => utf8 "CIRCULAR_DEPENDENCY"
  | emptyBundle => utf8 "EMPTY_BUNDLE"
  | unresolvedImport => utf8 "UNRESOLVED_IMPORT"

structure Position where
  offset : Int := 0
  line : Nat := 0
  column : Nat := 0
  deriving DecidableEq, Repr, Inhabited

structure Related where
  file : Bytes
  line : Int
  column : Int
  message : Bytes
  deriving DecidableEq, Repr

structure Diagnostic where
  severity : Severity
  code : Bytes
  message : Bytes
  file : Bytes
  position : Position := {}
  related : List Related := []
  deriving DecidableEq, Repr

def Diagnostic.headline (d : Diagnostic) : Bytes :=
  let body := utf8 d.severity.text ++ utf8 ": " ++ d.message ++ utf8 " [" ++ d.code ++ utf8 "]"
  if d.file.isEmpty then body
  else d.file ++ utf8 ":" ++ Bytes.ofNat d.position.line ++ utf8 ":" ++
    Bytes.ofNat d.position.column ++ utf8 ": " ++ body

structure Diagnostics where
  entries : List Diagnostic := []
  sources : List (Bytes × Text.Lines) := []
  silenced : List Bytes := []
  deriving Repr

namespace Diagnostics

def silencing (codes : List Bytes) : Diagnostics :=
  { silenced := codes.map fun c => Text.upper (Text.trim c) }

def linesOf? (ds : Diagnostics) (file : Bytes) : Option Text.Lines := ds.sources.lookup file

def addSource (ds : Diagnostics) (file source : Bytes) : Diagnostics :=
  { ds with sources := (file, Text.Lines.ofSource source) :: ds.sources }

def position (ds : Diagnostics) (file : Bytes) (offset : Int) : Position :=
  match ds.linesOf? file with
  | none => { offset }
  | some lines =>
    let (line, column) := lines.position16 offset
    { offset, line := line + 1, column := column + 1 }

def add (ds : Diagnostics) (d : Diagnostic) : Diagnostics :=
  if d.severity ≠ .error ∧ ds.silenced.contains d.code then ds
  else { ds with entries := ds.entries ++ [d] }

def report (ds : Diagnostics) (severity : Severity) (file code message : Bytes) (offset : Int) :
    Diagnostics :=
  ds.add {
    severity, code, message, file
    position := if file.isEmpty then {} else ds.position file offset }

def warn (ds : Diagnostics) (file code message : Bytes) (offset : Int) : Diagnostics :=
  ds.report .warning file code message offset

def error (ds : Diagnostics) (file code message : Bytes) (offset : Int) : Diagnostics :=
  ds.report .error file code message offset

def ofSeverity (ds : Diagnostics) (severity : Severity) : List Diagnostic :=
  ds.entries.filter (·.severity == severity)

def errors (ds : Diagnostics) : List Diagnostic := ds.ofSeverity .error

def warnings (ds : Diagnostics) : List Diagnostic := ds.ofSeverity .warning

def hasErrors (ds : Diagnostics) : Bool := ds.entries.any (·.severity == .error)

def codes (ds : Diagnostics) : List Bytes := Bytes.sort (ds.entries.map (·.code)).eraseDups

def excerpt (ds : Diagnostics) (d : Diagnostic) : Bytes :=
  match ds.linesOf? d.file with
  | none => []
  | some lines =>
    let line := lines.text ((d.position.line : Int) - 1)
    if d.position.line = 0 ∨ line.isEmpty then []
    else utf8 "    " ++ line ++ [10] ++ List.replicate (d.position.column + 3) 32 ++ utf8 "^\n"

def relatedLine (r : Related) : Bytes :=
  utf8 "  " ++ r.file ++ utf8 ":" ++ Bytes.ofInt r.line ++ utf8 ":" ++ Bytes.ofInt r.column ++
    utf8 ": note: " ++ r.message ++ [10]

def formatOne (ds : Diagnostics) (d : Diagnostic) : Bytes :=
  d.headline ++ [10] ++ ds.excerpt d ++ d.related.flatMap relatedLine

def format (ds : Diagnostics) : Bytes := ds.entries.flatMap ds.formatOne

def clear (ds : Diagnostics) : Diagnostics := { ds with entries := [] }

end Diagnostics

end Winnow
