import Winnow.Build

/-!
# Reports

What a build kept and what it left out, per module and for the whole bundle.
-/

namespace Winnow

/-- A kept binding, with its new name if it has one. -/
structure KeptBinding where
  name : Bytes
  rendered : Option Bytes := none
  deriving DecidableEq, Repr

/-- A branch that was decided, and where. -/
structure DecidedBranch where
  kind : String
  line : Nat
  column : Nat
  taken : String
  deriving DecidableEq, Repr

/-- What became of a module. -/
structure ModuleReport where
  path : Bytes
  isEntry : Bool
  statements : Nat
  included : Nat
  kept : List KeptBinding
  dropped : List Bytes
  branches : List DecidedBranch
  deriving DecidableEq, Repr

/-- What became of a build. -/
structure Report where
  buildId : Bytes
  modules : List ModuleReport
  external : List Bytes
  stats : BuildStats
  gzipSize : Nat
  warnings : List Bytes
  deriving DecidableEq, Repr

namespace Report

/-- What a report calls a node with branches. -/
def branchKind? : Node → Option String
  | .stmt (.branch ..) => some "if"
  | .expr (.conditional ..) => some "conditional"
  | .expr (.logical ..) => some "logical"
  | _ => none

def taken? : BranchState → Option String
  | .consequent => some "consequent"
  | .alternate => some "alternate"
  | _ => none

mutual

/-- The included nodes of a tree, outer ones first. -/
def includedNodes (g : Graph) : Outline → List Node
  | .mk n cs => if g.isIncluded n.id then n :: includedBelow g cs else []

def includedBelow (g : Graph) : List Outline → List Node
  | [] => []
  | o :: os => includedNodes g o ++ includedBelow g os

end

/-- The decision at a node. -/
def branch? (q : Queries) (path : Bytes) (n : Node) : Query (Option DecidedBranch) := do
  match branchKind? n, (← Query.branchState? q n).bind taken? with
  | some kind, some taken =>
    let place := (← get).diagnostics.position path n.start
    return some { kind, line := place.line, column := place.column, taken }
  | _, _ => return none

/-- The bindings that are kept. -/
def kept (vars : List Variable) : List KeptBinding :=
  (vars.filter (·.included)).map fun w =>
    { name := w.name, rendered := if w.renderName = w.name then none else some w.renderName }

/-- The names of all other bindings. -/
def dropped (vars : List Variable) : List Bytes :=
  (vars.filter fun w => !w.included).map Variable.name

/-- The report on a module. -/
def ofModule (q : Queries) (m : ModuleId) (mod : Module) : Query ModuleReport := do
  let g ← get
  let vars := (Naming.topLevel g m).filterMap g.var?
  let (statements, included) := Marking.countStatements g mod.program
  let branches ← (includedNodes g (Outline.ofProgram mod.program)).filterMapM (branch? q mod.path)
  return { path := mod.path, isEntry := mod.isEntry, statements, included, kept := kept vars,
           dropped := dropped vars, branches }

/-- The report on a build. -/
def ofBuild (depth : Nat) (buildId : Bytes) (gzipSize : Nat) (stats : BuildStats) :
    Query Report := do
  let g ← get
  let modules ← g.order.filterMapM fun m => do
    match g.module? m with
    | some mod => some <$> ofModule (Queries.ofDepth depth) m mod
    | none => return none
  return { buildId, modules, external := g.externalSources, stats, gzipSize,
           warnings := g.diagnostics.warnings.map Diagnostic.headline }

end Report

end Winnow
