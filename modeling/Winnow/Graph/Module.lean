import Winnow.Syntax.Name
import Winnow.Syntax.Node
import Winnow.Syntax.Symbols

/-!
# Modules

A module of a bundle with what its declarations say. `Module.declare` reads that off the parsed
program.
-/

namespace Winnow

structure Dependency where
  specifier : Bytes
  target : Option ModuleId := none
  deriving DecidableEq, Repr

structure ImportBinding where
  specifier : Bytes
  imported : Bytes
  position : Nat
  deriving DecidableEq, Repr

inductive ExportTarget where
  | binding (localName : Bytes)
  | defaultValue
  deriving DecidableEq, Repr

structure LocalExport where
  exported : Bytes
  target : ExportTarget
  position : Nat
  deriving DecidableEq, Repr

/-- A name exported from another module; `*` is that whole module. -/
structure Reexport where
  exported : Bytes
  specifier : Bytes
  localName : Bytes
  position : Nat
  deriving DecidableEq, Repr

structure Module where
  path : Bytes
  source : Bytes
  program : Program
  isEntry : Bool := false
  execIndex : Option Nat := none
  dependencies : List Dependency := []
  imports : List (Bytes × ImportBinding) := []
  exports : List LocalExport := []
  reexports : List Reexport := []
  starSources : List Bytes := []
  defaultVar : Option VarId := none
  namespaceVar : Option VarId := none
  allExportsIncluded : Bool := false
  tracedExports : List (Bytes × Option VarId) := []
  tracedImports : List (Bytes × Option VarId) := []
  conflicts : List Bytes := []
  deriving Inhabited

namespace Module

def defaultName (path : Bytes) : Bytes := Name.ofText path

def target? (m : Module) (specifier : Bytes) : Option ModuleId :=
  (m.dependencies.find? fun d => d.specifier = specifier).bind Dependency.target

def localExport? (m : Module) (name : Bytes) : Option LocalExport :=
  m.exports.find? fun e => e.exported = name

def reexport? (m : Module) (name : Bytes) : Option Reexport :=
  m.reexports.find? fun e => e.exported = name

/-- The names the module exports by itself, then those it exports from others by name. -/
def exportNames (m : Module) : List Bytes :=
  m.exports.map LocalExport.exported ++ m.reexports.map Reexport.exported

def addDependency (m : Module) (specifier : Bytes) : Module :=
  if m.dependencies.any fun d => d.specifier = specifier then m
  else { m with dependencies := m.dependencies ++ [{ specifier }] }

structure DuplicateExport where
  name : Bytes
  position : Nat
  deriving DecidableEq, Repr

def checkNew (m : Module) (name : Bytes) (position : Nat) : Except DuplicateExport Unit :=
  if m.exportNames.contains name then .error { name, position } else .ok ()

def addExport (m : Module) (e : LocalExport) : Except DuplicateExport Module := do
  m.checkNew e.exported e.position
  return { m with exports := m.exports ++ [e] }

def addReexport (m : Module) (e : Reexport) : Except DuplicateExport Module := do
  m.checkNew e.exported e.position
  return { m with reexports := m.reexports ++ [e] }

def declaredNames : Stmt → List Binder
  | .declaration _ _ ds => ds.map Declarator.name
  | .function f => f.name?.toList
  | .classDef c => c.name?.toList
  | _ => []

/-- Whether the value of a default export is a function or a class with a name, as a declaration or
in parentheses. -/
def isNamed : Expr → Bool
  | .function f => f.name?.isSome
  | .classDef c => c.name?.isSome
  | _ => false

/-- What a default export stands for. A named value goes by the name of the variable that holds it:
for a declaration that is its own name, and for a function or class in parentheses the name made
for the module, whatever that name is bound to. -/
def defaultTarget (symbols : Symbols) (var : VarId) (value : Expr) : ExportTarget :=
  match symbols.var? var with
  | some v => if isNamed value then .binding v.name else .defaultValue
  | none => .defaultValue

def declareStatement (symbols : Symbols) (m : Module) : Stmt → Except DuplicateExport Module
  | .importFrom _ source specifiers =>
    let bindings := specifiers.map fun s =>
      (s.localName, { specifier := source, imported := s.imported, position := s.position })
    .ok { m.addDependency source with imports := m.imports ++ bindings }
  | .exportAll info source exported =>
    let m := m.addDependency source
    if exported.isEmpty then .ok { m with starSources := m.starSources ++ [source] }
    else m.addReexport
      { exported, specifier := source, localName := utf8 "*", position := info.span.start }
  | .exportList _ source specifiers =>
    if source.isEmpty then
      specifiers.foldlM (fun m s => m.addExport
        { exported := s.exported, target := .binding s.localName, position := s.position }) m
    else
      specifiers.foldlM (fun m s => m.addReexport
        { exported := s.exported, specifier := source, localName := s.localName,
          position := s.position }) (m.addDependency source)
  | .exportDeclaration _ declaration =>
    (declaredNames declaration).foldlM (fun m b => m.addExport
      { exported := b.name, target := .binding b.name, position := b.info.span.start }) m
  | .exportDefault info var value =>
    { m with defaultVar := some var }.addExport
      { exported := utf8 "default", target := defaultTarget symbols var value,
        position := info.span.start }
  | _ => .ok m

def declare (symbols : Symbols) (m : Module) : Except DuplicateExport Module :=
  m.program.body.foldlM (declareStatement symbols) m

end Module

end Winnow
