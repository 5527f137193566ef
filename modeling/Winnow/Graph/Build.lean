import Winnow.Graph.Resolve
import Winnow.Graph.Specifier
import Winnow.Syntax.Parser.Module

/-!
# Building the graph

Loading parses the entries and, depth first, everything they import. The modules are then put into
execution order, and every name is resolved. A build stops at the first fault.
-/

namespace Winnow

inductive BuildError where
  | noEntry
  | entryNotFound (entry : Bytes)
  | importNotFound (specifier importer : Bytes)
  | malformed (path : Bytes) (line column : Nat) (fault : SyntaxFault)
  | duplicateExport (path name : Bytes)
  | undefinedExport (path name : Bytes)
  /-- An import names an export that does not exist; the text is that of the first error. -/
  | missingExport (headline : Bytes)
  deriving DecidableEq, Repr

namespace BuildError

def kind : BuildError → Bytes
  | noEntry => utf8 "no entry module"
  | entryNotFound _ | importNotFound .. => utf8 "module not found"
  | malformed .. | duplicateExport .. => utf8 "parse error"
  | undefinedExport .. | missingExport _ => utf8 "missing export"

def detail : BuildError → Bytes
  | noEntry => []
  | entryNotFound entry => utf8 ": entry " ++ entry
  | importNotFound specifier importer => utf8 ": " ++ specifier ++ utf8 " imported by " ++ importer
  | malformed path line column fault =>
    utf8 ": " ++ path ++ utf8 ":" ++ Bytes.ofNat line ++ utf8 ":" ++ Bytes.ofNat column ++
      utf8 ": " ++ fault.message
  | duplicateExport path name =>
    utf8 ": " ++ path ++ utf8 ": duplicate export " ++ Text.quoted name
  | undefinedExport path name =>
    utf8 ": " ++ path ++ utf8 ": exported variable " ++ Text.quoted name ++ utf8 " is not defined"
  | missingExport headline => utf8 ": " ++ headline

def message (e : BuildError) : Bytes := e.kind ++ e.detail

end BuildError

abbrev Files := List (Bytes × Bytes)

def Files.isModule (files : Files) (path : Bytes) : Bool := (files.lookup path).isSome

abbrev BuildM := ExceptT BuildError (StateM Graph)

namespace Graph

/-! ## Loading -/

def loadModule (path source : Bytes) : BuildM ModuleId := do
  let g ← get
  let id := g.modules.size
  let g := { g with diagnostics := g.diagnostics.addSource path source }
  match Program.parse source (some id) (Module.defaultName path) g.symbols g.nodes.size with
  | .error e =>
    let fault := e.fault
    set { g with diagnostics :=
      g.diagnostics.error path Code.parseError.text fault.message e.position }
    let (line, column) := (Text.Lines.ofSource source).position e.position
    throw (.malformed path (line + 1) (column + 1) fault)
  | .ok parsed =>
    let g := { g with symbols := parsed.symbols }
    let g := g.addProgram parsed.program parsed.nextNode (some id)
    let g := g.note "parsed module"
      [.mk (utf8 "id") (.text path), .mk (utf8 "statements") (.int parsed.program.body.length)]
    let m : Module := { path, source, program := parsed.program }
    set { g with modules := g.modules.push m }
    match m.declare g.symbols with
    | .ok m => modify fun g => g.modifyModule id fun _ => m
    | .error e =>
      modify fun g => g.reportError id .parseError
        (utf8 "Duplicate export " ++ Text.quoted e.name) e.position
      throw (.duplicateExport path e.name)
    return id

/-- The module a dependency means, found by the given way of loading; none if it lies outside the
bundle. -/
def loadDependency (files : Files) (external : List Bytes) (load : Bytes → BuildM ModuleId)
    (id : ModuleId) (path : Bytes) (d : Dependency) : BuildM Unit := do
  if !Specifier.isRelative d.specifier || external.contains d.specifier then
    modify fun g => g.addExternalSource d.specifier
  else
    match Specifier.resolve? files.isModule path d.specifier with
    | none =>
      modify fun g => g.reportError id .unresolvedImport
        (utf8 "Could not resolve " ++ Text.quoted d.specifier ++ utf8 " from " ++
          Text.quoted path) 0
      throw (.importNotFound d.specifier path)
    | some target =>
      let t ← load target
      modify fun g => g.modifyModule id fun m =>
        { m with dependencies := m.dependencies.map fun e =>
          if e.specifier = d.specifier then { e with target := some t } else e }

/-- Loads a module and, depth first, what it imports, unless it is loaded. Imports nest no deeper
than there are modules. -/
def load (files : Files) (external : List Bytes) : (steps : Nat) → (path : Bytes) →
    BuildM ModuleId
  | 0, path => throw (.entryNotFound path)
  | n + 1, path => do
    match (← get).findModule? path, files.lookup path with
    | some id, _ => return id
    | none, none => throw (.entryNotFound path)
    | none, some source =>
      let id ← loadModule path source
      let dependencies := (((← get).module? id).map Module.dependencies).getD []
      dependencies.forM (loadDependency files external (load files external n) id path)
      return id

def loadEntry (files : Files) (external : List Bytes) (entry : Bytes) : BuildM Unit := do
  match Specifier.resolveEntry? files.isModule entry with
  | none =>
    modify fun g => g.reportBundleError .unresolvedEntry
      (utf8 "Could not resolve entry module " ++ Text.quoted entry)
    throw (.entryNotFound entry)
  | some path =>
    let id ← load files external (files.length + 1) path
    modify fun g =>
      if g.entries.contains id then g
      else { g.modifyModule id fun m => { m with isEntry := true } with
        entries := g.entries ++ [id] }

/-! ## Execution order -/

def dependenciesOf (g : Graph) (m : ModuleId) : List ModuleId :=
  (((g.module? m).map Module.dependencies).getD []).filterMap Dependency.target

structure ModuleOrder where
  order : List ModuleId := []
  cycles : List (List ModuleId) := []
  deriving DecidableEq, Repr

/-- The cycle that leads from a module on the stack back to it. The innermost module comes first on
the stack. -/
def cycleTo (stack : List ModuleId) (target : ModuleId) : List ModuleId :=
  target :: (stack.takeWhile (· ≠ target)).reverse ++ [target]

/-- Puts a module into order after everything it depends on. The stack holds the modules whose
dependencies are being put into order. -/
def orderFrom (g : Graph) : (steps : Nat) → (stack : List ModuleId) → (o : ModuleOrder) →
    (m : ModuleId) → ModuleOrder
  | 0, _, o, _ => o
  | n + 1, stack, o, m =>
    let o := (g.dependenciesOf m).foldl (fun o d =>
      if o.order.contains d then o
      else if (m :: stack).contains d then
        { o with cycles := o.cycles ++ [cycleTo (m :: stack) d] }
      else orderFrom g n (m :: stack) o d) o
    { o with order := o.order ++ [m] }

def executionOrder (g : Graph) : ModuleOrder :=
  g.entries.foldl (fun o m =>
    if o.order.contains m then o else g.orderFrom (g.modules.size + 1) [] o m) {}

def cycleMessage (g : Graph) (cycle : List ModuleId) : Bytes :=
  utf8 "Circular dependency: " ++ Bytes.join (utf8 " -> ") (cycle.map g.pathOf)

def sortModules (g : Graph) : Graph :=
  let o := g.executionOrder
  let g := o.cycles.foldl (fun g cycle =>
    g.warnBundle .circularDependency (g.cycleMessage cycle)) g
  let g := { g with order := o.order }
  o.order.zipIdx.foldl (fun g (m, i) =>
    g.modifyModule m fun mod => { mod with execIndex := some i }) g

/-! ## Checks -/

def undefinedExport? (g : Graph) (m : Module) : Option (Bytes × Nat) :=
  m.exports.findSome? fun e =>
    match e.target with
    | .defaultValue => none
    | .binding name =>
      if (g.symbols.lookupIn? m.program.scope name).isSome || (m.imports.lookup name).isSome
      then none else some (name, e.position)

def checkExports (m : ModuleId) : BuildM Unit := do
  let g ← get
  match (g.module? m).bind g.undefinedExport? with
  | none => return
  | some (name, position) =>
    modify fun g => g.reportError m .missingExport
      (utf8 "Exported variable " ++ Text.quoted name ++ utf8 " is not defined") position
    throw (.undefinedExport (g.pathOf m) name)

def resolveModule (m : ModuleId) : StateM Graph Unit := do
  match (← get).module? m with
  | some mod => resolveProgram mod.program
  | none => return

def build (files : Files) (entries external : List Bytes) : BuildM Unit := do
  if entries.isEmpty then throw .noEntry
  entries.forM (loadEntry files external)
  modify sortModules
  (← get).order.forM checkExports
  (← get).order.forM fun m => (resolveModule m : StateM Graph Unit)
  match (← get).diagnostics.errors with
  | e :: _ => throw (.missingExport e.headline)
  | [] =>
    modify fun g => g.note "graph built"
      [.mk (utf8 "modules") (.int g.order.length),
       .mk (utf8 "externals") (.int g.externalSources.length)]

def ofSource (source : Bytes) : Except SyntaxError (Program × Graph) := do
  let parsed ← Program.parse source none (utf8 "_default") Symbols.empty 0
  let g : Graph := { symbols := parsed.symbols }
  let g := g.addProgram parsed.program parsed.nextNode none
  return (parsed.program, ((resolveProgram parsed.program).run g).2)

end Graph

end Winnow
