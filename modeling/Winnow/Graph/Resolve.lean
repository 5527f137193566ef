import Winnow.Graph.Trace

/-!
# Resolving names

Decides what every name of a program refers to, once all modules are linked. Children are resolved
before their parents, so that a property access can see whether its object is a namespace.
-/

namespace Winnow.Graph

/-- The variable a name means in a chain of scopes, the nearest first. The scope of a module
consults its imports, and the global scope makes a variable for every name it is asked for, so only
the receiver can mean nothing: outside of functions and classes there is none. -/
def findVariable (name : Bytes) : (scopes : List ScopeId) → StateM Graph (Option VarId)
  | [] => return none
  | s :: outer => do
    let g ← get
    match g.symbols.lookupIn? s name with
    | some v => return some v
    | none =>
      match g.symbols.kind? s with
      | some .module =>
        let imported ← match (g.symbols.scope? s).bind Scope.module with
          | some m => (fun found => found.bind id) <$> traceImport m name
          | none => pure none
        match imported with
        | some v => return some v
        | none => if name = Symbols.receiverName then return none else findVariable name outer
      | some .global =>
        let (v, g) := g.addVariable { name, form := .global }
        set { g with symbols := g.symbols.enter s name v }
        return some v
      | _ => findVariable name outer

/-- Records that an identifier refers to a variable. A namespace object takes the name of the last
identifier that refers to it. -/
def addReference (g : Graph) (v : VarId) (n : NodeId) (name : Bytes) : Graph :=
  g.modifyVar v fun w => {
    w with
    references := w.references ++ [n]
    name := if w.isNamespace then name else w.name }

def resolveIdent (i : Ident) : StateM Graph Unit := do
  match ← findVariable i.name ((← get).symbols.chain i.scope) with
  | none => return
  | some v => modify fun g => (g.setResolution i.info.id (.bound v)).addReference v i.info.id i.name

def receiverWarning : Bytes :=
  utf8 "The 'this' keyword is equivalent to 'undefined' at the top level of an ES module, " ++
    utf8 "and has been rewritten"

def resolveReceiver (info : Info) (scope : ScopeId) : StateM Graph Unit := do
  match ← findVariable Symbols.receiverName ((← get).symbols.chain scope) with
  | none =>
    modify fun g => match g.moduleOf info.id with
      | some m => g.warn m .thisIsUndefined receiverWarning info.span.start
      | none => g
  | some v =>
    modify fun g => (g.setResolution info.id (.bound v)).modifyVar v fun w =>
      match w.form with
      | .receiver n => { w with form := .receiver (n + 1) }
      | _ => w

def namespaceOf? (g : Graph) (e : Expr) : Option ModuleId :=
  match e with
  | .ident _ | .member .. | .index .. =>
    match g.resolution e.info.id with
    | .bound v => (g.var? v).bind fun w => if w.isNamespace then w.module else none
    | _ => none
  | _ => none

def missingMember (key path : Bytes) : Bytes :=
  Text.quoted key ++ utf8 " is not exported by " ++ Text.quoted path

/-- Resolves the access to a property of an object, if the object is a namespace and the key is
known: it then stands for the exported variable itself. -/
def resolveMember (info : Info) (object : Expr) (key : Key) : StateM Graph Unit := do
  match (← get).namespaceOf? object with
  | none => return
  | some m =>
    if !key.isKnown then return
    match ← namespaceMember? m key with
    | some v => modify fun g => g.setResolution info.id (.bound v)
    | none =>
      modify fun g =>
        let g := g.setResolution info.id .missing
        match g.moduleOf info.id with
        | some here => g.warn here .missingExport (missingMember key (g.pathOf m)) info.span.start
        | none => g

def resolveNode : Node → StateM Graph Unit
  | .expr (.ident i) => resolveIdent i
  | .expr (.receiver info scope) => resolveReceiver info scope
  | .expr (.member info object name) => resolveMember info object name
  | .expr (.index info object key) => resolveMember info object (key.literalKey?.getD Key.unknown)
  | _ => return

def resolveProgram (p : Program) : StateM Graph Unit :=
  (Outline.ofProgram p).postorder.forM resolveNode

end Winnow.Graph
