import Winnow.Access.Path
import Winnow.Syntax.Tree

/-!
# Variables and scopes

Variables and scopes are known by their position in the table and are never taken out of it. A class
body has two scopes: in the body itself `this` is the class, and the instance scope below it binds
`this` to the object under construction.
-/

namespace Winnow

abbrev ModuleId := Nat

/-- Who is told when a fact about a value is lost: a node that relied on it, or an observer from
outside. -/
inductive Origin where
  | node (id : NodeId)
  | observer (number : Nat)
  deriving DecidableEq, Repr

inductive VariableKind where
  | varLike | letLike | constLike | function | classLike | parameter
  | defaultExport
  | classReceiver
  deriving DecidableEq, Repr

def VariableKind.text : VariableKind → String
  | varLike => "var"
  | letLike => "let"
  | constLike => "const"
  | function => "function"
  | classLike => "class"
  | parameter => "parameter"
  | defaultExport => "default"
  | classReceiver => "this"

def VariableKind.isRedeclarable : VariableKind → Bool
  | varLike | function | parameter => true
  | _ => false

def DeclarationKind.variableKind : DeclarationKind → VariableKind
  | varLike => .varLike
  | letLike => .letLike
  | constLike => .constLike

inductive VariableForm where
  /-- A binding declared in a module, with the nodes that declare it and its initial value. -/
  | declared (kind : VariableKind) (declarations : List NodeId) (init : Option NodeId)
  /-- The receiver of a function or of a class instance, with how often it is mentioned. -/
  | receiver (mentions : Nat)
  | global
  /-- An export of a module outside the bundle; `*` is the whole module. -/
  | external (source imported : Bytes)
  /-- The object of all exports of a module, and the external namespaces merged into it. -/
  | moduleNamespace (merged : List VarId)
  deriving DecidableEq, Repr, Inhabited

structure Variable where
  name : Bytes
  form : VariableForm
  module : Option ModuleId := none
  outputName : Option Bytes := none
  included : Bool := false
  reassigned : Bool := false
  references : List NodeId := []
  dependents : List Origin := []
  requested : List Bytes := []
  /-- The requests to forget it that were passed on to its initial value, the oldest first. -/
  passedOn : List Path := []
  deriving DecidableEq, Repr, Inhabited

namespace Variable

def renderName (v : Variable) : Bytes := v.outputName.getD v.name

def init? (v : Variable) : Option NodeId :=
  match v.form with
  | .declared _ _ init => init
  | _ => none

def declarations (v : Variable) : List NodeId :=
  match v.form with
  | .declared _ ds _ => ds
  | _ => []

def knownInit? (v : Variable) : Option NodeId := if v.reassigned then none else v.init?

def isDeclared (v : Variable) : Bool :=
  match v.form with
  | .declared .. => true
  | _ => false

def isGlobal (v : Variable) : Bool :=
  match v.form with
  | .global => true
  | _ => false

def isNamespace (v : Variable) : Bool :=
  match v.form with
  | .moduleNamespace _ => true
  | _ => false

def isReceiver (v : Variable) : Bool :=
  match v.form with
  | .receiver _ => true
  | _ => false

/-- A further declaration of the variable. The initial value stays the first one given, except
that whatever follows the declaration of a function replaces it. -/
def redeclare (v : Variable) (declaration : NodeId) (init : Option NodeId) : Variable :=
  match v.form with
  | .declared kind ds old =>
    let new := match init, old with
      | some n, none => some n
      | some n, some o => if kind = .function then some n else some o
      | none, o => o
    { v with form := .declared kind (ds ++ [declaration]) new }
  | _ => v

end Variable

inductive ScopeKind where
  | global | module | function | block | classBody | classInstance
  deriving DecidableEq, Repr, Inhabited

def ScopeKind.text : ScopeKind → String
  | global => "global"
  | module => "module"
  | function => "function"
  | block => "block"
  | classBody => "class body"
  | classInstance => "class instance"

structure Scope where
  kind : ScopeKind
  outer : List ScopeId := []
  inner : List ScopeId := []
  names : List (Bytes × VarId) := []
  instanceScope : Option ScopeId := none
  module : Option ModuleId := none
  deriving DecidableEq, Repr, Inhabited

structure Symbols where
  vars : Array Variable := #[]
  scopes : Array Scope := #[]
  deriving Repr, Inhabited

namespace Symbols

def var? (t : Symbols) (v : VarId) : Option Variable := t.vars[v]?

def scope? (t : Symbols) (s : ScopeId) : Option Scope := t.scopes[s]?

def modifyVariable (t : Symbols) (v : VarId) (f : Variable → Variable) : Symbols :=
  { t with vars := t.vars.modify v f }

def modifyScope (t : Symbols) (s : ScopeId) (f : Scope → Scope) : Symbols :=
  { t with scopes := t.scopes.modify s f }

def addVariable (t : Symbols) (v : Variable) : VarId × Symbols :=
  (t.vars.size, { t with vars := t.vars.push v })

def chain (t : Symbols) (s : ScopeId) : List ScopeId :=
  s :: ((t.scope? s).map Scope.outer).getD []

def kind? (t : Symbols) (s : ScopeId) : Option ScopeKind := (t.scope? s).map Scope.kind

def empty : Symbols := { scopes := #[{ kind := .global }] }

def globalScope : ScopeId := 0

def addScope (t : Symbols) (kind : ScopeKind) (parent : ScopeId) (module : Option ModuleId) :
    ScopeId × Symbols :=
  let s := t.scopes.size
  let t := { t with scopes := t.scopes.push { kind, outer := t.chain parent, module } }
  (s, t.modifyScope parent fun p => { p with inner := p.inner ++ [s] })

def lookupIn? (t : Symbols) (s : ScopeId) (name : Bytes) : Option VarId :=
  (t.scope? s).bind fun scope => scope.names.lookup name

def enter (t : Symbols) (s : ScopeId) (name : Bytes) (v : VarId) : Symbols :=
  t.modifyScope s fun scope => { scope with names := scope.names ++ [(name, v)] }

def receiverName : Bytes := utf8 "this"

def addReceiver (t : Symbols) (s : ScopeId) (module : Option ModuleId) : Symbols :=
  let (v, t) := t.addVariable { name := receiverName, form := .receiver 0, module }
  t.enter s receiverName v

/-- Adds the scope of a function. Arrow functions see the receiver around them, all others bind
their own. -/
def addFunctionScope (t : Symbols) (parent : ScopeId) (isArrow : Bool) (module : Option ModuleId) :
    ScopeId × Symbols :=
  let (s, t) := t.addScope .function parent module
  (s, if isArrow then t else t.addReceiver s module)

def addClassScope (t : Symbols) (parent : ScopeId) (definition : NodeId)
    (module : Option ModuleId) : ScopeId × Symbols :=
  let (s, t) := t.addScope .classBody parent module
  let (v, t) := t.addVariable {
    name := receiverName
    form := .declared .classReceiver [definition] (some definition)
    module }
  let t := t.enter s receiverName v
  let (i, t) := t.addScope .classInstance s module
  let t := t.addReceiver i module
  (s, t.modifyScope s fun scope => { scope with instanceScope := some i })

/-- The scope a `var` declaration in a scope belongs to: the nearest one that is no block. -/
def hoistScope (t : Symbols) (s : ScopeId) : ScopeId :=
  ((t.chain s).find? fun r => t.kind? r != some .block).getD s

/-- Declares a name in a scope: a new variable, or a further declaration of the one it holds.
Answers with the variable, and whether the declaration is one that the kinds allow. -/
def declare (t : Symbols) (s : ScopeId) (name : Bytes) (kind : VariableKind)
    (declaration : NodeId) (init : Option NodeId) (module : Option ModuleId) :
    VarId × Bool × Symbols :=
  match t.lookupIn? s name with
  | some v =>
    let allowed := match (t.var? v).map Variable.form with
      | some (.declared old ..) => old.isRedeclarable && kind.isRedeclarable
      | _ => true
    (v, allowed, t.modifyVariable v fun w => w.redeclare declaration init)
  | none =>
    let (v, t) := t.addVariable { name, form := .declared kind [declaration] init, module }
    (v, true, t.enter s name v)

def contains (t : Symbols) (s : ScopeId) (name : Bytes) : Bool :=
  ((t.chain s).takeWhile fun r => t.kind? r != some .global).any fun r =>
    (t.lookupIn? r name).isSome

end Symbols

end Winnow
