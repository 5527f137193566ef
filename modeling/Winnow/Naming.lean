import Winnow.Graph.Describe
import Winnow.Graph.Exports

/-!
# Names in the output

All modules of a bundle share one scope. Every included top-level variable claims a name: its own if
that is free, and otherwise its own with `$1`, `$2` and so on. Where an outer variable is mentioned
inside a function under a name that the source did not use, every variable between that already has
this name is renamed in turn.
-/

namespace Winnow.Naming

/-! ## Free names -/

def numbered (base : Bytes) (i : Nat) : Bytes := base ++ Bytes.code '$' :: Bytes.ofNat i

def firstFree (taken : List Bytes) (base : Bytes) : (tries i : Nat) → Bytes
  | 0, i => numbered base i
  | n + 1, i =>
    if taken.contains (numbered base i) then firstFree taken base n (i + 1) else numbered base i

/-- The name itself if it is free, otherwise the first free one with a number. There are more
numbers to try than names taken. -/
def unique (taken : List Bytes) (base : Bytes) : Bytes :=
  if taken.contains base then firstFree taken base taken.length 1 else base

def strictWords : List Bytes :=
  ["arguments", "eval", "implements", "interface", "package", "private", "protected", "public",
   "static"].map utf8

def mergeName : Bytes := utf8 "_mergeNamespaces"

/-- Names that no variable may have in the output: words of the language, and names the output uses
on its own account. -/
def reserved : List Bytes :=
  Keyword.all.map (fun k => utf8 k.text) ++ Name.reservedWords ++ strictWords ++
    [utf8 "undefined", mergeName]

/-! ## Claiming names -/

structure Claims where
  graph : Graph
  used : List Bytes := reserved
  renamed : Nat := 0

def Claims.setName (c : Claims) (v : VarId) (name : Bytes) : Claims :=
  { c with graph := c.graph.modifyVar v fun w => { w with outputName := some name } }

def Claims.claim (c : Claims) (v : VarId) : Claims :=
  match c.graph.var? v with
  | none => c
  | some w =>
    let name := unique c.used w.name
    let c := c.setName v name
    { c with
      used := name :: c.used
      renamed := if name = w.name then c.renamed else c.renamed + 1 }

def globalNames (g : Graph) : List Bytes :=
  match g.symbols.scope? Symbols.globalScope with
  | none => []
  | some s => (s.names.filter fun e => ((g.var? e.2).map Variable.isGlobal).getD false).map Prod.fst

/-! ## The top level -/

/-- Whether a variable is a binding that may get another name: the receiver of a class body is
none. -/
def isNameable (w : Variable) : Bool :=
  match w.form with
  | .declared kind .. => kind ≠ .classReceiver
  | _ => false

/-- The variables of a module's own scope by place of declaration, with that of the default export,
and then the namespace object if there is one. -/
def topLevel (g : Graph) (m : ModuleId) : List VarId :=
  match g.module? m with
  | none => []
  | some mod =>
    let names := ((g.symbols.scope? mod.program.scope).map Scope.names).getD []
    let own := (names.map Prod.snd).filter fun v => ((g.var? v).map isNameable).getD false
    let locals := match mod.defaultVar with
      | some v => if own.contains v then own else own ++ [v]
      | none => own
    locals.mergeSort (fun a b => g.declarationStart a ≤ g.declarationStart b) ++
      mod.namespaceVar.toList

/-- Every variable that stands at the top of the output, in the order in which they claim their
names: exports of outside sources, exports of the entries, then module after module. -/
def claimants : StateM Graph (List VarId) := do
  let externals := (← get).externalVariables
  let exports ← (← get).entries.flatMapM Graph.entryExports
  let g ← get
  let all := externals ++ exports.map Prod.snd ++ g.order.flatMap (topLevel g)
  return all.eraseDups.filter g.isVarIncluded

/-! ## Nested scopes -/

/-- A mention of a variable under a name that the source did not use, and the scope it stands in. -/
structure Mention where
  scope : ScopeId
  name : Bytes
  deriving DecidableEq, Repr

def outputName (g : Graph) (v : VarId) : Bytes := ((g.var? v).map Variable.renderName).getD []

def mentionOfName (g : Graph) (scope : ScopeId) (name : Bytes) (v : VarId) : Option Mention :=
  if outputName g v = name then none else some { scope, name := outputName g v }

def mentionOfMember (g : Graph) (id : NodeId) : Expr → Option Mention
  | .ident n => match g.resolution id with
    | .bound v => some { scope := n.scope, name := outputName g v }
    | _ => none
  | _ => none

def mention? (g : Graph) : Node → Option Mention
  | .binder b => mentionOfName g b.scope b.name b.var
  | .expr (.ident n) => match g.resolution n.info.id with
    | .bound v => mentionOfName g n.scope n.name v
    | _ => none
  | .expr (.member i o _) => mentionOfMember g i.id o
  | .expr (.index i o _) => mentionOfMember g i.id o
  | _ => none

def mentions (g : Graph) (p : Program) : List Mention :=
  (Outline.ofProgram p).preorder.filterMap (mention? g)

def forbidden (g : Graph) (all : List Mention) (s : ScopeId) : List Bytes :=
  (all.filter fun m => (g.symbols.chain m.scope).contains s).map Mention.name

def scopesBelow (g : Graph) (s : ScopeId) : List ScopeId :=
  (List.range g.symbols.scopes.size).filter fun t =>
    ((g.symbols.scope? t).map fun scope => scope.outer.contains s).getD false

def boundNames (g : Graph) (s : ScopeId) : List Bytes :=
  (s :: scopesBelow g s).flatMap fun t =>
    ((g.symbols.scope? t).map fun scope => scope.names.map Prod.fst).getD []

/-- Renames one variable of a scope if it has a forbidden name. `avoid` are the names that are taken
besides the top-level ones. -/
def renameIfHidden (names : List Bytes) (v : VarId) (c : Claims) (avoid : List Bytes) :
    Claims × List Bytes :=
  match c.graph.var? v with
  | none => (c, avoid)
  | some w =>
    if isNameable w && names.contains w.renderName then
      let name := unique (c.used ++ avoid) w.name
      ({ c.setName v name with renamed := c.renamed + 1 }, name :: avoid)
    else (c, avoid)

def renameHidden (c : Claims) (s : ScopeId) (names : List Bytes) : Claims :=
  if names.isEmpty then c
  else
    let entries := ((c.graph.symbols.scope? s).map Scope.names).getD []
    let sorted := entries.mergeSort fun a b => Bytes.le a.1 b.1
    (sorted.foldl (fun (c, avoid) e => renameIfHidden names e.2 c avoid)
      (c, boundNames c.graph s ++ names)).1

def renameNested (c : Claims) (m : ModuleId) : Claims :=
  match c.graph.module? m with
  | none => c
  | some mod =>
    let g := c.graph
    let all := mentions g mod.program
    if all.isEmpty then c
    else (scopesBelow g mod.program.scope).foldl
      (fun c s => renameHidden c s (forbidden g all s)) c

/-! ## The whole bundle -/

/-- Gives every included variable its name. Answers with how many have another name than in the
source. -/
def assign : StateM Graph Nat := do
  let all ← claimants
  let g ← get
  let start : Claims := { graph := g, used := globalNames g ++ reserved }
  let top := all.foldl Claims.claim start
  let done := g.order.foldl renameNested top
  set (done.graph.note "deconflicted names" [.mk (utf8 "renamed") (.int done.renamed)])
  return done.renamed

end Winnow.Naming
