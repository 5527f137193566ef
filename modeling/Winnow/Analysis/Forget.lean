import Winnow.Analysis.Branch

/-!
# Forgetting

Takes the value of an entity at a path for unknown from now on, and tells everyone who relied on it.
-/

namespace Winnow.Query

/-- Passes a request on to the initial value of a variable, unless an open path that was passed on
covers it. -/
def forgetInit (q : Queries) (id : VarId) (init : NodeId) (path : Path) : Query Unit := do
  let passedOn := (((← get).var? id).map Variable.passedOn).getD []
  if passedOn.any fun p => p.isOpen && p.covers path then return
  modify fun g => g.modifyVar id fun v => { v with passedOn := v.passedOn ++ [path] }
  q.forget (.node init) path

/-- Forgets a declared variable at a path. A reassignment is final: everyone who derived something
from the initial value is told once. -/
def forgetDeclared (q : Queries) (id : VarId) (v : Variable) (path : Path) : Query Unit := do
  if v.requested.contains path.fingerprint then return
  modify fun g => g.modifyVar id fun v => { v with requested := path.fingerprint :: v.requested }
  if path.isEmpty then
    if v.reassigned then return
    modify fun g => g.modifyVar id fun v => { v with reassigned := true }
    notifyVar q id
    match v.init? with
    | some init => forgetInit q id init Path.unknown
    | none => pure ()
    modify fun g => if v.module.isSome then g.requestPass else g
  else
    match v.init? with
    | some init => forgetInit q id init path
    | none => return

def forgetVar (q : Queries) (id : VarId) (v : Variable) (path : Path) : Query Unit := do
  match v.form with
  | .declared .. => forgetDeclared q id v path
  | .moduleNamespace _ =>
    match path with
    | key :: k :: rest =>
      if !key.isKnown then return
      match ← namespaceMember? v key with
      | some member => q.forget member (k :: rest)
      | none => return
    | _ => return
  | .receiver _ | .global | .external .. => return

/-- Forgets an object literal at a path: the value at one key, something below it, or, when the key
is not known, all of it. -/
def forgetObject (q : Queries) (id : NodeId) (properties : List Property) (path : Path) :
    Query Unit := do
  let g ← get
  let facts := g.facts id
  match path with
  | [] => return
  | key :: rest =>
    if facts.forgotten then return
    if !key.isKnown then
      modifyFacts id fun f => { f with forgotten := true }
      (g.options.keyOrder.arrange id (facts.keyDependents.map Prod.fst)).forM (notifyKey q id)
      properties.forM fun p => q.forget p.value.entity Path.unknown
    else if rest.isEmpty then
      if facts.forgottenKeys.contains key then return
      modifyFacts id fun f => { f with forgottenKeys := f.forgottenKeys ++ [key] }
      notifyKey q id key
    else
      match property? properties key with
      | some p => q.forget p.value.entity rest
      | none => return

/-- Forgets the static members of a class, once any of its properties may have changed. -/
def forgetClass (q : Queries) (c : ClassDef) (path : Path) : Query Unit := do
  let id := c.info.id
  if path.isEmpty || ((← get).facts id).forgotten then return
  modifyFacts id fun f => { f with forgotten := true }
  notifyNode q id
  c.members.forM fun m =>
    match m.isStatic, m.value? with
    | true, some value => q.forget value.entity Path.unknown
    | _, _ => return
  requestPass id

def forgetExpr (q : Queries) (e : Expr) (path : Path) : Query Unit := do
  match e with
  | .ident i => q.forget (← nameTarget i.info.id) path
  | .receiver i _ => q.forget (← receiverTarget i.id) path
  | .object i ps => forgetObject q i.id ps path
  | .member i object name =>
    match ← memberTarget? i.id with
    | some target => q.forget target path
    | none => q.forget object.entity (name :: path)
  | .index i object key =>
    match ← memberTarget? i.id with
    | some target => q.forget target path
    | none => q.forget object.entity (indexKey key :: path)
  | .call i isNew callee arguments =>
    if path.isEmpty then return
    onBehalfOf i.id do
      let result ← returnOf q i isNew callee arguments
      if result = .unknown then return
      tracked result path () (q.forget result path)
  | .logical i op left right =>
    match ← usedOperand q i op left right with
    | some used => q.forget used.entity path
    | none =>
      q.forget left.entity path
      q.forget right.entity path
  | .conditional i test consequent alternate =>
    match ← usedBranch q i test consequent alternate with
    | some used => q.forget used.entity path
    | none =>
      q.forget consequent.entity path
      q.forget alternate.entity path
  | .classDef c => forgetClass q c path
  | .literal .. | .unary .. | .binary .. | .assign .. | .function _ => return

def forget (q : Queries) (e : Entity) (path : Path) : Query Unit := do
  match e with
  | .unknown | .undefined | .fresh _ => return
  | .union n => (← unionMembers n).forM fun member => q.forget member path
  | .var id =>
    match (← get).var? id with
    | some v => forgetVar q id v path
    | none => return
  | .node id =>
    match (← get).node? id with
    | some (.expr x) => forgetExpr q x path
    | some (.binder b) => q.forget (.var b.var) path
    | _ => return

end Winnow.Query
