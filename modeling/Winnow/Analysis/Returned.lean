import Winnow.Analysis.Branch

/-!
# What calls return

The entity that calling the value of an entity at a path gives.
-/

namespace Winnow.Query

def endsWithReturn (statements : List Stmt) : Bool :=
  match statements.getLast? with
  | some (.ret ..) => true
  | _ => false

def returnArgument (g : Graph) (n : NodeId) : Entity :=
  match g.node? n with
  | some (.stmt (.ret _ argument)) => Entity.ofOptional argument
  | _ => .undefined

/-- What a plain call of a function gives: what its return statements give, and nothing where its
end can be reached. -/
def returnedByFunction (f : Func) : Query Entity := do
  match f.body with
  | .result e => return e.entity
  | .block _ statements =>
    let g ← get
    let results := f.returns.map (returnArgument g) ++
      if endsWithReturn statements then [] else [.undefined]
    match results with
    | [e] => return e
    | es => newUnion es

def returnedByVar (q : Queries) (id : VarId) (v : Variable) (path : Path) (i : Interaction)
    (origin : Option Origin) : Query Entity := do
  match v.form with
  | .declared .. =>
    match v.knownInit? with
    | none => return .unknown
    | some init => tracked (.var id) path .unknown do
      addVarDependent id origin
      q.returned (.node init) path i origin
  | .moduleNamespace _ =>
    match path with
    | [] => return .unknown
    | key :: rest =>
      if !key.isKnown then return .unknown
      match ← namespaceMember? v key with
      | some member => q.returned member rest i origin
      | none => return .unknown
  | .receiver _ | .global | .external .. => return .unknown

def returnedByExpr (q : Queries) (e : Expr) (path : Path) (i : Interaction)
    (origin : Option Origin) : Query Entity := do
  match e with
  | .ident n => q.returned (← nameTarget n.info.id) path i origin
  | .receiver n _ => q.returned (← receiverTarget n.id) path i origin
  | .object n ps =>
    match path with
    | [] => return .unknown
    | key :: rest =>
      match ← knownProperty? n.id ps key with
      | none => return .unknown
      | some p =>
        addKeyDependent n.id key origin
        q.returned p.value.entity rest i origin
  | .member n object name =>
    match ← memberTarget? n.id with
    | some target => q.returned target path i origin
    | none => q.returned object.entity (name :: path) i origin
  | .index n object key =>
    match ← memberTarget? n.id with
    | some target => q.returned target path i origin
    | none => q.returned object.entity (indexKey key :: path) i origin
  | .call n isNew callee arguments =>
    let result ← returnOf q n isNew callee arguments
    if result = .unknown then return .unknown
    tracked result path .unknown do
      addDependent n.id origin
      q.returned result path i origin
  | .logical n op left right =>
    match ← usedOperand q n op left right with
    | some used =>
      addDependent n.id origin
      q.returned used.entity path i origin
    | none =>
      let a ← q.returned left.entity path i origin
      let b ← q.returned right.entity path i origin
      newUnion [a, b]
  | .conditional n test consequent alternate =>
    match ← usedBranch q n test consequent alternate with
    | some used =>
      addDependent n.id origin
      q.returned used.entity path i origin
    | none =>
      let a ← q.returned consequent.entity path i origin
      let b ← q.returned alternate.entity path i origin
      newUnion [a, b]
  | .function f => if path.isEmpty ∧ !i.isNew then returnedByFunction f else return .unknown
  | .classDef c =>
    match path with
    | [key] =>
      match ← staticMember? c key with
      | some (.mk _ .method _ _ (some value)) =>
        addDependent c.info.id origin
        q.returned value.entity [] i origin
      | _ => return .unknown
    | _ => return .unknown
  | .literal .. | .unary .. | .binary .. | .assign .. => return .unknown

def returned (q : Queries) (e : Entity) (path : Path) (i : Interaction) (origin : Option Origin) :
    Query Entity := do
  match e with
  | .unknown | .undefined | .fresh _ => return .unknown
  | .union n => newUnion (← (← unionMembers n).mapM fun member => q.returned member path i origin)
  | .var id =>
    match (← get).var? id with
    | some v => returnedByVar q id v path i origin
    | none => return .unknown
  | .node id =>
    match (← get).node? id with
    | some (.expr x) => returnedByExpr q x path i origin
    | some (.binder b) => q.returned (.var b.var) path i origin
    | _ => return .unknown

end Winnow.Query
