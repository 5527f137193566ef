import Winnow.Analysis.Branch

/-!
# Effects of uses

Whether a use of the value of an entity at a path can be observed. A use that was looked at before
in the same search adds no further effect.
-/

namespace Winnow.Query

/-! ## The context -/

/-- Records a use of an entity in the context, and answers whether it was looked at before. Calls
are told apart by their site. -/
def lookAt (e : Entity) (path : Path) (i : Interaction) : Effects Bool := do
  let c ← get
  match i.use, i.isNew with
  | .accessed, _ =>
    let (before, seen) := c.accessed.ask path e none
    set { c with accessed := seen }
    return before
  | .assigned, _ =>
    let (before, seen) := c.assigned.ask path e none
    set { c with assigned := seen }
    return before
  | .called, false =>
    let (before, seen) := c.called.ask path e i.site
    set { c with called := seen }
    return before
  | .called, true =>
    let (before, seen) := c.constructed.ask path e i.site
    set { c with constructed := seen }
    return before

def withReceiver {α : Type} (receiver : Option VarId) (value : VarId → Entity)
    (search : Effects α) : Effects α := do
  match receiver with
  | none => search
  | some v =>
    modify fun c => { c with receivers := (v, value v) :: c.receivers }
    let a ← search
    modify fun c => { c with receivers := c.receivers.tail }
    return a

/-- Runs a search with the flow of control of a call: nothing is broken yet, and a return merely
ends the call. -/
def withinCall {α : Type} (search : Effects α) : Effects α := do
  let outer ← get
  set { outer with brokenFlow := false, ignoreReturn := true }
  let a ← search
  modify fun c => { c with brokenFlow := outer.brokenFlow, ignoreReturn := outer.ignoreReturn }
  return a

/-- Whether one of several searches finds an effect; they end with the first that does. -/
def anyM {α : Type} (search : α → Effects Bool) : List α → Effects Bool
  | [] => return false
  | a :: as => do if ← search a then return true else anyM search as

/-! ## Values of their own -/

/-- Whether using a primitive can be observed: reading a property is safe unless the value is null
or undefined. -/
def primitiveInteract (value : Value) (path : Path) (i : Interaction) : Bool :=
  i.use ≠ .accessed ∨ (!path.isEmpty ∧ (value.isNullish ∨ path.length > 1))

def resultInteract (path : Path) (i : Interaction) : Bool := i.use ≠ .accessed ∨ path.length > 1

/-- Whether using the object under construction can be observed: its own properties may be read and
written. -/
def freshInteract (options : AnalysisOptions) (path : Path) (i : Interaction) : Bool :=
  match i.use with
  | .accessed => path.length > 1 ∧ options.propertyReadSideEffects
  | .assigned => path.length > 1
  | .called => true

/-! ## Variables -/

def interactVar (q : Queries) (id : VarId) (v : Variable) (path : Path) (i : Interaction) :
    Effects Bool := do
  let options := (← getThe Graph).options
  match v.form with
  | .declared .. =>
    match i.use, v.knownInit? with
    | .accessed, none =>
      return !path.isEmpty && (path.length > 1 || options.propertyReadSideEffects)
    | .assigned, none => return v.included || !path.isEmpty
    | .called, none => return true
    | use, some init =>
      if use = .assigned ∧ v.included then return true
      if use ≠ .called ∧ path.isEmpty then return false
      if ← lookAt (.var id) path i then return false
      q.interact (.node init) path i
  | .receiver _ =>
    match (← get).receivers.lookup id with
    | some e => q.interact e path i
    | none =>
      return i.use ≠ .accessed || (!path.isEmpty && options.propertyReadSideEffects)
  | .global =>
    let keys := globalKeys? v.name path
    match i.use with
    | .accessed =>
      if path.isEmpty then
        return options.unknownGlobalSideEffects && !Globals.isKnown v.name
      else return !(keys.map Globals.isPureAccess).getD false
    | .called =>
      return !(keys.map fun k =>
        Globals.isPureCall k && (!i.isNew || Globals.isPureConstruct k)).getD false
    | .assigned => return true
  | .external .. => return i.use ≠ .accessed || !path.isEmpty
  | .moduleNamespace _ =>
    match path with
    | [] => return true
    | key :: rest =>
      if rest.isEmpty ∧ i.use ≠ .called then return i.use = .assigned
      if !key.isKnown then return true
      match ← namespaceMember? v key with
      | some member => q.interact member rest i
      | none => return true

/-! ## Functions and classes -/

/-- What a function body sees as its receiver in a call: the object under construction, or what the
call is made on. -/
def receiverValue (i : Interaction) (own : VarId) : Entity :=
  if i.isNew then .fresh own else i.receiver.getD .undefined

def bodyEffects (q : Queries) (f : Func) (i : Interaction) : Effects Bool := do
  let own := ownReceiver? (← getThe Graph) f
  withinCall (withReceiver own (receiverValue i) (q.effects (Node.ofBody f.body)))

/-- Whether using a function at a path can be observed. Its own properties may be read and written.
A call of a function that mentions its receiver counts as writing to it. -/
def interactFunction (q : Queries) (f : Func) (path : Path) (i : Interaction) : Effects Bool := do
  if i.use ≠ .called then return path.length > 1
  if !path.isEmpty then return true
  if i.isNew ∧ (f.kind = .arrow ∨ f.kind = .method) then return true
  if mentionsReceiver (← getThe Graph) f ∧ !i.isNew then
    match i.receiver with
    | none => return true
    | some e =>
      if ← q.interact e Path.unknown (.assignment e) then return true
      bodyEffects q f i
  else bodyEffects q f i

def isInstanceField (m : ClassMember) : Bool := !m.isStatic && m.kind == .property

/-- Whether constructing an instance of a class can be observed: the construction of what it
extends, the fields of the instance and the constructor. -/
def constructionEffects (q : Queries) (c : ClassDef) (i : Interaction) : Effects Bool := do
  let byParent ← match c.parent? with
    | some parent => q.interact parent.entity [] i
    | none => pure false
  if byParent then return true
  withReceiver (instanceReceiver? (← getThe Graph) c) .fresh do
    let fields := (c.members.filter isInstanceField).filterMap ClassMember.value?
    if ← anyM (fun e => q.effects (.expr e)) fields then return true
    match (c.members.find? fun m => m.kind == .construction).bind ClassMember.value? with
    | some (.function f) => bodyEffects q f i
    | _ => return false

def interactClass (q : Queries) (c : ClassDef) (path : Path) (i : Interaction) : Effects Bool := do
  match path with
  | [] =>
    if i.use ≠ .called then return false
    if !i.isNew then return true
    constructionEffects q c i
  | key :: rest =>
    if i.use = .assigned then return true
    if i.use = .accessed ∧ rest.isEmpty then return false
    match (← staticMember? c key).bind ClassMember.value? with
    | some value => q.interact value.entity rest i
    | none => return true

/-! ## Expressions -/

def interactObject (q : Queries) (id : NodeId) (properties : List Property) (path : Path)
    (i : Interaction) : Effects Bool := do
  match path with
  | [] => return i.use = .called
  | key :: rest =>
    match ← knownProperty? id properties key with
    | none => return i.use = .called || !rest.isEmpty
    | some p =>
      if rest.isEmpty ∧ i.use ≠ .called then return false
      q.interact p.value.entity rest i

def interactExpr (q : Queries) (e : Expr) (path : Path) (i : Interaction) : Effects Bool := do
  match e with
  | .ident n => q.interact (← nameTarget n.info.id) path i
  | .receiver n _ => q.interact (← receiverTarget n.id) path i
  | .literal _ value _ => return primitiveInteract value path i
  | .object n ps => interactObject q n.id ps path i
  | .member n object name =>
    match ← memberTarget? n.id with
    | some target => q.interact target path i
    | none => q.interact object.entity (name :: path) i
  | .index n object key =>
    match ← memberTarget? n.id with
    | some target => q.interact target path i
    | none => q.interact object.entity (indexKey key :: path) i
  | .call n isNew callee arguments =>
    if ← lookAt (.node n.id) path i then return false
    let result ← onBehalfOf n.id (returnOf q n isNew callee arguments)
    q.interact result path i
  | .unary _ op _ =>
    if op = .void then return primitiveInteract .undefined path i else return resultInteract path i
  | .binary .. => return resultInteract path i
  | .logical n op left right =>
    match ← usedOperand q n op left right with
    | some used => q.interact used.entity path i
    | none =>
      if ← q.interact left.entity path i then return true
      q.interact right.entity path i
  | .conditional n test consequent alternate =>
    match ← usedBranch q n test consequent alternate with
    | some used => q.interact used.entity path i
    | none =>
      if ← q.interact consequent.entity path i then return true
      q.interact alternate.entity path i
  | .assign _ _ _ value => q.interact value.entity path i
  | .function f => interactFunction q f path i
  | .classDef c => interactClass q c path i

def interact (q : Queries) (e : Entity) (path : Path) (i : Interaction) : Effects Bool := do
  match e with
  | .unknown => return true
  | .undefined => return primitiveInteract .undefined path i
  | .fresh _ => return freshInteract (← getThe Graph).options path i
  | .union n => anyM (fun member => q.interact member path i) (← unionMembers n)
  | .var id =>
    match (← getThe Graph).var? id with
    | some v => interactVar q id v path i
    | none => return true
  | .node id =>
    match (← getThe Graph).node? id with
    | some (.expr x) => interactExpr q x path i
    | some (.binder b) => q.interact (.var b.var) path i
    | _ => return true

end Winnow.Query
