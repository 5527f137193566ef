import Winnow.Globals
import Winnow.Graph.Trace

/-!
# Questions about values

The analysis answers questions about the value that an entity has at a path, and can be told that a
value must be taken for unknown (`forget`), that a use may change its receiver (`exposeReceiver`),
or that a fact somebody relied on is lost (`invalidate`). Answers other than "unknown" are bets: who
derives something from one is told when the bet is lost.

The questions lead to each other in circles. A `Queries` record holds one way to answer each of
them, every module of this folder explains one question by means of such a record, and
`Winnow.Analysis.Queries` closes the circle.
-/

namespace Winnow

/-- Why a question got no answer: it led to others deeper than was allowed. -/
inductive Halt where
  | exhausted
  deriving DecidableEq, Repr

/-- A question or command, which reads and changes what is known of the bundle. -/
abbrev Query := StateT Graph (Except Halt)

structure EffectContext where
  /-- The uses looked at so far. A use that was looked at adds no further effect. -/
  accessed : Seen Entity Site := {}
  assigned : Seen Entity Site := {}
  called : Seen Entity Site := {}
  constructed : Seen Entity Site := {}
  /-- Whether a return or throw was met, so that what follows it does not run. -/
  brokenFlow : Bool := false
  /-- Whether a function body is looked at on behalf of a call, which a return merely ends. -/
  ignoreReturn : Bool := false
  /-- What the receivers of the bodies that are being looked at stand for, the innermost first. -/
  receivers : List (VarId × Entity) := []
  deriving Repr

abbrev Effects := StateT EffectContext Query

structure Queries where
  /-- What is known of the value of an entity at a path. Whoever asks is told when the answer is
  lost. -/
  literal : Entity → Path → Option Origin → Query Value
  forget : Entity → Path → Query Unit
  exposeReceiver : Entity → Interaction → Path → Query Unit
  returned : Entity → Path → Interaction → Option Origin → Query Entity
  interact : Entity → Path → Interaction → Effects Bool
  effects : Node → Effects Bool
  invalidate : Origin → Query Unit

def Expr.entity (e : Expr) : Entity := .node e.info.id

def Entity.ofOptional : Option Expr → Entity
  | some e => e.entity
  | none => .undefined

namespace Query

/-! ## Looking things up -/

def read {α : Type} (f : Graph → α) : Query α := return f (← get)

def link {α : Type} (step : StateM Graph α) : Query α := fun g => .ok (step.run g)

def modifyFacts (n : NodeId) (f : Facts → Facts) : Query Unit := modify fun g => g.modifyFacts n f

def requestPass (n : NodeId) : Query Unit :=
  modify fun g => if (g.moduleOf n).isSome then g.requestPass else g

def nameTarget (n : NodeId) : Query Entity := do
  match (← get).resolution n with
  | .bound v => return .var v
  | _ => return .unknown

def receiverTarget (n : NodeId) : Query Entity := do
  match (← get).resolution n with
  | .bound v => return .var v
  | _ => return .undefined

/-- What a property access stands for as a whole, if its object is a namespace; otherwise questions
go through the object. -/
def memberTarget? (n : NodeId) : Query (Option Entity) := do
  match (← get).resolution n with
  | .bound v => return some (.var v)
  | .missing => return some .undefined
  | .nothing => return none

def namespaceMember? (ns : Variable) (key : Key) : Query (Option Entity) := do
  match ns.module with
  | none => return none
  | some m => return (← link (Graph.namespaceMember? m key)).map .var

def indexKey (key : Expr) : Key := key.literalKey?.getD Key.unknown

/-- The receiver of a function: none for arrow functions, which see the one around them. -/
def ownReceiver? (g : Graph) (f : Func) : Option VarId :=
  if f.kind = .arrow then none
  else (g.symbols.lookupIn? f.scope Symbols.receiverName).bind fun v =>
    if ((g.var? v).map Variable.isReceiver).getD false then some v else none

def mentionsReceiver (g : Graph) (f : Func) : Bool :=
  match (ownReceiver? g f).bind g.var? with
  | some { form := .receiver n, .. } => n > 0
  | _ => false

def instanceReceiver? (g : Graph) (c : ClassDef) : Option VarId :=
  ((g.symbols.scope? c.scope).bind Scope.instanceScope).bind fun s =>
    (g.symbols.lookupIn? s Symbols.receiverName).bind fun v =>
      if ((g.var? v).map Variable.isReceiver).getD false then some v else none

/-- The property of an object literal under a key: the last one, if there are several. -/
def property? (properties : List Property) (key : Key) : Option Property :=
  properties.reverse.find? fun p => p.key = key

/-- The property of an object literal under a key, if its value is still the one written there. -/
def knownProperty? (id : NodeId) (properties : List Property) (key : Key) :
    Query (Option Property) := do
  let facts := (← get).facts id
  if !key.isKnown || facts.forgotten || facts.forgottenKeys.contains key then return none
  else return property? properties key

/-- The static member of a class under a key, if it is still the one written there. -/
def staticMember? (c : ClassDef) (key : Key) : Query (Option ClassMember) := do
  let facts := (← get).facts c.info.id
  if !key.isKnown || facts.forgotten then return none
  else return c.members.reverse.find? fun m => m.isStatic && m.key = key

def globalKeys? (name : Bytes) (path : Path) : Option (List Bytes) :=
  if path.all Key.isKnown then some (name :: path) else none

def callInteraction (info : Info) (isNew : Bool) (callee : Expr) (arguments : List Expr) :
    Query Interaction := do
  let receiver ← match callee with
    | .member i object _ | .index i object _ =>
      (fun target => if target.isSome then none else some object.entity) <$> memberTarget? i.id
    | _ => pure none
  return {
    use := .called
    receiver
    arguments := arguments.map Expr.entity
    isNew
    site := some (.call info.id) }

def newUnion (entities : List Entity) : Query Entity := do
  let g ← get
  set { g with unions := g.unions.push entities }
  return .union g.unions.size

def unionMembers (number : Nat) : Query (List Entity) := read fun g => (g.unions[number]?).getD []

/-! ## Questions in flight -/

/-- Answers a question, unless it is in flight: then with the given answer. -/
def tracked {α : Type} (e : Entity) (path : Path) (inFlight : α) (ask : Query α) : Query α := do
  if (← get).tracker.holds e path then return inFlight
  modify fun g => { g with tracker := g.tracker.enter e path }
  let a ← ask
  modify fun g => { g with tracker := g.tracker.leave e path }
  return a

/-- Asks on behalf of a node. The nodes of a bundle share what is in flight; a node outside of any
module starts anew. -/
def onBehalfOf {α : Type} (n : NodeId) (ask : Query α) : Query α := do
  let g ← get
  if (g.moduleOf n).isSome then ask
  else
    set { g with tracker := {} }
    let a ← ask
    modify fun h => { h with tracker := g.tracker }
    return a

/-! ## Dependents -/

def addVarDependent (v : VarId) (origin : Option Origin) : Query Unit :=
  modify fun g => g.modifyVar v fun w => { w with dependents := w.dependents ++ origin.toList }

def addDependent (n : NodeId) (origin : Option Origin) : Query Unit :=
  modifyFacts n fun f => { f with dependents := f.dependents ++ origin.toList }

def insertDependent (key : Key) (origin : Origin) :
    List (Bytes × List Origin) → List (Bytes × List Origin)
  | [] => [(key, [origin])]
  | (k, ds) :: rest =>
    if k = key then (k, ds ++ [origin]) :: rest else (k, ds) :: insertDependent key origin rest

def addKeyDependent (n : NodeId) (key : Key) (origin : Option Origin) : Query Unit :=
  match origin with
  | none => return
  | some o => modifyFacts n fun f =>
    { f with keyDependents := insertDependent key o f.keyDependents }

def notify (q : Queries) (dependents : List Origin) : Query Unit :=
  dependents.eraseDups.forM q.invalidate

/-- Tells the dependents of a variable that a fact is lost. They are no dependents afterwards. -/
def notifyVar (q : Queries) (v : VarId) : Query Unit := do
  let dependents := (((← get).var? v).map Variable.dependents).getD []
  modify fun g => g.modifyVar v fun w => { w with dependents := [] }
  notify q dependents

/-- Tells the dependents of a node that a fact is lost. They are no dependents afterwards. -/
def notifyNode (q : Queries) (n : NodeId) : Query Unit := do
  let dependents := ((← get).facts n).dependents
  modifyFacts n fun f => { f with dependents := [] }
  notify q dependents

/-- Tells the dependents of an object at a key that a fact is lost, and asks for another pass if
there were any. -/
def notifyKey (q : Queries) (n : NodeId) (key : Bytes) : Query Unit := do
  let dependents := (((← get).facts n).keyDependents.lookup key).getD []
  if dependents.isEmpty then return
  modifyFacts n fun f => { f with
    keyDependents := f.keyDependents.map fun e => if e.1 = key then (key, []) else e }
  notify q dependents
  requestPass n

def forgetReceiver (q : Queries) (i : Interaction) : Query Unit :=
  match i.receiver with
  | some e => q.forget e Path.unknown
  | none => return

/-! ## Calls -/

/-- What a call returns. It is asked of the callee once; until that is answered, and whenever the
answer is lost, it is unknown. -/
def returnOf (q : Queries) (info : Info) (isNew : Bool) (callee : Expr) (arguments : List Expr) :
    Query Entity := do
  match ((← get).facts info.id).returned with
  | some e => return e
  | none =>
    modifyFacts info.id fun f => { f with returned := some .unknown }
    let i ← callInteraction info isNew callee arguments
    let e ← q.returned callee.entity [] i (some (.node info.id))
    modifyFacts info.id fun f => { f with returned := some e }
    return e

end Query

end Winnow
