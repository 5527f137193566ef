import Winnow.Analysis.Interact

/-!
# Effects of evaluation

Whether evaluating a node can be observed. Calls and assignments are told what they lead to when
they are first looked at.
-/

namespace Winnow.Query

/-- Carries out the consequences of a call, once: the callee may change the receiver, and the
arguments escape. -/
def applyCall (q : Queries) (info : Info) (isNew : Bool) (callee : Expr) (arguments : List Expr) :
    Query Unit := do
  if ((← get).facts info.id).applied then return
  modifyFacts info.id fun f => { f with applied := true }
  let i ← callInteraction info isNew callee arguments
  onBehalfOf info.id (q.exposeReceiver callee.entity i [])
  i.arguments.forM fun a => q.forget a Path.unknown

/-- Carries out the consequences of an assignment, once: the target is reassigned, and the value may
be changed through it. -/
def applyAssign (q : Queries) (info : Info) (target value : Expr) : Query Unit := do
  if ((← get).facts info.id).applied then return
  modifyFacts info.id fun f => { f with applied := true }
  q.forget target.entity []
  q.forget value.entity Path.unknown

def optionalEffects (q : Queries) : Option Expr → Effects Bool
  | some e => q.effects (.expr e)
  | none => return false

/-- Whether reading a name can be observed: only globals may not exist. -/
def nameEffects (q : Queries) (id : NodeId) : Effects Bool := do
  let g ← getThe Graph
  match g.resolution id with
  | .bound v =>
    if ((g.var? v).map Variable.isGlobal).getD false then
      q.interact (.var v) [] .unknownAccess
    else return false
  | _ => return false

def memberEffects (q : Queries) (info : Info) (object : Expr) (index : Option Expr) (key : Key) :
    Effects Bool := do
  if (← memberTarget? info.id).isSome then return false
  if ← q.effects (.expr object) then return true
  if ← optionalEffects q index then return true
  if !(← getThe Graph).options.propertyReadSideEffects then return false
  q.interact object.entity [key] (.access object.entity)

/-- Whether assigning to a property can be observed. With an operator, it is read before. -/
def memberTargetEffects (q : Queries) (info : Info) (object : Expr) (index : Option Expr)
    (key : Key) (op : AssignOp) : Effects Bool := do
  if (← memberTarget? info.id).isSome then return true
  if op ≠ .set then
    if ← memberEffects q info object index key then return true
  if ← q.effects (.expr object) then return true
  if ← optionalEffects q index then return true
  q.interact object.entity [key] (.assignment object.entity)

def isNamespaceVar (g : Graph) (v : VarId) : Bool :=
  ((g.var? v).map Variable.isNamespace).getD false

/-- Whether assigning to a name can be observed. With an operator, it is read before. -/
def nameTargetEffects (q : Queries) (id : NodeId) (op : AssignOp) : Effects Bool := do
  if op ≠ .set then
    if ← nameEffects q id then return true
  match (← getThe Graph).resolution id with
  | .bound v =>
    if isNamespaceVar (← getThe Graph) v then return true
    q.interact (.var v) [] .unknownAssignment
  | _ => q.interact .unknown [] .unknownAssignment

def targetEffects (q : Queries) (op : AssignOp) (target : Expr) : Effects Bool :=
  match target with
  | .ident i => nameTargetEffects q i.info.id op
  | .member i object name => memberTargetEffects q i object none name op
  | .index i object key => memberTargetEffects q i object (some key) (indexKey key) op
  | _ => return true

/-- Whether evaluating a class member when the class is defined can be observed: only static fields
are evaluated then. -/
def classMemberEffects (q : Queries) (m : ClassMember) : Effects Bool :=
  if m.isStatic ∧ m.kind = .property then optionalEffects q m.value? else return false

def exprEffects (q : Queries) (e : Expr) : Effects Bool := do
  match e with
  | .ident i => nameEffects q i.info.id
  | .receiver .. | .literal .. | .function _ => return false
  | .object _ ps => anyM (fun p => q.effects (.property p)) ps
  | .member i object name => memberEffects q i object none name
  | .index i object key => memberEffects q i object (some key) (indexKey key)
  | .call i isNew callee arguments =>
    applyCall q i isNew callee arguments
    if ← anyM (fun a => q.effects (.expr a)) arguments then return true
    if ← q.effects (.expr callee) then return true
    q.interact callee.entity [] (← callInteraction i isNew callee arguments)
  | .unary _ .typeof (.ident _) => return false
  | .unary _ _ argument => q.effects (.expr argument)
  | .binary _ _ left right =>
    if ← q.effects (.expr left) then return true
    q.effects (.expr right)
  | .logical i op left right =>
    if ← q.effects (.expr left) then return true
    if (← branchOf q i.id left (logicalChoice op)) = .consequent then return false
    q.effects (.expr right)
  | .conditional i test consequent alternate =>
    if ← q.effects (.expr test) then return true
    match ← usedBranch q i test consequent alternate with
    | some used => q.effects (.expr used)
    | none =>
      if ← q.effects (.expr consequent) then return true
      q.effects (.expr alternate)
  | .assign i op target value =>
    applyAssign q i target value
    if ← q.effects (.expr value) then return true
    targetEffects q op target
  | .classDef c =>
    if ← optionalEffects q c.parent? then return true
    anyM (fun m => q.effects (.classMember m)) c.members

/-- Whether running statements one after the other can be observed. Those behind a broken flow do
not run. -/
def statementsEffects (q : Queries) : List Stmt → Effects Bool
  | [] => return false
  | s :: ss => do
    if (← get).brokenFlow then return false
    if ← q.effects (Node.ofStmt s) then return true
    statementsEffects q ss

def setBroken (broken : Bool) : Effects Unit := modify fun c => { c with brokenFlow := broken }

/-- Whether running either branch of a statement can be observed. The flow is broken behind it if
both branches break it. -/
def eitherEffects (q : Queries) (consequent : Stmt) (alternate : Option Stmt) : Effects Bool := do
  let broken := (← get).brokenFlow
  if ← q.effects (Node.ofStmt consequent) then return true
  let consequentBroken := (← get).brokenFlow
  setBroken broken
  match alternate with
  | none => return false
  | some s =>
    if ← q.effects (Node.ofStmt s) then return true
    setBroken ((← get).brokenFlow && consequentBroken)
    return false

def stmtEffects (q : Queries) (s : Stmt) : Effects Bool := do
  match s with
  | .expression _ e => q.effects (.expr e)
  | .branch i test consequent alternate =>
    if ← q.effects (.expr test) then return true
    match ← branchOf q i.id test Value.truth? with
    | .consequent => q.effects (Node.ofStmt consequent)
    | .alternate =>
      match alternate with
      | some s => q.effects (Node.ofStmt s)
      | none => return false
    | _ => eitherEffects q consequent alternate
  | .ret _ argument =>
    if !(← get).ignoreReturn then return true
    if ← optionalEffects q argument then return true
    setBroken true
    return false
  | .raise .. => return true
  | .block _ ss => statementsEffects q ss
  | .declaration _ _ ds => anyM (fun d => q.effects (.declarator d)) ds
  | .function f => q.effects (.expr (.function f))
  | .classDef c => q.effects (.expr (.classDef c))
  | .exportDeclaration _ d => q.effects (Node.ofStmt d)
  | .exportDefault _ _ e => q.effects (.expr e)
  | .empty _ | .importFrom .. | .exportList .. | .exportAll .. => return false

def effects (q : Queries) (n : Node) : Effects Bool :=
  match n with
  | .program p => statementsEffects q p.body
  | .stmt s => stmtEffects q s
  | .expr e => exprEffects q e
  | .binder _ => return false
  | .property p => q.effects (.expr p.value)
  | .classMember m => classMemberEffects q m
  | .declarator d => optionalEffects q d.init?

end Winnow.Query
