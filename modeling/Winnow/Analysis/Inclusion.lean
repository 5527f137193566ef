import Winnow.Analysis.Queries
import Winnow.Graph.Exports

/-!
# Inclusion

Which nodes and variables go into the output. A variable takes its declarations along with
everything around them; a walk over a program includes the statements that have effects or hold
something included.
-/

namespace Winnow.Inclusion

/-! ## Variables -/

/-- Includes a node and what is around it, up to the first node that is included. -/
def includeUpward : (steps : Nat) → (n : NodeId) → Graph → Graph
  | 0, _, g => g
  | k + 1, n, g =>
    if g.isIncluded n then g
    else
      let g := g.modifyFacts n fun f => { f with included := true }
      match (g.record? n).bind NodeRecord.parent with
      | some parent => includeUpward k parent g
      | none => g

def markVariable (v : VarId) (g : Graph) : Graph :=
  let declarations := ((g.var? v).map Variable.declarations).getD []
  let g := g.modifyVar v fun w => { w with included := true }
  declarations.foldl (fun g d => includeUpward g.nodes.size d g) g

mutual

/-- Includes a variable unless it is included. A namespace object takes every export of its module
along. -/
def variableIn : (steps : Nat) → (v : VarId) → StateM Graph Unit
  | 0, _ => return
  | n + 1, v => do
    let g ← get
    match g.var? v with
    | none => return
    | some w =>
      if w.included then return
      set (markVariable v g)
      match w.form, w.module with
      | .moduleNamespace _, some m => allExportsIn n m
      | _, _ => pure ()
      modify Graph.requestPass

/-- Includes every export of a module, and the namespaces of the outside sources of which it exports
everything. -/
def allExportsIn : (steps : Nat) → (m : ModuleId) → StateM Graph Unit
  | 0, _ => return
  | n + 1, m => do
    let g ← get
    let some mod := g.module? m | return
    if mod.allExportsIncluded then return
    modify fun g => g.modifyModule m fun mod => { mod with allExportsIncluded := true }
    mod.exportNames.forM fun name => do
      match ← Graph.traceExport m name with
      | some v => variableIn n v
      | none => return
    ((← get).starNames m).forM fun name => do
      match Graph.starSource? name with
      | some source => variableIn n (← Graph.externalVariable source (utf8 "*"))
      | none =>
        match ← Graph.traceExport m name with
        | some v => variableIn n v
        | none => return

end

/-- A number of steps that including a variable never needs: every module includes its exports
once. -/
def variableSteps (g : Graph) : Nat := 2 * g.modules.size + 3

/-- Includes a variable unless it is included, and asks for another pass if it was not. -/
def includeVariable (v : VarId) : StateM Graph Unit := do variableIn (variableSteps (← get)) v

def includeAllExports (m : ModuleId) : StateM Graph Unit := do
  allExportsIn (variableSteps (← get)) m

/-! ## Nodes -/

/-- What a walk carries along: whether what follows cannot be reached. -/
structure Context where
  brokenFlow : Bool := false
  deriving DecidableEq, Repr

abbrev Walk := StateT Context Query

/-- How a walk goes on: visits a node, including everything below it when asked to. -/
abbrev Visit := (recursive : Bool) → Node → Walk Unit

def hasEffects (q : Queries) (n : Node) : Query Bool := return (← (q.effects n).run {}).1

/-- Whether a node has to be included: it is already, or it can be reached and has effects. -/
def isNeeded (q : Queries) (n : Node) : Walk Bool := do
  if (← getThe Graph).isIncluded n.id then return true
  if (← get).brokenFlow then return false
  hasEffects q n

def markNode (id : NodeId) : Walk Unit :=
  modifyThe Graph fun g => g.modifyFacts id fun f => { f with included := true }

def namedVariable (n : Node) : Walk Unit := do
  match (← getThe Graph).namedVar? n with
  | some v => Query.link (includeVariable v)
  | none => return

def setBroken (broken : Bool) : Walk Unit := set { brokenFlow := broken : Context }

def visitOptional (visit : Visit) (recursive : Bool) : Option Expr → Walk Unit
  | some e => visit recursive (.expr e)
  | none => return

/-- Visits the object and the key of a property access, unless it stands for a member of a
namespace: then that variable is included instead. -/
def visitMember (visit : Visit) (recursive : Bool) (n : Node) (object : Expr)
    (key : Option Expr) : Walk Unit := do
  match (← getThe Graph).resolution n.id with
  | .bound _ => namedVariable n
  | .missing => return
  | .nothing =>
    visit recursive (.expr object)
    visitOptional visit recursive key

/-- Visits the operands of a logical operator: the one that is the result, or both. -/
def visitLogical (q : Queries) (visit : Visit) (recursive : Bool) (info : Info) (op : LogicalOp)
    (left right : Expr) : Walk Unit := do
  let state ← Query.branchOf q info.id left (Query.logicalChoice op)
  let both ← if recursive then pure true
    else match state with
      | .consequent => pure false
      | .alternate => isNeeded q (.expr left)
      | _ => pure true
  if both then
    visit recursive (.expr left)
    visit recursive (.expr right)
  else visit false (.expr (if state = .consequent then left else right))

def visitThree (visit : Visit) (recursive : Bool) (test consequent alternate : Expr) :
    Walk Unit := do
  visit recursive (.expr test)
  visit recursive (.expr consequent)
  visit recursive (.expr alternate)

/-- Visits the parts of a conditional expression: the branch that is used, or, when that is not
known or the test is needed, all of it. -/
def visitConditional (q : Queries) (visit : Visit) (recursive : Bool) (info : Info)
    (test consequent alternate : Expr) : Walk Unit := do
  match recursive, ← Query.usedBranch q info test consequent alternate with
  | false, some used =>
    if ← isNeeded q (.expr test) then visitThree visit false test consequent alternate
    else visit false (.expr used)
  | r, _ => visitThree visit r test consequent alternate

/-- Visits an assignment. The target is left out when nothing can observe the write. -/
def visitAssign (q : Queries) (visit : Visit) (recursive : Bool) (info : Info) (op : AssignOp)
    (target value : Expr) : Walk Unit := do
  Query.applyAssign q info target value
  let keep ← if recursive || op ≠ .set || (← getThe Graph).isIncluded target.info.id then pure true
    else Prod.fst <$> ((Query.targetEffects q op target).run {} : Query (Bool × EffectContext))
  if keep then visit recursive (.expr target)
  visit recursive (.expr value)

/-- Visits a function: its name, its parameters and its body, which starts a flow of its own. -/
def visitFunction (visit : Visit) (recursive : Bool) (f : Func) : Walk Unit := do
  f.name?.toList.forM fun b => visit recursive (.binder b)
  f.parameters.forM fun b => visit recursive (.binder b)
  let broken := (← get).brokenFlow
  setBroken false
  visit recursive (Node.ofBody f.body)
  setBroken broken

def visitExpr (q : Queries) (visit : Visit) (recursive : Bool) (e : Expr) : Walk Unit := do
  match e with
  | .ident _ | .receiver .. => namedVariable (.expr e)
  | .literal .. => return
  | .object _ ps => ps.forM fun p => visit recursive (.property p)
  | .member _ object _ => visitMember visit recursive (.expr e) object none
  | .index _ object key => visitMember visit recursive (.expr e) object (some key)
  | .call i isNew callee arguments =>
    Query.applyCall q i isNew callee arguments
    visit recursive (.expr callee)
    arguments.forM fun a => visit recursive (.expr a)
  | .unary _ _ argument => visit recursive (.expr argument)
  | .binary _ _ left right =>
    visit recursive (.expr left)
    visit recursive (.expr right)
  | .logical i op left right => visitLogical q visit recursive i op left right
  | .conditional i test consequent alternate =>
    visitConditional q visit recursive i test consequent alternate
  | .assign i op target value => visitAssign q visit recursive i op target value
  | .function f => visitFunction visit recursive f
  | .classDef c =>
    c.name?.toList.forM fun b => visit recursive (.binder b)
    visitOptional visit recursive c.parent?
    c.members.forM fun m => visit recursive (.classMember m)

def visitNeeded (q : Queries) (visit : Visit) (recursive : Bool) (n : Node) : Walk Unit := do
  if recursive then visit recursive n
  else if ← isNeeded q n then visit recursive n

/-- Visits the parts of a branching statement. The test stays when it is needed or the branch is not
known, and of the branches those that are needed. What follows cannot be reached if both branches
are included and break the flow. -/
def visitBranch (q : Queries) (visit : Visit) (recursive : Bool) (info : Info) (test : Expr)
    (consequent : Stmt) (alternate : Option Stmt) : Walk Unit := do
  if recursive then
    visit true (.expr test)
    visit true (Node.ofStmt consequent)
    alternate.toList.forM fun s => visit true (Node.ofStmt s)
  else
    match ← Query.branchOf q info.id test Value.truth? with
    | .consequent =>
      visitNeeded q visit false (.expr test)
      visitNeeded q visit false (Node.ofStmt consequent)
    | .alternate =>
      visitNeeded q visit false (.expr test)
      alternate.toList.forM fun s => visitNeeded q visit false (Node.ofStmt s)
    | _ =>
      visit false (.expr test)
      let broken := (← get).brokenFlow
      visitNeeded q visit false (Node.ofStmt consequent)
      let consequentBroken := (← get).brokenFlow
      setBroken broken
      match alternate with
      | none => return
      | some s =>
        if ← isNeeded q (Node.ofStmt s) then
          visit false (Node.ofStmt s)
          setBroken ((← get).brokenFlow && consequentBroken)

def visitStmt (q : Queries) (visit : Visit) (recursive : Bool) (s : Stmt) : Walk Unit := do
  match s with
  | .expression _ e => visit recursive (.expr e)
  | .branch i test consequent alternate => visitBranch q visit recursive i test consequent alternate
  | .ret _ argument =>
    visitOptional visit recursive argument
    setBroken true
  | .raise _ argument =>
    visit recursive (.expr argument)
    setBroken true
  | .block _ ss => ss.forM fun s => visitNeeded q visit recursive (Node.ofStmt s)
  | .declaration _ _ ds => ds.forM fun d => visitNeeded q visit recursive (.declarator d)
  | .function f => visit recursive (.expr (.function f))
  | .classDef c => visit recursive (.expr (.classDef c))
  | .exportDeclaration _ d => visit recursive (Node.ofStmt d)
  | .exportDefault _ _ e => visit recursive (.expr e)
  | .empty _ | .importFrom .. | .exportList .. | .exportAll .. => return

def visitNode (q : Queries) (visit : Visit) (recursive : Bool) (n : Node) : Walk Unit := do
  markNode n.id
  match n with
  | .program p => p.body.forM fun s => visitNeeded q visit recursive (Node.ofStmt s)
  | .stmt s => visitStmt q visit recursive s
  | .expr e => visitExpr q visit recursive e
  | .binder _ => namedVariable n
  | .property p => visit recursive (.expr p.value)
  | .classMember m => visitOptional visit recursive m.value?
  | .declarator d =>
    visit recursive (.binder d.name)
    visitOptional visit recursive d.init?

def walk (q : Queries) : (depth : Nat) → Visit
  | 0, _, _ => throw .exhausted
  | depth + 1, recursive, n => visitNode q (walk q depth) recursive n

/-- Includes a node and what is needed of it, or everything below it, by questions that nest to a
depth, and answers whether the flow is broken behind it. A program is no deeper than it has nodes. -/
def includeNode (depth : Nat) (recursive : Bool) (n : Node) : Query Bool := do
  let g ← get
  let (_, context) ← (walk (Queries.ofDepth depth) (g.nodes.size + 1) recursive n).run {}
  return context.brokenFlow

end Winnow.Inclusion
