import Winnow.Analysis.Basic

/-!
# Branches

Which branch a conditional construct takes. When the test loses its value, the branch that was
skipped so far may run and loses everything that was assumed about it.
-/

namespace Winnow

def BranchState.pick {α : Type} (consequent alternate : α) : BranchState → Option α
  | .consequent => some consequent
  | .alternate => some alternate
  | _ => none

namespace Query

/-- The operand of a logical operator that is the result, given what is known of the left one: true
for the left, false for the right. -/
def logicalChoice (op : LogicalOp) (left : Value) : Option Bool :=
  match left.truth? with
  | none => none
  | some t =>
    match op with
    | .or => some t
    | .and => some !t
    | .nullish => if left.isUnknown then none else some !left.isNullish

/-- Finds out the branch of a construct from the value of its test, unless it was found out. -/
def branchOf (q : Queries) (id : NodeId) (test : Expr) (choose : Value → Option Bool) :
    Query BranchState := do
  let state := ((← get).facts id).branch
  if state ≠ .unresolved then return state
  modifyFacts id fun f => { f with branch := .unknown }
  let value ← onBehalfOf id (q.literal test.entity [] (some (.node id)))
  match choose value with
  | some true => modifyFacts id fun f => { f with branch := .consequent }
  | some false => modifyFacts id fun f => { f with branch := .alternate }
  | none => return .unknown
  read fun g => (g.facts id).branch

def branchState? (q : Queries) (n : Node) : Query (Option BranchState) :=
  match n with
  | .expr (.conditional i t _ _) => some <$> branchOf q i.id t Value.truth?
  | .stmt (.branch i t _ _) => some <$> branchOf q i.id t Value.truth?
  | .expr (.logical i op l _) => some <$> branchOf q i.id l (logicalChoice op)
  | _ => return none

def usedBranch (q : Queries) (info : Info) (test consequent alternate : Expr) :
    Query (Option Expr) := do
  return BranchState.pick consequent alternate (← branchOf q info.id test Value.truth?)

def usedOperand (q : Queries) (info : Info) (op : LogicalOp) (left right : Expr) :
    Query (Option Expr) := do
  return BranchState.pick left right (← branchOf q info.id left (logicalChoice op))

/-- Loses the branch of an expression, given the two it has: what was skipped so far is forgotten
and the dependents are told. -/
def loseBranch (q : Queries) (id : NodeId) (state : BranchState) (consequent alternate : Expr) :
    Query Unit := do
  match BranchState.pick alternate consequent state with
  | none => return
  | some unused =>
    modifyFacts id fun f => { f with branch := .unknown }
    q.forget unused.entity Path.unknown
    notifyNode q id
    requestPass id

def invalidateNode (q : Queries) (n : Node) : Query Unit := do
  match n with
  | .expr (.conditional i t c a) =>
    loseBranch q i.id (← branchOf q i.id t Value.truth?) c a
  | .expr (.logical i op l r) =>
    loseBranch q i.id (← branchOf q i.id l (logicalChoice op)) l r
  | .stmt (.branch i _ _ _) =>
    let state := ((← get).facts i.id).branch
    if state = .consequent ∨ state = .alternate then
      modifyFacts i.id fun f => { f with branch := .unknown }
      requestPass i.id
  | .expr (.call i _ _ _) =>
    if ((← get).facts i.id).returned = some .unknown then return
    modifyFacts i.id fun f => { f with returned := some .unknown }
    notifyNode q i.id
    requestPass i.id
  | _ => return

def invalidate (q : Queries) (origin : Origin) : Query Unit := do
  match origin with
  | .observer n => modify fun g => { g with observed := g.observed.modify n (· + 1) }
  | .node id =>
    match (← get).node? id with
    | some n => invalidateNode q n
    | none => return

end Query

end Winnow
