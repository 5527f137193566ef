import Winnow.Analysis.Basic

/-!
# Receivers

Forgets the receiver of a use, unless the use calls a known function that never mentions it.
-/

namespace Winnow.Query

def exposeToVar (q : Queries) (id : VarId) (v : Variable) (i : Interaction) (path : Path) :
    Query Unit := do
  match v.form with
  | .declared .. =>
    match v.knownInit? with
    | none => forgetReceiver q i
    | some init => tracked (.var id) path () (q.exposeReceiver (.node init) i path)
  | .global =>
    match globalKeys? v.name path with
    | some keys => if Globals.isPureCall keys then return else forgetReceiver q i
    | none => forgetReceiver q i
  | .moduleNamespace _ =>
    match path with
    | [] => return
    | key :: rest =>
      if rest.isEmpty ∧ i.use ≠ .called then return
      if !key.isKnown then forgetReceiver q i
      else
        match ← namespaceMember? v key with
        | some member => q.exposeReceiver member i rest
        | none => return
  | .receiver _ | .external .. => forgetReceiver q i

def exposeToExpr (q : Queries) (e : Expr) (i : Interaction) (path : Path) : Query Unit := do
  match e with
  | .ident n => q.exposeReceiver (← nameTarget n.info.id) i path
  | .receiver n _ => q.exposeReceiver (← receiverTarget n.id) i path
  | .object n ps =>
    match path with
    | [key] =>
      if i.use ≠ .called then forgetReceiver q i
      else
        match ← knownProperty? n.id ps key with
        | some p => q.exposeReceiver p.value.entity i []
        | none => forgetReceiver q i
    | _ => forgetReceiver q i
  | .member n object name =>
    match ← memberTarget? n.id with
    | some target => q.exposeReceiver target i path
    | none => q.exposeReceiver object.entity i (name :: path)
  | .index n object key =>
    match ← memberTarget? n.id with
    | some target => q.exposeReceiver target i path
    | none => q.exposeReceiver object.entity i (indexKey key :: path)
  | .call n isNew callee arguments =>
    let result ← returnOf q n isNew callee arguments
    if result = .unknown then forgetReceiver q i
    else tracked result path () (q.exposeReceiver result i path)
  | .logical _ _ left right =>
    q.exposeReceiver left.entity i path
    q.exposeReceiver right.entity i path
  | .conditional _ _ consequent alternate =>
    q.exposeReceiver consequent.entity i path
    q.exposeReceiver alternate.entity i path
  | .function f =>
    if path.isEmpty ∧ i.use = .called ∧ !(← read (mentionsReceiver · f)) then return
    forgetReceiver q i
  | .classDef c =>
    match path with
    | [key] =>
      match (← staticMember? c key).bind ClassMember.value? with
      | some value => q.exposeReceiver value.entity i []
      | none => forgetReceiver q i
    | _ => forgetReceiver q i
  | .literal .. | .unary .. | .binary .. | .assign .. => forgetReceiver q i

def exposeReceiver (q : Queries) (e : Entity) (i : Interaction) (path : Path) : Query Unit := do
  match e with
  | .unknown | .undefined | .fresh _ => forgetReceiver q i
  | .union n => (← unionMembers n).forM fun member => q.exposeReceiver member i path
  | .var id =>
    match (← get).var? id with
    | some v => exposeToVar q id v i path
    | none => return
  | .node id =>
    match (← get).node? id with
    | some (.expr x) => exposeToExpr q x i path
    | some (.binder b) => q.exposeReceiver (.var b.var) i path
    | _ => forgetReceiver q i

end Winnow.Query
