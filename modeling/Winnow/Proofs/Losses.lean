import Winnow.Proofs.Questions

/-!
# Losing facts

What is lost is lost in single steps: a flag is set, an answer gives way to "unknown", dependents
are let go once they are told, another pass is asked for. A conduct that allows each of these
`Losses` is kept by everything that forgets or tells of a loss (`Losses.stage`). Only a branch is
not lost in a single step: much can happen until a pass is asked for, and a conduct need only allow
it all together. A conduct that minds what variables write down still allows the rest (`Tells`).
-/

namespace Winnow

open Query Conduct Keeps

/-- One fact about a node other than its branch is lost, or those who relied on it are let go. -/
inductive Facts.Loses : Facts → Facts → Prop
  | dependents (f : Facts) : Loses f { f with dependents := [] }
  | keyDependents (f : Facts) (ds : List (Bytes × List Origin)) :
    Loses f { f with keyDependents := ds }
  | returned (f : Facts) : Loses f { f with returned := some .unknown }
  | forgotten (f : Facts) : Loses f { f with forgotten := true }
  | forgottenKey (f : Facts) (key : Key) :
    Loses f { f with forgottenKeys := f.forgottenKeys ++ [key] }

/-- One fact about a variable is lost, those who relied on it are let go, or it is written down that
something was forgotten. -/
inductive Variable.Loses : Variable → Variable → Prop
  | dependents (w : Variable) : Loses w { w with dependents := [] }
  | requested (w : Variable) (r : List Bytes) : Loses w { w with requested := r }
  | passedOn (w : Variable) (paths : List Path) : Loses w { w with passedOn := paths }
  | reassigned (w : Variable) : Loses w { w with reassigned := true }

/-- A conduct allows a variable to lose something. -/
def LosesAt (c : Conduct) (v : VarId) : Prop :=
  ∀ {f : Variable → Variable}, (∀ w : Variable, w.Loses (f w)) →
    c.Keeps (modify fun g => g.modifyVar v f)

/-- A conduct allows every single step of losing something about a node and of telling of a loss. -/
structure Tells (c : Conduct) (table : NodeId → Option Node) : Prop where
  facts : ∀ n {f : Facts → Facts}, (∀ x : Facts, x.Loses (f x)) → c.Keeps (modifyFacts n f)
  dependents : ∀ v, c.Keeps (modify fun g => g.modifyVar v fun w => { w with dependents := [] })
  request : ∀ asked : Graph → Bool,
    c.Keeps (modify fun g => if asked g then g.requestPass else g)
  observer : ∀ n, c.Keeps (modify fun g => { g with observed := g.observed.modify n (· + 1) })
  branch : ∀ {n} {rest : Query Unit}, Held table n → c.Keeps rest →
    c.Keeps (modifyFacts n.id (fun f => { f with branch := .unknown }) >>= fun _ =>
      rest >>= fun _ => requestPass n.id)

section

variable {c : Conduct} {table : NodeId → Option Node} {q : Queries}

namespace Tells

variable (l : Tells c table) (r : Rules c table) (hf : Finds c table q) (hq : Answers c table (fun _ => c.allows) q)

include l hq

/-! ## Telling of a loss -/

omit l in
theorem notify (os : List Origin) : c.Keeps (notify q os) :=
  forM' fun o _ => hq.invalidate o

theorem notifyVar (v : VarId) : c.Keeps (notifyVar q v) := by
  refine get_bind fun g _ => ?_
  exact bind' (l.dependents v) (fun _ => notify hq _) g

theorem notifyNode (n : NodeId) : c.Keeps (notifyNode q n) := by
  refine get_bind fun g _ => ?_
  exact bind' (l.facts n .dependents) (fun _ => notify hq _) g

theorem notifyKey (n : NodeId) (key : Bytes) : c.Keeps (notifyKey q n key) := by
  refine get_unless fun g => ?_
  refine bind' (l.facts n fun _ => .keyDependents _ _) fun _ => ?_
  exact bind' (notify hq _) fun _ => l.request _

/-! ## Forgetting -/

omit l in
theorem forgetInit {id : VarId} (hv : LosesAt c id) (init : NodeId) {path : Path}
    (hpath : c.paths path) : c.Keeps (forgetInit q id init path) := by
  refine get_unless fun g => ?_
  exact bind' (hv fun _ => .passedOn _ _) fun _ => hq.forget _ _ hpath

include r

theorem forgetDeclared {id : VarId} (hv : LosesAt c id) (v : Variable) {path : Path}
    (hpath : c.paths path) : c.Keeps (forgetDeclared q id v path) := by
  refine ite' (fun _ => pure' _) fun _ => ?_
  refine bind' (hv fun _ => .requested _ _) fun _ => ?_
  refine ite' (fun _ => ?_) fun _ => ?_
  · refine ite' (fun _ => pure' _) fun _ => ?_
    refine bind' (hv .reassigned) fun _ => ?_
    refine bind' (l.notifyVar hq id) fun _ => ?_
    have hrequest := l.request fun _ => v.module.isSome
    cases v.init? with
    | none => exact bind' (pure' ()) fun _ => hrequest
    | some init => exact bind' (forgetInit hq hv init r.roads.unknown) fun _ => hrequest
  · cases v.init? with
    | none => exact pure' _
    | some init => exact forgetInit hq hv init hpath

theorem forgetObject (id : NodeId) (ps : List Property) {path : Path} (hpath : c.paths path) :
    c.Keeps (forgetObject q id ps path) := by
  refine get_bind fun g _ => ?_
  cases path with
  | nil => exact pure' _ g
  | cons key rest =>
    refine ite' (fun _ => pure' _) (fun _ => ?_) g
    refine ite' (fun _ => ?_) fun _ => ite' (fun _ => ?_) fun _ => ?_
    · refine bind' (l.facts id .forgotten) fun _ => ?_
      refine bind' (forM' fun key _ => l.notifyKey hq id key) fun _ => ?_
      exact forM' fun p _ => hq.forget _ _ r.roads.unknown
    · refine ite' (fun _ => pure' _) fun _ => ?_
      exact bind' (l.facts id fun _ => .forgottenKey _ _) fun _ => l.notifyKey hq id key
    · cases property? ps key with
      | none => exact pure' _
      | some p => exact hq.forget _ _ (r.roads.tail hpath)

theorem forgetClass (d : ClassDef) (path : Path) : c.Keeps (forgetClass q d path) := by
  refine get_unless fun g => ?_
  refine bind' (l.facts _ .forgotten) fun _ => ?_
  refine bind' (l.notifyNode hq _) fun _ => ?_
  refine bind' (forM' fun m _ => ?_) fun _ => l.request _
  split
  · exact hq.forget _ _ r.roads.unknown
  · exact pure' _

/-! ## Being told -/

theorem loseBranch {n : Node} (hn : Held table n) (state : BranchState) (x y : Expr) :
    c.Keeps (Query.loseBranch q n.id state x y) := by
  unfold Query.loseBranch
  cases BranchState.pick y x state with
  | none => exact pure' _
  | some unused =>
    have hrest := bind' (hq.forget unused.entity _ r.roads.unknown) fun _ =>
      l.notifyNode hq n.id
    simpa only [bind_assoc] using l.branch hn hrest

include hf

theorem invalidateNode {n : Node} (hn : Held table n) : c.Keeps (invalidateNode q n) := by
  cases n with
  | expr e =>
    cases e with
    | conditional i t x y =>
      refine bind' (hf.branchOf (.expr (.conditional i t x y)) _ _ hn rfl) fun _ => ?_
      exact l.loseBranch r hq hn _ _ _
    | logical i op a b =>
      refine bind' (hf.branchOf (.expr (.logical i op a b)) _ _ hn rfl) fun _ => ?_
      exact l.loseBranch r hq hn _ _ _
    | call i isNew callee as =>
      refine get_unless fun g => ?_
      refine bind' (l.facts _ .returned) fun _ => ?_
      exact bind' (l.notifyNode hq _) fun _ => l.request _
    | _ => exact pure' _
  | stmt s =>
    cases s with
    | branch i t x y =>
      refine get_bind fun g _ => ite' (fun _ => ?_) (fun _ => pure' _) g
      exact l.branch hn (pure' ())
    | _ => exact pure' _
  | _ => exact pure' _

theorem invalidate (o : Origin) : c.Keeps (invalidate q o) := by
  cases o with
  | observer n => exact l.observer n
  | node id =>
    refine get_bind fun g hg => ?_
    cases hn : g.node? id with
    | none => exact pure' _ g
    | some n =>
      rw [r.same g hg] at hn
      exact l.invalidateNode r hf hq (r.covers.held hn) g

/-- A conduct that allows single losses is kept wherever something is lost, if it is where a variable
is forgotten. -/
theorem stage (hd : ∀ g id v path, c.paths path → g.var? id = some v → v.isDeclared = true →
    c.From g (Query.forgetDeclared q id v path)) : Stage c table (fun _ => c.allows) q where
  toAnswers := hq
  branchOf := hf.branchOf
  returnOf := hf.returnOf
  forgetDeclared := hd
  forgetObject := fun i ps _ hpath _ => l.forgetObject r hq i.id ps hpath
  forgetClass := fun d path _ _ => l.forgetClass r hq d path
  told := fun o g a g' hg hrun => l.invalidate r hf hq o g a g' hg hrun

end Tells

/-- A conduct allows every single step of losing something and of telling of it. -/
structure Losses (c : Conduct) (table : NodeId → Option Node) : Prop extends Tells c table where
  var : ∀ v, LosesAt c v

theorem Losses.stage (l : Losses c table) (r : Rules c table) (hf : Finds c table q)
    (hq : Answers c table (fun _ => c.allows) q) : Stage c table (fun _ => c.allows) q :=
  l.toTells.stage r hf hq fun g id v _ hpath _ _ => l.forgetDeclared r hq (l.var id) v hpath g

end

end Winnow
