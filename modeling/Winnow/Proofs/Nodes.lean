import Winnow.Analysis.Queries

/-!
# Nodes and their children

The children of a node by the form of the node, and tables of nodes by number. A table `Covers` its
nodes if it holds every node under its own number and with it all of its children: whoever follows a
program from a node in the table never leaves the table.
-/

namespace Winnow

/-! ## The top of an outline -/

namespace Outline

@[simp] theorem node_mk (n : Node) (os : List Outline) : (mk n os).node = n := rfl

@[simp] theorem children_mk (n : Node) (os : List Outline) : (mk n os).children = os := rfl

@[simp] theorem node_ofBinder (b : Binder) : (ofBinder b).node = .binder b := rfl

@[simp] theorem node_ofFunc (f : Func) : (ofFunc f).node = .expr (.function f) := by
  cases f; rfl

@[simp] theorem node_ofClass (c : ClassDef) : (ofClass c).node = .expr (.classDef c) := by
  cases c; rfl

@[simp] theorem node_ofExpr (e : Expr) : (ofExpr e).node = .expr e := by
  cases e with
  | function f => exact node_ofFunc f
  | classDef c => exact node_ofClass c
  | _ => rfl

@[simp] theorem node_ofStmt (s : Stmt) : (ofStmt s).node = Node.ofStmt s := by
  cases s with
  | function f => exact node_ofFunc f
  | classDef c => exact node_ofClass c
  | _ => rfl

@[simp] theorem node_ofBody (b : FuncBody) : (ofBody b).node = Node.ofBody b := by
  cases b with
  | block i ss => rfl
  | result e => exact node_ofExpr e

@[simp] theorem node_ofProperty (p : Property) : (ofProperty p).node = .property p := by
  cases p; rfl

@[simp] theorem node_ofMember (m : ClassMember) : (ofMember m).node = .classMember m := by
  cases m; rfl

@[simp] theorem node_ofDeclarator (d : Declarator) : (ofDeclarator d).node = .declarator d := by
  cases d; rfl

@[simp] theorem map_node_ofBinder (bs : List Binder) :
    (bs.map ofBinder).map node = bs.map .binder := by
  rw [List.map_map]; rfl

theorem ofExprs_eq (es : List Expr) : ofExprs es = es.map ofExpr := by
  induction es with
  | nil => rfl
  | cons e es ih => exact congrArg (ofExpr e :: ·) ih

theorem ofStmts_eq (ss : List Stmt) : ofStmts ss = ss.map ofStmt := by
  induction ss with
  | nil => rfl
  | cons s ss ih => exact congrArg (ofStmt s :: ·) ih

theorem ofProperties_eq (ps : List Property) : ofProperties ps = ps.map ofProperty := by
  induction ps with
  | nil => rfl
  | cons p ps ih => exact congrArg (ofProperty p :: ·) ih

theorem ofMembers_eq (ms : List ClassMember) : ofMembers ms = ms.map ofMember := by
  induction ms with
  | nil => rfl
  | cons m ms ih => exact congrArg (ofMember m :: ·) ih

theorem ofDeclarators_eq (ds : List Declarator) : ofDeclarators ds = ds.map ofDeclarator := by
  induction ds with
  | nil => rfl
  | cons d ds ih => exact congrArg (ofDeclarator d :: ·) ih

theorem ofOptionalExpr_eq (e : Option Expr) : ofOptionalExpr e = e.toList.map ofExpr := by
  cases e <;> rfl

theorem ofOptionalStmt_eq (s : Option Stmt) : ofOptionalStmt s = s.toList.map ofStmt := by
  cases s <;> rfl

/-! Of a list of outlines the nodes at the top. -/

theorem map_node_ofExpr (es : List Expr) : (es.map ofExpr).map node = es.map .expr := by
  simp [Function.comp_def]

theorem map_node_ofStmt (ss : List Stmt) : (ss.map ofStmt).map node = ss.map Node.ofStmt := by
  simp [Function.comp_def]

end Outline

/-! ## Children -/

namespace Node

open Outline

variable (i : Info)

@[simp] theorem children_program (p : Program) : (program p).children = p.body.map ofStmt := by
  show (ofStmts p.body).map node = _
  rw [ofStmts_eq, map_node_ofStmt]

@[simp] theorem children_object (ps : List Property) :
    (expr (.object i ps)).children = ps.map property := by
  show (ofProperties ps).map node = _
  rw [ofProperties_eq, List.map_map]
  exact List.map_congr_left fun p _ => node_ofProperty p

@[simp] theorem children_member (o : Expr) (k : Bytes) :
    (expr (.member i o k)).children = [expr o] := by
  show [(ofExpr o).node] = _
  rw [node_ofExpr]

@[simp] theorem children_index (o k : Expr) :
    (expr (.index i o k)).children = [expr o, expr k] := by
  show [(ofExpr o).node, (ofExpr k).node] = _
  rw [node_ofExpr, node_ofExpr]

@[simp] theorem children_call (w : Bool) (f : Expr) (as : List Expr) :
    (expr (.call i w f as)).children = expr f :: as.map expr := by
  show (ofExpr f).node :: (ofExprs as).map node = _
  rw [node_ofExpr, ofExprs_eq, map_node_ofExpr]

@[simp] theorem children_unary (op : UnaryOp) (a : Expr) :
    (expr (.unary i op a)).children = [expr a] := by
  show [(ofExpr a).node] = _
  rw [node_ofExpr]

@[simp] theorem children_binary (op : BinaryOp) (l r : Expr) :
    (expr (.binary i op l r)).children = [expr l, expr r] := by
  show [(ofExpr l).node, (ofExpr r).node] = _
  rw [node_ofExpr, node_ofExpr]

@[simp] theorem children_logical (op : LogicalOp) (l r : Expr) :
    (expr (.logical i op l r)).children = [expr l, expr r] := by
  show [(ofExpr l).node, (ofExpr r).node] = _
  rw [node_ofExpr, node_ofExpr]

@[simp] theorem children_conditional (t c a : Expr) :
    (expr (.conditional i t c a)).children = [expr t, expr c, expr a] := by
  show [(ofExpr t).node, (ofExpr c).node, (ofExpr a).node] = _
  rw [node_ofExpr, node_ofExpr, node_ofExpr]

@[simp] theorem children_assign (op : AssignOp) (l r : Expr) :
    (expr (.assign i op l r)).children = [expr l, expr r] := by
  show [(ofExpr l).node, (ofExpr r).node] = _
  rw [node_ofExpr, node_ofExpr]

@[simp] theorem children_function (f : Func) :
    (expr (.function f)).children =
      f.name?.toList.map binder ++ f.parameters.map binder ++ [ofBody f.body] := by
  cases f with
  | mk info kind name parameters scope returns body =>
    show (name.toList.map ofBinder ++ parameters.map ofBinder ++ [Outline.ofBody body]).map node = _
    simp only [List.map_append, map_node_ofBinder, List.map_cons, node_ofBody]
    rfl

@[simp] theorem children_classDef (c : ClassDef) :
    (expr (.classDef c)).children =
      c.name?.toList.map binder ++ c.parent?.toList.map expr ++ c.members.map classMember := by
  cases c with
  | mk info isDeclaration name parent members scope =>
    show (name.toList.map ofBinder ++ ofOptionalExpr parent ++ ofMembers members).map node = _
    have hmembers : (members.map ofMember).map node = members.map classMember := by
      simp [Function.comp_def]
    simp only [List.map_append, map_node_ofBinder, ofOptionalExpr_eq, map_node_ofExpr, ofMembers_eq,
      hmembers]
    rfl

@[simp] theorem children_property (p : Property) : (property p).children = [expr p.value] := by
  cases p with
  | mk info key form value => exact congrArg ([·]) (node_ofExpr value)

@[simp] theorem children_classMember (m : ClassMember) :
    (classMember m).children = m.value?.toList.map expr := by
  cases m with
  | mk info kind isStatic key value =>
    show (ofOptionalExpr value).map node = _
    rw [ofOptionalExpr_eq, map_node_ofExpr]
    rfl

@[simp] theorem children_declarator (d : Declarator) :
    (declarator d).children = binder d.name :: d.init?.toList.map expr := by
  cases d with
  | mk info name init =>
    show (ofBinder name).node :: (ofOptionalExpr init).map node = _
    rw [ofOptionalExpr_eq, map_node_ofExpr]
    rfl

@[simp] theorem children_expression (e : Expr) :
    (stmt (.expression i e)).children = [expr e] := by
  show [(ofExpr e).node] = _
  rw [node_ofExpr]

@[simp] theorem children_branch (t : Expr) (c : Stmt) (a : Option Stmt) :
    (stmt (.branch i t c a)).children = expr t :: ofStmt c :: a.toList.map ofStmt := by
  show (ofExpr t).node :: (Outline.ofStmt c).node :: (ofOptionalStmt a).map node = _
  rw [node_ofExpr, node_ofStmt, ofOptionalStmt_eq, map_node_ofStmt]

@[simp] theorem children_ret (a : Option Expr) :
    (stmt (.ret i a)).children = a.toList.map expr := by
  show (ofOptionalExpr a).map node = _
  rw [ofOptionalExpr_eq, map_node_ofExpr]

@[simp] theorem children_raise (a : Expr) : (stmt (.raise i a)).children = [expr a] := by
  show [(ofExpr a).node] = _
  rw [node_ofExpr]

@[simp] theorem children_block (ss : List Stmt) :
    (stmt (.block i ss)).children = ss.map ofStmt := by
  show (ofStmts ss).map node = _
  rw [ofStmts_eq, map_node_ofStmt]

@[simp] theorem children_declaration (k : DeclarationKind) (ds : List Declarator) :
    (stmt (.declaration i k ds)).children = ds.map declarator := by
  show (ofDeclarators ds).map node = _
  rw [ofDeclarators_eq, List.map_map]
  exact List.map_congr_left fun d _ => node_ofDeclarator d

@[simp] theorem children_exportDeclaration (d : Stmt) :
    (stmt (.exportDeclaration i d)).children = [ofStmt d] := by
  show [(Outline.ofStmt d).node] = _
  rw [node_ofStmt]

@[simp] theorem children_exportDefault (v : VarId) (e : Expr) :
    (stmt (.exportDefault i v e)).children = [expr e] := by
  show [(ofExpr e).node] = _
  rw [node_ofExpr]

/-- What decides a branching construct: the expression that is asked, and how its value decides. -/
def test? : Node → Option (Expr × (Value → Option Bool))
  | expr (.conditional _ t _ _) => some (t, Value.truth?)
  | stmt (.branch _ t _ _) => some (t, Value.truth?)
  | expr (.logical _ op l _) => some (l, Query.logicalChoice op)
  | _ => none

end Node

/-! ## Tables of nodes -/

def Held (table : NodeId → Option Node) (n : Node) : Prop := table n.id = some n

/-- A table has every node under its own number, and with it its children. Functions and classes
are in it as the expressions they are, also where they stand as statements. -/
structure Covers (table : NodeId → Option Node) : Prop where
  own : ∀ {id n}, table id = some n → n.id = id
  proper : ∀ {id s}, table id = some (.stmt s) → Node.ofStmt s = .stmt s
  child : ∀ {n m}, Held table n → m ∈ n.children → Held table m

theorem Covers.held {table : NodeId → Option Node} (h : Covers table) {id : NodeId} {n : Node}
    (hn : table id = some n) : Held table n := by
  rw [Held, h.own hn, hn]

theorem Held.unique {table : NodeId → Option Node} {m n : Node} (hm : Held table m)
    (hn : Held table n) (hid : m.id = n.id) : m = n := by
  rw [Held, hid, hn] at hm
  exact (Option.some.inj hm).symm

end Winnow
