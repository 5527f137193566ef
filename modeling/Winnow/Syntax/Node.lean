import Winnow.Syntax.Tree

/-!
# Nodes

Any construct of a program as a value of one type, and the tree of all nodes below one (`Outline`),
which every walk over a whole program reads. A function or class is the same node whether it stands
as a statement or as an expression, and the braced body of a function is a block.
-/

namespace Winnow

inductive Node where
  | program (program : Program)
  | stmt (statement : Stmt)
  | expr (expression : Expr)
  | binder (name : Binder)
  | property (property : Property)
  | classMember (member : ClassMember)
  | declarator (declarator : Declarator)
  deriving Inhabited

namespace Node

def ofStmt : Stmt → Node
  | .function f => expr (.function f)
  | .classDef c => expr (.classDef c)
  | s => stmt s

def ofBody : FuncBody → Node
  | .block i ss => stmt (.block i ss)
  | .result e => expr e

def info : Node → Info
  | program p => p.info
  | stmt s => s.info
  | expr e => e.info
  | binder b => b.info
  | property p => p.info
  | classMember m => m.info
  | declarator d => d.info

def id (n : Node) : NodeId := n.info.id

def start (n : Node) : Nat := n.info.span.start

end Node

inductive Outline where
  | mk (node : Node) (children : List Outline)

namespace Outline

def node : Outline → Node
  | mk n _ => n

def children : Outline → List Outline
  | mk _ cs => cs

def leaf (n : Node) : Outline := mk n []

def ofBinder (b : Binder) : Outline := leaf (.binder b)

mutual

def ofExpr : Expr → Outline
  | .ident n => leaf (.expr (.ident n))
  | .receiver i s => leaf (.expr (.receiver i s))
  | .literal i v r => leaf (.expr (.literal i v r))
  | .object i ps => mk (.expr (.object i ps)) (ofProperties ps)
  | .member i o k => mk (.expr (.member i o k)) [ofExpr o]
  | .index i o k => mk (.expr (.index i o k)) [ofExpr o, ofExpr k]
  | .call i w f as => mk (.expr (.call i w f as)) (ofExpr f :: ofExprs as)
  | .unary i op a => mk (.expr (.unary i op a)) [ofExpr a]
  | .binary i op l r => mk (.expr (.binary i op l r)) [ofExpr l, ofExpr r]
  | .logical i op l r => mk (.expr (.logical i op l r)) [ofExpr l, ofExpr r]
  | .conditional i t c a => mk (.expr (.conditional i t c a)) [ofExpr t, ofExpr c, ofExpr a]
  | .assign i op l r => mk (.expr (.assign i op l r)) [ofExpr l, ofExpr r]
  | .function f => ofFunc f
  | .classDef c => ofClass c

def ofExprs : List Expr → List Outline
  | [] => []
  | e :: es => ofExpr e :: ofExprs es

def ofOptionalExpr : Option Expr → List Outline
  | none => []
  | some e => [ofExpr e]

def ofProperty : Property → Outline
  | .mk i k f v => mk (.property (.mk i k f v)) [ofExpr v]

def ofProperties : List Property → List Outline
  | [] => []
  | p :: ps => ofProperty p :: ofProperties ps

def ofFunc : Func → Outline
  | .mk i k n ps s rs b =>
    mk (.expr (.function (.mk i k n ps s rs b)))
      (n.toList.map ofBinder ++ ps.map ofBinder ++ [ofBody b])

def ofBody : FuncBody → Outline
  | .block i ss => mk (.stmt (.block i ss)) (ofStmts ss)
  | .result e => ofExpr e

def ofClass : ClassDef → Outline
  | .mk i d n p ms s =>
    mk (.expr (.classDef (.mk i d n p ms s)))
      (n.toList.map ofBinder ++ ofOptionalExpr p ++ ofMembers ms)

def ofMember : ClassMember → Outline
  | .mk i k s key v => mk (.classMember (.mk i k s key v)) (ofOptionalExpr v)

def ofMembers : List ClassMember → List Outline
  | [] => []
  | m :: ms => ofMember m :: ofMembers ms

def ofStmt : Stmt → Outline
  | .expression i e => mk (.stmt (.expression i e)) [ofExpr e]
  | .branch i t c a => mk (.stmt (.branch i t c a)) (ofExpr t :: ofStmt c :: ofOptionalStmt a)
  | .ret i a => mk (.stmt (.ret i a)) (ofOptionalExpr a)
  | .raise i a => mk (.stmt (.raise i a)) [ofExpr a]
  | .empty i => leaf (.stmt (.empty i))
  | .block i ss => mk (.stmt (.block i ss)) (ofStmts ss)
  | .declaration i k ds => mk (.stmt (.declaration i k ds)) (ofDeclarators ds)
  | .function f => ofFunc f
  | .classDef c => ofClass c
  | .importFrom i s sp => leaf (.stmt (.importFrom i s sp))
  | .exportDeclaration i d => mk (.stmt (.exportDeclaration i d)) [ofStmt d]
  | .exportList i s sp => leaf (.stmt (.exportList i s sp))
  | .exportDefault i v e => mk (.stmt (.exportDefault i v e)) [ofExpr e]
  | .exportAll i s e => leaf (.stmt (.exportAll i s e))

def ofStmts : List Stmt → List Outline
  | [] => []
  | s :: ss => ofStmt s :: ofStmts ss

def ofOptionalStmt : Option Stmt → List Outline
  | none => []
  | some s => [ofStmt s]

def ofDeclarator : Declarator → Outline
  | .mk i n v => mk (.declarator (.mk i n v)) (ofBinder n :: ofOptionalExpr v)

def ofDeclarators : List Declarator → List Outline
  | [] => []
  | d :: ds => ofDeclarator d :: ofDeclarators ds

end

def ofProgram (p : Program) : Outline := mk (.program p) (ofStmts p.body)

mutual

def preorder : Outline → List Node
  | mk n cs => n :: preorders cs

def preorders : List Outline → List Node
  | [] => []
  | o :: os => preorder o ++ preorders os

end

mutual

def postorder : Outline → List Node
  | mk n cs => postorders cs ++ [n]

def postorders : List Outline → List Node
  | [] => []
  | o :: os => postorder o ++ postorders os

end

mutual

def links (parent : Option NodeId) : Outline → List (Node × Option NodeId)
  | mk n cs => (n, parent) :: linksBelow n.id cs

def linksBelow (parent : NodeId) : List Outline → List (Node × Option NodeId)
  | [] => []
  | o :: os => links (some parent) o ++ linksBelow parent os

end

def descend? : Outline → List Nat → Option Outline
  | o, [] => some o
  | o, i :: is => (o.children[i]?).bind (descend? · is)

end Outline

def Node.outline : Node → Outline
  | .program p => Outline.ofProgram p
  | .stmt s => Outline.ofStmt s
  | .expr e => Outline.ofExpr e
  | .binder b => Outline.ofBinder b
  | .property p => Outline.ofProperty p
  | .classMember m => Outline.ofMember m
  | .declarator d => Outline.ofDeclarator d

def Node.children (n : Node) : List Node := n.outline.children.map Outline.node

end Winnow
