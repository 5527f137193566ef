import Winnow.Graph.Basic

/-!
# Short descriptions of nodes and variables
-/

namespace Winnow

def Node.kindText : Node → String
  | .program _ => "Program"
  | .binder _ => "Identifier"
  | .property _ => "Property"
  | .classMember _ => "ClassMember"
  | .declarator _ => "VariableDeclarator"
  | .expr e => match e with
    | .ident _ => "Identifier"
    | .receiver .. => "ThisExpression"
    | .literal .. => "Literal"
    | .object .. => "ObjectExpression"
    | .member .. | .index .. => "MemberExpression"
    | .call .. => "CallExpression"
    | .unary .. => "UnaryExpression"
    | .binary .. => "BinaryExpression"
    | .logical .. => "LogicalExpression"
    | .conditional .. => "ConditionalExpression"
    | .assign .. => "AssignmentExpression"
    | .function _ => "Function"
    | .classDef _ => "Class"
  | .stmt s => match s with
    | .expression .. => "ExpressionStatement"
    | .branch .. => "IfStatement"
    | .ret .. => "ReturnStatement"
    | .raise .. => "ThrowStatement"
    | .empty _ => "EmptyStatement"
    | .block .. => "BlockStatement"
    | .declaration .. => "VariableDeclaration"
    | .function _ => "Function"
    | .classDef _ => "Class"
    | .importFrom .. => "ImportDeclaration"
    | .exportDeclaration .. | .exportList .. => "ExportNamedDeclaration"
    | .exportDefault .. => "ExportDefaultDeclaration"
    | .exportAll .. => "ExportAllDeclaration"

def Node.describe (n : Node) : Bytes :=
  utf8 n.kindText ++ utf8 "@" ++ Bytes.ofNat n.info.span.start ++ utf8 "-" ++
    Bytes.ofNat n.info.span.stop

namespace Graph

def describeNode? (g : Graph) (n : NodeId) : Option Bytes := (g.node? n).map Node.describe

def declarationStart (g : Graph) (v : VarId) : Int :=
  match ((g.var? v).map Variable.declarations).getD [] with
  | d :: _ => g.startOf d
  | [] => -1

def describeVar? (g : Graph) (v : VarId) : Option Bytes :=
  (g.var? v).map fun w =>
    let path := (w.module.map g.pathOf).getD []
    match w.form with
    | .declared kind .. =>
      utf8 kind.text ++ utf8 " " ++ w.name ++ utf8 " " ++ path ++ utf8 "@" ++
        Bytes.ofInt (g.declarationStart v)
    | .receiver _ => utf8 "this"
    | .global => utf8 "global " ++ w.name
    | .external source imported => utf8 "external " ++ source ++ utf8 " " ++ imported
    | .moduleNamespace _ => utf8 "namespace " ++ path

end Graph

end Winnow
