import Winnow.Value

/-!
# Syntax trees

Every construct carries an `Info`: the number it is known by, unique in a bundle, and the range of
source bytes it was read from. A name in the source is a `Binder` where it declares a variable and
an `Ident` where it refers to one; what an `Ident` refers to is decided once all modules are linked.
-/

namespace Winnow

abbrev NodeId := Nat

abbrev VarId := Nat

abbrev ScopeId := Nat

structure Span where
  start : Nat
  stop : Nat
  deriving DecidableEq, Repr, Inhabited

structure Info where
  id : NodeId
  span : Span
  deriving DecidableEq, Repr, Inhabited

structure Ident where
  info : Info
  name : Bytes
  scope : ScopeId
  deriving DecidableEq, Repr, Inhabited

structure Binder where
  info : Info
  name : Bytes
  scope : ScopeId
  var : VarId
  deriving DecidableEq, Repr, Inhabited

inductive UnaryOp where
  | not | minus | plus | typeof | void
  deriving DecidableEq, Repr

def UnaryOp.text : UnaryOp → String
  | not => "!" | minus => "-" | plus => "+" | typeof => "typeof" | void => "void"

inductive LogicalOp where
  | nullish | or | and
  deriving DecidableEq, Repr

def LogicalOp.text : LogicalOp → String
  | nullish => "??" | or => "||" | and => "&&"

inductive AssignOp where
  | set | add | sub
  deriving DecidableEq, Repr

def AssignOp.text : AssignOp → String
  | set => "=" | add => "+=" | sub => "-="

inductive DeclarationKind where
  | varLike | letLike | constLike
  deriving DecidableEq, Repr

def DeclarationKind.text : DeclarationKind → String
  | varLike => "var" | letLike => "let" | constLike => "const"

inductive FunctionKind where
  | declaration | expression | arrow | method
  deriving DecidableEq, Repr

def FunctionKind.text : FunctionKind → String
  | declaration => "declaration"
  | expression => "expression"
  | arrow => "arrow"
  | method => "method"

inductive MemberKind where
  | method | property | construction
  deriving DecidableEq, Repr

def MemberKind.text : MemberKind → String
  | method => "method"
  | property => "property"
  | construction => "constructor"

inductive KeyForm where
  | plain
  | quoted
  | shorthand
  deriving DecidableEq, Repr

/-- One name of an import list: the export `imported` of the source under the name `local`. Default
imports name the export `default`, namespace imports name it `*`. -/
structure ImportSpecifier where
  imported : Bytes
  localName : Bytes
  position : Nat
  deriving DecidableEq, Repr

structure ExportSpecifier where
  localName : Bytes
  exported : Bytes
  position : Nat
  deriving DecidableEq, Repr

mutual

inductive Expr where
  | ident (name : Ident)
  | receiver (info : Info) (scope : ScopeId)
  | literal (info : Info) (value : Value) (raw : Bytes)
  | object (info : Info) (properties : List Property)
  | member (info : Info) (object : Expr) (name : Bytes)
  | index (info : Info) (object key : Expr)
  | call (info : Info) (isNew : Bool) (callee : Expr) (arguments : List Expr)
  | unary (info : Info) (op : UnaryOp) (argument : Expr)
  | binary (info : Info) (op : BinaryOp) (left right : Expr)
  | logical (info : Info) (op : LogicalOp) (left right : Expr)
  | conditional (info : Info) (test consequent alternate : Expr)
  | assign (info : Info) (op : AssignOp) (target value : Expr)
  | function (function : Func)
  | classDef (definition : ClassDef)

inductive Property where
  | mk (info : Info) (key : Bytes) (form : KeyForm) (value : Expr)

/-- A function of any form. `returns` numbers the return statements that belong to it and not to a
nested function, in source order. -/
inductive Func where
  | mk (info : Info) (kind : FunctionKind) (name : Option Binder) (parameters : List Binder)
    (scope : ScopeId) (returns : List NodeId) (body : FuncBody)

inductive FuncBody where
  | block (info : Info) (statements : List Stmt)
  | result (value : Expr)

inductive ClassDef where
  | mk (info : Info) (isDeclaration : Bool) (name : Option Binder) (parent : Option Expr)
    (members : List ClassMember) (scope : ScopeId)

inductive ClassMember where
  | mk (info : Info) (kind : MemberKind) (isStatic : Bool) (key : Bytes) (value : Option Expr)

inductive Stmt where
  | expression (info : Info) (expression : Expr)
  | branch (info : Info) (test : Expr) (consequent : Stmt) (alternate : Option Stmt)
  | ret (info : Info) (argument : Option Expr)
  | raise (info : Info) (argument : Expr)
  | empty (info : Info)
  | block (info : Info) (statements : List Stmt)
  | declaration (info : Info) (kind : DeclarationKind) (declarators : List Declarator)
  | function (function : Func)
  | classDef (definition : ClassDef)
  | importFrom (info : Info) (source : Bytes) (specifiers : List ImportSpecifier)
  | exportDeclaration (info : Info) (declaration : Stmt)
  | exportList (info : Info) (source : Bytes) (specifiers : List ExportSpecifier)
  | exportDefault (info : Info) (var : VarId) (value : Expr)
  | exportAll (info : Info) (source exported : Bytes)

inductive Declarator where
  | mk (info : Info) (name : Binder) (init : Option Expr)

end

deriving instance Inhabited for Expr, Stmt

structure Program where
  info : Info
  source : Bytes
  scope : ScopeId
  body : List Stmt
  deriving Inhabited

namespace Func

def info : Func → Info
  | mk i .. => i

def kind : Func → FunctionKind
  | mk _ k .. => k

def name? : Func → Option Binder
  | mk _ _ n .. => n

def parameters : Func → List Binder
  | mk _ _ _ ps .. => ps

def scope : Func → ScopeId
  | mk _ _ _ _ s .. => s

def returns : Func → List NodeId
  | mk _ _ _ _ _ rs _ => rs

def body : Func → FuncBody
  | mk _ _ _ _ _ _ b => b

end Func

namespace ClassDef

def info : ClassDef → Info
  | mk i .. => i

def isDeclaration : ClassDef → Bool
  | mk _ d .. => d

def name? : ClassDef → Option Binder
  | mk _ _ n .. => n

def parent? : ClassDef → Option Expr
  | mk _ _ _ p .. => p

def members : ClassDef → List ClassMember
  | mk _ _ _ _ ms _ => ms

def scope : ClassDef → ScopeId
  | mk _ _ _ _ _ s => s

end ClassDef

namespace ClassMember

def info : ClassMember → Info
  | mk i .. => i

def kind : ClassMember → MemberKind
  | mk _ k .. => k

def isStatic : ClassMember → Bool
  | mk _ _ s .. => s

def key : ClassMember → Bytes
  | mk _ _ _ k _ => k

def value? : ClassMember → Option Expr
  | mk _ _ _ _ v => v

end ClassMember

namespace Property

def info : Property → Info
  | mk i .. => i

def key : Property → Bytes
  | mk _ k .. => k

def form : Property → KeyForm
  | mk _ _ f _ => f

def value : Property → Expr
  | mk _ _ _ v => v

end Property

namespace Declarator

def info : Declarator → Info
  | mk i .. => i

def name : Declarator → Binder
  | mk _ n _ => n

def init? : Declarator → Option Expr
  | mk _ _ v => v

end Declarator

def Expr.info : Expr → Info
  | ident n => n.info
  | receiver i _ | literal i .. | object i _ | member i .. | index i .. | call i .. | unary i ..
  | binary i .. | logical i .. | conditional i .. | assign i .. => i
  | function f => f.info
  | classDef c => c.info

def Stmt.info : Stmt → Info
  | expression i _ | branch i .. | ret i _ | raise i _ | empty i | block i _ | declaration i ..
  | importFrom i .. | exportDeclaration i _ | exportList i .. | exportDefault i ..
  | exportAll i .. => i
  | function f => f.info
  | classDef c => c.info

/-- The key a member access reads, where the source shows it: a dotted name, or a computed key that
is a string or a number. -/
def Expr.literalKey? : Expr → Option Bytes
  | literal _ (.string s) _ => some s
  | literal _ (.number x) _ => some (Number.format x)
  | _ => none

end Winnow
