import Winnow.Graph.Basic
import Winnow.Output.Quote

/-!
# Layout of programs

The included part of a program as pieces of output. A conditional construct whose test is left out
is laid out as the branch that is kept, and an assignment whose target is left out as its value
alone. An operator that binds more loosely than its place demands is put in parentheses.
-/

namespace Winnow

namespace Level

/-! ## How tightly operators bind -/

def lowest : Nat := 0
def assign : Nat := 1
def conditional : Nat := 2
def nullish : Nat := 3
def unary : Nat := 10
def call : Nat := 11

def ofLogical : LogicalOp → Nat
  | .nullish => nullish
  | .or => 4
  | .and => 5

def ofBinary : BinaryOp → Nat
  | .strictEq | .strictNe | .looseEq | .looseNe => 6
  | .lt | .gt | .le | .ge => 7
  | .add | .sub => 8
  | .mul | .div | .rem => 9

end Level

namespace Layout

open Piece

/-! ## What is left of a construct -/

def keeps (g : Graph) (s : Stmt) : Bool := g.isIncluded s.info.id

def keepsExpr (g : Graph) (e : Expr) : Bool := g.isIncluded e.info.id

/-- Whether a property access is laid out as one: it stands neither for a variable nor for a member
that does not exist. -/
def isAccess (g : Graph) (info : Info) : Bool := g.resolution info.id = .nothing

/-- The branch that is laid out in place of a conditional or logical expression of which one branch
is left. -/
def keptBranch (g : Graph) : Expr → Option Expr
  | .conditional _ t c a =>
    if keepsExpr g t then none
    else if keepsExpr g c then some ((keptBranch g c).getD c)
    else some ((keptBranch g a).getD a)
  | .logical _ _ l r =>
    match keepsExpr g l, keepsExpr g r with
    | true, false => some ((keptBranch g l).getD l)
    | false, true => some ((keptBranch g r).getD r)
    | _, _ => none
  | _ => none

/-- Whether all that is left of a callee is a property access that was not the callee before: called
as it is, it would pass its object as the receiver. -/
def detachesReceiver (g : Graph) (callee : Expr) : Bool :=
  match keptBranch g callee with
  | some (.member i ..) | some (.index i ..) => isAccess g i
  | _ => false

def containsCall (g : Graph) : Expr → Bool
  | .call .. => true
  | .member i o _ | .index i o _ => isAccess g i && containsCall g o
  | _ => false

/-- The level at which an operand of a logical operator is laid out. The operator `??` does not mix
with the other two without parentheses. -/
def operandLevel (g : Graph) (op : LogicalOp) (level : Nat) : Expr → Nat
  | .logical _ inner l r =>
    if keepsExpr g l && keepsExpr g r && (op == .nullish) != (inner == .nullish) then Level.unary
    else level
  | _ => level

def isNumber : Expr → Bool
  | .literal _ (.number _) _ => true
  | _ => false

def isMethod : Expr → Bool
  | .function f => f.kind == .method
  | _ => false

def isDeclaration : Expr → Bool
  | .function f => f.kind == .declaration
  | .classDef c => c.isDeclaration
  | _ => false

def isObject : Expr → Bool
  | .object .. => true
  | _ => false

def isBlock : Stmt → Bool
  | .block .. => true
  | _ => false

def repeats (op : UnaryOp) : Expr → Bool
  | .unary _ inner _ => inner == op
  | _ => false

/-! ## Names -/

def nameOf (g : Graph) (v : VarId) : Bytes := ((g.var? v).map Variable.renderName).getD []

def plainName (g : Graph) (v : VarId) : Piece := .name v (nameOf g v)

def identName (g : Graph) (n : Ident) : Bytes :=
  match g.resolution n.info.id with
  | .bound v => nameOf g v
  | _ => n.name

def plainIdent (g : Graph) (n : Ident) : Piece :=
  match g.resolution n.info.id with
  | .bound v => plainName g v
  | _ => .text n.name

def identWord (g : Graph) (n : Ident) : Piece :=
  match g.resolution n.info.id with
  | .bound v => .nameWord v (nameOf g v)
  | _ => .word n.name

/-- The piece that stands for both the key and the value of a property, if the value still has the
name it had in the source. -/
def shorthand? (g : Graph) (key : Bytes) (form : KeyForm) : Expr → Option Piece
  | .ident n => if form = .shorthand && identName g n == key then some (plainIdent g n) else none
  | _ => none

def declaredName (g : Graph) (given : Option VarId) (own : Option Binder) : List Piece :=
  match given.or (own.map Binder.var) with
  | some v => [str " ", plainName g v]
  | none => []

def parameters (g : Graph) (ps : List Binder) : List Piece :=
  str "(" :: (commas (ps.map fun p => [plainName g p.var]) ++ [str ")"])

/-! ## Small layouts -/

def literal (value : Value) (raw : Bytes) : Piece :=
  if !raw.isEmpty then .word raw
  else match value with
    | .string s => .text (Quote.string s)
    | v => .word v.format

def unaryOperator (op : UnaryOp) (argument : Expr) : List Piece :=
  let again := if repeats op argument then [str " "] else []
  match op with
  | .typeof | .void => [key op.text, str " "]
  | .not => [str op.text]
  | .plus => .sign (Bytes.code '+') :: again
  | .minus => .sign (Bytes.code '-') :: again

def infixed (op : String) (left right : List Piece) : List Piece :=
  left ++ [space, str op, space] ++ right

def startsAmbiguously (text : Bytes) : Bool :=
  ["\x7b", "let [", "let["].any (fun w => text.startsWith (utf8 w)) ||
    ["function", "class"].any fun w =>
      match Bytes.stripPrefix? (utf8 w) text with
      | some rest => !rest.head?.any isWordByte
      | none => false

def expressionStatement (pieces : List Piece) : List Piece :=
  wrap (startsAmbiguously (write .compact pieces)) pieces ++ [str ";"]

def braces (depth : Nat) (lines : List Piece) (isEmpty : Bool) : List Piece :=
  if isEmpty then [str "\x7b\x7d"]
  else [str "\x7b", newline] ++ lines ++ [indent depth, str "\x7d"]

def line (depth : Nat) (pieces : List Piece) : List Piece :=
  if pieces.isEmpty then [] else indent depth :: (pieces ++ [newline])

def initialValue (pieces : List Piece) : List Piece := [space, str "=", space] ++ pieces

/-! ## Expressions and statements -/

mutual

/-- An expression at a level. `settled` is set for the callee of which only a property access is
left: then of two branches that are both kept the first one counts. -/
def expr (g : Graph) (depth level : Nat) (settled : Bool) : Expr → List Piece
  | .ident n => [identWord g n]
  | .receiver i _ =>
    [key (if g.resolution i.id = .nothing then "undefined" else "this")]
  | .literal _ v raw => [literal v raw]
  | .object _ ps =>
    if ps.isEmpty then [str "\x7b\x7d"]
    else [str "\x7b", space] ++ commas (properties g depth ps) ++ [space, str "\x7d"]
  | .member i o k =>
    match g.resolution i.id with
    | .bound v => [.nameWord v (nameOf g v)]
    | .missing => [key "undefined"]
    | .nothing => wrap (isNumber o) (expr g depth Level.call false o) ++ [str ".", .text k]
  | .index i o k =>
    match g.resolution i.id with
    | .bound v => [.nameWord v (nameOf g v)]
    | .missing => [key "undefined"]
    | .nothing => wrap (isNumber o) (expr g depth Level.call false o) ++
        [str "["] ++ expr g depth Level.lowest false k ++ [str "]"]
  | .call _ isNew callee as =>
    (if isNew then [key "new", str " "] ++
        wrap (containsCall g callee) (expr g depth Level.call false callee)
      else if detachesReceiver g callee then
        [str "(0,", space] ++ expr g depth Level.assign true callee ++ [str ")"]
      else expr g depth Level.call false callee) ++
    [str "("] ++ commas (arguments g depth as) ++ [str ")"]
  | .unary _ op a =>
    wrap (Level.unary < level) (unaryOperator op a ++ expr g depth Level.unary false a)
  | .binary _ op l r =>
    let own := Level.ofBinary op
    wrap (own < level)
      (infixed op.text (expr g depth own false l) (expr g depth (own + 1) false r))
  | .logical _ op l r =>
    match keepsExpr g l, keepsExpr g r with
    | true, false => expr g depth level settled l
    | false, true => expr g depth level settled r
    | _, _ =>
      let own := Level.ofLogical op
      wrap (own < level) (infixed op.text
        (expr g depth (operandLevel g op own l) false l)
        (expr g depth (operandLevel g op (own + 1) r) false r))
  | .conditional _ t c a =>
    if keepsExpr g t then
      wrap (Level.conditional < level)
        (expr g depth Level.nullish false t ++ [space, str "?", space] ++
          expr g depth Level.assign false c ++ [space, str ":", space] ++
          expr g depth Level.assign false a)
    else
      match keepsExpr g c, keepsExpr g a with
      | true, false => expr g depth level settled c
      | false, true => expr g depth level settled a
      | true, true => if settled then expr g depth level settled c else [.unprintable]
      | false, false => if settled then expr g depth level settled a else [.unprintable]
  | .assign _ op l r =>
    if keepsExpr g l then
      wrap (Level.assign < level)
        (infixed op.text (expr g depth Level.call false l) (expr g depth Level.assign false r))
    else expr g depth level false r
  | .function f =>
    match f.kind with
    | .arrow => wrap (Level.assign < level) (arrow g depth f)
    | .method => method g depth f
    | _ => function g depth none f
  | .classDef c => classDef g depth none c

def arguments (g : Graph) (depth : Nat) : List Expr → List (List Piece)
  | [] => []
  | e :: es => expr g depth Level.assign false e :: arguments g depth es

def property (g : Graph) (depth : Nat) : Property → List Piece
  | .mk _ k form v =>
    match shorthand? g k form v with
    | some piece => [piece]
    | none =>
      Quote.propertyName k (form == .quoted) ::
        ((if isMethod v then [] else [str ":", space]) ++ expr g depth Level.assign false v)

def properties (g : Graph) (depth : Nat) : List Property → List (List Piece)
  | [] => []
  | p :: ps => property g depth p :: properties g depth ps

def function (g : Graph) (depth : Nat) (given : Option VarId) : Func → List Piece
  | .mk _ _ own ps _ _ b =>
    key "function" :: (declaredName g given own ++ parameters g ps ++ [space] ++ body g depth b)

def arrow (g : Graph) (depth : Nat) : Func → List Piece
  | .mk _ _ _ ps _ _ b => parameters g ps ++ [space, str "=>", space] ++ body g depth b

def method (g : Graph) (depth : Nat) : Func → List Piece
  | .mk _ _ _ ps _ _ b => parameters g ps ++ [space] ++ body g depth b

def body (g : Graph) (depth : Nat) : FuncBody → List Piece
  | .block _ ss => braces depth (statements g (depth + 1) ss) (!ss.any (keeps g))
  | .result e => wrap (isObject e) (expr g depth Level.assign false e)

def classDef (g : Graph) (depth : Nat) (given : Option VarId) : ClassDef → List Piece
  | .mk _ _ own p ms _ =>
    key "class" :: (declaredName g given own ++ parent g depth p ++ [space] ++
      braces depth (members g (depth + 1) ms) (!ms.any fun m => g.isIncluded m.info.id))

def parent (g : Graph) (depth : Nat) : Option Expr → List Piece
  | none => []
  | some e => str " extends " :: expr g depth Level.call false e

def members (g : Graph) (depth : Nat) : List ClassMember → List Piece
  | [] => []
  | m :: ms =>
    (if g.isIncluded m.info.id then line depth (member g depth m) else []) ++ members g depth ms

def member (g : Graph) (depth : Nat) : ClassMember → List Piece
  | .mk _ _ isStatic k v =>
    (if isStatic then [str "static "] else []) ++ [Quote.propertyName k false] ++
      memberValue g depth v

def memberValue (g : Graph) (depth : Nat) : Option Expr → List Piece
  | none => [str ";"]
  | some e =>
    if isMethod e then expr g depth Level.assign false e
    else initialValue (expr g depth Level.assign false e) ++ [str ";"]

/-- A statement without indentation and line break. Declarations that only bind names lay out
nothing. -/
def stmt (g : Graph) (depth : Nat) : Stmt → List Piece
  | .expression _ e => expressionStatement (expr g depth Level.lowest false e)
  | .branch _ t c a =>
    if keepsExpr g t then
      [key "if", space, str "("] ++ expr g depth Level.lowest false t ++ [str ")", space] ++
        (if keeps g c then stmt g depth c else [str "\x7b\x7d"]) ++
        otherwise g depth (isBlock c || !keeps g c) a
    else if keeps g c then stmt g depth c
    else optionalStmt g depth a
  | .ret _ a => key "return" :: (returned g depth a ++ [str ";"])
  | .raise _ a => [key "throw", str " "] ++ expr g depth Level.lowest false a ++ [str ";"]
  | .empty _ => []
  | .block _ ss => braces depth (statements g (depth + 1) ss) (!ss.any (keeps g))
  | .declaration _ kind ds =>
    let parts := declarators g depth ds
    if parts.isEmpty then [] else [key kind.text, str " "] ++ commas parts ++ [str ";"]
  | .function f => function g depth none f
  | .classDef c => classDef g depth none c
  | .importFrom .. => []
  | .exportDeclaration _ d => if keeps g d then stmt g depth d else []
  | .exportList .. => []
  | .exportDefault _ v e =>
    if Module.isNamed e then declared g depth none e
    else if !g.isVarIncluded v then
      if keepsExpr g e then expressionStatement (expr g depth Level.lowest false e) else []
    else if isDeclaration e then declared g depth (some v) e
    else [key "const", str " ", plainName g v] ++
      initialValue (expr g depth Level.assign false e) ++ [str ";"]
  | .exportAll .. => []

def declared (g : Graph) (depth : Nat) (given : Option VarId) : Expr → List Piece
  | .function f => function g depth given f
  | .classDef c => classDef g depth given c
  | _ => []

def returned (g : Graph) (depth : Nat) : Option Expr → List Piece
  | none => []
  | some e => space :: expr g depth Level.lowest false e

def optionalStmt (g : Graph) (depth : Nat) : Option Stmt → List Piece
  | none => []
  | some s => if keeps g s then stmt g depth s else []

def otherwise (g : Graph) (depth : Nat) (afterBrace : Bool) : Option Stmt → List Piece
  | none => []
  | some s =>
    if keeps g s then
      (if afterBrace then [space] else [newline, indent depth]) ++ [key "else", str " "] ++
        stmt g depth s
    else []

def statements (g : Graph) (depth : Nat) : List Stmt → List Piece
  | [] => []
  | s :: ss => (if keeps g s then line depth (stmt g depth s) else []) ++ statements g depth ss

def declarators (g : Graph) (depth : Nat) : List Declarator → List (List Piece)
  | [] => []
  | .mk i own v :: ds =>
    if g.isIncluded i.id then
      (plainName g own.var :: initialOf g depth v) :: declarators g depth ds
    else declarators g depth ds

def initialOf (g : Graph) (depth : Nat) : Option Expr → List Piece
  | none => []
  | some e => initialValue (expr g depth Level.assign false e)

end

end Layout

def Program.layout (g : Graph) (p : Program) : List Piece := Layout.statements g 0 p.body

def Program.print (g : Graph) (style : Style) (p : Program) : Except LayoutFault Bytes :=
  (Piece.write style) <$> Piece.check (p.layout g)

end Winnow
