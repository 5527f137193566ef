import Winnow.Syntax.Parser.Basic

/-!
# Parsing expressions

Functions and classes are among them, so the braced bodies of functions are here as well.
-/

namespace Winnow.Parser

/-! ## Functions -/

def parameter (g : Grammar) (scope : ScopeId) : Parser Binder := do
  let t ← expect .identifier
  if ← atSign .equal then fail .defaultParameter
  declare g scope t .parameter none

def parameters (g : Grammar) (scope : ScopeId) : Parser (List Binder) := do
  expectSign .leftParen
  listUntil .rightParen (parameter g scope)

def statements (g : Grammar) : (steps : Nat) → Parser (List Stmt)
  | 0 => fail .tooDeep
  | n + 1 => do
    let t ← current
    if t.kind = .sign .rightBrace ∨ t.kind = .endOfFile then return []
    let s ← g.statement
    return s :: (← statements g n)

/-- The braced body of a function, with the function's own return statements. It shares the scope of
the parameters. -/
def functionBody (g : Grammar) : Parser (List NodeId × FuncBody) := do
  let start := (← current).start
  expectSign .leftBrace
  modify fun s => { s with returns := [] :: s.returns }
  let ss ← statements g (← stepsLeft)
  let returns := (← get).returns
  modify fun s => { s with returns := returns.tail }
  expectSign .rightBrace
  return ((returns.headD []).reverse, .block (← nodeFrom start) ss)

/-- A function declaration or expression, the name of which may be required. A declaration binds its
name in the scope around it, a named expression inside itself. -/
def function (g : Grammar) (kind : FunctionKind) (needsName : Bool) : Parser Func := do
  let start := (← current).start
  let _ ← expect (.keyword .functionKw)
  let id ← freshNode
  let named ← atKind .identifier
  if needsName ∧ !named then unexpected (utf8 "function name")
  let name ← if named then some <$> advance else pure none
  let outer := (← get).scope
  let declared ← match name, kind with
    | some t, .declaration => some <$> declare g outer t .function (some id)
    | _, _ => pure none
  let scope ← withSymbols fun t => t.addFunctionScope outer false g.module
  inScope scope do
    let name ← match name, declared with
      | some t, none => some <$> declare g scope t .function (some id)
      | _, b => pure b
    let ps ← parameters g scope
    let (returns, body) ← functionBody g
    return .mk (← infoFrom id start) kind name ps scope returns body

def method (g : Grammar) (start : Nat) : Parser Expr := do
  let id ← freshNode
  let outer := (← get).scope
  let scope ← withSymbols fun t => t.addFunctionScope outer false g.module
  inScope scope do
    let ps ← parameters g scope
    let (returns, body) ← functionBody g
    return .function (.mk (← infoFrom id start) .method none ps scope returns body)

def closesBeforeArrow : (depth : Nat) → List Token → Bool
  | _, [] => false
  | depth, t :: ts =>
    match t.kind with
    | .sign .leftParen => closesBeforeArrow (depth + 1) ts
    | .sign .rightParen =>
      if depth ≤ 1 then (ts.head?.map Token.kind) == some (.sign .arrow)
      else closesBeforeArrow (depth - 1) ts
    | .endOfFile | .error => false
    | _ => closesBeforeArrow depth ts

def atArrow : Parser Bool := do
  let s ← get
  match s.here.kind with
  | .identifier =>
    return match s.ahead with
      | t :: _ => t.kind == .sign .arrow && !t.newlineBefore
      | [] => false
  | .sign .leftParen => return closesBeforeArrow 1 s.ahead
  | _ => return false

def arrow (g : Grammar) : Parser Expr := do
  let start := (← current).start
  let id ← freshNode
  let outer := (← get).scope
  let scope ← withSymbols fun t => t.addFunctionScope outer true g.module
  inScope scope do
    let ps ← if ← atKind .identifier then (fun p => [p]) <$> parameter g scope
      else parameters g scope
    expectSign .arrow
    let (returns, body) ← if ← atSign .leftBrace then functionBody g
      else (fun e => ([], .result e)) <$> g.assignment
    return .function (.mk (← infoFrom id start) .arrow none ps scope returns body)

/-! ## Keys -/

/-- The key of a property or class member, and whether it is a string. Numbers are normalised as
they are when they are converted to strings. -/
def propertyKey : Parser (Bytes × Bool) := do
  let t ← current
  if t.kind = .string then
    let _ ← advance
    return (t.value, true)
  else if t.kind = .number then
    let _ ← advance
    return (Number.format (Number.parse t.value), false)
  else if t.isName then
    let _ ← advance
    return (t.value, false)
  else unexpected (utf8 "property name")

/-! ## Primary expressions -/

def literal (g : Grammar) (value : Token → Value) : Parser Expr := do
  let t ← advance
  return .literal (← nodeAt t) (value t) (t.text g.source)

def property (g : Grammar) : Parser Property := do
  let t ← current
  let (key, isString) ← propertyKey
  let form := if isString then KeyForm.quoted else .plain
  if ← accept .colon then
    let value ← g.assignment
    return .mk (← nodeFrom t.start) key form value
  else if ← atSign .leftParen then
    let value ← method g t.start
    return .mk (← nodeFrom t.start) key form value
  else if t.kind = .identifier then
    let value ← reference t
    return .mk (← nodeFrom t.start) key .shorthand (.ident value)
  else unexpected (utf8 ":")

def object (g : Grammar) : Parser Expr := do
  let start := (← advance).start
  let ps ← listUntil .rightBrace (property g)
  return .object (← nodeFrom start) ps

/-! ## Calls and members -/

def arguments (g : Grammar) : Parser (List Expr) := do
  expectSign .leftParen
  listUntil .rightParen g.assignment

def memberAccess (g : Grammar) (start : Nat) (object : Expr) : Parser Expr := do
  let mark ← advance
  if mark.kind = .sign .dot then
    let t ← current
    if !t.isName then unexpected (utf8 "property name")
    let _ ← advance
    return .member (← nodeFrom start) object t.value
  else
    let key ← g.assignment
    expectSign .rightBracket
    return .index (← nodeFrom start) object key

def atAccess : Parser Bool := do
  let t ← current
  return t.kind = .sign .dot ∨ t.kind = .sign .leftBracket

def suffix (g : Grammar) (start : Nat) (e : Expr) : Parser (Option Expr) := do
  if ← atAccess then some <$> memberAccess g start e
  else if ← atSign .leftParen then
    let as ← arguments g
    return some (.call (← nodeFrom start) false e as)
  else return none

def accessSuffix (g : Grammar) (start : Nat) (e : Expr) : Parser (Option Expr) := do
  if ← atAccess then some <$> memberAccess g start e else return none

def classMember (g : Grammar) (body inner : ScopeId) : Parser ClassMember := do
  let start := (← current).start
  let next ← nextKind
  let isStatic ← if next = .sign .leftParen ∨ next = .sign .equal ∨ next = .sign .semicolon ∨
      next = .sign .rightBrace then pure false else acceptWord "static"
  let (key, _) ← propertyKey
  inScope (if isStatic then body else inner) do
    if ← atSign .leftParen then
      let kind := if !isStatic ∧ key = utf8 "constructor" then MemberKind.construction else .method
      let value ← method g start
      return .mk (← nodeFrom start) kind isStatic key (some value)
    else
      let value ← if ← accept .equal then some <$> g.assignment else pure none
      semicolon
      return .mk (← nodeFrom start) .property isStatic key value

def classMembers (g : Grammar) (body inner : ScopeId) : (steps : Nat) → Parser (List ClassMember)
  | 0 => fail .tooDeep
  | n + 1 => do
    let t ← current
    if t.kind = .sign .rightBrace ∨ t.kind = .endOfFile then return []
    if ← accept .semicolon then classMembers g body inner n
    else
      let m ← classMember g body inner
      return m :: (← classMembers g body inner n)

/-- A class, the name of which may be required. A declaration binds its name in the scope around
it, a named expression in the class body. -/
def classDef (g : Grammar) (isDeclaration needsName : Bool) : Parser ClassDef := do
  let start := (← current).start
  let _ ← expect (.keyword .classKw)
  let id ← freshNode
  let outer := (← get).scope
  let named ← atKind .identifier
  if needsName ∧ !named then unexpected (utf8 "class name")
  let name ← if named then some <$> advance else pure none
  let declared ← match name, isDeclaration with
    | some t, true => some <$> declare g outer t .classLike (some id)
    | _, _ => pure none
  let base ← if ← atKind (.keyword .extendsKw) then do
      let _ ← advance
      some <$> g.operand
    else pure none
  let body ← withSymbols fun t => t.addClassScope outer id g.module
  let inner := ((← get).symbols.scope? body).bind Scope.instanceScope
  let name ← match name, declared with
    | some t, none => some <$> declare g body t .classLike (some id)
    | _, b => pure b
  expectSign .leftBrace
  let ms ← classMembers g body (inner.getD body) (← stepsLeft)
  expectSign .rightBrace
  return .mk (← infoFrom id start) isDeclaration name base ms body

def primary (g : Grammar) : Parser Expr := do
  let t ← current
  match t.kind with
  | .identifier =>
    let _ ← advance
    return .ident (← reference t)
  | .keyword .thisKw =>
    let _ ← advance
    return .receiver (← nodeAt t) (← get).scope
  | .number => literal g fun t => .number (Number.parse t.value)
  | .string => literal g fun t => .string t.value
  | .keyword .trueKw => literal g fun _ => .bool true
  | .keyword .falseKw => literal g fun _ => .bool false
  | .keyword .nullKw => literal g fun _ => .null
  | .sign .leftParen =>
    let _ ← advance
    let e ← g.assignment
    expectSign .rightParen
    return e
  | .sign .leftBrace => object g
  | .keyword .functionKw => .function <$> function g .expression false
  | .keyword .classKw => .classDef <$> classDef g false false
  | _ => unexpected (utf8 "expression")

def construction (g : Grammar) : Parser Expr := do
  let start := (← advance).start
  let callee ← if ← atKind (.keyword .newKw) then g.construction else primary g
  let callee ← iterate (accessSuffix g callee.info.span.start) (← stepsLeft) callee
  let as ← if ← atSign .leftParen then arguments g else pure []
  return .call (← nodeFrom start) true callee as

def operand (g : Grammar) : Parser Expr := do
  let start := (← current).start
  let e ← if ← atKind (.keyword .newKw) then construction g else primary g
  iterate (suffix g start) (← stepsLeft) e

/-! ## Operators -/

def unaryOp? : TokenKind → Option UnaryOp
  | .sign .bang => some .not
  | .sign .minus => some .minus
  | .sign .plus => some .plus
  | .keyword .typeofKw => some .typeof
  | .keyword .voidKw => some .void
  | _ => none

def unary (g : Grammar) : Parser Expr := do
  let t ← current
  match unaryOp? t.kind with
  | some op =>
    let _ ← advance
    let e ← g.unary
    return .unary (← nodeFrom t.start) op e
  | none => operand g

inductive Infix where
  | logical (op : LogicalOp)
  | plain (op : BinaryOp)

def precedence : List (List (Sign × Infix)) :=
  [[(.nullish, .logical .nullish)],
   [(.orOr, .logical .or)],
   [(.andAnd, .logical .and)],
   [(.eqEqEq, .plain .strictEq), (.notEqEq, .plain .strictNe), (.eqEq, .plain .looseEq),
    (.notEq, .plain .looseNe)],
   [(.less, .plain .lt), (.greater, .plain .gt), (.lessEq, .plain .le), (.greaterEq, .plain .ge)],
   [(.plus, .plain .add), (.minus, .plain .sub)],
   [(.star, .plain .mul), (.slash, .plain .div), (.percent, .plain .rem)]]

def infixAt? (level : List (Sign × Infix)) : TokenKind → Option Infix
  | .sign s => level.lookup s
  | _ => none

def infixSuffix (level : List (Sign × Infix)) (next : Parser Expr) (start : Nat) (left : Expr) :
    Parser (Option Expr) := do
  match infixAt? level (← current).kind with
  | none => return none
  | some op =>
    let _ ← advance
    let right ← next
    let info ← nodeFrom start
    match op with
    | .logical op => return some (.logical info op left right)
    | .plain op => return some (.binary info op left right)

def infixes (g : Grammar) : (levels : List (List (Sign × Infix))) → Parser Expr
  | [] => unary g
  | level :: tighter => do
    let start := (← current).start
    let left ← infixes g tighter
    iterate (infixSuffix level (infixes g tighter) start) (← stepsLeft) left

def conditional (g : Grammar) : Parser Expr := do
  let start := (← current).start
  let test ← infixes g precedence
  if ← accept .question then
    let consequent ← g.assignment
    expectSign .colon
    let alternate ← g.assignment
    return .conditional (← nodeFrom start) test consequent alternate
  else return test

def assignOp? : TokenKind → Option AssignOp
  | .sign .equal => some .set
  | .sign .plusEq => some .add
  | .sign .minusEq => some .sub
  | _ => none

def isTarget : Expr → Bool
  | .ident _ | .member .. | .index .. => true
  | _ => false

def assignment (g : Grammar) : Parser Expr := do
  if ← atArrow then arrow g
  else
    let start := (← current).start
    let left ← conditional g
    match assignOp? (← current).kind with
    | none => return left
    | some op =>
      if !isTarget left then fail .invalidTarget
      let _ ← advance
      let right ← g.assignment
      return .assign (← nodeFrom start) op left right

end Winnow.Parser
