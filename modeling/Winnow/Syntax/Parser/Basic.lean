import Winnow.Syntax.Lexer
import Winnow.Syntax.Symbols

/-!
# The parser's state and steps

A parser reads the tokens of one module from left to right, numbers the nodes it makes and enters
every declaration into the symbol table on its way. It stops at the first fault.

The constructs of the language refer to each other in circles. A `Grammar` holds the parsers of the
constructs that do so; the circle is closed in `Winnow.Syntax.Parser.Module` by unfolding the
grammar as often as there are tokens. A parser calls the grammar only after it has consumed a token.
-/

namespace Winnow

inductive SyntaxFault where
  | lexical (message : Bytes)
  | expected (what : Bytes) (found : Token)
  | dynamicImport
  | onlyAtTopLevel (keyword : Keyword)
  | alreadyDeclared (name : Bytes)
  | missingInitializer
  | returnOutsideFunction
  | newlineAfterThrow
  | defaultParameter
  | noBindingName (name : Bytes)
  | noLocalBinding (name : Bytes)
  | invalidTarget
  | tooDeep
  deriving DecidableEq, Repr

def Token.description (t : Token) : Bytes :=
  match t.kind with
  | .identifier => utf8 "identifier " ++ Text.quoted t.value
  | .endOfFile => utf8 "end of file"
  | k => Text.quoted (utf8 k.text)

def SyntaxFault.message : SyntaxFault → Bytes
  | lexical m => m
  | expected what found => utf8 "expected " ++ what ++ utf8 " but found " ++ found.description
  | dynamicImport => utf8 "dynamic import is not supported"
  | onlyAtTopLevel k => utf8 k.text ++ utf8 " may only appear at the top level"
  | alreadyDeclared n => utf8 "Identifier " ++ Text.quoted n ++ utf8 " has already been declared"
  | missingInitializer => utf8 "missing initializer in const declaration"
  | returnOutsideFunction => utf8 "return outside of function"
  | newlineAfterThrow => utf8 "illegal newline after throw"
  | defaultParameter => utf8 "default parameter values are not supported"
  | noBindingName n => Text.quoted n ++ utf8 " cannot be used as a local binding"
  | noLocalBinding n => Text.quoted n ++ utf8 " is not a local binding"
  | invalidTarget => utf8 "invalid assignment target"
  | tooDeep => utf8 "nesting is too deep"

structure SyntaxError where
  fault : SyntaxFault
  position : Nat
  deriving DecidableEq, Repr

/-- What a parser has read and made so far. The token at hand is not consumed yet; the last token
of a source never is. -/
structure ParserState where
  here : Token
  ahead : List Token
  lastEnd : Nat := 0
  scope : ScopeId
  /-- The return statements of each function around, the innermost function first. -/
  returns : List (List NodeId) := []
  imports : List Bytes := []
  symbols : Symbols
  nextNode : NodeId

def ParserState.advance (s : ParserState) : ParserState :=
  match s.ahead with
  | [] => s
  | t :: ts => { s with here := t, ahead := ts, lastEnd := s.here.stop }

abbrev Parser := StateT ParserState (Except SyntaxError)

/-- The parsers of the constructs that contain each other, and what stays the same in a module. -/
structure Grammar where
  source : Bytes
  module : Option ModuleId
  defaultName : Bytes
  assignment : Parser Expr
  unary : Parser Expr
  operand : Parser Expr
  construction : Parser Expr
  statement : Parser Stmt

namespace Parser

/-! ## Tokens -/

def failAt {α : Type} (position : Nat) (fault : SyntaxFault) : Parser α :=
  throw { fault, position }

def current : Parser Token := return (← get).here

def fail {α : Type} (fault : SyntaxFault) : Parser α := do failAt (← current).start fault

def unexpected {α : Type} (what : Bytes) : Parser α := do
  let t ← current
  if t.kind = .error then fail (.lexical t.value) else fail (.expected what t)

def advance : Parser Token := do
  let t ← current
  modify ParserState.advance
  return t

def atKind (kind : TokenKind) : Parser Bool := return (← current).kind = kind

def atSign (sign : Sign) : Parser Bool := atKind (.sign sign)

def nextKind : Parser TokenKind :=
  return ((← get).ahead.head?.map Token.kind).getD .endOfFile

def expect (kind : TokenKind) : Parser Token := do
  if ← atKind kind then advance else unexpected (utf8 kind.text)

def expectSign (sign : Sign) : Parser Unit := do
  let _ ← expect (.sign sign)

def accept (sign : Sign) : Parser Bool := do
  if ← atSign sign then
    let _ ← advance
    return true
  else return false

/-- Whether the token at hand is the given name, for words that are keywords only in place. -/
def atWord (word : String) : Parser Bool := do
  let t ← current
  return t.kind = .identifier ∧ t.value = utf8 word

def acceptWord (word : String) : Parser Bool := do
  if ← atWord word then
    let _ ← advance
    return true
  else return false

def expectWord (word : String) : Parser Unit := do
  if !(← acceptWord word) then unexpected (Text.quoted (utf8 word))

/-- Ends a statement. A semicolon may be left out before a closing brace, at the end of the source
and after a line break. -/
def semicolon : Parser Unit := do
  if !(← accept .semicolon) then
    let t ← current
    if t.kind ≠ .sign .rightBrace ∧ t.kind ≠ .endOfFile ∧ !t.newlineBefore then
      unexpected (utf8 ";")

/-! ## Lists -/

def stepsLeft : Parser Nat := return (← get).ahead.length + 1

/-- Items up to a closing sign, which stays, divided by commas; a comma may follow the last. -/
def itemsUntil {α : Type} (close : Sign) (item : Parser α) : (steps : Nat) → Parser (List α)
  | 0 => fail .tooDeep
  | n + 1 => do
    if ← atSign close then return []
    let x ← item
    if ← accept .comma then return x :: (← itemsUntil close item n) else return [x]

def listUntil {α : Type} (close : Sign) (item : Parser α) : Parser (List α) := do
  let xs ← itemsUntil close item (← stepsLeft)
  expectSign close
  return xs

def iterate {α : Type} (step : α → Parser (Option α)) : (steps : Nat) → α → Parser α
  | 0, _ => fail .tooDeep
  | n + 1, x => do
    match ← step x with
    | some y => iterate step n y
    | none => return x

/-! ## Nodes and scopes -/

def freshNode : Parser NodeId := do
  let s ← get
  set { s with nextNode := s.nextNode + 1 }
  return s.nextNode

def infoFrom (id : NodeId) (start : Nat) : Parser Info :=
  return { id, span := ⟨start, (← get).lastEnd⟩ }

def nodeFrom (start : Nat) : Parser Info := do infoFrom (← freshNode) start

def nodeAt (t : Token) : Parser Info :=
  return { id := ← freshNode, span := ⟨t.start, t.stop⟩ }

def withSymbols {α : Type} (f : Symbols → α × Symbols) : Parser α := do
  let s ← get
  let (a, symbols) := f s.symbols
  set { s with symbols }
  return a

def inScope {α : Type} (scope : ScopeId) (p : Parser α) : Parser α := do
  let outer := (← get).scope
  modify fun s => { s with scope }
  let a ← p
  modify fun s => { s with scope := outer }
  return a

def reference (t : Token) : Parser Ident :=
  return { info := ← nodeAt t, name := t.value, scope := (← get).scope }

/-- A name that declares a variable of the given scope. Names that an import binds, and names of
which one declaration allows no other, are refused. -/
def declare (g : Grammar) (scope : ScopeId) (name : Token) (kind : VariableKind)
    (init : Option NodeId) : Parser Binder := do
  let info ← nodeAt name
  let s ← get
  if s.symbols.kind? scope = some .module ∧ s.imports.contains name.value then
    failAt name.start (.alreadyDeclared name.value)
  let (var, allowed, symbols) :=
    s.symbols.declare scope name.value kind info.id init g.module
  if !allowed then failAt name.start (.alreadyDeclared name.value)
  set { s with symbols }
  return { info, name := name.value, scope := s.scope, var }

end Parser

end Winnow
