import Winnow.Syntax.Parser.Expression

/-!
# Parsing statements
-/

namespace Winnow.Parser

def block (g : Grammar) : Parser Stmt := do
  let start := (← current).start
  expectSign .leftBrace
  let outer := (← get).scope
  let scope ← withSymbols fun t => t.addScope .block outer g.module
  let ss ← inScope scope do statements g (← stepsLeft)
  expectSign .rightBrace
  return .block (← nodeFrom start) ss

def declarator (g : Grammar) (kind : DeclarationKind) (scope : ScopeId) : Parser Declarator := do
  let t ← expect .identifier
  let init ← if ← accept .equal then some <$> g.assignment
    else if kind = .constLike then fail .missingInitializer
    else pure none
  let name ← declare g scope t kind.variableKind (init.map fun e => e.info.id)
  return .mk (← nodeFrom t.start) name init

def declarators (g : Grammar) (kind : DeclarationKind) (scope : ScopeId) :
    (steps : Nat) → Parser (List Declarator)
  | 0 => fail .tooDeep
  | n + 1 => do
    let d ← declarator g kind scope
    if ← accept .comma then return d :: (← declarators g kind scope n) else return [d]

/-- A declaration of variables. `var` belongs to the function around it, `let` and `const` to the
block. -/
def declaration (g : Grammar) (kind : DeclarationKind) : Parser Stmt := do
  let start := (← advance).start
  let s ← get
  let scope := if kind = .varLike then s.symbols.hoistScope s.scope else s.scope
  let ds ← declarators g kind scope (← stepsLeft)
  semicolon
  return .declaration (← nodeFrom start) kind ds

def branch (g : Grammar) : Parser Stmt := do
  let start := (← advance).start
  expectSign .leftParen
  let test ← g.assignment
  expectSign .rightParen
  let consequent ← g.statement
  let alternate ← if ← atKind (.keyword .elseKw) then do
      let _ ← advance
      some <$> g.statement
    else pure none
  return .branch (← nodeFrom start) test consequent alternate

def returnStatement (g : Grammar) : Parser Stmt := do
  let start := (← advance).start
  let t ← current
  let argument ← if t.kind ≠ .sign .semicolon ∧ t.kind ≠ .sign .rightBrace ∧
      t.kind ≠ .endOfFile ∧ !t.newlineBefore then some <$> g.assignment else pure none
  semicolon
  let info ← nodeFrom start
  match (← get).returns with
  | [] => failAt start .returnOutsideFunction
  | own :: outer =>
    modify fun s => { s with returns := (info.id :: own) :: outer }
    return .ret info argument

def raise (g : Grammar) : Parser Stmt := do
  let start := (← advance).start
  if (← current).newlineBefore then fail .newlineAfterThrow
  let e ← g.assignment
  semicolon
  return .raise (← nodeFrom start) e

def expressionStatement (g : Grammar) : Parser Stmt := do
  let start := (← current).start
  let e ← assignment g
  semicolon
  return .expression (← nodeFrom start) e

def statement (g : Grammar) : Parser Stmt := do
  let t ← current
  match t.kind with
  | .sign .semicolon =>
    let _ ← advance
    return .empty (← nodeAt t)
  | .sign .leftBrace => block g
  | .keyword .varKw => declaration g .varLike
  | .keyword .letKw => declaration g .letLike
  | .keyword .constKw => declaration g .constLike
  | .keyword .functionKw => .function <$> function g .declaration true
  | .keyword .classKw => .classDef <$> classDef g true true
  | .keyword .ifKw => branch g
  | .keyword .returnKw => returnStatement g
  | .keyword .throwKw => raise g
  | .keyword .importKw => fail (.onlyAtTopLevel .importKw)
  | .keyword .exportKw => fail (.onlyAtTopLevel .exportKw)
  | _ => expressionStatement g

end Winnow.Parser
