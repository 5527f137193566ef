import Winnow.Syntax.Parser.Statement

/-!
# Parsing modules

`Program.parse` is the entry: it lexes the source, unfolds the grammar as often as there are tokens,
and reads items until the end of the source.
-/

namespace Winnow.Parser

/-- A name in an import or export list: any name, keywords included, or a string. -/
def exportName : Parser Token := do
  let t ← current
  if t.kind = .string ∨ t.isName then advance else unexpected (utf8 "name")

def addImport (imported : Bytes) (name : Token) : Parser ImportSpecifier := do
  let s ← get
  if s.imports.contains name.value ∨ s.symbols.contains s.scope name.value then
    failAt name.start (.alreadyDeclared name.value)
  set { s with imports := name.value :: s.imports }
  return { imported, localName := name.value, position := name.start }

def importSpecifier : Parser ImportSpecifier := do
  let t ← exportName
  if ← acceptWord "as" then addImport t.value (← expect .identifier)
  else if t.kind ≠ .identifier then failAt t.start (.noBindingName t.value)
  else addImport t.value t

def importClause : Parser (List ImportSpecifier) := do
  let t ← current
  match t.kind with
  | .sign .star =>
    let _ ← advance
    expectWord "as"
    return [← addImport (utf8 "*") (← expect .identifier)]
  | .sign .leftBrace =>
    let _ ← advance
    listUntil .rightBrace importSpecifier
  | _ => unexpected (utf8 "import specifier")

def fromSource : Parser Bytes := do
  expectWord "from"
  return (← expect .string).value

def importDeclaration : Parser Stmt := do
  let start := (← advance).start
  let t ← current
  if t.kind = .string then
    let _ ← advance
    semicolon
    return .importFrom (← nodeFrom start) t.value []
  else
    let first ← if t.kind = .identifier then do
        let _ ← advance
        (fun s => [s]) <$> addImport (utf8 "default") t
      else pure []
    let more ← if first.isEmpty then importClause
      else do if ← accept .comma then importClause else pure []
    let source ← fromSource
    semicolon
    return .importFrom (← nodeFrom start) source (first ++ more)

def exportSpecifier : Parser (Token × ExportSpecifier) := do
  let t ← exportName
  let exported ← if ← acceptWord "as" then Token.value <$> exportName else pure t.value
  return (t, { localName := t.value, exported, position := t.start })

/-- A list of exported names. Without a source they have to be names of bindings. -/
def exportList (start : Nat) : Parser Stmt := do
  expectSign .leftBrace
  let items ← listUntil .rightBrace exportSpecifier
  let source ← if ← atWord "from" then fromSource
    else match items.find? fun i => i.1.kind ≠ .identifier with
      | some (t, _) => failAt t.start (.noLocalBinding t.value)
      | none => pure []
  semicolon
  return .exportList (← nodeFrom start) source (items.map Prod.snd)

def exportAll (start : Nat) : Parser Stmt := do
  expectSign .star
  let exported ← if ← acceptWord "as" then Token.value <$> exportName else pure []
  let source ← fromSource
  semicolon
  return .exportAll (← nodeFrom start) source exported

/-- The default export. A named function or class is its own binding, anything else gets one named
after the module. -/
def exportDefault (g : Grammar) (start : Nat) : Parser Stmt := do
  let _ ← advance
  let id ← freshNode
  let t ← current
  let (value, own) ← match t.kind with
    | .keyword .functionKw =>
      (fun f => (Expr.function f, f.name?.map Binder.var)) <$> function g .declaration false
    | .keyword .classKw =>
      (fun c => (Expr.classDef c, c.name?.map Binder.var)) <$> classDef g true false
    | _ => do
      let e ← assignment g
      semicolon
      pure (e, none)
  let var ← match own with
    | some v => pure v
    | none => withSymbols fun t => t.addVariable {
        name := g.defaultName
        form := .declared .defaultExport [id] (some value.info.id)
        module := g.module }
  return .exportDefault (← infoFrom id start) var value

def exportDeclaration (g : Grammar) : Parser Stmt := do
  let start := (← advance).start
  let declared (p : Parser Stmt) : Parser Stmt := do
    let d ← p
    return .exportDeclaration (← nodeFrom start) d
  match (← current).kind with
  | .keyword .defaultKw => exportDefault g start
  | .sign .star => exportAll start
  | .sign .leftBrace => exportList start
  | .keyword .varKw => declared (declaration g .varLike)
  | .keyword .letKw => declared (declaration g .letLike)
  | .keyword .constKw => declared (declaration g .constLike)
  | .keyword .functionKw => declared (.function <$> function g .declaration true)
  | .keyword .classKw => declared (.classDef <$> classDef g true true)
  | _ => unexpected (utf8 "declaration or export list")

def item (g : Grammar) : Parser Stmt := do
  match (← current).kind with
  | .keyword .importKw =>
    let next ← nextKind
    if next = .sign .leftParen ∨ next = .sign .dot then fail .dynamicImport
    importDeclaration
  | .keyword .exportKw => exportDeclaration g
  | _ => statement g

def items (g : Grammar) : (steps : Nat) → Parser (List Stmt)
  | 0 => fail .tooDeep
  | n + 1 => do
    if ← atKind .endOfFile then return []
    let s ← item g
    return s :: (← items g n)

end Winnow.Parser

namespace Winnow

def Grammar.unfold (source : Bytes) (module : Option ModuleId) (defaultName : Bytes) :
    (depth : Nat) → Grammar
  | 0 => {
      source, module, defaultName
      assignment := Parser.fail .tooDeep
      unary := Parser.fail .tooDeep
      operand := Parser.fail .tooDeep
      construction := Parser.fail .tooDeep
      statement := Parser.fail .tooDeep }
  | depth + 1 => {
      source, module, defaultName
      assignment := fun s => Parser.assignment (unfold source module defaultName depth) s
      unary := fun s => Parser.unary (unfold source module defaultName depth) s
      operand := fun s => Parser.operand (unfold source module defaultName depth) s
      construction := fun s => Parser.construction (unfold source module defaultName depth) s
      statement := fun s => Parser.statement (unfold source module defaultName depth) s }

structure Parsed where
  program : Program
  symbols : Symbols
  nextNode : NodeId

def Program.parse (source : Bytes) (module : Option ModuleId) (defaultName : Bytes)
    (symbols : Symbols) (nextNode : NodeId) : Except SyntaxError Parsed := do
  let (scope, symbols) := symbols.addScope .module Symbols.globalScope module
  let tokens := Lexer.tokens source
  let state : ParserState := {
    here := tokens.headD { kind := .endOfFile, start := 0, stop := 0 }
    ahead := tokens.tail
    scope, symbols, nextNode := nextNode + 1 }
  let g := Grammar.unfold source module defaultName tokens.length
  let (body, state) ← (Parser.items g (tokens.length + 1)).run state
  return {
    program := { info := ⟨nextNode, 0, source.length⟩, source, scope, body }
    symbols := state.symbols
    nextNode := state.nextNode }

end Winnow
