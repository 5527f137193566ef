import Winnow.Text.Bytes

/-!
# Tokens

A token has a kind, the range of bytes it was read from, a value (the name, the decoded string, the
numeral, or the message of an error) and whether a line break stands before it.
-/

namespace Winnow

/-- The keywords of the subset. Words such as `from` and `as` are ordinary names. -/
inductive Keyword where
  | classKw | constKw | defaultKw | elseKw | exportKw | extendsKw | falseKw | functionKw | ifKw
  | importKw | letKw | newKw | nullKw | returnKw | thisKw | throwKw | trueKw | typeofKw | varKw
  | voidKw
  deriving DecidableEq, Repr

namespace Keyword

def all : List Keyword :=
  [.classKw, .constKw, .defaultKw, .elseKw, .exportKw, .extendsKw, .falseKw, .functionKw,
   .ifKw, .importKw, .letKw, .newKw, .nullKw, .returnKw, .thisKw, .throwKw, .trueKw,
   .typeofKw, .varKw, .voidKw]

def text : Keyword → String
  | .classKw => "class"
  | .constKw => "const"
  | .defaultKw => "default"
  | .elseKw => "else"
  | .exportKw => "export"
  | .extendsKw => "extends"
  | .falseKw => "false"
  | .functionKw => "function"
  | .ifKw => "if"
  | .importKw => "import"
  | .letKw => "let"
  | .newKw => "new"
  | .nullKw => "null"
  | .returnKw => "return"
  | .thisKw => "this"
  | .throwKw => "throw"
  | .trueKw => "true"
  | .typeofKw => "typeof"
  | .varKw => "var"
  | .voidKw => "void"

def ofText? (s : Bytes) : Option Keyword := all.find? fun k => utf8 k.text = s

end Keyword

inductive Sign where
  | plus | minus | star | slash | percent | bang | less | greater | equal | dot | question
  | andAnd | orOr | nullish | lessEq | greaterEq | eqEq | notEq | eqEqEq | notEqEq | arrow
  | plusEq | minusEq
  | leftParen | rightParen | leftBrace | rightBrace | leftBracket | rightBracket
  | semicolon | colon | comma
  deriving DecidableEq, Repr

def Sign.text : Sign → String
  | plus => "+" | minus => "-" | star => "*" | slash => "/" | percent => "%" | bang => "!"
  | less => "<" | greater => ">" | equal => "=" | dot => "." | question => "?"
  | andAnd => "&&" | orOr => "||" | nullish => "??" | lessEq => "<=" | greaterEq => ">="
  | eqEq => "==" | notEq => "!=" | eqEqEq => "===" | notEqEq => "!==" | arrow => "=>"
  | plusEq => "+=" | minusEq => "-="
  | leftParen => "(" | rightParen => ")" | leftBrace => "\x7b" | rightBrace => "\x7d"
  | leftBracket => "[" | rightBracket => "]" | semicolon => ";" | colon => ":" | comma => ","

inductive TokenKind where
  | error
  | endOfFile
  | number
  | string
  | identifier
  | keyword (k : Keyword)
  | sign (s : Sign)
  deriving DecidableEq, Repr

def TokenKind.text : TokenKind → String
  | error => "error"
  | endOfFile => "end of file"
  | number => "number"
  | string => "string"
  | identifier => "identifier"
  | keyword k => k.text
  | sign s => s.text

structure Token where
  kind : TokenKind
  start : Nat
  stop : Nat
  value : Bytes := []
  newlineBefore : Bool := false
  deriving DecidableEq, Repr

def Token.text (t : Token) (source : Bytes) : Bytes := source.slice t.start t.stop

def Token.isName (t : Token) : Bool :=
  t.kind == .identifier || (Keyword.ofText? t.value).isSome

end Winnow
