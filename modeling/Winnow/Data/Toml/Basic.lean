import Winnow.Data.Toml.Write
import Winnow.Text.Quoted

/-!
# Faults, blanks and comments of TOML

Every reader of TOML takes what is left of the text and gives a value with the rest.
-/

namespace Winnow.Toml

/-- Why a text is no TOML. -/
inductive Fault where
  | malformed (problem : String)
  | noLineEnd (byte : UInt8)
  | noKey (byte : UInt8)
  | noEscape (byte : UInt8)
  | noCharacter (byte : UInt8)
  | noNumber (kind : String) (text : Bytes) (reason : Bytes)
  | taken (key : Bytes)
  | opened (key : Bytes)
  | noTable (key : Bytes) (kind : String)
  | opensNoTable (key : Bytes) (kind : String)
  | opensNoList (key : Bytes) (kind : String)
  | closed (key : Bytes)
  deriving DecidableEq, Repr

def codePoint (b : UInt8) : Bytes :=
  utf8 "U+" ++ Bytes.upperHex 4 b.toNat ++
    (if Text.isPrintable b.toNat then utf8 " '" ++ Bytes.ofCode b.toNat ++ utf8 "'" else [])

def Fault.message (fault : Fault) : Bytes :=
  utf8 "toml: " ++ match fault with
    | malformed problem => utf8 problem
    | noLineEnd b => utf8 "expected newline but got " ++ codePoint b
    | noKey b => utf8 "invalid character at start of key: " ++ Bytes.ofCode b.toNat
    | noEscape b => utf8 "invalid escaped character " ++ codePoint b
    | noCharacter b => utf8 "invalid character " ++ codePoint b
    | noNumber kind s reason =>
      utf8 kind ++ utf8 ": parsing " ++ Text.quoted s ++ utf8 ": " ++ reason
    | taken key => utf8 "key " ++ key ++ utf8 " is already defined"
    | opened key => utf8 "table " ++ key ++ utf8 " already exists"
    | noTable key kind => utf8 "expected " ++ key ++ utf8 " to be a table, not a " ++ utf8 kind
    | opensNoTable key kind =>
      utf8 "key " ++ key ++ utf8 " should be a table, not a " ++ utf8 kind
    | opensNoList key kind =>
      utf8 "key " ++ utf8 kind ++ utf8 " already exists as a " ++ key ++
        utf8 ",  but should be an array table"
    | closed key => utf8 "cannot redefine table " ++ key ++
        utf8 " that has already been explicitly defined"

abbrev Reader (α : Type) := Bytes → Except Fault (α × Bytes)

/-- The bytes of a first character that is allowed. -/
def characterWidth? (b : UInt8) (rest : Bytes) : Option Nat :=
  if b < 0x80 then if b = 127 || (b < 32 && b ≠ 9 && b ≠ 10 && b ≠ 13) then none else some 1
  else
    let r := Utf8.first b rest
    if Utf8.isStray r then none else some r.bytes.length

/-- Whether all characters are allowed. -/
def isClean : (skip : Nat) → Bytes → Bool
  | _, [] => true
  | skip + 1, _ :: rest => isClean skip rest
  | 0, b :: rest =>
    match characterWidth? b rest with
    | some width => isClean (width - 1) rest
    | none => false

def skipBlanks (s : Bytes) : Bytes := s.dropWhile fun b => b == 32 || b == 9

def isLineEnd (b : UInt8) : Bool := b == 10 || b == 13

def skipCommentBody : (skip : Nat) → Bytes → Except Fault Bytes
  | _, [] => .ok []
  | skip + 1, _ :: rest => skipCommentBody skip rest
  | 0, b :: rest =>
    if b = 10 then .ok (b :: rest)
    else if b = 13 then
      if rest.head? = some 10 then .ok rest else .error (.malformed "invalid character in comment")
    else match characterWidth? b rest with
      | some width => skipCommentBody (width - 1) rest
      | none => .error (.malformed "invalid character in comment")

def skipComment : Bytes → Except Fault Bytes
  | 35 :: s => skipCommentBody 0 s
  | s => .ok s

/-- What follows the end of a line. -/
def lineEnd : Bytes → Except Fault Bytes
  | [] => .ok []
  | 10 :: s => .ok s
  | 13 :: 10 :: s => .ok s
  | [13] => .error (.malformed "windows new line expected")
  | 13 :: _ => .error (.malformed "windows new line should be \\r\\n")
  | b :: _ => .error (.noLineEnd b)

def skipLines : (steps : Nat) → Bytes → Except Fault Bytes
  | 0, s => .ok s
  | n + 1, s => do
    match ← skipComment (skipBlanks s) with
    | [] => return []
    | b :: t => if isLineEnd b then skipLines n (← lineEnd (b :: t)) else return b :: t

/-- What follows blanks, comments and line ends. -/
def skipAll (s : Bytes) : Except Fault Bytes := skipLines (s.length + 1) s

def expect (c : Char) : Bytes → Except Fault Bytes
  | [] => .error (.malformed s!"expected character {c} but the document ended here")
  | b :: s => if b = Bytes.code c then .ok s else .error (.malformed s!"expected character {c}")

end Winnow.Toml
