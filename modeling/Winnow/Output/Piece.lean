import Winnow.Syntax.Tree

/-!
# Pieces of output

The layout does not depend on the style: only writing knows which blanks are kept. Whether a word
needs a blank in front of it depends on nothing but the last byte written, so writing is a single
pass over the pieces. A piece that names a variable says which one (`Piece.named`).
-/

namespace Winnow

inductive Style where
  | pretty
  | compact
  deriving DecidableEq, Repr

inductive Piece where
  | text (content : Bytes)
  | word (content : Bytes)
  /-- The name of a variable, where a blank or a mark stands in front of it. -/
  | name (var : VarId) (content : Bytes)
  | nameWord (var : VarId) (content : Bytes)
  | sign (content : UInt8)
  | space
  | newline
  | indent (depth : Nat)
  | unprintable
  deriving DecidableEq, Repr

namespace Piece

def str (s : String) : Piece := text (utf8 s)

def key (s : String) : Piece := word (utf8 s)

def isWordByte (b : UInt8) : Bool :=
  (97 ≤ b && b ≤ 122) || (65 ≤ b && b ≤ 90) || (48 ≤ b && b ≤ 57) || b == 95 || b == 36 || 0x80 ≤ b

def apart (last : Option UInt8) (content : Bytes) : Bytes :=
  if last.any isWordByte then 32 :: content else content

def bytes (style : Style) (last : Option UInt8) : Piece → Bytes
  | text s | name _ s => s
  | word s | nameWord _ s => apart last s
  | sign b => if last = some b then [32, b] else [b]
  | space => if style = .pretty then [32] else []
  | newline => if style = .pretty then [10] else []
  | indent depth => if style = .pretty then List.replicate depth 9 else []
  | unprintable => []

def lastByte (last : Option UInt8) (written : Bytes) : Option UInt8 :=
  written.getLast?.or last

def writeAfter (style : Style) : (last : Option UInt8) → List Piece → Bytes
  | _, [] => []
  | last, p :: ps =>
    let written := p.bytes style last
    written ++ writeAfter style (lastByte last written) ps

def write (style : Style) (pieces : List Piece) : Bytes := writeAfter style none pieces

def var? : Piece → Option VarId
  | name v _ | nameWord v _ => some v
  | _ => none

def named (pieces : List Piece) : List VarId := (pieces.filterMap var?).eraseDups

def commas : List (List Piece) → List Piece
  | [] => []
  | [item] => item
  | item :: items => item ++ [str ",", space] ++ commas items

def wrap (parens : Bool) (pieces : List Piece) : List Piece :=
  if parens then str "(" :: (pieces ++ [str ")"]) else pieces

end Piece

inductive LayoutFault where
  | noBranch
  deriving DecidableEq, Repr

def LayoutFault.message : LayoutFault → Bytes
  | noBranch =>
    utf8 "printer: included conditional expression has neither a test nor a single branch"

def Piece.check (pieces : List Piece) : Except LayoutFault (List Piece) :=
  if pieces.contains .unprintable then .error .noBranch else .ok pieces

end Winnow
