import Winnow.Data.Yaml.Token
import Winnow.Data.Yaml.Token.Gap

/-!
# Plain scalars

A scalar without quotes goes on over blanks and lines until a mark of structure, a comment, a line
that is indented too little, or the bounds of the document.
-/

namespace Winnow.Yaml.Plain

/-- Whether a word stops at a character. -/
def isStop (inFlow : Bool) (code following : Nat) : Bool :=
  isWordEnd code || (code = 58 && isWordEnd following) || (inFlow && isOneOf ",?[]\x7b\x7d" code)

def word (inFlow : Bool) : (steps : Nat) → Gap → (read : List Nat) → Scan (Gap × List Nat)
  | 0, gap, read => return (gap, read)
  | n + 1, gap, read => do
    if isStop inFlow (← Scan.current) (← Scan.ahead 1) then return (gap, read)
    else
      let code ← Scan.take
      Scan.need 2
      word inFlow n {} (code :: (gap.codes ++ read))

/-- Takes words over blanks and lines. -/
def words (inFlow : Bool) (start : Mark) (column : Nat) :
    (steps : Nat) → Gap → (read : List Nat) → Scan (List Nat × Bool)
  | 0, gap, read => return (read, gap.isBroken)
  | n + 1, gap, read => do
    Scan.need 4
    if (← get).atMarker || (← Scan.current) = 35 then return (read, gap.isBroken)
    let (gap, read) ← word inFlow (← Scan.bound) gap read
    let code ← Scan.current
    if !(isBlank code || isBreak code) then return (read, gap.isBroken)
    Scan.need 1
    let gap ← gap.scan start column (← Scan.bound)
    if !inFlow && (← Scan.mark).column < column then return (read, gap.isBroken)
    words inFlow start column n gap read

def scan (inFlow : Bool) (indent : Int) : Scan (Token × Bool) := do
  let start ← Scan.mark
  let (read, isBroken) ← words inFlow start (indent + 1).toNat (← Scan.bound) {} []
  return (⟨.scalar (textOf read) true, start⟩, isBroken)

end Winnow.Yaml.Plain
